/-
# `Ops.Batch` — one job after another on one disk

A worker runs the jobs it takes one after another, and each finds the disk as the
one before left it.  Published files are named after the job id, so what one job
publishes no later job of the batch touches: a batch only adds its outputs to the
disk, each once, and they hold in the end what HandBrake wrote into them.

**What else a batch leaves.**  A job that fails between the claim and the encode
leaves its staging file, and a temporary file that cannot be removed stays.  Both
are known by their names (`Leftover`); every other entry is as it was.
-/
import HandBrakeEncoder.Ops.Untouched
import HandBrakeEncoder.Paths.Names

namespace HandBrakeEncoder.Ops

open Posix Jobs Paths

/-- One call of `run_encode_job`, with all it will meet. -/
structure Task where
  env : Env
  jobId : PyStr
  req : EncodeRequest

def Task.run (host : Host) (t : Task) (w : World) : JobRun :=
  runEncodeJob host t.env t.jobId t.req w

/-- The calls one after another. -/
def runTasks (host : Host) (w : World) : List Task → World
  | [] => w
  | t :: ts => runTasks host (t.run host w).world ts

/-- What HandBrake leaves in the staging file, if the job comes to start it. -/
def Task.wrote (host : Host) (t : Task) (w : World) (p : Plan) : Option Data :=
  match claimStaging t.env w p.staging with
  | .error _ => none
  | .ok w' =>
      match makeTemp host t.env (t.env.act .claimed w') with
      | .error _ => none
      | .ok (_, name) => some ((t.env.encode (encodeCommand host t.req p name)).data.getD [])

/-- The inode an entry names, with what it is. -/
def found (fs : Fs) (e : Entry) : Option (Ino × Node) := (fs.look e).map fun i => (i, fs.node i)

/-- What the job publishes: the entry at its output path, and the file it puts there. -/
def Task.publishes (host : Host) (t : Task) (w : World) : Option (Entry × Ino × Node) :=
  match (t.run host w).result, prepare host t.env w.fs t.jobId t.req with
  | .returned, .ok p =>
      match w.fs.locate p.dst, t.wrote host w p with
      | .ok e, some data => some (e, t.env.stagingIno, .file data)
      | _, _ => none
  | _, _ => none

/-- What the batch publishes, in order. -/
def published (host : Host) (w : World) : List Task → List (Entry × Ino × Node)
  | [] => []
  | t :: ts => (t.publishes host w).toList ++ published host (t.run host w).world ts

/-- The name of a staging or a temporary file. -/
def Leftover (e : Entry) : Prop := outputPrefix <+: e.2 ∨ ∃ name, e.2 = tempName name

variable {host : Host} {t : Task} {ts : List Task} {w : World} {e : Entry} {x : Ino × Node}

theorem found_some {fs : Fs} : found fs e = some x ↔ fs.look e = some x.1 ∧ fs.node x.1 = x.2 := by
  rw [found, Option.map_eq_some_iff]
  constructor
  · rintro ⟨i, hi, rfl⟩
    exact ⟨hi, rfl⟩
  · rintro ⟨hi, hnode⟩
    exact ⟨x.1, hi, Prod.ext rfl hnode⟩

/-! ## One job -/

/-- What a job does to the disk, seen at one entry. -/
structure Effect (host : Host) (t : Task) (w : World) : Prop where
  kept : ∀ e x, found w.fs e = some x → (∀ y, t.publishes host w ≠ some (e, y)) →
    found (t.run host w).world.fs e = some x
  shown : ∀ e x, t.publishes host w = some (e, x) → found (t.run host w).world.fs e = some x
  added : ∀ e, w.fs.look e = none → (∀ y, t.publishes host w ≠ some (e, y)) →
    (t.run host w).world.fs.look e ≠ none → Leftover e

/-- What is found stays while files of one's own are added. -/
theorem found_adds {Own : Ino → Prop} {new : List (Entry × Ino)} {fs₀ fs : Fs}
    (h : Fs.Adds Own new fs₀ fs) (hu : Fs.Unnamed Own fs₀) (hx : found fs₀ e = some x) :
    found fs e = some x := by
  obtain ⟨hlook, hnode⟩ := found_some.mp hx
  have hnot : ¬ Own x.1 := fun ho =>
    Bool.eq_false_iff.mp (hu x.1 ho) (Fs.linked_of_look hlook)
  rcases (h.sub hu).entry hlook with ⟨hkept, -⟩ | hlost
  · exact found_some.mpr ⟨hkept, (h.node x.1 hnot).trans hnode⟩
  · exact absurd hlost id

/-- An entry that has appeared is one of those added. -/
theorem added_of_adds {Own : Ino → Prop} {new : List (Entry × Ino)} {fs₀ fs : Fs}
    (h : Fs.Adds Own new fs₀ fs) (hfree : fs₀.look e = none) (hnow : fs.look e ≠ none) :
    ∃ i, (e, i) ∈ new := by
  cases hl : new.lookup e with
  | none => exact absurd ((h.look_old hl).trans hfree) hnow
  | some i =>
      obtain ⟨l₁, l₂, hsplit, -⟩ := List.lookup_eq_some_iff.mp hl
      exact ⟨i, by simp [hsplit]⟩

theorem Task.publishes_of_raised {err : PyExc} (h : (t.run host w).result = .raised err) :
    t.publishes host w = none := by
  simp only [Task.publishes, h]

/-- A job that publishes nothing and only adds files under names known to be its own. -/
theorem Effect.of_adds {Own : Ino → Prop} {new : List (Entry × Ino)} {err : PyExc}
    (hr : (t.run host w).result = .raised err)
    (h : Fs.Adds Own new w.fs (t.run host w).world.fs) (hu : Fs.Unnamed Own w.fs)
    (hnew : ∀ q ∈ new, Leftover q.1) : Effect host t w where
  kept e x hx _ := found_adds h hu hx
  shown e x hx := by
    rw [Task.publishes_of_raised hr] at hx
    cases hx
  added e hfree _ hnow := by
    obtain ⟨i, hi⟩ := added_of_adds h hfree hnow
    exact hnew _ hi

theorem child_str_inj {dir : AbsPath} {n m : Name} {hn : IsName n} {hm : IsName m}
    (h : (dir.child n hn).str = (dir.child m hm).str) : n = m := by
  have hnames := congrArg components h
  rw [AbsPath.components_str, AbsPath.components_str] at hnames
  exact (List.cons.inj (List.append_inj' hnames rfl).2).1

/-- The derived names are those the tokens of the job give. -/
theorem Layout.names {p : Plan} (L : Layout p)
    (h : prepare host t.env w.fs t.jobId t.req = .ok p) :
    ∃ jobId extension : SafeToken, jobId.1 = t.jobId ∧ L.dstName = outputName jobId extension
      ∧ outputPrefix <+: L.stagingName := by
  obtain ⟨-, extension, hdst, hstaging⟩ := prepare_derives h
  obtain ⟨hdname, hdeq⟩ := deriveOutputPath_ok hdst
  obtain ⟨hsname, hseq⟩ := deriveStagingPath_ok hstaging
  rw [L.src, AbsPath.dirname_child, AbsPath.join_child _ hdname, L.dst] at hdeq
  rw [L.src, AbsPath.dirname_child, AbsPath.join_child _ hsname, L.staging] at hseq
  have hsafe : ∀ lt ∈ [("job id", t.jobId), ("extension", extension)], safeToken lt.2 = true := by
    refine checkTokens_ok (R := host.repr) ?_
    rw [deriveOutputPath] at hdst
    split at hdst
    · cases hdst
    · assumption
  refine ⟨⟨t.jobId, hsafe ("job id", t.jobId) (by simp)⟩,
    ⟨extension, hsafe ("extension", extension) (by simp)⟩, rfl, child_str_inj hdeq, ?_⟩
  rw [child_str_inj hseq, stagingName_eq]
  exact List.prefix_append _ _

/-- What a job publishes, when it returns. -/
theorem Task.publishes_eq {p : Plan} {L : Layout p} {D : Ino} {name : RandomName}
    (hq : t.env.Quiet) (hC : ClaimMade host t.env t.jobId t.req w L D)
    (hmade : ∃ w', makeTemp host t.env (claimWorld t.env w (D, L.stagingName)) = .ok (w', name))
    (hr : (t.run host w).result = .returned) :
    t.publishes host w = some ((D, L.dstName), t.env.stagingIno,
      .file ((t.env.encode (encodeCommand host t.req p name)).data.getD [])) := by
  obtain ⟨w', hm⟩ := hmade
  have hwrote : t.wrote host w p
      = some ((t.env.encode (encodeCommand host t.req p name)).data.getD []) := by
    simp only [Task.wrote, hC.claim, hq.act, hm]
  simp only [Task.publishes, hr, hC.plan, hC.claimed.dst, hwrote]

theorem Effect.of_published {p : Plan} {L : Layout p} {D : Ino} {eT : Entry} {name : RandomName}
    {rest : List (Entry × Ino)} (hq : t.env.Quiet)
    (hC : ClaimMade host t.env t.jobId t.req w L D)
    (T : TempMade host t.env w (D, L.stagingName) name eT)
    (hmade : ∃ w', makeTemp host t.env (claimWorld t.env w (D, L.stagingName)) = .ok (w', name))
    (hr : (t.run host w).result = .returned) (hrest : rest = [] ∨ rest = [(eT, t.env.tempIno)])
    (h : Fs.Adds (own t.env) (rest ++ [((D, L.dstName), t.env.stagingIno)])
      (w.fs.hide (D, L.dstName)) (t.run host w).world.fs)
    (hcontent : (t.run host w).world.fs.node t.env.stagingIno
      = .file ((t.env.encode (encodeCommand host t.req p name)).data.getD [])) :
    Effect host t w := by
  have hpub := Task.publishes_eq hq hC hmade hr
  have hu := (unnamed hC.claimed T).hide (D, L.dstName)
  have hother : ∀ e, (∀ y, t.publishes host w ≠ some (e, y)) → e ≠ (D, L.dstName) := by
    rintro e hnot rfl
    exact hnot _ hpub
  refine ⟨fun e x hx hnot => ?_, fun e x hx => ?_, fun e hfree hnot hnow => ?_⟩
  · refine found_adds h hu (found_some.mpr ?_)
    rw [Fs.look_hide, if_neg (hother e hnot)]
    exact found_some.mp hx
  · rw [hpub] at hx
    cases hx
    refine found_some.mpr ⟨h.look_new ?_, hcontent⟩
    rcases hrest with rfl | rfl
    · exact List.lookup_cons_self
    · exact (Fs.lookup_cons_ne T.dst_ne).trans List.lookup_cons_self
  · have hfree' : (w.fs.hide (D, L.dstName)).look e = none := by
      rw [Fs.look_hide, if_neg (hother e hnot)]
      exact hfree
    obtain ⟨i, hi⟩ := added_of_adds h hfree' hnow
    rcases List.mem_append.mp hi with htemp | hdst
    · rcases hrest with rfl | rfl
      · exact absurd htemp List.not_mem_nil
      · cases List.mem_singleton.mp htemp
        exact .inr ⟨name, T.named⟩
    · cases List.mem_singleton.mp hdst
      exact absurd rfl (hother _ hnot)

theorem runEncodeJob_effect (host : Host) (t : Task) (w : World) (hq : t.env.Quiet) :
    Effect host t w := by
  cases runEncodeJob_ends host t.jobId t.req w hq with
  | refused err hw hr hnone =>
      have hsame : (t.run host w).world = w := hw
      have hpub : t.publishes host w = none := Task.publishes_of_raised hr
      refine ⟨fun e x hx _ => hsame.symm ▸ hx, fun e x hx => ?_, fun e hfree _ hnow => ?_⟩
      · rw [hpub] at hx
        cases hx
      · rw [hsame] at hnow
        exact absurd hfree hnow
  | @noTemp p L D err hC hr hmake hw =>
      have hsame : (t.run host w).world = claimWorld t.env w (D, L.stagingName) := hw
      obtain ⟨-, -, -, -, hprefix⟩ := L.names hC.plan
      refine .of_adds hr (hsame.symm ▸ hC.claimed.adds) hC.claimed.unnamed fun q hqmem => ?_
      rw [List.mem_singleton.mp hqmem]
      exact .inl hprefix
  | @notWritten p L D eT name err hC T hmade hfail hr hadds hfds =>
      obtain ⟨-, -, -, -, hprefix⟩ := L.names hC.plan
      refine .of_adds hr hadds (unnamed hC.claimed T) fun q hqmem => ?_
      rw [List.mem_singleton.mp hqmem]
      exact .inl hprefix
  | @notPublished p L D eT name err hC T hmade hdump hclose hfail hr hadds hfds =>
      exact .of_adds hr hadds (unnamed hC.claimed T) fun q hqmem => absurd hqmem List.not_mem_nil
  | @published p L D eT name rest hC T hmade hdump hclose hsucceeds hr hrest hadds hfds hcontent =>
      exact .of_published hq hC T hmade hr hrest hadds hcontent

/-- A job that returns has published. -/
theorem Task.publishes_of_returned (hq : t.env.Quiet) (hr : (t.run host w).result = .returned) :
    ∃ e x, t.publishes host w = some (e, x) := by
  cases runEncodeJob_ends host t.jobId t.req w hq with
  | refused err hw herr hnone => cases hr.symm.trans herr
  | noTemp err hC herr hmake hw => cases hr.symm.trans herr
  | notWritten err hC T hmade hfail herr hadds hfds => cases hr.symm.trans herr
  | notPublished err hC T hmade hdump hclose hfail herr hadds hfds => cases hr.symm.trans herr
  | published rest hC T hmade hdump hclose hsucceeds hret hrest hadds hfds hcontent =>
      exact ⟨_, _, Task.publishes_eq hq hC hmade hr⟩

/-- What a job publishes bears its id. -/
theorem Task.publishes_named (h : t.publishes host w = some (e, x)) :
    ∃ jobId extension : SafeToken, jobId.1 = t.jobId ∧ e.2 = outputName jobId extension := by
  rw [Task.publishes] at h
  split at h
  · rename_i p hr hp
    split at h
    · rename_i e' data he hdata
      cases h
      obtain ⟨-, ⟨L⟩⟩ := prepare_ok hp
      obtain ⟨jobId, extension, hid, hname, -⟩ := L.names hp
      rw [L.dst] at he
      obtain ⟨out, -, -, rfl⟩ := Fs.locate_child_ok L.dstIsName he
      exact ⟨jobId, extension, hid, hname⟩
    · cases h
  · cases h

/-! ## The batch -/

/-- What a batch publishes bears the id of one of its jobs. -/
theorem published_named (h : (e, x) ∈ published host w ts) :
    ∃ t ∈ ts, ∃ jobId extension : SafeToken, jobId.1 = t.jobId ∧ e.2 = outputName jobId extension := by
  induction ts generalizing w with
  | nil => cases h
  | cons t ts ih =>
      rcases List.mem_append.mp h with hnow | hlater
      · obtain ⟨jobId, extension, hnamed⟩ := Task.publishes_named (Option.mem_toList.mp hnow)
        exact ⟨t, List.mem_cons_self, jobId, extension, hnamed⟩
      · obtain ⟨u, hu, hnamed⟩ := ih hlater
        exact ⟨u, List.mem_cons_of_mem _ hu, hnamed⟩

/-- No later job publishes over the output of this one. -/
theorem published_fresh {w' : World} (h : t.publishes host w = some (e, x))
    (hids : ∀ u ∈ ts, u.jobId ≠ t.jobId) : e ∉ (published host w' ts).map Prod.fst := by
  intro hmem
  obtain ⟨⟨e', y⟩, hlater, rfl⟩ := List.mem_map.mp hmem
  obtain ⟨jobId, extension, hid, hname⟩ := Task.publishes_named h
  obtain ⟨u, hu, jobId', extension', hid', hname'⟩ := published_named hlater
  obtain ⟨hsame, -⟩ := (outputName_inj jobId jobId' extension extension').mp (hname.symm.trans hname')
  exact hids u hu (hid'.symm.trans ((congrArg Subtype.val hsame).symm.trans hid))

/-- An entry no job of the batch publishes keeps what it names. -/
theorem runTasks_keeps (hq : ∀ t ∈ ts, t.env.Quiet) (hx : found w.fs e = some x)
    (hnot : e ∉ (published host w ts).map Prod.fst) :
    found (runTasks host w ts).fs e = some x := by
  induction ts generalizing w with
  | nil => exact hx
  | cons t ts ih =>
      have heffect := runEncodeJob_effect host t w (hq t List.mem_cons_self)
      rw [published, List.map_append, List.mem_append, not_or] at hnot
      refine ih (fun u hu => hq u (List.mem_cons_of_mem _ hu)) (heffect.kept e x hx ?_) hnot.2
      intro y hy
      rw [hy] at hnot
      exact hnot.1 List.mem_cons_self

theorem runTasks_shows (hq : ∀ t ∈ ts, t.env.Quiet) (hids : (ts.map Task.jobId).Nodup)
    (h : (e, x) ∈ published host w ts) : found (runTasks host w ts).fs e = some x := by
  induction ts generalizing w with
  | nil => cases h
  | cons t ts ih =>
      have heffect := runEncodeJob_effect host t w (hq t List.mem_cons_self)
      have hlater : ∀ u ∈ ts, u.env.Quiet := fun u hu => hq u (List.mem_cons_of_mem _ hu)
      obtain ⟨hnew, hrest⟩ := List.nodup_cons.mp hids
      rcases List.mem_append.mp h with hnow | hmem
      · have hpub := Option.mem_toList.mp hnow
        have hfresh : e ∉ (published host (t.run host w).world ts).map Prod.fst :=
          published_fresh hpub fun u hu heq => hnew (List.mem_map.mpr ⟨u, hu, heq⟩)
        have hkept := runTasks_keeps hlater (heffect.shown e x hpub) hfresh
        exact hkept
      · exact ih hlater hrest hmem

theorem published_nodup (hids : (ts.map Task.jobId).Nodup) :
    ((published host w ts).map Prod.fst).Nodup := by
  induction ts generalizing w with
  | nil => exact List.nodup_nil
  | cons t ts ih =>
      obtain ⟨hnew, hrest⟩ := List.nodup_cons.mp hids
      have hlater := ih (w := (t.run host w).world) hrest
      cases hpub : t.publishes host w with
      | none =>
          rw [published, hpub]
          exact hlater
      | some out =>
          obtain ⟨e, x⟩ := out
          rw [published, hpub]
          refine List.nodup_cons.mpr ⟨published_fresh hpub fun u hu heq => ?_, hlater⟩
          exact hnew (List.mem_map.mpr ⟨u, hu, heq⟩)

/-- An entry that appears in the course of a batch is published or left over. -/
theorem runTasks_adds (hq : ∀ t ∈ ts, t.env.Quiet) (hfree : w.fs.look e = none)
    (hnot : e ∉ (published host w ts).map Prod.fst)
    (hnow : (runTasks host w ts).fs.look e ≠ none) : Leftover e := by
  induction ts generalizing w with
  | nil => exact absurd hfree hnow
  | cons t ts ih =>
      have heffect := runEncodeJob_effect host t w (hq t List.mem_cons_self)
      rw [published, List.map_append, List.mem_append, not_or] at hnot
      cases hlook : (t.run host w).world.fs.look e with
      | none => exact ih (fun u hu => hq u (List.mem_cons_of_mem _ hu)) hlook hnot.2 hnow
      | some i =>
          refine heffect.added e hfree (fun y hy => ?_) ?_
          · rw [hy] at hnot
            exact hnot.1 List.mem_cons_self
          · rw [hlook]
            exact Option.some_ne_none i

/-- Each job that returns publishes. -/
theorem published_of_returned {xs ys : List Task} (hq : t.env.Quiet)
    (hr : (t.run host (runTasks host w xs)).result = .returned) :
    ∃ e x, t.publishes host (runTasks host w xs) = some (e, x)
      ∧ (e, x) ∈ published host w (xs ++ t :: ys) := by
  induction xs generalizing w with
  | nil =>
      obtain ⟨e, x, hpub⟩ := Task.publishes_of_returned hq hr
      exact ⟨e, x, hpub, List.mem_append_left _ (Option.mem_toList.mpr hpub)⟩
  | cons u xs ih =>
      obtain ⟨e, x, hpub, hmem⟩ := ih (w := (u.run host w).world) hr
      exact ⟨e, x, hpub, List.mem_append_right _ hmem⟩

/-- **A batch only adds its outputs.**  However the jobs of a batch end, with no other process at
work and no id given twice: each job that returned is among those that published; no two published
at one entry; each published entry names in the end the file its job claimed, with what HandBrake
wrote in it; every other entry there was names the same file with the same content; and every other
new entry has the name of a staging or a temporary file. -/
theorem batch_publishes (host : Host) (w : World) (hq : ∀ t ∈ ts, t.env.Quiet)
    (hids : (ts.map Task.jobId).Nodup) :
    (∀ xs t ys, ts = xs ++ t :: ys → (t.run host (runTasks host w xs)).result = .returned →
        ∃ e x, t.publishes host (runTasks host w xs) = some (e, x) ∧ (e, x) ∈ published host w ts)
      ∧ ((published host w ts).map Prod.fst).Nodup
      ∧ (∀ e x, (e, x) ∈ published host w ts → found (runTasks host w ts).fs e = some x)
      ∧ (∀ e x, found w.fs e = some x → e ∉ (published host w ts).map Prod.fst →
        found (runTasks host w ts).fs e = some x)
      ∧ ∀ e, w.fs.look e = none → e ∉ (published host w ts).map Prod.fst →
        (runTasks host w ts).fs.look e ≠ none → Leftover e := by
  refine ⟨fun xs t ys hsplit hr => ?_, published_nodup hids, fun e x => runTasks_shows hq hids,
    fun e x => runTasks_keeps hq, fun e => runTasks_adds hq⟩
  subst hsplit
  exact published_of_returned (hq t (by simp)) hr

/-- A job of a batch of samples: its inodes and descriptors are numbered from `n` on. -/
def sampleTask (jobId : String) (n : Nat) (fails : Call → Option PyExc) : Task where
  env := { sampleEnv with
    stagingFd := n
    stagingIno := n
    tempFd := n + 1
    tempIno := n + 1
    fails }
  jobId := jobId.toList
  req := sampleRequest "/data/movie.mkv".toList

/-- Of three jobs for one source the second gets no temporary file. -/
def sampleBatch : List Task :=
  [sampleTask "J" 10 fun _ => none,
    sampleTask "K" 12 fun c => if c = .namedTemporaryFile then some (.osError []) else none,
    sampleTask "L" 14 fun _ => none]

theorem sampleBatch_published : published sampleHost ⟨sampleFs, []⟩ sampleBatch
    = [((1, ".hbenc-J.mkv".toList), 10, .file [8, 9]),
      ((1, ".hbenc-L.mkv".toList), 14, .file [8, 9])] := by
  decide +kernel

theorem batch_publishes_three :
    found (runTasks sampleHost ⟨sampleFs, []⟩ sampleBatch).fs (1, ".hbenc-J.mkv".toList)
        = some (10, .file [8, 9])
      ∧ found (runTasks sampleHost ⟨sampleFs, []⟩ sampleBatch).fs (1, "movie.mkv".toList)
        = some (2, .file [7]) := by
  have hquiet : ∀ t ∈ sampleBatch, t.env.Quiet := by
    intro t ht
    simp only [sampleBatch, List.mem_cons, List.not_mem_nil, or_false] at ht
    rcases ht with rfl | rfl | rfl <;> exact fun _ _ => rfl
  obtain ⟨-, -, hshown, hkept, -⟩ :=
    batch_publishes sampleHost ⟨sampleFs, []⟩ hquiet (by decide)
  refine ⟨hshown _ _ ?_, hkept _ _ (by decide +kernel) ?_⟩
  · rw [sampleBatch_published]
    exact List.mem_cons_self
  · rw [sampleBatch_published]
    decide

end HandBrakeEncoder.Ops
