/-
# `Ops.Untouched` — the source and every other file

A job may change three entries: the staging path, the output path and the
temporary file.  No inode that existed changes its content, and a job that
returns has put exactly the file it claimed at the output path.

**The source.**  Renaming over the output path takes away what was there, so the
source survives unless its own path leads through that entry.  The guard
`realpath(dst) == src` is meant to exclude this.  It compares with `src` as
validation returned it, and after a symbolic link loop `src` may still contain
links: `/data/loop/../alias/f` is validated to `/data/alias/f`.  Then `dst` can
be the very same string while `realpath(dst)` is `/data/real/f`, and the encode
is renamed over the source (`published_over_source`).

`untouched_iff` has the exact condition.
-/
import HandBrakeEncoder.Ops.Stages

namespace HandBrakeEncoder.Ops

open Posix Jobs

/-- The temporary file of the run is created under this name. -/
def TempIs (host : Host) (env : Env) (p : Plan) (w₀ : World) (name : RandomName) : Prop :=
  ∃ w w', claimStaging env w₀ p.staging = .ok w ∧ makeTemp host env w = .ok (w', name)

/-- The output path names the regular file the job claimed, which holds what HandBrake wrote,
and the staging path is gone. -/
structure PublishedExactly (host : Host) (env : Env) (req : EncodeRequest) (p : Plan)
    (w₀ w : World) : Prop where
  claimed : w₀.inUse env.stagingIno = false
  output : ∃ e, w₀.fs.locate p.dst = .ok e ∧ w.fs.look e = some env.stagingIno
  content : ∃ name, TempIs host env p w₀ name ∧ w.fs.node env.stagingIno
    = .file ((env.encode (encodeCommand host req p name)).data.getD [])
  staging : w.fs.lexists p.staging = false

/-- Everything but the job's own three entries is as it was. -/
structure Untouched (host : Host) (env : Env) (jobId : PyStr) (req : EncodeRequest) (w₀ : World)
    (r : JobRun) : Prop where
  contents : ∀ i, w₀.inUse i = true → r.world.fs.node i = w₀.fs.node i
  source : ∀ p i, prepare host env w₀.fs jobId req = .ok p → w₀.fs.stat p.src = .ok i →
    r.world.fs.stat p.src = .ok i
  entries : ∀ e, r.world.fs.look e ≠ w₀.fs.look e →
    ∃ p, prepare host env w₀.fs jobId req = .ok p ∧
      (w₀.fs.locate p.staging = .ok e ∨ w₀.fs.locate p.dst = .ok e ∨
        ∃ name, TempIs host env p w₀ name ∧ w₀.fs.locate (tempPath host name) = .ok e)
  published : r.result = .returned →
    ∃ p, prepare host env w₀.fs jobId req = .ok p ∧ PublishedExactly host env req p w₀ r.world

/-- Every step of the job succeeds. -/
structure AllSucceed (host : Host) (env : Env) (req : EncodeRequest) (p : Plan) (w₀ : World) :
    Prop where
  temp : ∃ name, TempIs host env p w₀ name ∧ EncodeSucceeds host env req p w₀.fs name
  dump : env.fails .jsonDump = none
  close : env.fails .handleClose = none

/-- The source path does not resolve to its file without the entry at the output path. -/
def SourceThroughOutput (fs : Fs) (p : Plan) : Prop :=
  ∃ e i, fs.locate p.dst = .ok e ∧ fs.stat p.src = .ok i ∧ (fs.hide e).stat p.src ≠ .ok i

section

variable {host : Host} {env : Env} {jobId : PyStr} {req : EncodeRequest} {w₀ : World}
  {r : JobRun} {p : Plan} {L : Layout p} {D : Ino} {eT : Entry} {name : RandomName}

/-- An inode in use is none of one's own. -/
theorem contents_of_adds {Own : Ino → Prop} {new : List (Entry × Ino)} {fs₀ fs : Fs}
    (h : Fs.Adds Own new fs₀ fs) (hnode : ∀ i, fs₀.node i = w₀.fs.node i)
    (hown : ∀ i, Own i → w₀.inUse i = false) (i : Ino) (hi : w₀.inUse i = true) :
    fs.node i = w₀.fs.node i := by
  have hnot : ¬ Own i := fun ho => Bool.eq_false_iff.mp (hown i ho) hi
  rw [h.node i hnot, hnode]

theorem own_free (C : Claimed env L w₀ D)
    (T : TempMade host env w₀ (D, L.stagingName) name eT) (i : Ino) (h : own env i) :
    w₀.inUse i = false := by
  rcases h with rfl | rfl
  · exact C.ino
  · exact T.ino

/-- A run that raises after the claim has only added files. -/
theorem Untouched.of_adds {Own : Ino → Prop} {new : List (Entry × Ino)} {e : PyExc}
    (hp : prepare host env w₀.fs jobId req = .ok p) (h : Fs.Adds Own new w₀.fs r.world.fs)
    (hown : ∀ i, Own i → w₀.inUse i = false)
    (hnew : ∀ q ∈ new, w₀.fs.locate p.staging = .ok q.1 ∨ w₀.fs.locate p.dst = .ok q.1 ∨
      ∃ name, TempIs host env p w₀ name ∧ w₀.fs.locate (tempPath host name) = .ok q.1)
    (hr : r.result = .raised e) : Untouched host env jobId req w₀ r where
  contents := contents_of_adds h (fun _ => rfl) hown
  source := by
    intro p' i hp' hstat
    have hu : Fs.Unnamed Own w₀.fs := fun j hj => linked_of_inUse (hown j hj)
    exact Fs.stat_keep (h.sub hu) hstat id
  entries := by
    intro e' hne
    cases hl : new.lookup e' with
    | none => exact absurd (h.look_old hl) hne
    | some j =>
        obtain ⟨l₁, l₂, hsplit, -⟩ := List.lookup_eq_some_iff.mp hl
        exact ⟨p, hp, hnew (e', j) (by simp [hsplit])⟩
  published hret := by
    rw [hr] at hret
    cases hret

/-- A run that publishes: only the output entry is replaced. -/
theorem published_keeps {rest : List (Entry × Ino)} (hC : ClaimMade host env jobId req w₀ L D)
    (T : TempMade host env w₀ (D, L.stagingName) name eT)
    (htemp : TempIs host env p w₀ name) (hrest : rest = [] ∨ rest = [(eT, env.tempIno)])
    (h : Fs.Adds (own env) (rest ++ [((D, L.dstName), env.stagingIno)])
      (w₀.fs.hide (D, L.dstName)) r.world.fs)
    (hcontent : r.world.fs.node env.stagingIno
      = .file ((env.encode (encodeCommand host req p name)).data.getD [])) :
    (∀ i, w₀.inUse i = true → r.world.fs.node i = w₀.fs.node i) ∧
      (∀ e, r.world.fs.look e ≠ w₀.fs.look e →
        w₀.fs.locate p.staging = .ok e ∨ w₀.fs.locate p.dst = .ok e ∨
          ∃ name, TempIs host env p w₀ name ∧ w₀.fs.locate (tempPath host name) = .ok e) ∧
      PublishedExactly host env req p w₀ r.world := by
  have C := hC.claimed
  have hu := unnamed C T
  have hstagingNe := L.staging_ne D
  have hdst : (rest ++ [((D, L.dstName), env.stagingIno)]).lookup (D, L.dstName)
      = some env.stagingIno := by
    rcases hrest with rfl | rfl
    · exact List.lookup_cons_self
    · show List.lookup (D, L.dstName) [(eT, env.tempIno), ((D, L.dstName), env.stagingIno)] = _
      rw [Fs.lookup_cons_ne T.dst_ne, List.lookup_cons_self]
  have hother : ∀ e, e ≠ (D, L.dstName) → e ≠ eT →
      (rest ++ [((D, L.dstName), env.stagingIno)]).lookup e = none := by
    intro e hd ht
    rcases hrest with rfl | rfl
    · exact Fs.lookup_cons_ne hd
    · exact (Fs.lookup_cons_ne ht).trans (Fs.lookup_cons_ne hd)
  refine ⟨contents_of_adds h (fun _ => rfl) (own_free C T), ?_, C.ino, ⟨_, C.dst, h.look_new hdst⟩,
    ⟨name, htemp, hcontent⟩, ?_⟩
  · intro e hne
    by_cases hd : e = (D, L.dstName)
    · exact .inr (.inl (hd ▸ C.dst))
    by_cases ht : e = eT
    · exact .inr (.inr ⟨name, htemp, ht ▸ T.located⟩)
    · refine absurd ?_ hne
      rw [h.look_old (hother e hd ht), Fs.look_hide, if_neg hd]
  · refine Fs.lexists_eq_false fun e he => ?_
    have hback := Fs.locate_keep (h.sup (hu.hide (D, L.dstName))) he
    have hstart := Fs.locate_keep (Fs.SubUpTo.hide w₀.fs (D, L.dstName)) hback
    rw [C.staging] at hstart
    cases hstart
    rw [h.look_old (hother _ hstagingNe T.ne.symm), Fs.look_hide, if_neg hstagingNe, C.free]

/-- After publishing, the source path resolves as it does without the output entry. -/
theorem source_iff {rest : List (Entry × Ino)} (C : Claimed env L w₀ D)
    (T : TempMade host env w₀ (D, L.stagingName) name eT)
    (h : Fs.Adds (own env) (rest ++ [((D, L.dstName), env.stagingIno)])
      (w₀.fs.hide (D, L.dstName)) r.world.fs) :
    (∀ i, w₀.fs.stat p.src = .ok i → r.world.fs.stat p.src = .ok i) ↔
      ¬ SourceThroughOutput w₀.fs p := by
  have hu := (unnamed C T).hide (D, L.dstName)
  constructor
  · rintro hkeep ⟨e, i, he, hi, hhide⟩
    rw [C.dst] at he
    cases he
    refine hhide (Fs.stat_keep (h.sup hu) (hkeep i hi) fun hlost => ?_)
    exact Bool.eq_false_iff.mp (unnamed C T i hlost.1) (Fs.stat_linked hi)
  · intro hnot i hi
    refine Fs.stat_keep (h.sub hu) ?_ id
    by_contra hhide
    exact hnot ⟨_, i, C.dst, hi, hhide⟩

end

/-- **The source and every other file are untouched, and success publishes exactly the encode,
unless every step succeeds and the source path leads through the entry at the output path.** -/
theorem untouched_iff {host : Host} {env : Env} {jobId : PyStr} {req : EncodeRequest} {w₀ : World}
    (hq : env.Quiet) :
    Untouched host env jobId req w₀ (runEncodeJob host env jobId req w₀) ↔
      ∀ p, prepare host env w₀.fs jobId req = .ok p →
        ¬ (AllSucceed host env req p w₀ ∧ SourceThroughOutput w₀.fs p) := by
  cases runEncodeJob_ends host jobId req w₀ hq with
  | refused e hw hr hnone =>
      constructor
      · rintro - p hp ⟨⟨⟨name, ⟨w, w', hc, -⟩, -⟩, -, -⟩, -⟩
        exact hnone p w hp hc
      · rintro -
        refine ⟨fun i _ => by rw [hw], fun p i _ hi => by rwa [hw], fun e he => ?_, fun h => ?_⟩
        · exact absurd (by rw [hw]) he
        · exact nomatch hr.symm.trans h
  | @noTemp p L D e hC hr hmake hw =>
      constructor
      · rintro - p' hp ⟨⟨⟨name, ⟨w, w', hc, hm⟩, -⟩, -, -⟩, -⟩
        cases hC.plan.symm.trans hp
        cases hC.claim.symm.trans hc
        exact nomatch hmake.symm.trans hm
      · rintro -
        refine .of_adds hC.plan (hw ▸ hC.claimed.adds) ?_ ?_ hr
        · rintro i rfl
          exact hC.claimed.ino
        · intro q hq
          rw [List.mem_singleton.mp hq]
          exact .inl hC.claimed.staging
  | @notWritten p L D eT name e hC T hmade hfail hr hadds hfds =>
      constructor
      · rintro - p' hp ⟨⟨-, hdump, hclose⟩, -⟩
        exact hfail ⟨hdump, hclose⟩
      · rintro -
        refine .of_adds hC.plan hadds (own_free hC.claimed T) ?_ hr
        intro q hq
        rw [List.mem_singleton.mp hq]
        exact .inl hC.claimed.staging
  | @notPublished p L D eT name e hC T hmade hdump hclose hfail hr hadds hfds =>
      constructor
      · rintro - p' hp ⟨⟨⟨name', ⟨w, w', hc, hm⟩, hsucceeds⟩, -, -⟩, -⟩
        cases hC.plan.symm.trans hp
        cases hC.claim.symm.trans hc
        obtain ⟨w'', hm'⟩ := hmade
        cases hm.symm.trans hm'
        exact hfail hsucceeds
      · rintro -
        exact .of_adds hC.plan hadds (own_free hC.claimed T)
          (fun q hq => absurd hq List.not_mem_nil) hr
  | @published p L D eT name rest hC T hmade hdump hclose hsucceeds hr hrest hadds hfds hcontent =>
      obtain ⟨w', hm⟩ := hmade
      have htemp : TempIs host env p w₀ name := ⟨_, w', hC.claim, hm⟩
      obtain ⟨hcontents, hentries, hexact⟩ := published_keeps hC T htemp hrest hadds hcontent
      have hsource := source_iff hC.claimed T hadds
      constructor
      · rintro hkept p' hp ⟨-, hthrough⟩
        cases hC.plan.symm.trans hp
        exact hsource.mp (fun i => hkept.source p i hC.plan) hthrough
      · intro hnot
        have hkeep := hsource.mpr fun hthrough =>
          hnot p hC.plan ⟨⟨⟨name, htemp, hsucceeds⟩, hdump, hclose⟩, hthrough⟩
        refine ⟨hcontents, fun p' i hp => ?_, fun e he => ⟨p, hC.plan, hentries e he⟩,
          fun _ => ⟨p, hC.plan, hexact⟩⟩
        cases hC.plan.symm.trans hp
        exact hkeep i

/-- The sample source does not lead through the output entry. -/
theorem untouched_sample :
    Untouched sampleHost sampleEnv "J".toList (sampleRequest "/data/movie.mkv".toList)
      ⟨sampleFs, []⟩
      (runEncodeJob sampleHost sampleEnv "J".toList (sampleRequest "/data/movie.mkv".toList)
        ⟨sampleFs, []⟩) := by
  refine (untouched_iff (fun _ _ => rfl)).mpr ?_
  rintro p hp ⟨-, e, i, he, hi, hhide⟩
  have hplan : prepare sampleHost sampleEnv sampleFs "J".toList
      (sampleRequest "/data/movie.mkv".toList) = .ok samplePlan := by decide +kernel
  cases hplan.symm.trans hp
  have hdst : sampleFs.locate samplePlan.dst = .ok (1, ".hbenc-J.mkv".toList) := by decide +kernel
  have hsrc : sampleFs.stat samplePlan.src = .ok 2 := by decide +kernel
  cases hdst.symm.trans he
  cases hsrc.symm.trans hi
  exact hhide (by decide +kernel)

/-- `/data/alias` leads to `/data/real`, which holds the source; `/data/loop` to itself. -/
def linkedFs : Fs where
  entries := [((0, "data".toList), 1), ((1, "real".toList), 2), ((1, "alias".toList), 3),
    ((1, "loop".toList), 4), ((2, ".hbenc-J.mkv".toList), 5), ((0, "tmp".toList), 6)]
  nodes i :=
    if i = 3 then .link "real".toList
    else if i = 4 then .link "loop".toList
    else if i = 5 then .file [7] else .dir
  gen _ := 0

/-- `realpath` gives the path up at the loop, so the output path is the source's and the guard
does not see it: the encode replaces the source. -/
theorem published_over_source :
    ¬ ∀ (host : Host) (env : Env) (jobId : PyStr) (req : EncodeRequest) (w₀ : World), env.Quiet →
      Untouched host env jobId req w₀ (runEncodeJob host env jobId req w₀) := by
  intro h
  have hkept := h sampleHost sampleEnv "J".toList
    (sampleRequest "/data/loop/../alias/.hbenc-J.mkv".toList) ⟨linkedFs, []⟩ fun _ _ => rfl
  have hstat := hkept.source
    { src := "/data/alias/.hbenc-J.mkv".toList
      encoder := "x264".toList
      dst := "/data/alias/.hbenc-J.mkv".toList
      staging := "/data/alias/.hbenc-J-0123456789abcdef.mkv".toList }
    5 (by decide +kernel) (by decide +kernel)
  exact absurd hstat (by decide +kernel)

end HandBrakeEncoder.Ops
