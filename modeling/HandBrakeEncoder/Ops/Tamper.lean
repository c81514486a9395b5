/-
# `Ops.Tamper` — what the samestat check proves

Between the claim and the check other processes may do anything to the
directory.  The descriptor is held all that time, so the claimed inode number
still means the claimed file (`Held`), and the check passes only if the staging
path leads to it.

**Leads to, not is.**  `os.stat` follows a symbolic link and `os.replace` moves
the link itself.  Whoever renames the staging file away and puts a symbolic link
to it in its place passes the check, and the link is what gets published
(`symlink_published`).  `installs_claimed_iff`: that is the only way.
-/
import HandBrakeEncoder.Ops.Stages

namespace HandBrakeEncoder.Ops

open Posix Jobs Paths

/-- What other processes do is some sequence of operations; an inode number with an open
descriptor is not given out again. -/
def Env.Interferes (env : Env) : Prop :=
  ∀ pt w, Interference w.isOpen w.fs (env.others pt w)

/-- The staging descriptor is open on the claimed inode, whose number has since been given to
no other file. -/
structure Held (env : Env) (gen : Nat) (w : World) : Prop where
  fstat : w.fstat env.stagingFd = some env.stagingIno
  gen : w.fs.gen env.stagingIno = gen

section

variable {host : Host} {env : Env} {jobId : PyStr} {req : EncodeRequest} {w₀ w w' : World}
  {p : Plan} {g : Nat} {name : RandomName}

theorem Held.isOpen (h : Held env g w) : w.isOpen env.stagingIno = true := by
  obtain ⟨l₁, l₂, hsplit, -⟩ := List.lookup_eq_some_iff.mp h.fstat
  rw [World.isOpen, hsplit]
  simp

theorem Held.act (h : Held env g w) (hi : env.Interferes) (pt : Point) :
    Held env g (env.act pt w) where
  fstat := h.fstat
  gen := ((hi pt w).gen h.isOpen).trans h.gen

theorem Held.of_claim (env : Env) (w₀ : World) (e : Entry) :
    Held env (w₀.fs.gen env.stagingIno + 1) (claimWorld env w₀ e) where
  fstat := List.lookup_cons_self
  gen := Function.update_self ..

theorem Held.makeTemp (h : Held env g w) (hm : makeTemp host env w = .ok (w', name)) :
    Held env g w' ∧ env.stagingFd ≠ env.tempFd := by
  rw [Ops.makeTemp] at hm
  split at hm
  · cases hm
  obtain ⟨e, -, -, hino, hfd, rfl⟩ := World.openExcl_ok (mkstemp_ok hm)
  have hfdNe : env.stagingFd ≠ env.tempFd := by
    intro heq
    obtain ⟨l₁, l₂, hsplit, -⟩ := List.lookup_eq_some_iff.mp h.fstat
    rw [hsplit, ← heq] at hfd
    simp at hfd
  have hinoNe : env.stagingIno ≠ env.tempIno := by
    intro heq
    rw [World.inUse, ← heq, h.isOpen, Bool.or_true] at hino
    cases hino
  refine ⟨⟨?_, ?_⟩, hfdNe⟩
  · show List.lookup env.stagingFd ((env.tempFd, env.tempIno) :: w.fds) = _
    rw [List.lookup_cons, beq_eq_false_iff_ne.mpr hfdNe]
    exact h.fstat
  · exact (Function.update_of_ne hinoNe _ _).trans h.gen

theorem Held.close (h : Held env g w) (hne : env.stagingFd ≠ env.tempFd) :
    Held env g (w.close env.tempFd) where
  fstat := (World.fstat_close_ne hne).trans h.fstat
  gen := h.gen

theorem Held.writePreset (host : Host) (req : EncodeRequest) (h : Held env g w)
    (hne : env.stagingFd ≠ env.tempFd) :
    Held env g (writePreset host env req w).1 := by
  rw [Ops.writePreset]
  split
  · exact h.close hne
  · exact Held.close (w := { w with fs := _ }) ⟨h.fstat, h.gen⟩ hne

theorem Held.encodeInto (h : Held env g w) (hi : env.Interferes) (data : Option Data) :
    Held env g (encodeInto env p.staging data w) := by
  unfold Ops.encodeInto
  refine Held.act ?_ hi _
  cases data with
  | none => exact h.act hi _
  | some data =>
      have hact := h.act hi .encoding
      exact ⟨hact.fstat, (Fs.gen_writeThrough ..).trans hact.gen⟩

/-- A check that passes: the staging path led to the claimed inode. -/
theorem checkStaging_none (h : Held env g w) (hi : env.Interferes)
    (hc : checkStaging env w p.staging = (w', none)) :
    Held env g w' ∧ w'.fs.stat p.staging = .ok env.stagingIno := by
  rw [checkStaging] at hc
  split at hc
  · cases hc
  dsimp only at hc
  split at hc
  · cases hc
  split at hc
  · cases hc
  rename_i i hstat
  obtain ⟨hw, hsame⟩ := Prod.ext_iff.mp hc
  subst hw
  split at hsame
  · rename_i heq
    rw [h.fstat] at heq
    cases heq
    exact ⟨h.act hi .fstated, hstat⟩
  · cases hsame

/-- What `os.replace` found: a staging path that leads to the claimed inode, still the file
it was claimed as. -/
structure Replaced (host : Host) (env : Env) (p : Plan) (w₀ w : World) (r : JobRun) : Prop where
  stat : w.fs.stat p.staging = .ok env.stagingIno
  gen : w.fs.gen env.stagingIno = w₀.fs.gen env.stagingIno + 1
  moved : ∃ fs name, w.fs.rename p.staging p.dst = .ok fs ∧
    r.world = removeTemp { w with fs } (tempPath host name)

theorem swapIn_atReplace (h : Held env g w) (hs : w.fs.stat p.staging = .ok env.stagingIno)
    (hr : (swapIn env p w).atReplace = some w') :
    (swapIn env p w).outcome = .returned ∧ w'.fs.stat p.staging = .ok env.stagingIno ∧
      w'.fs.gen env.stagingIno = g ∧
      ∃ fs, w'.fs.rename p.staging p.dst = .ok fs ∧ (swapIn env p w).world = { w' with fs } := by
  unfold swapIn at hr ⊢
  split at hr
  · cases hr
  dsimp only at hr
  split at hr
  · cases hr
  rename_i fs hrename
  cases hr
  dsimp only
  rw [hrename]
  exact ⟨rfl, hs, h.gen, fs, rfl, rfl⟩

theorem publish_atReplace (h : Held env g w) (hi : env.Interferes) {run : EncodeRun}
    (hr : (publish env p run w).atReplace = some w') :
    (publish env p run w).outcome = .returned ∧ w'.fs.stat p.staging = .ok env.stagingIno ∧
      w'.fs.gen env.stagingIno = g ∧
      ∃ fs, w'.fs.rename p.staging p.dst = .ok fs ∧
        (publish env p run w).world = { w' with fs } := by
  have hheld := h.encodeInto (p := p) hi run.data
  rw [publish] at hr ⊢
  cases hrun : run.outcome with
  | raised e =>
      rw [hrun] at hr
      cases hr
  | returned =>
      rw [hrun] at hr
      dsimp only at hr ⊢
      cases hcheck : checkStaging env (encodeInto env p.staging run.data w) p.staging with
      | mk w₁ exc =>
          rw [hcheck] at hr
          cases exc with
          | some e => cases hr
          | none =>
              obtain ⟨hheld', hstat⟩ := checkStaging_none hheld hi hcheck
              exact swapIn_atReplace hheld' hstat hr

theorem runEncodeJob_atReplace (hi : env.Interferes)
    (hp : prepare host env w₀.fs jobId req = .ok p)
    (hr : (runEncodeJob host env jobId req w₀).atReplace = some w) :
    Replaced host env p w₀ w (runEncodeJob host env jobId req w₀) := by
  obtain ⟨-, ⟨L⟩⟩ := prepare_ok hp
  rcases runEncodeJob_course host env jobId req w₀ with ⟨e, -, hrun⟩ | ⟨p', e, -, -, hrun⟩ |
    ⟨p', w₁, e, -, -, -, hrun⟩ | ⟨p', w₁, w₂, name, hp', hc, hm, hrun⟩
  · rw [hrun] at hr
    cases hr
  · rw [hrun] at hr
    cases hr
  · rw [hrun] at hr
    cases hr
  · cases hp.symm.trans hp'
    obtain ⟨-, D, C, rfl⟩ := claimStaging_ok L hc
    have hclaim := (Held.of_claim env w₀ (D, L.stagingName)).act hi .claimed
    obtain ⟨htemp, hne⟩ := hclaim.makeTemp hm
    have hwritten := (htemp.act hi .tempMade).writePreset host req hne
    rw [hrun] at hr ⊢
    rw [encodeWithTemp] at hr ⊢
    cases hw : writePreset host env req (env.act .tempMade w₂) with
    | mk w₃ exc =>
        rw [hw] at hr hwritten
        cases exc with
        | some e => cases hr
        | none =>
            dsimp only at hr ⊢
            obtain ⟨hout, hstat, hgen, fs, hrename, hworld⟩ :=
              publish_atReplace (hwritten.act hi .dumped) hi hr
            refine ⟨hstat, hgen, fs, name, hrename, ?_⟩
            rw [← hworld]
            exact congrArg (removeTemp · _) (afterTry_returned env p hout)

/-- The entry `os.replace` installed at the output path is a direct link to the claimed file. -/
def InstallsClaimed (env : Env) (p : Plan) (w₀ w : World) (r : JobRun) : Prop :=
  ∃ e, w.fs.locate p.dst = .ok e ∧ r.world.fs.look e = some env.stagingIno ∧
    r.world.fs.gen env.stagingIno = w₀.fs.gen env.stagingIno + 1

/-- Removing the temporary file touches no output entry. -/
theorem removeTemp_look (host : Host) (name : RandomName) (w : World) {e : Entry}
    (h : outputPrefix <+: e.2) :
    (removeTemp w (tempPath host name)).fs.look e = w.fs.look e ∧
      (removeTemp w (tempPath host name)).fs.gen = w.fs.gen := by
  rw [removeTemp]
  cases hunlink : w.fs.unlink (tempPath host name) with
  | error e => exact ⟨rfl, rfl⟩
  | ok fs =>
      obtain ⟨e', he', rfl⟩ := Fs.unlink_ok hunlink
      refine ⟨?_, rfl⟩
      have hne : e ≠ e' := by
        rintro rfl
        exact tempName_ne_prefixed name h (tempPath_located he').symm
      exact (Fs.look_hide ..).trans (if_neg hne)

/-- A path that leads to the claimed file is its entry, or a symbolic link. -/
theorem look_of_stat {fs : Fs} {path : List Char} {e : Entry} {i j : Ino}
    (hloc : fs.locate path = .ok e) (hlook : fs.look e = some i) (hstat : fs.stat path = .ok j) :
    i = j ↔ fs.readlink? path = none := by
  have hlstat := Fs.lstat_of_locate hloc hlook
  rw [Fs.readlink?, hlstat]
  dsimp only
  cases hnode : fs.node i with
  | link target =>
      constructor
      · intro hij
        have hdirect := Fs.stat_direct hstat
        rw [← hij, hnode] at hdirect
        cases hdirect
      · intro hnone
        cases hnone
  | dir =>
      have hdirect := Fs.stat_of_locate hloc hlook (by rw [hnode]; rfl)
      exact ⟨fun _ => rfl, fun _ => Except.ok.inj (hdirect.symm.trans hstat)⟩
  | file data =>
      have hdirect := Fs.stat_of_locate hloc hlook (by rw [hnode]; rfl)
      exact ⟨fun _ => rfl, fun _ => Except.ok.inj (hdirect.symm.trans hstat)⟩

end

/-- **A job that publishes installs the claimed file exactly when the staging path, as
`os.replace` finds it, is not a symbolic link.** -/
theorem installs_claimed_iff {host : Host} {env : Env} {jobId : PyStr} {req : EncodeRequest}
    {w₀ w : World} {p : Plan} (hi : env.Interferes)
    (hp : prepare host env w₀.fs jobId req = .ok p)
    (hr : (runEncodeJob host env jobId req w₀).atReplace = some w) :
    InstallsClaimed env p w₀ w (runEncodeJob host env jobId req w₀) ↔
      w.fs.readlink? p.staging = none := by
  obtain ⟨-, ⟨L⟩⟩ := prepare_ok hp
  obtain ⟨hstat, hgen, fs, name, hrename, hworld⟩ := runEncodeJob_atReplace hi hp hr
  obtain ⟨es, ed, i, hes, hed, hlook, hinstalled⟩ := Fs.rename_look hrename
  have hprefix : outputPrefix <+: ed.2 := by
    have hloc := hed
    rw [L.dst] at hloc
    obtain ⟨out, -, -, rfl⟩ := Fs.locate_child_ok L.dstIsName hloc
    exact L.prefixed
  obtain ⟨hkeep, hkeepGen⟩ :=
    removeTemp_look host name { w with fs } hprefix
  have hrenameGen : fs.gen = w.fs.gen := by
    obtain ⟨_, _, _, _, _, _, ⟨_, rfl⟩ | ⟨_, _, rfl⟩⟩ := Fs.rename_ok hrename
    · rfl
    · rfl
  rw [← look_of_stat hes hlook hstat, InstallsClaimed, hworld]
  constructor
  · rintro ⟨e, he, hclaimed, -⟩
    cases hed.symm.trans he
    rw [hkeep] at hclaimed
    exact Option.some.inj (hinstalled.symm.trans hclaimed)
  · intro hsame
    refine ⟨ed, hed, hkeep.trans (hsame ▸ hinstalled), ?_⟩
    rw [hkeepGen]
    exact (congrFun hrenameGen _).trans hgen

/-- The staging file of the sample job. -/
def sampleStaging : Entry := (1, ".hbenc-J-0123456789abcdef.mkv".toList)

/-- Rename the staging file to `x` and link it back to its old place. -/
def moveAndBack (w : World) : Fs :=
  match w.fs.look sampleStaging with
  | none => w.fs
  | some i => ((w.fs.hide sampleStaging).setEntry (1, ['x']) i).setEntry sampleStaging i

def movingEnv : Env :=
  { sampleEnv with others := fun pt w => match pt with | .encoded => moveAndBack w | _ => w.fs }

theorem movingEnv_interferes : movingEnv.Interferes := by
  intro pt w
  cases pt with
  | encoded =>
      show Interference w.isOpen w.fs (moveAndBack w)
      rw [moveAndBack]
      cases hi : w.fs.look sampleStaging with
      | none => exact .refl
      | some i =>
          have hmove : Interference w.isOpen w.fs _ :=
            Relation.ReflTransGen.single (.rename (1, ['x']) hi)
          have hthere : ((w.fs.hide sampleStaging).setEntry (1, ['x']) i).look (1, ['x'])
              = some i := by
            rw [Fs.look_setEntry, if_pos rfl]
          refine hmove.tail (.hardLink hthere ?_)
          rw [Fs.look_setEntry, Fs.look_hide, if_neg (by decide), if_pos rfl]
  | claimed => exact .refl
  | tempMade => exact .refl
  | dumped => exact .refl
  | encoding => exact .refl
  | fstated => exact .refl

/-- The staging file is moved and linked back under the job, which installs it all the same. -/
theorem installs_claimed_moved : ∃ w,
    (runEncodeJob sampleHost movingEnv "J".toList (sampleRequest "/data/movie.mkv".toList)
      ⟨sampleFs, []⟩).atReplace = some w ∧
    w.fs.look (1, ['x']) = some movingEnv.stagingIno ∧
    InstallsClaimed movingEnv samplePlan ⟨sampleFs, []⟩ w
      (runEncodeJob sampleHost movingEnv "J".toList (sampleRequest "/data/movie.mkv".toList)
        ⟨sampleFs, []⟩) := by
  have hsome : (runEncodeJob sampleHost movingEnv "J".toList
      (sampleRequest "/data/movie.mkv".toList) ⟨sampleFs, []⟩).atReplace.map
        (fun w => (w.fs.readlink? samplePlan.staging, w.fs.look (1, ['x'])))
        = some (none, some movingEnv.stagingIno) := by decide +kernel
  obtain ⟨w, hw, hboth⟩ := Option.map_eq_some_iff.mp hsome
  obtain ⟨hlink, hthere⟩ := Prod.mk.inj hboth
  exact ⟨w, hw, hthere,
    (installs_claimed_iff movingEnv_interferes (by decide +kernel) hw).mpr hlink⟩

/-- Rename the staging file to `x` and put a symbolic link to `x` in its place. -/
def linkInPlace (w : World) : Fs :=
  match w.fs.look sampleStaging with
  | none => w.fs
  | some i =>
      let moved := (w.fs.hide sampleStaging).setEntry (1, ['x']) i
      if moved.linked 12 || w.isOpen 12 then moved
      else moved.create sampleStaging 12 (.link ['x'])

def linkingEnv : Env :=
  { sampleEnv with others := fun pt w => match pt with | .encoded => linkInPlace w | _ => w.fs }

theorem linkingEnv_interferes : linkingEnv.Interferes := by
  intro pt w
  cases pt with
  | encoded =>
      show Interference w.isOpen w.fs (linkInPlace w)
      rw [linkInPlace]
      cases hi : w.fs.look sampleStaging with
      | none => exact .refl
      | some i =>
          dsimp only
          have hmove : Interference w.isOpen w.fs _ :=
            Relation.ReflTransGen.single (.rename (1, ['x']) hi)
          split
          · exact hmove
          · rename_i hfree
            obtain ⟨hlinked, hopen⟩ := Bool.or_eq_false_iff.mp (Bool.eq_false_iff.mpr hfree)
            refine hmove.tail (.create (.link ['x']) ?_ hlinked hopen)
            rw [Fs.look_setEntry, Fs.look_hide, if_neg (by decide), if_pos rfl]
  | claimed => exact .refl
  | tempMade => exact .refl
  | dumped => exact .refl
  | encoding => exact .refl
  | fstated => exact .refl

/-- The check passes through the link, and the link is published. -/
theorem symlink_published :
    ¬ ∀ (host : Host) (env : Env) (jobId : PyStr) (req : EncodeRequest) (w₀ w : World) (p : Plan),
      env.Interferes → prepare host env w₀.fs jobId req = .ok p →
      (runEncodeJob host env jobId req w₀).atReplace = some w →
      InstallsClaimed env p w₀ w (runEncodeJob host env jobId req w₀) := by
  intro h
  have hsome : (runEncodeJob sampleHost linkingEnv "J".toList
      (sampleRequest "/data/movie.mkv".toList) ⟨sampleFs, []⟩).atReplace.map
        (fun w => w.fs.locate samplePlan.dst) = some (.ok (1, ".hbenc-J.mkv".toList)) := by
    decide +kernel
  obtain ⟨w, hw, hloc⟩ := Option.map_eq_some_iff.mp hsome
  obtain ⟨e, he, hlook, -⟩ := h sampleHost linkingEnv "J".toList
    (sampleRequest "/data/movie.mkv".toList) ⟨sampleFs, []⟩ w samplePlan linkingEnv_interferes
    (by decide +kernel) hw
  cases hloc.symm.trans he
  exact absurd hlook (by decide +kernel)

end HandBrakeEncoder.Ops
