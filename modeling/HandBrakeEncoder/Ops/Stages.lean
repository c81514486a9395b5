/-
# `Ops.Stages` — a job alone with the file system

What each step of `run_encode_job` does when no other process interferes.  From
the claim on, the file system is the initial one with files of the job's own in
it (`Fs.Adds`): so every path that resolved still does, and the three derived
paths keep denoting the same entries.  `runEncodeJob_ends` puts the steps
together: five ways a run can end, with the file system each leaves.
-/
import HandBrakeEncoder.Ops.Encode

namespace HandBrakeEncoder.Ops

open Posix Jobs Paths

/-- The inode of the staging file. -/
def ownStaging (env : Env) (i : Ino) : Prop := i = env.stagingIno

/-- The inodes of the staging file and of the temporary file. -/
def own (env : Env) (i : Ino) : Prop := i = env.stagingIno ∨ i = env.tempIno

/-! ## The claim -/

/-- The staging path was claimed in the directory `D`. -/
structure Claimed (env : Env) {p : Plan} (L : Layout p) (w₀ : World) (D : Ino) : Prop where
  staging : w₀.fs.locate p.staging = .ok (D, L.stagingName)
  dst : w₀.fs.locate p.dst = .ok (D, L.dstName)
  free : w₀.fs.look (D, L.stagingName) = none
  ino : w₀.inUse env.stagingIno = false
  fd : w₀.fds.any (·.1 = env.stagingFd) = false

/-- The world right after the claim. -/
def claimWorld (env : Env) (w₀ : World) (e : Entry) : World where
  fs := w₀.fs.create e env.stagingIno (.file [])
  fds := (env.stagingFd, env.stagingIno) :: w₀.fds

theorem claimStaging_ok {env : Env} {p : Plan} (L : Layout p) {w₀ w : World}
    (h : claimStaging env w₀ p.staging = .ok w) :
    env.fails .osOpen = none ∧
      ∃ D, Claimed env L w₀ D ∧ w = claimWorld env w₀ (D, L.stagingName) := by
  unfold claimStaging at h
  split at h
  · cases h
  rename_i hfails
  split at h
  · rename_i w' hopen
    cases h
    obtain ⟨e, he, hfree, hino, hfd, rfl⟩ := World.openExcl_ok hopen
    have hloc := he
    rw [L.staging] at hloc
    obtain ⟨out, hw, hdir, rfl⟩ := Fs.locate_child_ok L.stagingIsName hloc
    refine ⟨hfails, Fs.top out, ⟨he, ?_, hfree, hino, hfd⟩, rfl⟩
    rw [L.dst]
    exact Fs.locate_child L.dstIsName hw hdir
  · cases h

theorem Claimed.root {env : Env} {p : Plan} {L : Layout p} {w₀ : World} {D : Ino}
    (C : Claimed env L w₀ D) : env.stagingIno ≠ rootIno := World.ne_root_of_free C.ino

theorem linked_of_inUse {w : World} {i : Ino} (h : w.inUse i = false) : w.fs.linked i = false :=
  (Bool.or_eq_false_iff.mp h).1

theorem Claimed.unnamed {env : Env} {p : Plan} {L : Layout p} {w₀ : World} {D : Ino}
    (C : Claimed env L w₀ D) : Fs.Unnamed (ownStaging env) w₀.fs := by
  rintro i rfl
  exact linked_of_inUse C.ino

theorem Claimed.adds {env : Env} {p : Plan} {L : Layout p} {w₀ : World} {D : Ino}
    (C : Claimed env L w₀ D) : Fs.Adds (ownStaging env)
      [((D, L.stagingName), env.stagingIno)] w₀.fs
      (claimWorld env w₀ (D, L.stagingName)).fs :=
  Fs.Adds.none.create C.free rfl C.root

/-! ## The temporary file -/

/-- A temporary file was created at the entry `e`. -/
structure TempMade (host : Host) (env : Env) (w₀ : World) (eG : Entry) (name : RandomName)
    (e : Entry) : Prop where
  located : w₀.fs.locate (tempPath host name) = .ok e
  named : e.2 = tempName name
  free : w₀.fs.look e = none
  ne : e ≠ eG
  ino : w₀.inUse env.tempIno = false
  inoNe : env.tempIno ≠ env.stagingIno
  fdNe : env.tempFd ≠ env.stagingFd
  fd : w₀.fds.any (·.1 = env.tempFd) = false

theorem mkstemp_ok {host : Host} {env : Env} {w w' : World} {names : List RandomName}
    {name : RandomName} (h : mkstemp host env w names = .ok (w', name)) :
    w.openExcl (tempPath host name) env.tempFd env.tempIno = .ok w' := by
  induction names with
  | nil => cases h
  | cons n names ih =>
      unfold mkstemp at h
      split at h
      · rename_i hopen
        cases h
        exact hopen
      · exact ih h
      · cases h

theorem tempName_isName (name : RandomName) : IsName (tempName name) where
  nonempty := nofun
  notDot := nofun
  notDotdot := nofun
  noSlash := by
    have hjson : '/' ∉ ".json".toList := by decide
    have htmp : '/' ∉ "tmp".toList := by decide
    simp only [tempName, List.mem_append, not_or]
    exact ⟨⟨htmp, name.noSlash⟩, hjson⟩

/-- The name in the entry of a temporary path. -/
theorem tempPath_located {host : Host} {fs : Fs} {name : RandomName} {e : Entry}
    (h : fs.locate (tempPath host name) = .ok e) : e.2 = tempName name := by
  obtain ⟨ns, out, hcs, -⟩ := Fs.locate_ok.mp h
  rw [tempPath, components_join _ (tempName_isName name)] at hcs
  obtain ⟨-, hlast⟩ := List.append_inj' hcs rfl
  exact (List.cons.inj hlast).1.symm

/-- No temporary file has the name of an output. -/
theorem tempName_ne_prefixed (name : RandomName) {n : Name} (h : outputPrefix <+: n) :
    tempName name ≠ n := by
  rintro rfl
  obtain ⟨rest, hrest⟩ := h
  exact absurd (List.cons.inj hrest).1 (by decide)

/-- The output entry is not the temporary file's. -/
theorem TempMade.dst_ne {host : Host} {env : Env} {w₀ : World} {p : Plan} {L : Layout p} {D : Ino}
    {eG e : Entry} {name : RandomName} (T : TempMade host env w₀ eG name e) :
    (D, L.dstName) ≠ e := by
  rintro rfl
  exact tempName_ne_prefixed name L.prefixed T.named.symm

theorem Layout.staging_ne {p : Plan} (L : Layout p) (D : Ino) :
    (D, L.stagingName) ≠ (D, L.dstName) := fun h => L.distinct (Prod.ext_iff.mp h).2

theorem makeTemp_ok {host : Host} {env : Env} {p : Plan} {L : Layout p} {w₀ w : World} {D : Ino}
    (C : Claimed env L w₀ D) {name : RandomName}
    (h : makeTemp host env (claimWorld env w₀ (D, L.stagingName)) = .ok (w, name)) :
    env.fails .namedTemporaryFile = none ∧
      ∃ e, TempMade host env w₀ (D, L.stagingName) name e ∧
        w.fs = (claimWorld env w₀ (D, L.stagingName)).fs.create e env.tempIno (.file []) ∧
        w.fds = (env.tempFd, env.tempIno) :: (env.stagingFd, env.stagingIno) :: w₀.fds := by
  unfold makeTemp at h
  split at h
  · cases h
  rename_i hfails
  obtain ⟨e, he, hfree, hino, hfd, rfl⟩ := World.openExcl_ok (mkstemp_ok h)
  have hadds := C.adds
  -- the temporary directory resolved before the claim, to the same place
  have hloc := Fs.locate_keep (hadds.sup C.unnamed) he
  rw [hadds.look] at hfree
  obtain ⟨hnew, hold⟩ := Option.or_eq_none_iff.mp hfree
  have hne : e ≠ (D, L.stagingName) := by
    rintro rfl
    rw [List.lookup_cons_self] at hnew
    cases hnew
  obtain ⟨hlinked, hopen⟩ := Bool.or_eq_false_iff.mp hino
  have hinoNe : env.tempIno ≠ env.stagingIno := by
    intro h
    rw [h] at hopen
    simp [claimWorld, World.isOpen] at hopen
  have hfdNe : env.tempFd ≠ env.stagingFd := by
    intro h
    rw [h] at hfd
    simp [claimWorld] at hfd
  have hfd₀ : w₀.fds.any (·.1 = env.tempFd) = false := by
    rw [claimWorld, List.any_cons] at hfd
    exact (Bool.or_eq_false_iff.mp hfd).2
  have hino₀ : w₀.inUse env.tempIno = false := by
    rw [World.isOpen, claimWorld, List.any_cons] at hopen
    refine Bool.or_eq_false_iff.mpr ⟨?_, (Bool.or_eq_false_iff.mp hopen).2⟩
    refine Bool.eq_false_iff.mpr fun hl => Bool.eq_false_iff.mp hlinked ?_
    exact Fs.linked_create hl C.free
  exact ⟨hfails, e, ⟨hloc, tempPath_located hloc, hold, hne, hino₀, hinoNe, hfdNe, hfd₀⟩, rfl, rfl⟩

/-! ## Between the temporary file and the check -/

/-- Both files exist; the staging file holds `content` and its descriptor is open. -/
structure Mid (env : Env) (w₀ : World) (eG eT : Entry) (content : Data) (w : World) : Prop where
  adds : Fs.Adds (own env) [(eT, env.tempIno), (eG, env.stagingIno)] w₀.fs w.fs
  fds : w.fds = (env.stagingFd, env.stagingIno) :: w₀.fds
  content : w.fs.node env.stagingIno = .file content

section Quiet

variable {host : Host} {env : Env} {req : EncodeRequest} {p : Plan} {L : Layout p} {w₀ w : World}
  {D : Ino} {eT : Entry} {name : RandomName} {content : Data}

theorem unnamed (C : Claimed env L w₀ D) (T : TempMade host env w₀ (D, L.stagingName) name eT) :
    Fs.Unnamed (own env) w₀.fs := by
  rintro i (rfl | rfl)
  · exact linked_of_inUse C.ino
  · exact linked_of_inUse T.ino

/-- `json.dump` and `handle.close`: the temporary file may have been written, its descriptor
is closed, and an exception comes of one of the two. -/
theorem writePreset_quiet (req : EncodeRequest) (C : Claimed env L w₀ D)
    (T : TempMade host env w₀ (D, L.stagingName) name eT)
    (hfs : w.fs = (claimWorld env w₀ (D, L.stagingName)).fs.create eT env.tempIno (.file []))
    (hfds : w.fds = (env.tempFd, env.tempIno) :: (env.stagingFd, env.stagingIno) :: w₀.fds) :
    Mid env w₀ (D, L.stagingName) eT [] (writePreset host env req w).1 ∧
      ((writePreset host env req w).2 = none ↔
        env.fails .jsonDump = none ∧ env.fails .handleClose = none) := by
  have hroot := World.ne_root_of_free T.ino
  have hlook : (claimWorld env w₀ (D, L.stagingName)).fs.look eT = none := by
    rw [C.adds.look, Fs.lookup_cons_ne T.ne]
    exact T.free
  have hadds : Fs.Adds (own env) [(eT, env.tempIno), ((D, L.stagingName), env.stagingIno)]
      w₀.fs w.fs := by
    rw [hfs]
    exact (C.adds.mono fun i hi => .inl hi).create hlook (.inr rfl) hroot
  have hcontent : w.fs.node env.stagingIno = .file [] := by
    rw [hfs, Fs.node_create _ _ _ _ _ hroot, if_neg T.inoNe.symm]
    exact (Fs.node_create _ _ _ _ _ C.root).trans (if_pos rfl)
  have hclosed : ∀ fs, ((World.mk fs w.fds).close env.tempFd).fds
      = (env.stagingFd, env.stagingIno) :: w₀.fds := by
    intro fs
    rw [hfds]
    refine World.close_last ?_
    rw [List.any_cons, T.fd, Bool.or_false]
    exact decide_eq_false T.fdNe.symm
  unfold writePreset
  cases hdump : env.fails .jsonDump with
  | some e =>
      refine ⟨⟨hadds, hclosed w.fs, hcontent⟩, ⟨nofun, nofun⟩⟩
  | none =>
      refine ⟨⟨hadds.setFile (.inr rfl) hroot _, hclosed _, ?_⟩, ?_⟩
      · exact (Fs.node_setNode_of_ne _ _ T.inoNe.symm).trans hcontent
      · exact ⟨fun h => ⟨rfl, h⟩, And.right⟩

namespace Mid

/-- The staging path denotes the claimed file. -/
theorem staging (M : Mid env w₀ (D, L.stagingName) eT content w) (C : Claimed env L w₀ D)
    (T : TempMade host env w₀ (D, L.stagingName) name eT) :
    w.fs.locate p.staging = .ok (D, L.stagingName) ∧
      w.fs.look (D, L.stagingName) = some env.stagingIno := by
  refine ⟨Fs.locate_keep (M.adds.sub (unnamed C T)) C.staging, M.adds.look_new ?_⟩
  rw [Fs.lookup_cons_ne T.ne.symm]
  exact List.lookup_cons_self

theorem stat_staging (M : Mid env w₀ (D, L.stagingName) eT content w) (C : Claimed env L w₀ D)
    (T : TempMade host env w₀ (D, L.stagingName) name eT) :
    w.fs.stat p.staging = .ok env.stagingIno := by
  obtain ⟨hloc, hlook⟩ := M.staging C T
  exact Fs.stat_of_locate hloc hlook (by rw [M.content]; rfl)

/-- HandBrake writes to the claimed file. -/
theorem encodeInto (M : Mid env w₀ (D, L.stagingName) eT content w) (C : Claimed env L w₀ D)
    (T : TempMade host env w₀ (D, L.stagingName) name eT) (hq : env.Quiet) (data : Option Data) :
    Mid env w₀ (D, L.stagingName) eT (data.getD content) (encodeInto env p.staging data w) := by
  unfold Ops.encodeInto
  rw [hq.act, hq.act]
  cases data with
  | none => exact M
  | some data =>
      have hwrite : w.fs.writeThrough p.staging data
          = w.fs.setNode env.stagingIno (.file data) :=
        Fs.writeThrough_file (M.stat_staging C T) M.content data
      refine ⟨?_, M.fds, ?_⟩
      · show Fs.Adds _ _ _ (w.fs.writeThrough p.staging data)
        rw [hwrite]
        exact M.adds.setFile (.inl rfl) C.root data
      · exact (congrArg (Fs.node · env.stagingIno) hwrite).trans
          ((Fs.node_setNode _ _ _ _ C.root).trans (if_pos rfl))

/-- Nobody replaced the staging file: the check raises only what its calls raise. -/
theorem checkStaging (M : Mid env w₀ (D, L.stagingName) eT content w) (C : Claimed env L w₀ D)
    (T : TempMade host env w₀ (D, L.stagingName) name eT) (hq : env.Quiet) :
    checkStaging env w p.staging = (w, (env.fails .fstat).or (env.fails .stat)) := by
  unfold Ops.checkStaging
  cases env.fails .fstat with
  | some e => rfl
  | none =>
      rw [hq.act]
      cases env.fails .stat with
      | some e => rfl
      | none =>
          have hfd : w.fstat env.stagingFd = some env.stagingIno := by
            rw [World.fstat, M.fds]
            exact List.lookup_cons_self
          dsimp only
          rw [M.stat_staging C T]
          dsimp only
          rw [if_pos hfd]
          rfl

theorem closed (M : Mid env w₀ (D, L.stagingName) eT content w) (C : Claimed env L w₀ D) :
    (w.close env.stagingFd).fds = w₀.fds := by
  have hfds := M.fds
  cases w with
  | mk fs fds =>
      subst hfds
      exact World.close_last C.fd

end Mid

/-! ## Publishing -/

/-- The temporary file's path still denotes its entry where only own files were added. -/
theorem locate_temp {new : List (Entry × Ino)} {fs : Fs} (C : Claimed env L w₀ D)
    (T : TempMade host env w₀ (D, L.stagingName) name eT)
    (h : Fs.Adds (own env) new w₀.fs fs) : fs.locate (tempPath host name) = .ok eT :=
  Fs.locate_keep (h.sub (unnamed C T)) T.located

/-- Removing the temporary file from a file system it was added to. -/
theorem removeTemp_adds {new : List (Entry × Ino)} (C : Claimed env L w₀ D)
    (T : TempMade host env w₀ (D, L.stagingName) name eT)
    (h : Fs.Adds (own env) ((eT, env.tempIno) :: new) w₀.fs w.fs) :
    Fs.Adds (own env) (new.filter (·.1 ≠ eT)) w₀.fs (removeTemp w (tempPath host name)).fs ∧
      (removeTemp w (tempPath host name)).fds = w.fds := by
  obtain ⟨-, data, hfile⟩ := h.own (eT, env.tempIno) List.mem_cons_self
  have hunlink := Fs.unlink_file (locate_temp C T h) (h.look_new List.lookup_cons_self) hfile
  unfold removeTemp
  rw [hunlink]
  have hhide := h.hide T.free
  rw [List.filter_cons_of_neg (by simp)] at hhide
  exact ⟨hhide, rfl⟩

/-- `_remove_partial` removes the staging file. -/
theorem removePartial_adds (C : Claimed env L w₀ D)
    (T : TempMade host env w₀ (D, L.stagingName) name eT)
    (h : Fs.Adds (own env) [(eT, env.tempIno), ((D, L.stagingName), env.stagingIno)] w₀.fs w.fs) :
    Fs.Adds (own env) [(eT, env.tempIno)] w₀.fs (removePartial w p.staging).fs ∧
      (removePartial w p.staging).fds = w.fds := by
  have hlook : w.fs.look (D, L.stagingName) = some env.stagingIno := h.look_new (by
    rw [Fs.lookup_cons_ne T.ne.symm]
    exact List.lookup_cons_self)
  have hloc := Fs.locate_keep (h.sub (unnamed C T)) C.staging
  obtain ⟨-, data, hfile⟩ := h.own ((D, L.stagingName), env.stagingIno) (by simp)
  have hexists := Fs.lexists_of_locate hloc hlook
  unfold removePartial
  rw [if_pos hexists, Fs.unlink_file hloc hlook hfile]
  have hhide := h.hide C.free
  rw [List.filter_cons_of_pos (by simpa using T.ne), List.filter_cons_of_neg (by simp)] at hhide
  exact ⟨hhide, rfl⟩

/-- The `except` arm takes the staging file away. -/
theorem dropClaim_adds {i : Inner} (C : Claimed env L w₀ D)
    (T : TempMade host env w₀ (D, L.stagingName) name eT)
    (h : Fs.Adds (own env) [(eT, env.tempIno), ((D, L.stagingName), env.stagingIno)]
      w₀.fs i.world.fs) :
    Fs.Adds (own env) [(eT, env.tempIno)] w₀.fs (dropClaim env p i).fs ∧
      (dropClaim env p i).fds
        = (if i.fdOpen then i.world.close env.stagingFd else i.world).fds := by
  unfold dropClaim
  cases i.fdOpen with
  | true => exact removePartial_adds (w := i.world.close env.stagingFd) C T h
  | false => exact removePartial_adds (w := i.world) C T h

/-- A directory at the output path: the rename is refused. -/
def dirAtOutput (p : Plan) (fs : Fs) : Prop :=
  ∃ e i, fs.locate p.dst = .ok e ∧ fs.look e = some i ∧ fs.node i = .dir

theorem dirAtOutput_iff (C : Claimed env L w₀ D) : dirAtOutput p w₀.fs ↔
    (w₀.fs.look (D, L.dstName)).map w₀.fs.node = some .dir := by
  constructor
  · rintro ⟨e, i, he, hi, hdir⟩
    rw [C.dst] at he
    cases he
    rw [hi, Option.map_some, hdir]
  · intro h
    obtain ⟨i, hi, hdir⟩ := Option.map_eq_some_iff.mp h
    exact ⟨_, i, C.dst, hi, hdir⟩

/-- The output entry is neither of the two new ones. -/
theorem look_dst {fs : Fs} (T : TempMade host env w₀ (D, L.stagingName) name eT)
    (h : Fs.Adds (own env) [(eT, env.tempIno), ((D, L.stagingName), env.stagingIno)] w₀.fs fs) :
    fs.look (D, L.dstName) = w₀.fs.look (D, L.dstName) := by
  refine h.look_old ?_
  rw [Fs.lookup_cons_ne T.dst_ne, Fs.lookup_cons_ne (L.staging_ne D).symm]
  rfl

/-- The rename puts the claimed file at the output path, or finds a directory there. -/
theorem rename_quiet {fs : Fs} (C : Claimed env L w₀ D)
    (T : TempMade host env w₀ (D, L.stagingName) name eT)
    (h : Fs.Adds (own env) [(eT, env.tempIno), ((D, L.stagingName), env.stagingIno)] w₀.fs fs) :
    fs.rename p.staging p.dst =
      if (w₀.fs.look (D, L.dstName)).map w₀.fs.node = some .dir then .error .isdir
      else .ok ((fs.hide (D, L.stagingName)).setEntry (D, L.dstName) env.stagingIno) := by
  have hsub := h.sub (unnamed C T)
  have hdst := look_dst T h
  have hlook : fs.look (D, L.stagingName) = some env.stagingIno := h.look_new (by
    rw [Fs.lookup_cons_ne T.ne.symm]
    exact List.lookup_cons_self)
  have hnode : (fs.look (D, L.dstName)).map fs.node
      = (w₀.fs.look (D, L.dstName)).map w₀.fs.node := by
    rw [hdst]
    cases hd : w₀.fs.look (D, L.dstName) with
    | none => rfl
    | some j =>
        have hown : ¬ own env j := fun ho =>
          absurd (Fs.linked_of_look hd) (Bool.eq_false_iff.mp (unnamed C T j ho))
        rw [Option.map_some, Option.map_some, h.node j hown]
  have hne : fs.look (D, L.dstName) ≠ some env.stagingIno :=
    hdst ▸ World.look_ne_of_free C.ino (D, L.dstName)
  rw [Fs.rename_of_locate (Fs.locate_keep hsub C.staging) (Fs.locate_keep hsub C.dst) hlook,
    if_neg hne, hnode]

/-- After the rename: the initial file system with the claimed file at the output path. -/
theorem adds_renamed {fs : Fs} (C : Claimed env L w₀ D)
    (T : TempMade host env w₀ (D, L.stagingName) name eT)
    (h : Fs.Adds (own env) [(eT, env.tempIno), ((D, L.stagingName), env.stagingIno)] w₀.fs fs) :
    Fs.Adds (own env) [(eT, env.tempIno), ((D, L.dstName), env.stagingIno)]
      (w₀.fs.hide (D, L.dstName))
      ((fs.hide (D, L.stagingName)).setEntry (D, L.dstName) env.stagingIno) where
  look e := by
    rw [Fs.look_setEntry, Fs.look_hide, Fs.look_hide, h.look]
    by_cases hd : e = (D, L.dstName)
    · rw [if_pos hd, hd, Fs.lookup_cons_ne T.dst_ne, List.lookup_cons_self]
      rfl
    rw [if_neg hd, if_neg hd]
    by_cases ht : e = eT
    · rw [if_neg (ht ▸ T.ne), ht, List.lookup_cons_self, List.lookup_cons_self]
    rw [Fs.lookup_cons_ne ht, Fs.lookup_cons_ne ht, Fs.lookup_cons_ne hd]
    by_cases hg : e = (D, L.stagingName)
    · rw [if_pos hg, hg, C.free]
      rfl
    · rw [if_neg hg, Fs.lookup_cons_ne hg]
  node := h.node
  fresh q hq := by
    rw [Fs.look_hide]
    split
    · rfl
    · rename_i hne
      rcases List.mem_cons.mp hq with rfl | hq
      · exact T.free
      · rw [List.mem_singleton.mp hq] at hne
        exact absurd rfl hne
  own q hq := by
    have hmem : ∃ e, (e, q.2) ∈ [(eT, env.tempIno), ((D, L.stagingName), env.stagingIno)] := by
      rcases List.mem_cons.mp hq with rfl | hq
      · exact ⟨_, List.mem_cons_self⟩
      · rw [List.mem_singleton.mp hq]
        exact ⟨_, List.mem_cons_of_mem _ List.mem_cons_self⟩
    obtain ⟨e, he⟩ := hmem
    exact h.own (e, q.2) he

/-! ## The ways a run ends -/

/-- The command HandBrake is started with. -/
def encodeCommand (host : Host) (req : EncodeRequest) (p : Plan) (name : RandomName) : List PyStr :=
  buildEncodeCommand host p.src p.staging (tempPath host name) req.presetName

/-- Every step after the preset was written succeeds. -/
structure EncodeSucceeds (host : Host) (env : Env) (req : EncodeRequest) (p : Plan) (fs : Fs)
    (name : RandomName) : Prop where
  encode : (env.encode (encodeCommand host req p name)).outcome = .returned
  fstat : env.fails .fstat = none
  stat : env.fails .stat = none
  replace : env.fails .replace = none
  output : ¬ dirAtOutput p fs

/-- The end of the inner `try` block of a job alone with the file system. -/
inductive InnerEnds (env : Env) (w₀ : World) (D : Ino) (eT : Entry) (content : Data)
    (L : Layout p) (succeeds : Prop) (i : Inner) : Prop
  | raised (e : PyExc) : i.outcome = .raised e → ¬ succeeds →
      Fs.Adds (own env) [(eT, env.tempIno), ((D, L.stagingName), env.stagingIno)]
        w₀.fs i.world.fs →
      (if i.fdOpen then i.world.close env.stagingFd else i.world).fds = w₀.fds →
      InnerEnds env w₀ D eT content L succeeds i
  | returned : i.outcome = .returned → succeeds →
      Fs.Adds (own env) [(eT, env.tempIno), ((D, L.dstName), env.stagingIno)]
        (w₀.fs.hide (D, L.dstName)) i.world.fs →
      i.world.fds = w₀.fds → i.world.fs.node env.stagingIno = .file content →
      InnerEnds env w₀ D eT content L succeeds i

theorem swapIn_ends (C : Claimed env L w₀ D)
    (T : TempMade host env w₀ (D, L.stagingName) name eT)
    (M : Mid env w₀ (D, L.stagingName) eT content w)
    (hencode : (env.encode (encodeCommand host req p name)).outcome = .returned)
    (hfstat : env.fails .fstat = none) (hstat : env.fails .stat = none) :
    InnerEnds env w₀ D eT content L (EncodeSucceeds host env req p w₀.fs name)
      (swapIn env p w) := by
  have hopen := M.closed C
  unfold swapIn
  cases hreplace : env.fails .replace with
  | some e =>
      refine .raised e rfl (fun S => ?_) M.adds hopen
      exact nomatch hreplace.symm.trans S.replace
  | none =>
      have hrename : (w.close env.stagingFd).fs.rename p.staging p.dst = _ :=
        rename_quiet C T M.adds
      dsimp only
      rw [hrename]
      by_cases hdir : (w₀.fs.look (D, L.dstName)).map w₀.fs.node = some .dir
      · rw [if_pos hdir]
        refine .raised _ rfl (fun S => ?_) M.adds hopen
        exact S.output ((dirAtOutput_iff C).mpr hdir)
      · rw [if_neg hdir]
        refine .returned rfl ⟨hencode, hfstat, hstat, hreplace, fun h => ?_⟩
          (adds_renamed C T M.adds) hopen M.content
        exact hdir ((dirAtOutput_iff C).mp h)

theorem publish_ends (req : EncodeRequest) (C : Claimed env L w₀ D)
    (T : TempMade host env w₀ (D, L.stagingName) name eT) (hq : env.Quiet)
    (M : Mid env w₀ (D, L.stagingName) eT [] w) :
    InnerEnds env w₀ D eT ((env.encode (encodeCommand host req p name)).data.getD []) L
      (EncodeSucceeds host env req p w₀.fs name)
      (publish env p (env.encode (encodeCommand host req p name)) w) := by
  have M' := M.encodeInto C T hq (env.encode (encodeCommand host req p name)).data
  have hopen := M'.closed C
  unfold publish
  cases hrun : (env.encode (encodeCommand host req p name)).outcome with
  | raised e =>
      refine .raised e rfl (fun S => ?_) M'.adds hopen
      exact nomatch hrun.symm.trans S.encode
  | returned =>
      dsimp only
      rw [M'.checkStaging C T hq]
      cases hfstat : env.fails .fstat with
      | some e =>
          refine .raised e rfl (fun S => ?_) M'.adds hopen
          exact nomatch hfstat.symm.trans S.fstat
      | none =>
          cases hstat : env.fails .stat with
          | some e =>
              refine .raised e rfl (fun S => ?_) M'.adds hopen
              exact nomatch hstat.symm.trans S.stat
          | none => exact swapIn_ends C T M' hrun hfstat hstat

/-- The claim was made: the plan, its layout, and the directory. -/
structure ClaimMade (host : Host) (env : Env) (jobId : PyStr) (req : EncodeRequest) (w₀ : World)
    (L : Layout p) (D : Ino) : Prop where
  plan : prepare host env w₀.fs jobId req = .ok p
  claim : claimStaging env w₀ p.staging = .ok (claimWorld env w₀ (D, L.stagingName))
  claimed : Claimed env L w₀ D

theorem afterTry_raised (env : Env) (p : Plan) {i : Inner} {e : PyExc} (h : i.outcome = .raised e) :
    afterTry env p i = dropClaim env p i := by
  rw [afterTry, h]

theorem afterTry_returned (env : Env) (p : Plan) {i : Inner} (h : i.outcome = .returned) :
    afterTry env p i = i.world := by
  rw [afterTry, h]

/-- The ways a run ends, with the file system it leaves. -/
inductive Ends (host : Host) (env : Env) (jobId : PyStr) (req : EncodeRequest) (w₀ : World)
    (r : JobRun) : Prop
  /-- Nothing was claimed. -/
  | refused (e : PyExc) : r.world = w₀ → r.result = .raised e →
      (∀ p w, prepare host env w₀.fs jobId req = .ok p → claimStaging env w₀ p.staging ≠ .ok w) →
      Ends host env jobId req w₀ r
  /-- The claim was made, the temporary file was not. -/
  | noTemp {p : Plan} {L : Layout p} {D : Ino} (e : PyExc) :
      ClaimMade host env jobId req w₀ L D → r.result = .raised e →
      makeTemp host env (claimWorld env w₀ (D, L.stagingName)) = .error e →
      r.world = claimWorld env w₀ (D, L.stagingName) → Ends host env jobId req w₀ r
  /-- The preset could not be written. -/
  | notWritten {p : Plan} {L : Layout p} {D : Ino} {eT : Entry} {name : RandomName} (e : PyExc) :
      ClaimMade host env jobId req w₀ L D →
      TempMade host env w₀ (D, L.stagingName) name eT →
      (∃ w, makeTemp host env (claimWorld env w₀ (D, L.stagingName)) = .ok (w, name)) →
      ¬ (env.fails .jsonDump = none ∧ env.fails .handleClose = none) → r.result = .raised e →
      Fs.Adds (own env) [((D, L.stagingName), env.stagingIno)] w₀.fs r.world.fs →
      r.world.fds = w₀.fds → Ends host env jobId req w₀ r
  /-- The encode, the check or the rename raised. -/
  | notPublished {p : Plan} {L : Layout p} {D : Ino} {eT : Entry} {name : RandomName}
      (e : PyExc) :
      ClaimMade host env jobId req w₀ L D →
      TempMade host env w₀ (D, L.stagingName) name eT →
      (∃ w, makeTemp host env (claimWorld env w₀ (D, L.stagingName)) = .ok (w, name)) →
      env.fails .jsonDump = none → env.fails .handleClose = none →
      ¬ EncodeSucceeds host env req p w₀.fs name → r.result = .raised e →
      Fs.Adds (own env) [] w₀.fs r.world.fs → r.world.fds = w₀.fds →
      Ends host env jobId req w₀ r
  /-- The file was published; `rest` is the temporary file when it could not be removed. -/
  | published {p : Plan} {L : Layout p} {D : Ino} {eT : Entry} {name : RandomName}
      (rest : List (Entry × Ino)) :
      ClaimMade host env jobId req w₀ L D →
      TempMade host env w₀ (D, L.stagingName) name eT →
      (∃ w, makeTemp host env (claimWorld env w₀ (D, L.stagingName)) = .ok (w, name)) →
      env.fails .jsonDump = none → env.fails .handleClose = none →
      EncodeSucceeds host env req p w₀.fs name → r.result = .returned →
      (rest = [] ∨ rest = [(eT, env.tempIno)]) →
      Fs.Adds (own env) (rest ++ [((D, L.dstName), env.stagingIno)])
        (w₀.fs.hide (D, L.dstName)) r.world.fs →
      r.world.fds = w₀.fds →
      r.world.fs.node env.stagingIno
        = .file ((env.encode (encodeCommand host req p name)).data.getD []) →
      Ends host env jobId req w₀ r

/-- Removing the temporary file after the rename: its path may lead through the output path. -/
theorem removeTemp_renamed (C : Claimed env L w₀ D)
    (T : TempMade host env w₀ (D, L.stagingName) name eT)
    (h : Fs.Adds (own env) [(eT, env.tempIno), ((D, L.dstName), env.stagingIno)]
      (w₀.fs.hide (D, L.dstName)) w.fs) :
    ∃ rest, (rest = [] ∨ rest = [(eT, env.tempIno)]) ∧
      Fs.Adds (own env) (rest ++ [((D, L.dstName), env.stagingIno)])
        (w₀.fs.hide (D, L.dstName)) (removeTemp w (tempPath host name)).fs ∧
      (removeTemp w (tempPath host name)).fds = w.fds ∧
      ∀ i, (removeTemp w (tempPath host name)).fs.node i = w.fs.node i := by
  unfold removeTemp
  cases hunlink : w.fs.unlink (tempPath host name) with
  | error e => exact ⟨[(eT, env.tempIno)], .inr rfl, h, rfl, fun _ => rfl⟩
  | ok fs =>
      obtain ⟨e, he, rfl⟩ := Fs.unlink_ok hunlink
      -- what the path denotes now it denoted at the start, and that is the new entry
      have hback := Fs.locate_keep (h.sup ((unnamed C T).hide (D, L.dstName))) he
      have hstart := Fs.locate_keep (Fs.SubUpTo.hide w₀.fs (D, L.dstName)) hback
      rw [T.located] at hstart
      cases hstart
      have hfree : (w₀.fs.hide (D, L.dstName)).look eT = none := h.fresh _ List.mem_cons_self
      have hhide := h.hide hfree
      rw [List.filter_cons_of_neg (by simp),
        List.filter_cons_of_pos (by simpa using T.dst_ne)] at hhide
      exact ⟨[], .inl rfl, hhide, rfl, fun _ => rfl⟩

end Quiet

section Run

variable {host : Host} {env : Env} {jobId : PyStr} {req : EncodeRequest} {w₀ w : World}

theorem encodeWithTemp_ends {p : Plan} {L : Layout p} {D : Ino} {eT : Entry} {name : RandomName}
    (hq : env.Quiet) (hC : ClaimMade host env jobId req w₀ L D)
    (T : TempMade host env w₀ (D, L.stagingName) name eT)
    (hmade : ∃ w, makeTemp host env (claimWorld env w₀ (D, L.stagingName)) = .ok (w, name))
    (hfs : w.fs = (claimWorld env w₀ (D, L.stagingName)).fs.create eT env.tempIno (.file []))
    (hfds : w.fds = (env.tempFd, env.tempIno) :: (env.stagingFd, env.stagingIno) :: w₀.fds) :
    Ends host env jobId req w₀ (encodeWithTemp host env req p w name) := by
  have C := hC.claimed
  obtain ⟨M, hexc⟩ := writePreset_quiet req C T hfs hfds
  unfold encodeWithTemp
  cases hwrite : writePreset host env req w with
  | mk w' exc =>
      rw [hwrite] at M hexc
      cases exc with
      | some e =>
          dsimp only
          obtain ⟨hadds, hfds'⟩ := removeTemp_adds (w := w'.close env.stagingFd) C T M.adds
          rw [List.filter_cons_of_pos (by simpa using T.ne.symm)] at hadds
          refine .notWritten e hC T hmade (fun h => ?_) rfl hadds (hfds'.trans (M.closed C))
          exact nomatch hexc.mpr h
      | none =>
          obtain ⟨hdump, hclose⟩ := hexc.mp rfl
          dsimp only
          rw [hq.act]
          rcases publish_ends req C T hq M with
            ⟨e, hout, hfails, hadds, hfds'⟩ | ⟨hout, hsucceeds, hadds, hfds', hcontent⟩
          · obtain ⟨hdropped, hclosed⟩ := dropClaim_adds C T hadds
            obtain ⟨hremoved, hsame⟩ := removeTemp_adds C T hdropped
            have hafter := afterTry_raised env p hout
            refine .notPublished e hC T hmade hdump hclose hfails hout ?_ ?_
            · exact (congrArg (fun w => (removeTemp w _).fs) hafter) ▸ hremoved
            · exact (congrArg (fun w => (removeTemp w _).fds) hafter).trans
                (hsame.trans (hclosed.trans hfds'))
          · obtain ⟨rest, hrest, hremoved, hsame, hnode⟩ := removeTemp_renamed C T hadds
            have hafter := afterTry_returned env p hout
            refine .published rest hC T hmade hdump hclose hsucceeds hout hrest ?_ ?_ ?_
            · exact (congrArg (fun w => (removeTemp w _).fs) hafter) ▸ hremoved
            · exact (congrArg (fun w => (removeTemp w _).fds) hafter).trans (hsame.trans hfds')
            · exact (congrArg (fun w => (removeTemp w _).fs.node _) hafter).trans
                ((hnode _).trans hcontent)

/-- **The ways a run ends.** -/
theorem runEncodeJob_ends (host : Host) (jobId : PyStr) (req : EncodeRequest) (w₀ : World)
    (hq : env.Quiet) :
    Ends host env jobId req w₀ (runEncodeJob host env jobId req w₀) := by
  rcases runEncodeJob_course host env jobId req w₀ with ⟨e, hp, hrun⟩ | ⟨p, e, hp, hc, hrun⟩ |
    ⟨p, w, e, hp, hc, hm, hrun⟩ | ⟨p, w, w₁, name, hp, hc, hm, hrun⟩
  · rw [hrun]
    refine .refused e rfl rfl fun p w hp' => ?_
    rw [hp] at hp'
    cases hp'
  · rw [hrun]
    refine .refused e rfl rfl fun p' w hp' hc' => ?_
    rw [hp] at hp'
    cases hp'
    rw [hc] at hc'
    cases hc'
  · obtain ⟨-, ⟨L⟩⟩ := prepare_ok hp
    obtain ⟨-, D, C, rfl⟩ := claimStaging_ok L hc
    rw [hq.act] at hm hrun
    rw [hrun]
    exact .noTemp e ⟨hp, hc, C⟩ rfl hm rfl
  · obtain ⟨-, ⟨L⟩⟩ := prepare_ok hp
    obtain ⟨-, D, C, rfl⟩ := claimStaging_ok L hc
    rw [hq.act] at hm hrun
    obtain ⟨-, eT, T, hfs, hfds⟩ := makeTemp_ok C hm
    rw [hrun]
    exact encodeWithTemp_ends hq ⟨hp, hc, C⟩ T ⟨w₁, hm⟩ hfs hfds

end Run

/-! ## A small file system -/

/-- `/data/movie.mkv` and an empty `/tmp`. -/
def sampleFs : Fs where
  entries := [((0, "data".toList), 1), ((1, "movie.mkv".toList), 2), ((0, "tmp".toList), 3)]
  nodes i := if i = 2 then .file [7] else .dir
  gen _ := 0

def sampleHost : Host where
  allowedRoots := ["/data".toList]
  handbrakeBin := "HandBrakeCLI".toList
  cwd := ['/']
  tempDir := "/tmp".toList
  frames := 900
  presetFrames := 900
  repr := { printable := fun _ => true, float := fun _ => [] }
  dumps _ := []

def sampleRequest (path : PyStr) : EncodeRequest where
  sourcePath := path
  presetJson := [("PresetList".toList, .arr [.obj [("PresetName".toList, .str "P1".toList),
    ("VideoEncoder".toList, .str "x264".toList), ("FileFormat".toList, .str "av_mkv".toList)]])]
  presetName := "P1".toList

/-- Every call succeeds; HandBrake writes two bytes and exits 0. -/
def sampleEnv : Env where
  token := "0123456789abcdef".toList
  stagingFd := 3
  stagingIno := 10
  tempNames := [⟨"a".toList, by decide⟩]
  tempFd := 4
  tempIno := 11
  fails _ := none
  encode _ := { stores := [], data := some [8, 9], outcome := .returned }
  others _ w := w.fs

/-- The plan of the job `J` for `/data/movie.mkv`. -/
def samplePlan : Plan where
  src := "/data/movie.mkv".toList
  encoder := "x264".toList
  dst := "/data/.hbenc-J.mkv".toList
  staging := "/data/.hbenc-J-0123456789abcdef.mkv".toList

/-- The sample environment with one call that raises. -/
def sampleEnv.failing (call : Call) (e : PyExc) : Env :=
  { sampleEnv with fails := fun c => if c = call then some e else none }

end HandBrakeEncoder.Ops
