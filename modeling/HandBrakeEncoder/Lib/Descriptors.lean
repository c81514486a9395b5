/-
# `Lib.Descriptors` — open files, new files, other processes

A `World` is a file system with every open descriptor.  An inode number that
is linked or open is not given out again (`World.inUse`), so a descriptor keeps
the identity of its file: `Interference.gen` says it of anything other processes
do.

`Adds` compares two file systems that differ by files of one's own: whatever
resolved before still does (`Adds.sub`), and what is found now was there before
unless it ends at one of those files (`Adds.sup`).
-/
import HandBrakeEncoder.Lib.FileSystem
import Mathlib.Logic.Relation

namespace Posix

/-! ## Open descriptors -/

/-- The file system and every open descriptor. -/
structure World where
  fs : Fs
  fds : List (Fd × Ino)

namespace World

/-- Some descriptor is open on the inode. -/
def isOpen (w : World) (i : Ino) : Bool := w.fds.any (·.2 = i)

/-- Linked or open: the inode number is not free. -/
def inUse (w : World) (i : Ino) : Bool := w.fs.linked i || w.isOpen i

/-- `open` with `O_CREAT | O_EXCL | O_NOFOLLOW`: a new regular file, or nothing. -/
def openExcl (w : World) (path : List Char) (fd : Fd) (i : Ino) : Except Errno World :=
  match w.fs.locate path with
  | .error e => .error e
  | .ok e =>
      if (w.fs.look e).isSome then .error .exist
      else if w.inUse i then .error .nospc
      else if w.fds.any (·.1 = fd) then .error .mfile
      else .ok { fs := w.fs.create e i (.file []), fds := (fd, i) :: w.fds }

def close (w : World) (fd : Fd) : World := { w with fds := w.fds.filter (·.1 ≠ fd) }

/-- `fstat`: the inode of a descriptor. -/
def fstat (w : World) (fd : Fd) : Option Ino := w.fds.lookup fd

/-- What an exclusive open did: a new entry, naming a free inode. -/
theorem openExcl_ok {w w' : World} {path : List Char} {fd : Fd} {i : Ino}
    (h : w.openExcl path fd i = .ok w') : ∃ e, w.fs.locate path = .ok e ∧ w.fs.look e = none ∧
      w.inUse i = false ∧ w.fds.any (·.1 = fd) = false ∧
      w' = { fs := w.fs.create e i (.file []), fds := (fd, i) :: w.fds } := by
  rw [openExcl] at h
  split at h
  · cases h
  rename_i e he
  split at h
  · cases h
  rename_i hfree
  split at h
  · cases h
  rename_i hino
  split at h
  · cases h
  rename_i hfd
  cases h
  exact ⟨e, he, Option.not_isSome_iff_eq_none.mp hfree, Bool.eq_false_iff.mpr hino,
    Bool.eq_false_iff.mpr hfd, rfl⟩

/-- A free inode number is not the root's, and nothing names it. -/
theorem ne_root_of_free {w : World} {i : Ino} (h : w.inUse i = false) : i ≠ rootIno := by
  rintro rfl
  simp [inUse, Fs.linked] at h

theorem look_ne_of_free {w : World} {i : Ino} (h : w.inUse i = false) (e : Entry) :
    w.fs.look e ≠ some i := by
  intro he
  have := Fs.linked_of_look he
  simp [inUse, this] at h

theorem fstat_close_ne {w : World} {fd fd' : Fd} (hne : fd ≠ fd') :
    (w.close fd').fstat fd = w.fstat fd := by
  obtain ⟨fs, fds⟩ := w
  show (fds.filter (·.1 ≠ fd')).lookup fd = fds.lookup fd
  induction fds with
  | nil => rfl
  | cons q fds ih =>
      obtain ⟨k, i⟩ := q
      by_cases hk : k = fd'
      · rw [List.filter_cons_of_neg (by simpa using hk), ih, List.lookup_cons,
          beq_eq_false_iff_ne.mpr (hk ▸ hne)]
      · rw [List.filter_cons_of_pos (by simpa using hk), List.lookup_cons, List.lookup_cons, ih]

/-- Closing the descriptor opened last leaves the others. -/
theorem close_last {fs : Fs} {fds : List (Fd × Ino)} {fd : Fd} {i : Ino}
    (h : fds.any (·.1 = fd) = false) : (World.close ⟨fs, (fd, i) :: fds⟩ fd).fds = fds := by
  have hrest : ∀ p ∈ fds, p.1 ≠ fd := by simpa using h
  show ((fd, i) :: fds).filter (·.1 ≠ fd) = fds
  rw [List.filter_cons_of_neg (by simp)]
  exact List.filter_eq_self.mpr fun p hp => by simpa using hrest p hp

end World

/-! ## Other processes -/

/-- One operation of another process.  An inode number still `held` is not given out. -/
inductive Other (held : Ino → Bool) : Fs → Fs → Prop
  | create {fs : Fs} {e : Entry} {i : Ino} (n : Node) : fs.look e = none →
      fs.linked i = false → held i = false → Other held fs (fs.create e i n)
  | unlink {fs : Fs} (e : Entry) : Other held fs (fs.hide e)
  | rename {fs : Fs} {e : Entry} {i : Ino} (e' : Entry) : fs.look e = some i →
      Other held fs ((fs.hide e).setEntry e' i)
  | hardLink {fs : Fs} {e e' : Entry} {i : Ino} : fs.look e = some i → fs.look e' = none →
      Other held fs (fs.setEntry e' i)
  | write {fs : Fs} {i : Ino} {data : Data} (data' : Data) : fs.node i = .file data →
      Other held fs (fs.setNode i (.file data'))

/-- Any number of operations of other processes. -/
def Interference (held : Ino → Bool) : Fs → Fs → Prop := Relation.ReflTransGen (Other held)

/-- A held inode number keeps its file. -/
theorem Interference.gen {held : Ino → Bool} {fs fs' : Fs} (h : Interference held fs fs')
    {i : Ino} (hi : held i = true) : fs'.gen i = fs.gen i := by
  induction h with
  | refl => rfl
  | tail _ hstep ih =>
      rw [← ih]
      cases hstep with
      | create n hfree hlinked hheld =>
          refine Function.update_of_ne ?_ _ _
          rintro rfl
          exact absurd hi (by simp [hheld])
      | unlink e => rfl
      | rename e' hi => rfl
      | hardLink hi hfree => rfl
      | write data' hfile => rfl

/-! ## A file system with new files in it -/

namespace Fs

/-- `fs` is `fs₀` with the entries `new`, which name files of one's own; only the inodes one
owns differ. -/
structure Adds (Own : Ino → Prop) (new : List (Entry × Ino)) (fs₀ fs : Fs) : Prop where
  look : ∀ e, fs.look e = (new.lookup e).or (fs₀.look e)
  node : ∀ i, ¬ Own i → fs.node i = fs₀.node i
  fresh : ∀ q ∈ new, fs₀.look q.1 = none
  own : ∀ q ∈ new, Own q.2 ∧ ∃ data, fs.node q.2 = .file data

/-- Nothing names the inodes one owns. -/
def Unnamed (Own : Ino → Prop) (fs : Fs) : Prop := ∀ i, Own i → fs.linked i = false

theorem Unnamed.hide {Own : Ino → Prop} {fs : Fs} (h : Unnamed Own fs) (e : Entry) :
    Unnamed Own (fs.hide e) := fun i hi =>
  Bool.eq_false_iff.mpr fun hl => Bool.eq_false_iff.mp (h i hi) (linked_of_hide hl)

namespace Adds

variable {Own : Ino → Prop} {new : List (Entry × Ino)} {fs₀ fs : Fs} {e : Entry} {i : Ino}

theorem none : Adds Own [] fs fs where
  look _ := rfl
  node _ _ := rfl
  fresh _ hq := absurd hq List.not_mem_nil
  own _ hq := absurd hq List.not_mem_nil

theorem mono {Own' : Ino → Prop} (h : Adds Own new fs₀ fs) (hsub : ∀ i, Own i → Own' i) :
    Adds Own' new fs₀ fs where
  look := h.look
  node i hi := h.node i fun ho => hi (hsub i ho)
  fresh := h.fresh
  own q hq := ⟨hsub _ (h.own q hq).1, (h.own q hq).2⟩

/-- One more new file. -/
theorem create (h : Adds Own new fs₀ fs) (he : fs.look e = .none) (hi : Own i)
    (hroot : i ≠ rootIno) : Adds Own ((e, i) :: new) fs₀ (fs.create e i (.file [])) where
  look e' := by
    rw [look_create, h.look]
    by_cases hee : e' = e
    · rw [if_pos hee, hee, List.lookup_cons_self]
      rfl
    · rw [if_neg hee, lookup_cons_ne hee]
  node j hj := by
    have hji : j ≠ i := fun hji => hj (hji ▸ hi)
    rw [node_create _ _ _ _ _ hroot, if_neg hji, h.node j hj]
  fresh q hq := by
    rcases List.mem_cons.mp hq with rfl | hq
    · rw [h.look] at he
      exact (Option.or_eq_none_iff.mp he).2
    · exact h.fresh q hq
  own q hq := by
    rcases List.mem_cons.mp hq with rfl | hq
    · exact ⟨hi, [], by rw [node_create _ _ _ _ _ hroot, if_pos rfl]⟩
    · obtain ⟨ho, data, hdata⟩ := h.own q hq
      by_cases hqi : q.2 = i
      · exact ⟨ho, [], by rw [node_create _ _ _ _ _ hroot, if_pos hqi]⟩
      · exact ⟨ho, data, by rw [node_create _ _ _ _ _ hroot, if_neg hqi, hdata]⟩

/-- Writing to a file of one's own. -/
theorem setFile (h : Adds Own new fs₀ fs) (hi : Own i) (hroot : i ≠ rootIno) (data : Data) :
    Adds Own new fs₀ (fs.setNode i (.file data)) where
  look := h.look
  node j hj := by
    have hji : j ≠ i := fun hji => hj (hji ▸ hi)
    rw [node_setNode_of_ne fs _ hji, h.node j hj]
  fresh := h.fresh
  own q hq := by
    obtain ⟨ho, d, hd⟩ := h.own q hq
    by_cases hqi : q.2 = i
    · exact ⟨ho, data, by rw [node_setNode _ _ _ _ hroot, if_pos hqi]⟩
    · exact ⟨ho, d, by rw [node_setNode_of_ne fs _ hqi, hd]⟩

/-- Removing a new entry again. -/
theorem hide (h : Adds Own new fs₀ fs) (he : fs₀.look e = .none) :
    Adds Own (new.filter (·.1 ≠ e)) fs₀ (fs.hide e) where
  look e' := by
    rw [look_hide, lookup_filter_ne, h.look]
    by_cases hee : e' = e
    · rw [if_pos hee, if_pos hee, hee, he]
      rfl
    · rw [if_neg hee, if_neg hee]
  node := h.node
  fresh q hq := h.fresh q (List.mem_filter.mp hq).1
  own q hq := h.own q (List.mem_filter.mp hq).1

theorem look_new (h : Adds Own new fs₀ fs) (he : new.lookup e = some i) :
    fs.look e = some i := by
  rw [h.look, he]
  rfl

theorem look_old (h : Adds Own new fs₀ fs) (he : new.lookup e = .none) :
    fs.look e = fs₀.look e := by
  rw [h.look, he]
  rfl

/-- Everything that was there still is. -/
theorem sub (h : Adds Own new fs₀ fs) (hu : Unnamed Own fs₀) :
    SubUpTo (fun _ => False) fs₀ fs where
  entry := by
    intro e i hi
    have hnew : new.lookup e = .none := by
      cases hl : new.lookup e with
      | none => rfl
      | some j =>
          obtain ⟨l₁, l₂, hsplit, -⟩ := List.lookup_eq_some_iff.mp hl
          have hfree := h.fresh (e, j) (by simp [hsplit])
          rw [hi] at hfree
          cases hfree
    have hown : ¬ Own i := fun ho => by
      have hlinked := linked_of_look hi
      rw [hu i ho] at hlinked
      cases hlinked
    exact .inl ⟨(h.look_old hnew).trans hi, h.node i hown ▸ .rfl⟩
  file := False.elim

/-- What was not there before is a file of one's own. -/
theorem sup (h : Adds Own new fs₀ fs) (hu : Unnamed Own fs₀) :
    SubUpTo (fun i => Own i ∧ ∃ data, fs.node i = .file data) fs fs₀ where
  entry := by
    intro e i hi
    cases hl : new.lookup e with
    | none =>
        rw [h.look_old hl] at hi
        have hown : ¬ Own i := fun ho => by
          have hlinked := linked_of_look hi
          rw [hu i ho] at hlinked
          cases hlinked
        exact .inl ⟨hi, h.node i hown ▸ .rfl⟩
    | some j =>
        rw [h.look_new hl] at hi
        cases hi
        obtain ⟨l₁, l₂, hsplit, -⟩ := List.lookup_eq_some_iff.mp hl
        exact .inr (h.own (e, i) (by simp [hsplit]))
  file := And.right

end Adds

end Fs

end Posix
