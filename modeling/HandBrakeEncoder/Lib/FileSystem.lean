/-
# `Lib.FileSystem` — directory entries over inodes

A file system is a finite set of directory entries, each naming an inode, and
what each inode is: a directory, a regular file or a symbolic link.  Paths are
resolved as the kernel does it, one component at a time, following links up to
a limit.

**Two levels.**  `walk` is the executable resolution.  `Walks` is the same as a
relation (`Walks.of_walk`, `Walks.walk_eq`), one rule per kind of component, and
every law below is an induction on it.  The directories on the way are kept as a
trail, so that `..` is the last step undone; a directory has one parent, so this
is the parent the kernel finds.

Inode numbers are reused: `gen` counts how many files one has been given to.
Only entries that are not directories are renamed here.
-/
import HandBrakeEncoder.Lib.PosixPath
import Mathlib.Logic.Function.Basic

namespace Posix

abbrev Ino := Nat
abbrev Fd := Nat
abbrev Data := List UInt8

/-- A place in the tree: a directory's inode and a name in it. -/
abbrev Entry := Ino × Name

inductive Node
  | dir
  | file (data : Data)
  | link (target : List Char)
  deriving DecidableEq

/-- The node is not a symbolic link. -/
def Node.direct : Node → Bool
  | .link _ => false
  | _ => true

/-- Same kind of node; two files may differ in content. -/
def Node.SameKind : Node → Node → Prop
  | .file _, .file _ => True
  | a, b => a = b

theorem Node.SameKind.rfl {a : Node} : a.SameKind a := by
  cases a <;> simp [Node.SameKind]

theorem Node.SameKind.dir {b : Node} (h : Node.dir.SameKind b) : b = .dir := by
  cases b <;> simp_all [Node.SameKind]

theorem Node.SameKind.link {t : List Char} {b : Node} (h : (Node.link t).SameKind b) :
    b = .link t := by
  cases b <;> simp_all [Node.SameKind]

theorem Node.SameKind.direct {a b : Node} (h : a.SameKind b) : a.direct = b.direct := by
  cases a <;> cases b <;> simp_all [Node.SameKind, Node.direct]

inductive Errno
  | noent
  | exist
  | notdir
  | isdir
  | loop
  | busy
  | nospc
  | mfile
  deriving DecidableEq

def Errno.strerror : Errno → List Char
  | .noent => "No such file or directory".toList
  | .exist => "File exists".toList
  | .notdir => "Not a directory".toList
  | .isdir => "Is a directory".toList
  | .loop => "Too many levels of symbolic links".toList
  | .busy => "Device or resource busy".toList
  | .nospc => "No space left on device".toList
  | .mfile => "Too many open files".toList

def rootIno : Ino := 0

/-- How many symbolic links one resolution follows. -/
def linkLimit : Nat := 40

structure Fs where
  entries : List (Entry × Ino)
  nodes : Ino → Node
  gen : Ino → Nat

namespace Fs

def node (fs : Fs) (i : Ino) : Node := if i = rootIno then .dir else fs.nodes i

def look (fs : Fs) (e : Entry) : Option Ino := fs.entries.lookup e

/-- Some entry names the inode. -/
def linked (fs : Fs) (i : Ino) : Bool := i = rootIno || fs.entries.any (·.2 = i)

/-- The entry is gone. -/
def hide (fs : Fs) (e : Entry) : Fs := { fs with entries := fs.entries.filter (·.1 ≠ e) }

def setEntry (fs : Fs) (e : Entry) (i : Ino) : Fs :=
  { fs with entries := (e, i) :: fs.entries.filter (·.1 ≠ e) }

def setNode (fs : Fs) (i : Ino) (n : Node) : Fs :=
  { fs with nodes := Function.update fs.nodes i n }

/-- A new inode at a new entry. -/
def create (fs : Fs) (e : Entry) (i : Ino) (n : Node) : Fs :=
  { (fs.setNode i n).setEntry e i with gen := Function.update fs.gen i (fs.gen i + 1) }

/-! ## Entries and nodes after an update -/

theorem lookup_cons_ne {l : List (Entry × Ino)} {e e' : Entry} {i : Ino} (h : e' ≠ e) :
    ((e, i) :: l).lookup e' = l.lookup e' := by
  rw [List.lookup_cons, beq_eq_false_iff_ne.mpr h]

theorem lookup_filter_ne (l : List (Entry × Ino)) (e e' : Entry) :
    (l.filter (·.1 ≠ e)).lookup e' = if e' = e then none else l.lookup e' := by
  induction l with
  | nil => simp
  | cons kv l ih =>
      obtain ⟨k, v⟩ := kv
      by_cases hk : k = e
      · subst hk
        rw [List.filter_cons_of_neg (by simp), ih]
        by_cases he : e' = k
        · simp [he]
        · rw [if_neg he, if_neg he, lookup_cons_ne he]
      · rw [List.filter_cons_of_pos (by simpa using hk)]
        by_cases hek : e' = k
        · subst hek
          rw [if_neg hk, List.lookup_cons_self, List.lookup_cons_self]
        · rw [lookup_cons_ne hek, lookup_cons_ne hek, ih]

@[simp] theorem look_hide (fs : Fs) (e e' : Entry) :
    (fs.hide e).look e' = if e' = e then none else fs.look e' :=
  lookup_filter_ne fs.entries e e'

@[simp] theorem look_setEntry (fs : Fs) (e e' : Entry) (i : Ino) :
    (fs.setEntry e i).look e' = if e' = e then some i else fs.look e' := by
  show ((e, i) :: fs.entries.filter (·.1 ≠ e)).lookup e' = _
  by_cases he : e' = e
  · rw [if_pos he, he, List.lookup_cons_self]
  · rw [if_neg he, lookup_cons_ne he]
    exact (lookup_filter_ne fs.entries e e').trans (if_neg he)

@[simp] theorem look_setNode (fs : Fs) (i : Ino) (n : Node) (e : Entry) :
    (fs.setNode i n).look e = fs.look e := rfl

@[simp] theorem look_create (fs : Fs) (e e' : Entry) (i : Ino) (n : Node) :
    (fs.create e i n).look e' = if e' = e then some i else fs.look e' :=
  look_setEntry (fs.setNode i n) e e' i

@[simp] theorem node_hide (fs : Fs) (e : Entry) (i : Ino) : (fs.hide e).node i = fs.node i := rfl

@[simp] theorem node_setEntry (fs : Fs) (e : Entry) (i j : Ino) :
    (fs.setEntry e i).node j = fs.node j := rfl

theorem node_setNode (fs : Fs) (i j : Ino) (n : Node) (hi : i ≠ rootIno) :
    (fs.setNode i n).node j = if j = i then n else fs.node j := by
  unfold node setNode
  by_cases hj : j = i
  · subst hj
    rw [if_neg hi, if_pos rfl]
    exact Function.update_self ..
  · rw [if_neg hj]
    show (if j = rootIno then Node.dir else Function.update fs.nodes i n j) = _
    rw [Function.update_of_ne hj]

theorem node_setNode_of_ne (fs : Fs) {i j : Ino} (n : Node) (h : j ≠ i) :
    (fs.setNode i n).node j = fs.node j := by
  unfold node setNode
  show (if j = rootIno then Node.dir else Function.update fs.nodes i n j) = _
  rw [Function.update_of_ne h]

theorem node_create (fs : Fs) (e : Entry) (i j : Ino) (n : Node) (hi : i ≠ rootIno) :
    (fs.create e i n).node j = if j = i then n else fs.node j := node_setNode fs i j n hi

@[simp] theorem node_root (fs : Fs) : fs.node rootIno = .dir := if_pos rfl

/-- Linked: the root, or named by an entry. -/
theorem linked_iff {fs : Fs} {i : Ino} :
    fs.linked i = true ↔ i = rootIno ∨ ∃ kv ∈ fs.entries, kv.2 = i := by
  rw [linked, Bool.or_eq_true_iff, List.any_eq_true]
  simp only [decide_eq_true_eq]

theorem linked_of_look {fs : Fs} {e : Entry} {i : Ino} (h : fs.look e = some i) :
    fs.linked i = true := by
  have hmem : (e, i) ∈ fs.entries := by
    obtain ⟨l₁, l₂, hl, -⟩ := List.lookup_eq_some_iff.mp h
    simp [hl]
  exact linked_iff.mpr (.inr ⟨(e, i), hmem, rfl⟩)

/-- An inode still has its entry when another is made. -/
theorem linked_create {fs : Fs} {e : Entry} {i j : Ino} {n : Node} (h : fs.linked i = true)
    (he : fs.look e = none) : (fs.create e j n).linked i = true := by
  rw [linked_iff] at h ⊢
  refine h.imp_right ?_
  rintro ⟨kv, hkv, hi⟩
  have hne : kv.1 ≠ e := fun hk => by
    simpa [hk] using List.lookup_eq_none_iff.mp he kv hkv
  exact ⟨kv, List.mem_cons_of_mem _ (List.mem_filter.mpr ⟨hkv, by simpa using hne⟩), hi⟩

theorem linked_of_hide {fs : Fs} {e : Entry} {i : Ino} (h : (fs.hide e).linked i = true) :
    fs.linked i = true := by
  rw [linked_iff] at h ⊢
  refine h.imp_right ?_
  rintro ⟨kv, hkv, hi⟩
  exact ⟨kv, (List.mem_filter.mp hkv).1, hi⟩

/-! ## Resolution -/

/-- The directory reached: the root when nothing has been entered. -/
def top (trail : List Ino) : Ino := trail.headD rootIno

/-- Follow components from the top of the trail; `onLink` continues at a symbolic link. -/
def walkNames (fs : Fs) (onLink : List Ino → List Char → List Name → Except Errno (List Ino)) :
    List Ino → List Name → Except Errno (List Ino)
  | trail, [] => .ok trail
  | trail, n :: rest =>
      if fs.node (top trail) ≠ .dir then .error .notdir
      else if n = dotdot then walkNames fs onLink trail.tail rest
      else
        match fs.look (top trail, n) with
        | none => .error .noent
        | some i =>
            match fs.node i with
            | .link target => onLink trail target rest
            | .dir | .file _ => walkNames fs onLink (i :: trail) rest

/-- Resolution with at most so many links followed. -/
def walk (fs : Fs) : Nat → List Ino → List Name → Except Errno (List Ino)
  | 0 => walkNames fs fun _ _ _ => .error .loop
  | k + 1 => walkNames fs fun trail target rest =>
      walk fs k (if isAbs target then [] else trail) (components target ++ rest)

/-- `Walks fs k trail names out`: resolving `names` from `trail` ends at `out`. -/
inductive Walks (fs : Fs) : Nat → List Ino → List Name → List Ino → Prop
  | done {k : Nat} {trail : List Ino} : Walks fs k trail [] trail
  | up {k : Nat} {trail out : List Ino} {rest : List Name} : fs.node (top trail) = .dir →
      Walks fs k trail.tail rest out → Walks fs k trail (dotdot :: rest) out
  | enter {k : Nat} {trail out : List Ino} {n : Name} {rest : List Name} {i : Ino} :
      fs.node (top trail) = .dir → n ≠ dotdot → fs.look (top trail, n) = some i →
      (fs.node i).direct = true → Walks fs k (i :: trail) rest out →
      Walks fs k trail (n :: rest) out
  | follow {k : Nat} {trail out : List Ino} {n : Name} {rest : List Name} {i : Ino}
      {target : List Char} :
      fs.node (top trail) = .dir → n ≠ dotdot → fs.look (top trail, n) = some i →
      fs.node i = .link target →
      Walks fs k (if isAbs target then [] else trail) (components target ++ rest) out →
      Walks fs (k + 1) trail (n :: rest) out

/-- One step of the executable resolution, as the relation takes it. -/
theorem walkNames_ok {fs : Fs} {k : Nat}
    {onLink : List Ino → List Char → List Name → Except Errno (List Ino)}
    (hlink : ∀ trail target rest n i out, fs.node (top trail) = .dir → n ≠ dotdot →
      fs.look (top trail, n) = some i → fs.node i = .link target →
      onLink trail target rest = .ok out → Walks fs k trail (n :: rest) out) :
    ∀ {names : List Name} {trail out : List Ino},
      fs.walkNames onLink trail names = .ok out → Walks fs k trail names out := by
  intro names
  induction names with
  | nil =>
      intro trail out h
      cases h
      exact .done
  | cons n rest ih =>
      intro trail out h
      rw [walkNames] at h
      split at h
      · cases h
      rename_i hdir
      have hdir := not_not.mp hdir
      split at h
      · rename_i hn
        subst hn
        exact .up hdir (ih h)
      rename_i hn
      split at h
      · cases h
      rename_i i hi
      split at h
      · rename_i target ht
        exact hlink _ _ _ _ _ _ hdir hn hi ht h
      · rename_i ht
        exact .enter hdir hn hi (by rw [ht]; rfl) (ih h)
      · rename_i ht
        exact .enter hdir hn hi (by rw [ht]; rfl) (ih h)

theorem Walks.of_walk {fs : Fs} {k : Nat} : ∀ {trail : List Ino} {names : List Name}
    {out : List Ino}, fs.walk k trail names = .ok out → Walks fs k trail names out := by
  induction k with
  | zero =>
      refine walkNames_ok fun _ _ _ _ _ _ _ _ _ _ h => ?_
      cases h
  | succ k ih =>
      exact walkNames_ok fun _ _ _ _ _ _ hdir hn hi ht h => .follow hdir hn hi ht (ih h)

theorem Walks.walk_eq {fs : Fs} {k : Nat} {trail : List Ino} {names : List Name}
    {out : List Ino} (h : Walks fs k trail names out) : fs.walk k trail names = .ok out := by
  induction h with
  | @done k trail => cases k <;> rfl
  | @up k trail out rest hdir _ ih => cases k <;> simpa [walk, walkNames, hdir] using ih
  | @enter k trail out n rest i hdir hn hi hd _ ih =>
      cases hnode : fs.node i with
      | link target => rw [hnode] at hd; cases hd
      | dir => cases k <;> simpa [walk, walkNames, hdir, hn, hi, hnode] using ih
      | file data => cases k <;> simpa [walk, walkNames, hdir, hn, hi, hnode] using ih
  | @follow k trail out n rest i target hdir hn hi ht _ ih =>
      simpa [walk, walkNames, hdir, hn, hi, ht] using ih

theorem Walks.unique {fs : Fs} {k : Nat} {trail out out' : List Ino} {names : List Name}
    (h : Walks fs k trail names out) (h' : Walks fs k trail names out') : out = out' :=
  Except.ok.inj (h.walk_eq.symm.trans h'.walk_eq)

/-! ## What a resolution depends on -/

/-- Every entry of `fs` is an entry of `fs'` and names the same kind of node there, up to
entries of lost inodes, which are regular files. -/
structure SubUpTo (Lost : Ino → Prop) (fs fs' : Fs) : Prop where
  entry : ∀ {e i}, fs.look e = some i →
    (fs'.look e = some i ∧ (fs.node i).SameKind (fs'.node i)) ∨ Lost i
  file : ∀ {i}, Lost i → ∃ data, fs.node i = .file data

theorem SubUpTo.hide (fs : Fs) (e : Entry) : SubUpTo (fun _ => False) (fs.hide e) fs where
  entry := by
    intro e' i hi
    rw [look_hide] at hi
    split at hi
    · cases hi
    · exact .inl ⟨hi, .rfl⟩
  file := False.elim

/-- The inodes of a trail are of the same kind in both. -/
def SameTrail (fs fs' : Fs) (trail : List Ino) : Prop :=
  ∀ i ∈ trail, (fs.node i).SameKind (fs'.node i)

theorem SameTrail.nil (fs fs' : Fs) : SameTrail fs fs' [] :=
  fun _ hi => absurd hi List.not_mem_nil

theorem SameTrail.cons {fs fs' : Fs} {trail : List Ino} {i : Ino}
    (hi : (fs.node i).SameKind (fs'.node i)) (h : SameTrail fs fs' trail) :
    SameTrail fs fs' (i :: trail) := by
  intro j hj
  rcases List.mem_cons.mp hj with rfl | hj
  · exact hi
  · exact h j hj

theorem SameTrail.top {fs fs' : Fs} {trail : List Ino} (h : SameTrail fs fs' trail)
    (hdir : fs.node (top trail) = .dir) : fs'.node (Fs.top trail) = .dir := by
  cases trail with
  | nil => exact node_root fs'
  | cons i trail =>
      have hi := h i List.mem_cons_self
      rw [show fs.node i = .dir from hdir] at hi
      exact hi.dir

theorem SameTrail.tail {fs fs' : Fs} {trail : List Ino} (h : SameTrail fs fs' trail) :
    SameTrail fs fs' trail.tail := fun i hi => h i (List.mem_of_mem_tail hi)

/-- From a regular file there is nowhere to go. -/
theorem Walks.at_file {fs : Fs} {k : Nat} {trail out : List Ino} {names : List Name} {i : Ino}
    {data : Data} (h : Walks fs k (i :: trail) names out) (hi : fs.node i = .file data) :
    top out = i := by
  cases h with
  | done => rfl
  | up hdir => exact nomatch hi.symm.trans hdir
  | enter hdir => exact nomatch hi.symm.trans hdir
  | follow hdir => exact nomatch hi.symm.trans hdir

/-- Resolution reads only entries that exist, and passes a regular file only to end there. -/
theorem Walks.keep {Lost : Ino → Prop} {fs fs' : Fs} (hs : SubUpTo Lost fs fs') {k : Nat}
    {trail out : List Ino} {names : List Name} (h : Walks fs k trail names out)
    (ht : SameTrail fs fs' trail) :
    (Walks fs' k trail names out ∧ SameTrail fs fs' out) ∨ Lost (Fs.top out) := by
  induction h with
  | done => exact .inl ⟨.done, ht⟩
  | up hdir _ ih => exact (ih ht.tail).imp_left fun hw => ⟨.up (ht.top hdir) hw.1, hw.2⟩
  | @enter k trail out n rest i hdir hn hi hd hrest ih =>
      rcases hs.entry hi with ⟨hi', hkind⟩ | hlost
      · have hd' := hkind.direct ▸ hd
        exact (ih (ht.cons hkind)).imp_left fun hw => ⟨.enter (ht.top hdir) hn hi' hd' hw.1, hw.2⟩
      · obtain ⟨data, hfile⟩ := hs.file hlost
        exact .inr (hrest.at_file hfile ▸ hlost)
  | @follow k trail out n rest i target hdir hn hi hlink _ ih =>
      rcases hs.entry hi with ⟨hi', hkind⟩ | hlost
      · rw [hlink] at hkind
        refine (ih ?_).imp_left fun hw => ⟨.follow (ht.top hdir) hn hi' hkind.link hw.1, hw.2⟩
        split
        · exact .nil fs fs'
        · exact ht
      · obtain ⟨data, hfile⟩ := hs.file hlost
        exact nomatch hlink.symm.trans hfile

/-- Resolution never ends at a symbolic link. -/
theorem Walks.direct {fs : Fs} {k : Nat} {trail out : List Ino} {names : List Name}
    (h : Walks fs k trail names out) (ht : ∀ i ∈ trail, (fs.node i).direct = true) :
    (fs.node (top out)).direct = true := by
  induction h with
  | @done k trail =>
      cases trail with
      | nil => rw [show top [] = rootIno from rfl, node_root]; rfl
      | cons i trail => exact ht i List.mem_cons_self
  | up _ _ ih => exact ih fun i hi => ht i (List.mem_of_mem_tail hi)
  | enter _ _ _ hd _ ih =>
      refine ih fun j hj => ?_
      rcases List.mem_cons.mp hj with rfl | hj
      · exact hd
      · exact ht j hj
  | follow _ _ _ _ _ ih =>
      refine ih ?_
      split
      · exact fun _ hj => absurd hj List.not_mem_nil
      · exact ht

/-- Resolution ends at the root or at an inode some entry names. -/
theorem Walks.linked {fs : Fs} {k : Nat} {trail out : List Ino} {names : List Name}
    (h : Walks fs k trail names out) (ht : ∀ i ∈ trail, fs.linked i = true) :
    fs.linked (top out) = true := by
  induction h with
  | @done k trail =>
      cases trail with
      | nil => rfl
      | cons i trail => exact ht i List.mem_cons_self
  | up _ _ ih => exact ih fun i hi => ht i (List.mem_of_mem_tail hi)
  | enter _ _ hi _ _ ih =>
      refine ih fun j hj => ?_
      rcases List.mem_cons.mp hj with rfl | hj
      · exact linked_of_look hi
      · exact ht j hj
  | follow _ _ _ _ _ ih =>
      refine ih ?_
      split
      · exact fun _ hj => absurd hj List.not_mem_nil
      · exact ht

/-- One more component, which is not a symbolic link. -/
theorem Walks.snoc {fs : Fs} {k : Nat} {trail mid : List Ino} {ns : List Name} {n : Name}
    {i : Ino} (h : Walks fs k trail ns mid) (hdir : fs.node (top mid) = .dir) (hn : n ≠ dotdot)
    (hi : fs.look (top mid, n) = some i) (hd : (fs.node i).direct = true) :
    Walks fs k trail (ns ++ [n]) (i :: mid) := by
  induction h with
  | done => exact .enter hdir hn hi hd .done
  | up hdir' _ ih => exact .up hdir' (ih hdir hi)
  | enter hdir' hm hj hdj _ ih => exact .enter hdir' hm hj hdj (ih hdir hi)
  | follow hdir' hm hj hlink _ ih =>
      refine .follow hdir' hm hj hlink ?_
      have hmore := ih hdir hi
      rwa [List.append_assoc] at hmore

/-! ## The calls that resolve a path -/

/-- `stat`: the inode at the end of the path, links followed. -/
def stat (fs : Fs) (path : List Char) : Except Errno Ino :=
  match fs.walk linkLimit [] (components path) with
  | .ok trail => .ok (top trail)
  | .error e => .error e

/-- The entry a path denotes: its directory resolved, its last component not followed. -/
def locate (fs : Fs) (path : List Char) : Except Errno Entry :=
  match (components path).getLast? with
  | none => .error .busy
  | some n =>
      if n = dotdot then .error .busy
      else
        match fs.walk linkLimit [] (components path).dropLast with
        | .error e => .error e
        | .ok trail =>
            if fs.node (top trail) = .dir then .ok (top trail, n) else .error .notdir

/-- `lstat`: the inode the entry names. -/
def lstat (fs : Fs) (path : List Char) : Except Errno Ino :=
  match fs.locate path with
  | .error e => .error e
  | .ok e =>
      match fs.look e with
      | none => .error .noent
      | some i => .ok i

/-- `os.path.lexists`. -/
def lexists (fs : Fs) (path : List Char) : Bool :=
  match fs.lstat path with
  | .ok _ => true
  | .error _ => false

/-- `os.path.isfile`. -/
def isfile (fs : Fs) (path : List Char) : Bool :=
  match fs.stat path with
  | .ok i =>
      match fs.node i with
      | .file _ => true
      | .dir | .link _ => false
  | .error _ => false

/-- `lstat` finds a symbolic link: its target. -/
def readlink? (fs : Fs) (path : List Char) : Option (List Char) :=
  match fs.lstat path with
  | .ok i =>
      match fs.node i with
      | .link target => some target
      | .dir | .file _ => none
  | .error _ => none

/-- `unlink`. -/
def unlink (fs : Fs) (path : List Char) : Except Errno Fs :=
  match fs.locate path with
  | .error e => .error e
  | .ok e =>
      match fs.look e with
      | none => .error .noent
      | some i => if fs.node i = .dir then .error .isdir else .ok (fs.hide e)

/-- `rename` of an entry that is not a directory.  Two links to one inode: nothing is done. -/
def rename (fs : Fs) (src dst : List Char) : Except Errno Fs :=
  match fs.locate src with
  | .error e => .error e
  | .ok es =>
      match fs.locate dst with
      | .error e => .error e
      | .ok ed =>
          match fs.look es with
          | none => .error .noent
          | some i =>
              if fs.look ed = some i then .ok fs
              else if (fs.look ed).map fs.node = some .dir then .error .isdir
              else .ok ((fs.hide es).setEntry ed i)

/-- Opening for writing and writing: the file the path resolves to gets the content. -/
def writeThrough (fs : Fs) (path : List Char) (data : Data) : Fs :=
  match fs.stat path with
  | .ok i =>
      match fs.node i with
      | .file _ => fs.setNode i (.file data)
      | .dir | .link _ => fs
  | .error _ => fs

theorem gen_writeThrough (fs : Fs) (path : List Char) (data : Data) (i : Ino) :
    (fs.writeThrough path data).gen i = fs.gen i := by
  rw [writeThrough]
  split
  · split
    · rfl
    · rfl
    · rfl
  · rfl

/-! ### What they find, in two file systems -/

theorem stat_ok {fs : Fs} {path : List Char} {i : Ino} : fs.stat path = .ok i ↔
    ∃ out, Walks fs linkLimit [] (components path) out ∧ top out = i := by
  rw [stat]
  constructor
  · intro h
    split at h
    · rename_i out hw
      cases h
      exact ⟨out, .of_walk hw, rfl⟩
    · cases h
  · rintro ⟨out, hw, rfl⟩
    rw [hw.walk_eq]

theorem locate_ok {fs : Fs} {path : List Char} {e : Entry} : fs.locate path = .ok e ↔
    ∃ ns out, components path = ns ++ [e.2] ∧ e.2 ≠ dotdot ∧ Walks fs linkLimit [] ns out ∧
      top out = e.1 ∧ fs.node e.1 = .dir := by
  rw [locate]
  rcases List.eq_nil_or_concat (components path) with hnil | ⟨ns, n, hcs⟩
  · rw [hnil]
    constructor
    · intro h
      cases h
    · rintro ⟨ns, _, hcs, -⟩
      exact absurd hcs.symm (List.append_ne_nil_of_right_ne_nil _ nofun)
  · rw [List.concat_eq_append] at hcs
    rw [hcs, List.getLast?_concat, List.dropLast_concat]
    show (if n = dotdot then _ else _) = _ ↔ _
    constructor
    · intro h
      split at h
      · cases h
      rename_i hn
      split at h
      · cases h
      rename_i out hw
      split at h
      · rename_i hdir
        cases h
        exact ⟨ns, out, rfl, hn, .of_walk hw, rfl, hdir⟩
      · cases h
    · rintro ⟨ns', out, hns, hn, hw, htop, hdir⟩
      obtain ⟨rfl, hlast⟩ := List.append_inj' hns rfl
      obtain ⟨rfl, -⟩ := List.cons.inj hlast
      rw [if_neg hn, hw.walk_eq]
      show (if fs.node (top out) = .dir then _ else _) = _
      rw [htop, if_pos hdir]

theorem stat_keep {Lost : Ino → Prop} {fs fs' : Fs} (hs : SubUpTo Lost fs fs')
    {path : List Char} {i : Ino} (h : fs.stat path = .ok i) (hi : ¬ Lost i) :
    fs'.stat path = .ok i := by
  obtain ⟨out, hw, rfl⟩ := stat_ok.mp h
  exact stat_ok.mpr ⟨out, ((hw.keep hs (.nil fs fs')).resolve_right hi).1, rfl⟩

/-- The directory of a path is not a file, so no lost file matters. -/
theorem locate_keep {Lost : Ino → Prop} {fs fs' : Fs} (hs : SubUpTo Lost fs fs')
    {path : List Char} {e : Entry} (h : fs.locate path = .ok e) : fs'.locate path = .ok e := by
  obtain ⟨ns, out, hcs, hn, hw, htop, hdir⟩ := locate_ok.mp h
  have hnot : ¬ Lost (top out) := by
    intro hlost
    obtain ⟨data, hfile⟩ := hs.file hlost
    rw [htop, hdir] at hfile
    cases hfile
  obtain ⟨hw', hsame⟩ := (hw.keep hs (.nil fs fs')).resolve_right hnot
  have hdir' := hsame.top (htop ▸ hdir)
  exact locate_ok.mpr ⟨ns, out, hcs, hn, hw', htop, htop ▸ hdir'⟩

/-- The entry of a name in a directory that resolves. -/
theorem locate_child {fs : Fs} {dir : AbsPath} {out : List Ino} {n : Name} (hn : IsName n)
    (hw : Walks fs linkLimit [] dir.names out) (hdir : fs.node (top out) = .dir) :
    fs.locate (dir.child n hn).str = .ok (top out, n) :=
  locate_ok.mpr ⟨dir.names, out, AbsPath.components_str _, hn.notDotdot, hw, rfl, hdir⟩

theorem locate_child_ok {fs : Fs} {dir : AbsPath} {n : Name} (hn : IsName n) {e : Entry}
    (h : fs.locate (dir.child n hn).str = .ok e) : ∃ out, Walks fs linkLimit [] dir.names out ∧
      fs.node (top out) = .dir ∧ e = (top out, n) := by
  obtain ⟨ns, out, hcs, -, hw, htop, hdir⟩ := locate_ok.mp h
  rw [AbsPath.components_str] at hcs
  obtain ⟨rfl, hlast⟩ := List.append_inj' hcs rfl
  obtain ⟨hname, -⟩ := List.cons.inj hlast
  exact ⟨out, hw, htop ▸ hdir, Prod.ext htop.symm hname.symm⟩

/-- A path whose entry is not a symbolic link resolves to the inode of the entry. -/
theorem stat_of_locate {fs : Fs} {path : List Char} {e : Entry} {i : Ino}
    (h : fs.locate path = .ok e) (hi : fs.look e = some i) (hd : (fs.node i).direct = true) :
    fs.stat path = .ok i := by
  obtain ⟨ns, out, hcs, hn, hw, htop, hdir⟩ := locate_ok.mp h
  refine stat_ok.mpr ⟨i :: out, ?_, rfl⟩
  rw [hcs]
  exact hw.snoc (htop ▸ hdir) hn (by rw [htop]; exact hi) hd

theorem stat_direct {fs : Fs} {path : List Char} {i : Ino} (h : fs.stat path = .ok i) :
    (fs.node i).direct = true := by
  obtain ⟨out, hw, rfl⟩ := stat_ok.mp h
  exact hw.direct fun _ hi => absurd hi List.not_mem_nil

theorem stat_linked {fs : Fs} {path : List Char} {i : Ino} (h : fs.stat path = .ok i) :
    fs.linked i = true := by
  obtain ⟨out, hw, rfl⟩ := stat_ok.mp h
  exact hw.linked fun _ hi => absurd hi List.not_mem_nil

/-- A path without its entry does not exist. -/
theorem lexists_eq_false {fs : Fs} {path : List Char}
    (h : ∀ e, fs.locate path = .ok e → fs.look e = none) : fs.lexists path = false := by
  unfold lexists lstat
  cases hloc : fs.locate path with
  | error e => rfl
  | ok e =>
      dsimp only
      rw [h e hloc]

theorem lstat_of_locate {fs : Fs} {path : List Char} {e : Entry} {i : Ino}
    (h : fs.locate path = .ok e) (hi : fs.look e = some i) : fs.lstat path = .ok i := by
  simp [lstat, h, hi]

theorem lexists_of_locate {fs : Fs} {path : List Char} {e : Entry} {i : Ino}
    (h : fs.locate path = .ok e) (hi : fs.look e = some i) : fs.lexists path = true := by
  simp [lexists, lstat_of_locate h hi]

theorem writeThrough_file {fs : Fs} {path : List Char} {i : Ino} {old : Data}
    (h : fs.stat path = .ok i) (hfile : fs.node i = .file old) (data : Data) :
    fs.writeThrough path data = fs.setNode i (.file data) := by
  simp [writeThrough, h, hfile]

theorem rename_of_locate {fs : Fs} {src dst : List Char} {es ed : Entry} {i : Ino}
    (hes : fs.locate src = .ok es) (hed : fs.locate dst = .ok ed) (hi : fs.look es = some i) :
    fs.rename src dst = if fs.look ed = some i then .ok fs
      else if (fs.look ed).map fs.node = some .dir then .error .isdir
      else .ok ((fs.hide es).setEntry ed i) := by
  simp [rename, hes, hed, hi]

theorem unlink_file {fs : Fs} {path : List Char} {e : Entry} {i : Ino} {data : Data}
    (h : fs.locate path = .ok e) (hi : fs.look e = some i) (hfile : fs.node i = .file data) :
    fs.unlink path = .ok (fs.hide e) := by
  simp [unlink, h, hi, hfile]

theorem unlink_ok {fs fs' : Fs} {path : List Char} (h : fs.unlink path = .ok fs') :
    ∃ e, fs.locate path = .ok e ∧ fs' = fs.hide e := by
  rw [unlink] at h
  split at h
  · cases h
  rename_i e he
  split at h
  · cases h
  split at h
  · cases h
  · cases h
    exact ⟨e, he, rfl⟩

/-- What a successful rename did: nothing, between two links to one inode, or moved the entry. -/
theorem rename_ok {fs fs' : Fs} {src dst : List Char} (h : fs.rename src dst = .ok fs') :
    ∃ es ed i, fs.locate src = .ok es ∧ fs.locate dst = .ok ed ∧ fs.look es = some i ∧
      ((fs.look ed = some i ∧ fs' = fs) ∨
        (fs.look ed ≠ some i ∧ (fs.look ed).map fs.node ≠ some .dir ∧
          fs' = (fs.hide es).setEntry ed i)) := by
  rw [rename] at h
  split at h
  · cases h
  rename_i es hes
  split at h
  · cases h
  rename_i ed hed
  split at h
  · cases h
  rename_i i hi
  split at h
  · rename_i hsame
    cases h
    exact ⟨es, ed, i, hes, hed, hi, .inl ⟨hsame, rfl⟩⟩
  rename_i hsame
  split at h
  · cases h
  · rename_i hdir
    cases h
    exact ⟨es, ed, i, hes, hed, hi, .inr ⟨hsame, hdir, rfl⟩⟩

/-- After a successful rename the destination names what the source named. -/
theorem rename_look {fs fs' : Fs} {src dst : List Char} (h : fs.rename src dst = .ok fs') :
    ∃ es ed i, fs.locate src = .ok es ∧ fs.locate dst = .ok ed ∧ fs.look es = some i ∧
      fs'.look ed = some i := by
  obtain ⟨es, ed, i, hes, hed, hi, ⟨hsame, rfl⟩ | ⟨-, -, rfl⟩⟩ := rename_ok h
  · exact ⟨es, ed, i, hes, hed, hi, hsame⟩
  · exact ⟨es, ed, i, hes, hed, hi, by rw [look_setEntry, if_pos rfl]⟩

end Fs

end Posix
