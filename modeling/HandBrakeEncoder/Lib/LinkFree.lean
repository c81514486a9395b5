/-
# `Lib.LinkFree` — what `realpath` leaves of the symbolic links

A resolution that meets no loop follows every link it finds, so no entry on the way
to its result is one (`realpath_linkFree`), be there a file at the end or not.

A loop ends the resolution, and what is left of the path is put behind it as it
stands, links and all: that is the text of `LoopText`.  Whether a link is on it is
for the file system to say.

**What it is good for.**  A path without links leads the kernel through the tree, one
entry after another (`LinkFree.walks`); and if it leads through the tree, no link is
on it (`linkFree_of_walks`).
-/
import HandBrakeEncoder.Lib.NormPath

namespace Posix

/-- No entry on the way to the end of the path is a symbolic link. -/
def LinkFree (fs : Fs) (path : List Char) : Prop :=
  ∀ ns n, ns ++ [n] <+: components path → fs.readlink? (render (ns ++ [n])) = none

/-- In single-slash form and without links. -/
structure Plain (fs : Fs) (path : List Char) : Prop where
  normal : Normal path
  linkFree : LinkFree fs path

/-- Every link resolved so far has a plain path in the dictionary. -/
def SeenPlain (fs : Fs) (seen : Seen) : Prop :=
  ∀ key val, seen.lookup key = some (some val) → Plain fs val

/-- The resolution stops at a loop of links and returns this text. -/
def LoopText (fs : Fs) (depth : Nat) (cwd path text : List Char) : Prop :=
  ∃ r, joinRealpath fs depth [] [] (join cwd path) = .ok r ∧ r.ok = false ∧ text = normpath r.path

variable {fs : Fs} {depth k : Nat} {cwd path real target : List Char} {ns ms names : List Name}
  {n : Name} {trail out : List Ino} {i : Ino} {seen : Seen}

/-! ## Plain paths -/

theorem Plain.root (fs : Fs) : Plain fs ['/'] := by
  refine ⟨⟨[], fun _ hn => absurd hn List.not_mem_nil, rfl⟩, fun ns n hpre => ?_⟩
  have hnil : components ['/'] = [] := rfl
  rw [hnil, List.prefix_nil] at hpre
  exact absurd hpre (List.append_ne_nil_of_right_ne_nil _ (List.cons_ne_nil _ _))

theorem Plain.child (h : Plain fs path) (hn : IsName n) (hlink : fs.readlink? (join path n) = none) :
    Plain fs (join path n) := by
  obtain ⟨⟨names, hnames, rfl⟩, hfree⟩ := h
  have hall : ∀ m ∈ names ++ [n], IsName m := by
    intro m hm
    rcases List.mem_append.mp hm with hold | hnew
    · exact hnames m hold
    · rw [List.mem_singleton.mp hnew]
      exact hn
  rw [join_render hnames hn] at hlink ⊢
  refine ⟨⟨names ++ [n], hall, rfl⟩, fun ms m hpre => ?_⟩
  rw [components_render hall] at hpre
  rcases List.prefix_concat_iff.mp hpre with heq | hpre
  · rw [heq]
    exact hlink
  · exact hfree ms m (by rw [components_render hnames]; exact hpre)

theorem Plain.up (h : Plain fs path) : Plain fs (dirname path) := by
  obtain ⟨⟨names, hnames, rfl⟩, hfree⟩ := h
  rcases List.eq_nil_or_concat names with rfl | ⟨front, n, rfl⟩
  · exact Plain.root fs
  · rw [List.concat_eq_append] at hnames hfree ⊢
    have hfront : ∀ m ∈ front, IsName m := fun m hm => hnames m (List.mem_append_left _ hm)
    have hn : IsName n := hnames n (List.mem_append_right _ (List.mem_singleton.mpr rfl))
    rw [dirname_render hfront hn]
    refine ⟨⟨front, hfront, rfl⟩, fun ms m hpre => hfree ms m ?_⟩
    rw [components_render hfront] at hpre
    rw [components_render hnames]
    exact hpre.trans (List.prefix_append _ _)

theorem SeenPlain.nil (fs : Fs) : SeenPlain fs [] := by
  intro key val hlookup
  cases hlookup

/-- A link taken up has no path yet. -/
theorem SeenPlain.push (h : SeenPlain fs seen) (key : List Char) :
    SeenPlain fs ((key, none) :: seen) := by
  intro key' val hlookup
  by_cases heq : key' = key
  · rw [heq, List.lookup_cons_self] at hlookup
    cases hlookup
  · rw [lookup_of_ne heq] at hlookup
    exact h key' val hlookup

theorem SeenPlain.set (h : SeenPlain fs seen) (key : List Char) (hpath : Plain fs path) :
    SeenPlain fs ((key, some path) :: seen) := by
  intro key' val hlookup
  by_cases heq : key' = key
  · rw [heq, List.lookup_cons_self] at hlookup
    cases hlookup
    exact hpath
  · rw [lookup_of_ne heq] at hlookup
    exact h key' val hlookup

/-! ## `_joinrealpath` -/

/-- A recursive call that meets no loop ends at a plain path. -/
def CallPlain (fs : Fs)
    (resolve : Seen → List Char → List Char → Except RealpathError Resolving) : Prop :=
  ∀ {seen : Seen} {path target : List Char} {r : Resolving}, Plain fs path → SeenPlain fs seen →
    resolve seen path target = .ok r → r.ok = true → Plain fs r.path ∧ SeenPlain fs r.seen

theorem joinPieces_plain {resolve : Seen → List Char → List Char → Except RealpathError Resolving}
    (hcall : CallPlain fs resolve) {pieces : List Name} (hpieces : ∀ n ∈ pieces, '/' ∉ n) :
    ∀ {seen : Seen} {path : List Char} {r : Resolving}, Plain fs path → SeenPlain fs seen →
      joinPieces fs resolve seen path pieces = .ok r → r.ok = true →
        Plain fs r.path ∧ SeenPlain fs r.seen := by
  induction pieces with
  | nil =>
      intro seen path r hpath hseen h _
      cases h
      exact ⟨hpath, hseen⟩
  | cons n rest ih =>
      intro seen path r hpath hseen h hok
      have hrest : ∀ m ∈ rest, '/' ∉ m := fun m hm => hpieces m (List.mem_cons_of_mem _ hm)
      by_cases hempty : n = [] ∨ n = ['.']
      · rw [joinPieces, if_pos hempty] at h
        exact ih hrest hpath hseen h hok
      by_cases hdotdot : n = dotdot
      · rw [joinPieces, if_neg hempty, if_pos hdotdot] at h
        exact ih hrest hpath.up hseen h hok
      have hn : IsName n := ⟨fun h => hempty (.inl h), fun h => hempty (.inr h), hdotdot,
        hpieces n List.mem_cons_self⟩
      obtain ⟨-, h⟩ := joinPieces_name hn h
      split at h
      · rename_i hnone
        exact ih hrest (hpath.child hn hnone) hseen h hok
      · split at h
        · rename_i resolved hlookup
          exact ih hrest (hseen _ _ hlookup) hseen h hok
        · -- the loop
          cases h
          cases hok
        · split at h
          · cases h
          rename_i r' hresolve
          split at h
          · rename_i hok'
            obtain ⟨hplain, hseen'⟩ := hcall hpath (hseen.push _) hresolve hok'
            exact ih hrest hplain (hseen'.set _ hplain) h hok
          · -- a loop on the way of the link
            cases h
            cases hok

theorem joinRealpath_plain (fs : Fs) (depth : Nat) : CallPlain fs (joinRealpath fs depth) := by
  induction depth with
  | zero =>
      intro seen path target r _ _ h
      cases h
  | succ depth ih =>
      intro seen path target r hpath hseen h hok
      rw [joinRealpath] at h
      split at h
      · exact joinPieces_plain ih (fun n hn => mem_splitOn_noSlash hn) (Plain.root fs) hseen h hok
      · exact joinPieces_plain ih (fun n hn => mem_splitOn_noSlash hn) hpath hseen h hok

/-- What `realpath` returns is free of links, or the text left by a loop. -/
theorem realpath_linkFree (hcwd : isAbs cwd = true) (h : realpath fs depth cwd path = .ok real) :
    LinkFree fs real ∨ LoopText fs depth cwd path real := by
  rw [realpath] at h
  split at h
  · cases h
  rename_i r hr
  cases h
  cases hok : r.ok with
  | false => exact .inr ⟨r, hr, hok, rfl⟩
  | true =>
      obtain ⟨rest, hrest⟩ := isAbs_eq_cons (isAbs_join hcwd path)
      rw [hrest] at hr
      have hroot : joinRealpath fs depth [] ['/'] ('/' :: rest) = .ok r := by
        rw [← hr]
        cases depth <;> rfl
      obtain ⟨⟨⟨names, hnames, hpath⟩, hfree⟩, -⟩ :=
        joinRealpath_plain fs depth (Plain.root fs) (SeenPlain.nil fs) hroot hok
      have hnorm : normpath r.path = r.path := by
        rw [hpath]
        exact normpath_str ⟨false, names, hnames⟩
      rw [hnorm]
      exact .inl hfree

/-! ## Links and the kernel -/

/-- `readlink` of a path whose directory is reached through the tree. -/
theorem readlink_of_walks (hns : ∀ m ∈ ns ++ [n], IsName m) (hwalk : fs.Walks 0 [] ns trail)
    (hdir : fs.node (Fs.top trail) = .dir) (hi : fs.look (Fs.top trail, n) = some i) :
    fs.readlink? (render (ns ++ [n])) = some target ↔ fs.node i = .link target := by
  have hn : IsName n := hns n (List.mem_append_right _ (List.mem_singleton.mpr rfl))
  have hlocate : fs.locate (render (ns ++ [n])) = .ok (Fs.top trail, n) :=
    Fs.locate_ok.mpr ⟨ns, trail, components_render hns, hn.notDotdot,
      hwalk.mono (Nat.zero_le _), rfl, hdir⟩
  rw [Fs.readlink?, Fs.lstat_of_locate hlocate hi]
  dsimp only
  cases fs.node i with
  | dir => simp
  | file data => simp
  | link t => simp

/-- On names without links the kernel goes through the tree. -/
theorem walks_through (hwalk : fs.Walks k trail names out) : ∀ {front : List Name},
    (∀ m ∈ front ++ names, IsName m) → fs.Walks 0 [] front trail →
    (∀ ms m, ms ++ [m] <+: front ++ names → fs.readlink? (render (ms ++ [m])) = none) →
    fs.Walks 0 [] (front ++ names) out := by
  induction hwalk with
  | done =>
      intro front _ hfront _
      rw [List.append_nil]
      exact hfront
  | up _ _ _ =>
      intro front hnames _ _
      have hup := hnames dotdot (List.mem_append_right _ List.mem_cons_self)
      exact absurd rfl hup.notDotdot
  | @enter k trail out n rest i hdir hn hi hd _ ih =>
      intro front hnames hfront hfree
      have hsplit : front ++ n :: rest = (front ++ [n]) ++ rest := by simp
      rw [hsplit] at hnames hfree ⊢
      exact ih hnames (hfront.snoc hdir hn hi hd) hfree
  | @follow k trail out n rest i target hdir hn hi ht _ _ =>
      intro front hnames hfront hfree
      have hsplit : front ++ n :: rest = (front ++ [n]) ++ rest := by simp
      rw [hsplit] at hnames hfree
      have hfirst : ∀ m ∈ front ++ [n], IsName m := fun m hm => hnames m (List.mem_append_left _ hm)
      have hnone := hfree front n (List.prefix_append _ _)
      rw [(readlink_of_walks hfirst hfront hdir hi).mpr ht] at hnone
      cases hnone

/-- A path without links that leads anywhere leads through the tree. -/
theorem LinkFree.walks (h : LinkFree fs path) (hnames : ∀ n ∈ components path, IsName n)
    (hstat : fs.stat path = .ok i) :
    ∃ trail, fs.Walks 0 [] (components path) trail ∧ Fs.top trail = i := by
  obtain ⟨trail, hwalk, htop⟩ := Fs.stat_ok.mp hstat
  exact ⟨trail, @walks_through _ _ _ _ _ hwalk [] hnames .done h, htop⟩

/-- A path that leads through the tree has no link on it. -/
theorem linkFree_of_walks (hnames : ∀ n ∈ components path, IsName n)
    (hwalk : fs.Walks 0 [] (components path) out) : LinkFree fs path := by
  intro ns n hpre
  obtain ⟨rest, hrest⟩ := id hpre
  have hns : ∀ m ∈ ns ++ [n], IsName m := fun m hm => hnames m (hpre.subset hm)
  have hn : IsName n := hns n (List.mem_append_right _ (List.mem_singleton.mpr rfl))
  obtain ⟨mid, hfirst, -⟩ := hwalk.append hrest.symm
  obtain ⟨up, hns', hlast⟩ := hfirst.append rfl
  cases hlast with
  | up => exact absurd rfl hn.notDotdot
  | enter hdir _ hi hd _ =>
      refine Option.eq_none_iff_forall_ne_some.mpr fun target htarget => ?_
      rw [(readlink_of_walks hns hns' hdir hi).mp htarget] at hd
      cases hd

end Posix
