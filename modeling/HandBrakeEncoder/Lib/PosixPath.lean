/-
# `Lib.PosixPath` — path strings

The string functions of `posixpath`: a path is a list of characters, its
components are what stands between the slashes.  `render` writes an absolute
path in the form `abspath` gives it, and the laws say how the functions act on
such a path: taking the directory drops the last component, joining adds one.
-/
import Mathlib.Data.List.DropRight
import Mathlib.Data.List.TakeWhile

namespace Posix

abbrev Name := List Char

def dotdot : Name := ['.', '.']

/-- A name a directory entry can have. -/
structure IsName (n : Name) : Prop where
  nonempty : n ≠ []
  notDot : n ≠ ['.']
  notDotdot : n ≠ dotdot
  noSlash : '/' ∉ n

/-- `[c for c in path.split("/") if c and c != "."]`. -/
def components (path : List Char) : List Name :=
  (path.splitOn '/').filter (fun c => c ≠ [] && c ≠ ['.'])

/-- `isabs`. -/
def isAbs (path : List Char) : Bool := path.head? = some '/'

/-- The absolute path with the given components. -/
def render : List Name → List Char
  | [] => ['/']
  | n :: ns => (n :: ns).flatMap ('/' :: ·)

/-- Collapse `..` without looking at the file system, as `normpath` does below the root. -/
def normalize (ns : List Name) : List Name :=
  ns.foldl (fun acc n => if n = dotdot then acc.dropLast else acc ++ [n]) []

/-- `normpath` keeps exactly two leading slashes. -/
def doubleSlash (path : List Char) : Bool :=
  path.take 2 = ['/', '/'] && path.take 3 ≠ ['/', '/', '/']

/-- `normpath` of an absolute path. -/
def normpath (path : List Char) : List Char :=
  (if doubleSlash path then ['/'] else []) ++ render (normalize (components path))

/-- `rstrip("/")`. -/
def stripSlashes (path : List Char) : List Char := path.rdropWhile (· = '/')

/-- `path[:path.rfind("/") + 1]`. -/
def uptoSlash (path : List Char) : List Char := path.rdropWhile (· ≠ '/')

/-- The slashes at the end are dropped unless there is nothing else. -/
def trimHead (head : List Char) : List Char :=
  if head.all (· = '/') then head else stripSlashes head

/-- `dirname`. -/
def dirname (path : List Char) : List Char := trimHead (uptoSlash path)

/-- `basename`: `path[path.rfind("/") + 1:]`. -/
def basename (path : List Char) : List Char := path.rtakeWhile (· ≠ '/')

/-- `join(path, name)`. -/
def join (path name : List Char) : List Char :=
  if isAbs name then name
  else if path = [] || path.getLast? = some '/' then path ++ name
  else path ++ '/' :: name

/-! ## Components -/

theorem components_slash (s : List Char) : components ('/' :: s) = components s := by
  rw [components]
  rw [show '/' :: s = [] ++ '/' :: s from rfl, List.splitOn_append_cons_self_of_not_mem (by simp)]
  rfl

theorem components_name {n : Name} (h : IsName n) : components n = [n] := by
  rw [components]
  rw [List.splitOn_eq_singleton h.noSlash]
  simp [h.nonempty, h.notDot]

theorem components_name_slash {n : Name} (h : IsName n) (s : List Char) :
    components (n ++ '/' :: s) = n :: components s := by
  unfold components
  rw [List.splitOn_append_cons_self_of_not_mem h.noSlash]
  simp [h.nonempty, h.notDot]

/-- A slash separates components. -/
theorem components_append_slash (s t : List Char) :
    components (s ++ '/' :: t) = components s ++ components t := by
  induction hlen : s.length using Nat.strong_induction_on generalizing s with
  | _ len ih =>
      by_cases hs : '/' ∈ s
      · obtain ⟨n, rest, rfl, hn⟩ := List.eq_append_cons_of_mem hs
        have hrest := ih rest.length (by simp at hlen; omega) rest rfl
        unfold components at hrest ⊢
        rw [List.append_assoc, List.cons_append, List.splitOn_append_cons_self_of_not_mem hn,
          List.splitOn_append_cons_self_of_not_mem hn, List.filter_cons, List.filter_cons, hrest]
        split
        · rfl
        · rfl
      · unfold components
        rw [List.splitOn_append_cons_self_of_not_mem hs, List.splitOn_eq_singleton hs,
          List.filter_cons, List.filter_cons]
        split
        · rfl
        · rfl

theorem components_flatMap {ns : List Name} (h : ∀ n ∈ ns, IsName n) :
    components (ns.flatMap ('/' :: ·)) = ns := by
  induction ns with
  | nil => rfl
  | cons n ns ih =>
      have hn := h n List.mem_cons_self
      have hrest := ih fun m hm => h m (List.mem_cons_of_mem _ hm)
      rw [List.flatMap_cons, List.cons_append, components_slash]
      cases ns with
      | nil => simpa using components_name hn
      | cons m ms =>
          rw [List.flatMap_cons, List.cons_append, components_slash] at hrest
          rw [List.flatMap_cons, List.cons_append, components_name_slash hn, hrest]

theorem components_render {ns : List Name} (h : ∀ n ∈ ns, IsName n) :
    components (render ns) = ns := by
  cases ns with
  | nil => rfl
  | cons n ns => exact components_flatMap h

/-- `"/" + "/".join(names)` is the absolute path with these components. -/
theorem slash_intercalate (ns : List Name) : '/' :: List.intercalate ['/'] ns = render ns := by
  cases ns with
  | nil =>
      rfl
  | cons n ns =>
      show '/' :: List.intercalate ['/'] (n :: ns) = (n :: ns).flatMap ('/' :: ·)
      induction ns generalizing n with
      | nil =>
          simp [List.intercalate]
      | cons m ns ih =>
          rw [List.intercalate_cons_cons, List.flatMap_cons, ← ih m]
          simp

/-- A piece does not contain the separator. -/
theorem not_mem_of_mem_splitOn {sep : Char} {s n : List Char} (h : n ∈ s.splitOn sep) : sep ∉ n := by
  induction s generalizing n with
  | nil =>
      rw [List.splitOn_nil] at h
      rw [List.mem_singleton.mp h]
      exact List.not_mem_nil
  | cons c s ih =>
      rw [List.splitOn_cons_eq_if_modifyHead] at h
      split at h
      · rcases List.mem_cons.mp h with rfl | hmem
        · exact List.not_mem_nil
        · exact ih hmem
      · rename_i hc
        cases hs : s.splitOn sep with
        | nil => exact absurd hs (List.splitOn_ne_nil _ _)
        | cons m ms =>
            rw [hs] at h
            rcases List.mem_cons.mp h with rfl | hmem
            · intro hsep
              rcases List.mem_cons.mp hsep with hc' | hm
              · exact hc (by simp [← hc'])
              · exact ih (hs ▸ List.mem_cons_self) hm
            · exact ih (hs ▸ List.mem_cons_of_mem _ hmem)

theorem mem_splitOn_noSlash {s n : List Char} (h : n ∈ s.splitOn '/') : '/' ∉ n :=
  not_mem_of_mem_splitOn h

/-- A component is a name or `..`. -/
theorem mem_components {s : List Char} {n : Name} (h : n ∈ components s) :
    n = dotdot ∨ IsName n := by
  obtain ⟨hmem, hkeep⟩ := List.mem_filter.mp h
  obtain ⟨hne, hdot⟩ := Bool.and_eq_true_iff.mp hkeep
  rcases Classical.em (n = dotdot) with hdd | hdd
  · exact .inl hdd
  · exact .inr ⟨of_decide_eq_true hne, of_decide_eq_true hdot, hdd, mem_splitOn_noSlash hmem⟩

theorem normalize_isName {ns : List Name} (h : ∀ n ∈ ns, n = dotdot ∨ IsName n) :
    ∀ n ∈ normalize ns, IsName n := by
  suffices hacc : ∀ (ms acc : List Name), (∀ n ∈ ms, n = dotdot ∨ IsName n) →
      (∀ n ∈ acc, IsName n) →
      ∀ n ∈ ms.foldl (fun acc n => if n = dotdot then acc.dropLast else acc ++ [n]) acc,
        IsName n from
    hacc ns [] h (fun _ hn => absurd hn List.not_mem_nil)
  intro ms
  induction ms with
  | nil => exact fun acc _ hacc => hacc
  | cons m ms ih =>
      intro acc hms hacc
      rw [List.foldl_cons]
      refine ih _ (fun n hn => hms n (List.mem_cons_of_mem _ hn)) ?_
      split
      · exact fun n hn => hacc n (List.dropLast_subset _ hn)
      · rename_i hne
        intro n hn
        rcases List.mem_append.mp hn with hold | hnew
        · exact hacc n hold
        · rw [List.mem_singleton.mp hnew]
          exact (hms m List.mem_cons_self).resolve_left hne

/-! ## Directory and join -/

theorem render_snoc (ns : List Name) (n : Name) :
    render (ns ++ [n]) = ns.flatMap ('/' :: ·) ++ '/' :: n := by
  cases ns with
  | nil => simp [render]
  | cons m ms => simp [render]

theorem isName_no_leading_slash {n : Name} (h : IsName n) : isAbs n = false := by
  rw [isAbs]
  cases n with
  | nil => rfl
  | cons c cs =>
      refine decide_eq_false fun hc => h.noSlash ?_
      rw [Option.some.inj hc]
      exact List.mem_cons_self

theorem isName_getLast {n : Name} (h : IsName n) : n.getLast? ≠ some '/' := fun hl =>
  h.noSlash (List.mem_of_getLast? hl)

/-- The rendering of a nonempty path does not end in a slash. -/
theorem flatMap_getLast {ns : List Name} (h : ∀ n ∈ ns, IsName n) :
    (ns.flatMap ('/' :: ·)).getLast? ≠ some '/' := by
  rcases List.eq_nil_or_concat ns with rfl | ⟨ms, m, rfl⟩
  · exact nofun
  · have hm := h m (by simp)
    rw [List.concat_eq_append, List.flatMap_append]
    simp only [List.flatMap_cons, List.flatMap_nil, List.append_nil]
    cases hcs : m with
    | nil => exact absurd hcs hm.nonempty
    | cons c cs =>
        rw [List.getLast?_append, List.getLast?_cons_cons]
        have := isName_getLast hm
        rw [hcs] at this
        simpa using this

theorem join_render {ns : List Name} {n : Name} (hns : ∀ m ∈ ns, IsName m) (hn : IsName n) :
    join (render ns) n = render (ns ++ [n]) := by
  rw [join]
  rw [isName_no_leading_slash hn, render_snoc]
  cases ns with
  | nil => rfl
  | cons m ms =>
      have hlast : (render (m :: ms)).getLast? ≠ some '/' := flatMap_getLast hns
      have hne : render (m :: ms) ≠ [] := nofun
      show (if (decide (render (m :: ms) = []) || decide ((render (m :: ms)).getLast? = some '/'))
        = true then _ else _) = _
      rw [decide_eq_false hne, decide_eq_false hlast]
      rfl

/-- The last component of a joined path is the name joined. -/
theorem components_join (dir : List Char) {n : Name} (hn : IsName n) :
    components (join dir n) = components dir ++ [n] := by
  rw [join]
  rw [isName_no_leading_slash hn]
  by_cases hempty : dir = []
  · subst hempty
    exact components_name hn
  by_cases hlast : dir.getLast? = some '/'
  · obtain ⟨init, rfl⟩ := List.getLast?_eq_some_iff.mp hlast
    have hinit := components_append_slash init []
    simp only [hlast, decide_true, Bool.or_true, if_true]
    show components (init ++ ['/'] ++ n) = components (init ++ '/' :: []) ++ [n]
    rw [hinit, List.append_assoc]
    show components (init ++ '/' :: n) = _
    rw [components_append_slash, components_name hn]
    show _ = components init ++ [] ++ [n]
    rw [List.append_nil]
  · show components (if _ = true then _ else dir ++ '/' :: n) = _
    rw [if_neg (by simp [hempty, hlast]), components_append_slash, components_name hn]

theorem uptoSlash_name {n : Name} (h : '/' ∉ n) (s : List Char) :
    uptoSlash (s ++ '/' :: n) = s ++ ['/'] := by
  show ((s ++ '/' :: n).reverse.dropWhile (· ≠ '/')).reverse = s ++ ['/']
  have hrev : (s ++ '/' :: n).reverse = n.reverse ++ '/' :: s.reverse := by simp
  rw [hrev, List.dropWhile_append_of_pos]
  · simp
  · intro c hc
    have : c ≠ '/' := fun hcs => h (hcs ▸ List.mem_reverse.mp hc)
    simpa using this

theorem dirname_render {ns : List Name} {n : Name} (hns : ∀ m ∈ ns, IsName m) (hn : IsName n) :
    dirname (render (ns ++ [n])) = render ns := by
  show trimHead _ = _
  rw [render_snoc, uptoSlash_name hn.noSlash]
  cases ns with
  | nil => rfl
  | cons m ms =>
      have hm := hns m List.mem_cons_self
      have hnot : ((m :: ms).flatMap ('/' :: ·) ++ ['/']).all (· = '/') = false := by
        cases hcs : m with
        | nil => exact absurd hcs hm.nonempty
        | cons c cs =>
            have hc : c ≠ '/' := fun h => hm.noSlash (by rw [hcs, h]; exact List.mem_cons_self)
            simp [hc]
      rw [trimHead, hnot]
      show ((m :: ms).flatMap ('/' :: ·) ++ ['/']).rdropWhile (· = '/')
        = (m :: ms).flatMap ('/' :: ·)
      rw [List.rdropWhile_concat_pos _ _ _ (by decide), List.rdropWhile_eq_self_iff]
      intro hne hslash
      refine flatMap_getLast hns ?_
      rw [List.getLast?_eq_some_getLast hne, of_decide_eq_true hslash]

/-! ## A name joined to a directory -/

/-- What `dirname` gives is slashes only or does not end in one. -/
theorem dirname_trimmed (path : List Char) :
    (dirname path).all (· = '/') = true ∨ (dirname path).getLast? ≠ some '/' := by
  rw [dirname, trimHead]
  split
  · rename_i hall
    exact Or.inl hall
  · refine Or.inr ?_
    intro hlast
    obtain ⟨init, hinit⟩ := List.getLast?_eq_some_iff.mp hlast
    have hne : stripSlashes (uptoSlash path) ≠ [] := by
      rw [hinit]
      exact List.concat_ne_nil _ _
    refine List.rdropWhile_last_not _ _ hne (decide_eq_true ?_)
    have hget := List.getLast?_eq_some_getLast hne
    rw [hlast] at hget
    exact (Option.some.inj hget).symm

/-- A path joined to a name is that name alone, or ends in a slash and the name. -/
theorem join_name (path : List Char) {n : Name} (hn : IsName n) :
    path = [] ∧ join path n = n ∨
      (∃ init, path = init ++ ['/'] ∧ join path n = init ++ '/' :: n) ∨
      path ≠ [] ∧ path.getLast? ≠ some '/' ∧ join path n = path ++ '/' :: n := by
  rw [join, isName_no_leading_slash hn]
  by_cases hempty : path = []
  · subst hempty
    exact Or.inl ⟨rfl, rfl⟩
  by_cases hlast : path.getLast? = some '/'
  · obtain ⟨init, rfl⟩ := List.getLast?_eq_some_iff.mp hlast
    refine Or.inr (Or.inl ⟨init, rfl, ?_⟩)
    simp
  · exact Or.inr (Or.inr ⟨hempty, hlast, by simp [hempty, hlast]⟩)

theorem uptoSlash_of_noSlash {n : List Char} (h : '/' ∉ n) : uptoSlash n = [] := by
  rw [uptoSlash, List.rdropWhile_eq_nil_iff]
  intro c hc
  exact decide_eq_true (fun heq => h (heq ▸ hc))

/-- Joining a name to the directory of a path stays in that directory. -/
theorem dirname_join (path : List Char) {n : Name} (hn : IsName n) :
    dirname (join (dirname path) n) = dirname path := by
  generalize hd : dirname path = d
  have htrim := hd ▸ dirname_trimmed path
  rcases join_name d hn with ⟨rfl, hjoin⟩ | ⟨init, rfl, hjoin⟩ | ⟨hne, hlast, hjoin⟩
  · rw [hjoin, dirname, uptoSlash_of_noSlash hn.noSlash]
    rfl
  · rw [hjoin, dirname, uptoSlash_name hn.noSlash, trimHead, if_pos]
    exact htrim.resolve_right (fun h => h (by simp))
  · have hnot : ¬ (d ++ ['/']).all (· = '/') = true := by
      intro hall
      obtain ⟨init, c, rfl⟩ := (List.eq_nil_or_concat d).resolve_left hne
      refine hlast ?_
      have hc := List.all_eq_true.mp hall c (by simp)
      simpa using hc
    rw [hjoin, dirname, uptoSlash_name hn.noSlash, trimHead, if_neg hnot, stripSlashes,
      List.rdropWhile_concat_pos _ _ _ (by decide), List.rdropWhile_eq_self_iff]
    intro hne' hslash
    refine hlast ?_
    rw [List.getLast?_eq_some_getLast hne', of_decide_eq_true hslash]

/-- The name joined is the last component. -/
theorem basename_join (path : List Char) {n : Name} (hn : IsName n) :
    basename (join path n) = n := by
  have hname : ∀ c ∈ n.reverse, decide (c ≠ '/') = true := by
    intro c hc
    exact decide_eq_true (fun heq => hn.noSlash (heq ▸ List.mem_reverse.mp hc))
  have hslash : ∀ s : List Char, basename (s ++ '/' :: n) = n := by
    intro s
    show ((s ++ '/' :: n).reverse.takeWhile (· ≠ '/')).reverse = n
    have hrev : (s ++ '/' :: n).reverse = n.reverse ++ '/' :: s.reverse := by simp
    rw [hrev, List.takeWhile_append_of_pos hname]
    simp
  rcases join_name path hn with ⟨_, hjoin⟩ | ⟨init, _, hjoin⟩ | ⟨_, _, hjoin⟩
  · rw [hjoin]
    show (n.reverse.takeWhile (· ≠ '/')).reverse = n
    rw [List.takeWhile_eq_self_iff.mpr hname, List.reverse_reverse]
  · rw [hjoin, hslash]
  · rw [hjoin, hslash]

/-! ## Normalised absolute paths -/

/-- An absolute path as `normpath` writes it. -/
structure AbsPath where
  double : Bool
  names : List Name
  isName : ∀ n ∈ names, IsName n

namespace AbsPath

def str (p : AbsPath) : List Char := (if p.double then ['/'] else []) ++ render p.names

def child (p : AbsPath) (n : Name) (hn : IsName n) : AbsPath where
  double := p.double
  names := p.names ++ [n]
  isName := by
    intro m hm
    rcases List.mem_append.mp hm with hold | hnew
    · exact p.isName m hold
    · rw [List.mem_singleton.mp hnew]
      exact hn

theorem components_str (p : AbsPath) : components p.str = p.names := by
  rw [str]
  cases p.double with
  | false => exact components_render p.isName
  | true =>
      show components ('/' :: render p.names) = p.names
      rw [components_slash]
      exact components_render p.isName

theorem uptoSlash_slash {s : List Char} (h : '/' ∈ s) :
    uptoSlash ('/' :: s) = '/' :: uptoSlash s := by
  have hdrop : (s.reverse.dropWhile (· ≠ '/')).isEmpty = false := by
    rw [List.isEmpty_eq_false_iff, Ne, List.dropWhile_eq_nil_iff]
    intro hall
    simpa using hall '/' (List.mem_reverse.mpr h)
  show (('/' :: s).reverse.dropWhile (· ≠ '/')).reverse
    = '/' :: (s.reverse.dropWhile (· ≠ '/')).reverse
  rw [List.reverse_cons, List.dropWhile_append, if_neg (by rw [hdrop]; nofun),
    List.reverse_append]
  rfl

theorem trimHead_slash (head : List Char) : trimHead ('/' :: head) = '/' :: trimHead head := by
  have hall : ('/' :: head).all (· = '/') = head.all (· = '/') := rfl
  rw [trimHead, trimHead, hall]
  split
  · rfl
  · rename_i hnot
    have hdrop : ¬ (head.reverse.dropWhile (· = '/')).isEmpty = true := by
      rw [List.isEmpty_iff, List.dropWhile_eq_nil_iff]
      intro hslash
      refine hnot (List.all_eq_true.mpr fun c hc => ?_)
      exact hslash c (List.mem_reverse.mpr hc)
    show (('/' :: head).reverse.dropWhile (· = '/')).reverse
      = '/' :: (head.reverse.dropWhile (· = '/')).reverse
    rw [List.reverse_cons, List.dropWhile_append, if_neg hdrop, List.reverse_append]
    rfl

theorem dirname_slash {s : List Char} (h : '/' ∈ s) : dirname ('/' :: s) = '/' :: dirname s := by
  show trimHead (uptoSlash ('/' :: s)) = '/' :: trimHead (uptoSlash s)
  rw [uptoSlash_slash h, trimHead_slash]

theorem join_slash {s : List Char} (hs : s ≠ []) {n : Name} (hn : IsName n) :
    join ('/' :: s) n = '/' :: join s n := by
  unfold join
  rw [isName_no_leading_slash hn]
  have hlast : ('/' :: s).getLast? = s.getLast? := by
    cases s with
    | nil => exact absurd rfl hs
    | cons c s => exact List.getLast?_cons_cons
  rw [hlast]
  by_cases hl : s.getLast? = some '/'
  · simp [hl]
  · simp [hl, hs]

theorem slash_mem_render (ns : List Name) : '/' ∈ render ns := by
  cases ns with
  | nil => exact List.mem_cons_self
  | cons n ns => simp [render]

theorem dirname_child (p : AbsPath) {n : Name} (hn : IsName n) :
    dirname (p.child n hn).str = p.str := by
  have hrender := dirname_render p.isName hn
  unfold str child
  cases p.double with
  | false => exact hrender
  | true =>
      show dirname ('/' :: render (p.names ++ [n])) = '/' :: render p.names
      rw [dirname_slash (slash_mem_render _), hrender]

theorem join_child (p : AbsPath) {n : Name} (hn : IsName n) :
    join p.str n = (p.child n hn).str := by
  have hrender := join_render p.isName hn
  unfold str child
  cases p.double with
  | false => exact hrender
  | true =>
      have hne : render p.names ≠ [] := List.ne_nil_of_mem (slash_mem_render p.names)
      show join ('/' :: render p.names) n = '/' :: render (p.names ++ [n])
      rw [join_slash hne hn, hrender]

theorem isAbs_str (p : AbsPath) : isAbs p.str = true := by
  cases p with
  | mk double names isName =>
      cases double with
      | true => rfl
      | false =>
          cases names with
          | nil => rfl
          | cons n ns => rfl

/-- A path is the root or a child of its directory. -/
theorem eq_child (p : AbsPath) : p.names = [] ∨ ∃ (q : AbsPath) (n : Name) (hn : IsName n),
    p = q.child n hn := by
  rcases List.eq_nil_or_concat p.names with h | ⟨ns, n, h⟩
  · exact .inl h
  · rw [List.concat_eq_append] at h
    have hn : IsName n := p.isName n (by simp [h])
    refine .inr ⟨⟨p.double, ns, fun m hm => p.isName m (by simp [h, hm])⟩, n, hn, ?_⟩
    cases p
    cases h
    rfl

end AbsPath

/-- The single-slash form: `/` and the names with one slash between them. -/
def Normal (path : List Char) : Prop := ∃ ns : List Name, (∀ n ∈ ns, IsName n) ∧ path = render ns

theorem Normal.abs {path : List Char} (h : Normal path) : ∃ p : AbsPath, path = p.str := by
  obtain ⟨ns, hns, rfl⟩ := h
  exact ⟨⟨false, ns, hns⟩, rfl⟩

/-- The directory of an absolute path drops the last component, if there is one. -/
theorem AbsPath.components_dirname (p : AbsPath) :
    components (dirname p.str) = p.names.dropLast := by
  rcases p.eq_child with hroot | ⟨q, n, hn, rfl⟩
  · obtain ⟨double, names, isName⟩ := p
    cases hroot
    cases double with
    | true => rfl
    | false => rfl
  · rw [AbsPath.dirname_child, AbsPath.components_str]
    exact List.dropLast_concat.symm

theorem normpath_abs (path : List Char) : ∃ p : AbsPath, normpath path = p.str :=
  ⟨⟨doubleSlash path, normalize (components path),
    normalize_isName fun _ hn => mem_components hn⟩, rfl⟩

end Posix
