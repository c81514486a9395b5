/-
# `Lib.NormPath` — `normpath` of any path

Below the root `normpath` collapses every `..`; on a relative path those with nothing
in front of them stay.  Either way it works on the components from left to right
and only ever appends one or drops the last (`collapse`), so what it gives it
leaves alone (`normpathAny_idem`).

Of a path without `..` it changes the spelling only: `realpath` goes through the
same names (`realpath_congr`).  Unless it meets a loop of links: there it gives the
rest of the path back as it was spelled.
-/
import HandBrakeEncoder.Lib.Resolution

namespace Posix

/-! ## The function -/

/-- One turn of the loop of `normpath`. -/
def collapse (absolute : Bool) (acc : List Name) (c : Name) : List Name :=
  if c ≠ dotdot ∨ (absolute = false ∧ acc = []) ∨ acc.getLast? = some dotdot then acc ++ [c]
  else acc.dropLast

/-- The components of the normal form. -/
def collapsed (path : List Char) : List Name := (components path).foldl (collapse (isAbs path)) []

/-- The slashes `normpath` leaves at the front. -/
def initialSlashes (path : List Char) : List Char :=
  if isAbs path then if doubleSlash path then ['/', '/'] else ['/'] else []

/-- `x or "."`. -/
def orDot (text : List Char) : List Char := if text = [] then ['.'] else text

/-- `normpath`. -/
def normpathAny (path : List Char) : List Char :=
  orDot (initialSlashes path ++ List.intercalate ['/'] (collapsed path))

variable {path : List Char} {absolute : Bool} {acc ns : List Name} {c n : Name}

/-! ## What is collapsed -/

theorem length_collapse_le (absolute : Bool) (acc : List Name) (c : Name) :
    (collapse absolute acc c).length ≤ acc.length + 1 := by
  rw [collapse]
  split
  · simp
  · simp
    omega

theorem length_foldl_collapse_le (absolute : Bool) (ns : List Name) :
    (ns.foldl (collapse absolute) []).length ≤ ns.length := by
  induction ns using List.reverseRecOn with
  | nil => exact le_rfl
  | append_singleton ns n ih =>
      rw [List.foldl_append, List.length_append]
      exact (length_collapse_le _ _ _).trans (Nat.succ_le_succ ih)

/-- Collapsing leaves the list as it is. -/
def Collapsed (absolute : Bool) (ns : List Name) : Prop := ns.foldl (collapse absolute) [] = ns

/-- A prefix of such a list is one too: the last component was appended, or the list were shorter. -/
theorem Collapsed.init (h : Collapsed absolute (ns ++ [n])) : Collapsed absolute ns := by
  have hlen := length_foldl_collapse_le absolute ns
  rw [Collapsed, List.foldl_append, List.foldl_cons, List.foldl_nil, collapse] at h
  split at h
  · exact (List.append_inj' h rfl).1
  · have hshort := congrArg List.length h
    rw [List.length_dropLast, List.length_append, List.length_singleton] at hshort
    omega

theorem Collapsed.step (h : Collapsed absolute acc) (c : Name) :
    Collapsed absolute (collapse absolute acc c) := by
  rw [collapse]
  split
  · rename_i hc
    rw [Collapsed, List.foldl_append, h]
    exact if_pos hc
  · rcases List.eq_nil_or_concat acc with rfl | ⟨ns, n, rfl⟩
    · exact h
    · rw [List.concat_eq_append] at h ⊢
      rw [List.dropLast_concat]
      exact h.init

theorem Collapsed.foldl (h : Collapsed absolute acc) (ns : List Name) :
    Collapsed absolute (ns.foldl (collapse absolute) acc) := by
  induction ns generalizing acc with
  | nil => exact h
  | cons n ns ih => exact ih (h.step n)

theorem collapsed_collapsed (path : List Char) : Collapsed (isAbs path) (collapsed path) :=
  Collapsed.foldl (show Collapsed (isAbs path) [] from rfl) _

/-- Every component of the result is one of the path, in the same order. -/
theorem foldl_collapse_sublist (absolute : Bool) (ns : List Name) :
    (ns.foldl (collapse absolute) []).Sublist ns := by
  induction ns using List.reverseRecOn with
  | nil => exact List.Sublist.refl []
  | append_singleton ns n ih =>
      rw [List.foldl_append, List.foldl_cons, List.foldl_nil, collapse]
      split
      · exact ih.append (List.Sublist.refl [n])
      · exact ((List.dropLast_sublist _).trans ih).trans (List.sublist_append_left ns [n])

theorem collapsed_sublist (path : List Char) : (collapsed path).Sublist (components path) :=
  foldl_collapse_sublist _ _

/-- Without a `..` nothing is dropped. -/
theorem collapsed_of_not_mem (h : dotdot ∉ components path) : collapsed path = components path := by
  rw [collapsed]
  generalize components path = ns at h
  induction ns using List.reverseRecOn with
  | nil => rfl
  | append_singleton ns n ih =>
      rw [List.mem_append, not_or] at h
      rw [List.foldl_append, ih h.1]
      exact if_pos (.inl fun hn => h.2 (List.mem_singleton.mpr hn.symm))

/-! ## The text -/

/-- A component: a name, or `..`. -/
def IsComponent (n : Name) : Prop := n = dotdot ∨ IsName n

theorem IsComponent.ne_nil (h : IsComponent n) : n ≠ [] := by
  rcases h with rfl | h
  · exact List.cons_ne_nil _ _
  · exact h.nonempty

theorem IsComponent.noSlash (h : IsComponent n) : '/' ∉ n := by
  rcases h with rfl | h
  · decide
  · exact h.noSlash

theorem IsComponent.kept (h : IsComponent n) : (n ≠ [] && n ≠ ['.']) = true := by
  rcases h with rfl | h
  · rfl
  · rw [decide_eq_true h.nonempty, decide_eq_true h.notDot]
    rfl

theorem collapsed_isComponent (h : n ∈ collapsed path) : IsComponent n :=
  mem_components ((collapsed_sublist path).subset h)

/-- Components joined with slashes come back. -/
theorem components_intercalate (h : ∀ n ∈ ns, IsComponent n) :
    components (List.intercalate ['/'] ns) = ns := by
  rcases eq_or_ne ns [] with rfl | hne
  · rfl
  · rw [components, List.splitOn_intercalate '/' (fun n hn => (h n hn).noSlash) hne]
    exact List.filter_eq_self.mpr fun n hn => (h n hn).kept

theorem head_intercalate (h : ∀ n ∈ ns, IsComponent n) :
    (List.intercalate ['/'] ns).head? ≠ some '/' := by
  intro hhead
  cases ns with
  | nil => cases hhead
  | cons n ns =>
      have hn := h n List.mem_cons_self
      obtain ⟨c, cs, rfl⟩ := List.exists_cons_of_ne_nil hn.ne_nil
      have hfirst : c = '/' := by
        cases ns with
        | nil => exact Option.some.inj hhead
        | cons m ns =>
            rw [List.intercalate_cons_cons] at hhead
            exact Option.some.inj hhead
      exact hn.noSlash (List.mem_cons.mpr (.inl hfirst.symm))

theorem components_initialSlashes (path text : List Char) :
    components (initialSlashes path ++ text) = components text := by
  rw [initialSlashes]
  split
  · split
    · exact (components_slash _).trans (components_slash _)
    · exact components_slash _
  · rfl

theorem components_orDot (text : List Char) : components (orDot text) = components text := by
  rw [orDot]
  split
  · rename_i htext
    rw [htext]
    rfl
  · rfl

@[simp] theorem components_normpathAny (path : List Char) :
    components (normpathAny path) = collapsed path := by
  rw [normpathAny, components_orDot, components_initialSlashes,
    components_intercalate fun n hn => collapsed_isComponent hn]

theorem doubleSlash_of_relative (h : isAbs path = false) : doubleSlash path = false := by
  cases path with
  | nil => rfl
  | cons c cs =>
      have hc : c ≠ '/' := by
        rintro rfl
        cases h
      simp [doubleSlash, hc]

/-- The normal form begins with as many slashes as it says. -/
theorem normpathAny_front (path : List Char) :
    isAbs (normpathAny path) = isAbs path ∧ doubleSlash (normpathAny path) = doubleSlash path := by
  have hhead : (List.intercalate ['/'] (collapsed path)).head? ≠ some '/' :=
    head_intercalate fun n hn => collapsed_isComponent hn
  rw [normpathAny, initialSlashes]
  generalize List.intercalate ['/'] (collapsed path) = text at hhead
  cases habs : isAbs path with
  | false =>
      rw [doubleSlash_of_relative habs, if_neg Bool.false_ne_true, List.nil_append]
      have hrel : isAbs (orDot text) = false := by
        cases text with
        | nil => rfl
        | cons c cs =>
            refine decide_eq_false fun hc => hhead ?_
            rw [orDot, if_neg (List.cons_ne_nil c cs)] at hc
            exact hc
      exact ⟨hrel, doubleSlash_of_relative hrel⟩
  | true =>
      rw [if_pos rfl]
      cases hdouble : doubleSlash path with
      | true =>
          rw [if_pos rfl]
          refine ⟨rfl, ?_⟩
          cases text with
          | nil => rfl
          | cons c cs =>
              have hc : c ≠ '/' := fun hc => hhead (congrArg some hc)
              simp [orDot, doubleSlash, hc]
      | false =>
          rw [if_neg Bool.false_ne_true]
          refine ⟨rfl, ?_⟩
          cases text with
          | nil => rfl
          | cons c cs =>
              have hc : c ≠ '/' := fun hc => hhead (congrArg some hc)
              simp [orDot, doubleSlash, hc]

theorem normpathAny_idem (path : List Char) : normpathAny (normpathAny path) = normpathAny path := by
  obtain ⟨habs, hdouble⟩ := normpathAny_front path
  have hslashes : initialSlashes (normpathAny path) = initialSlashes path := by
    rw [initialSlashes, initialSlashes, habs, hdouble]
  have hcollapsed : collapsed (normpathAny path) = collapsed path := by
    rw [collapsed, components_normpathAny, habs]
    exact collapsed_collapsed path
  rw [normpathAny, hslashes, hcollapsed]
  rfl

theorem normpathAny_ne_nil (path : List Char) : normpathAny path ≠ [] := by
  rw [normpathAny, orDot]
  split
  · exact List.cons_ne_nil _ _
  · assumption

theorem mem_intercalate {d : Char} (h : d ∈ List.intercalate ['/'] ns) :
    d = '/' ∨ ∃ n ∈ ns, d ∈ n := by
  induction ns with
  | nil => cases h
  | cons n ns ih =>
      rcases eq_or_ne ns [] with rfl | hne
      · rw [List.intercalate_singleton] at h
        exact .inr ⟨n, List.mem_cons_self, h⟩
      · rw [List.intercalate_cons_of_ne_nil hne, List.append_assoc] at h
        rcases List.mem_append.mp h with hn | h
        · exact .inr ⟨n, List.mem_cons_self, hn⟩
        · rcases List.mem_append.mp h with hslash | h
          · exact .inl (List.mem_singleton.mp hslash)
          · exact (ih h).imp_right fun ⟨m, hm, hd⟩ => ⟨m, List.mem_cons_of_mem _ hm, hd⟩

theorem mem_intercalate_of_mem {d : Char} (hn : n ∈ ns) (hd : d ∈ n) :
    d ∈ List.intercalate ['/'] ns := by
  induction ns with
  | nil => cases hn
  | cons m ns ih =>
      rcases List.mem_cons.mp hn with rfl | hn
      · rcases eq_or_ne ns [] with rfl | hne
        · rw [List.intercalate_singleton]
          exact hd
        · rw [List.intercalate_cons_of_ne_nil hne, List.append_assoc]
          exact List.mem_append_left _ hd
      · rw [List.intercalate_cons_of_ne_nil (List.ne_nil_of_mem hn)]
        exact List.mem_append_right _ (ih hn)

/-- What stands in a piece stands in the text. -/
theorem mem_of_mem_splitOn {d : Char} (hn : n ∈ path.splitOn '/') (hd : d ∈ n) : d ∈ path := by
  have hmem := mem_intercalate_of_mem hn hd
  rw [List.intercalate_splitOn] at hmem
  exact hmem

/-- A character of the normal form is one of the path, a slash or a dot. -/
theorem mem_normpathAny {d : Char} (h : d ∈ normpathAny path) : d ∈ path ∨ d = '/' ∨ d = '.' := by
  rw [normpathAny, orDot] at h
  split at h
  · exact .inr (.inr (List.mem_singleton.mp h))
  · rcases List.mem_append.mp h with hslash | h
    · refine .inr (.inl ?_)
      rw [initialSlashes] at hslash
      split at hslash
      · split at hslash
        · simpa using hslash
        · exact List.mem_singleton.mp hslash
      · cases hslash
    · rcases mem_intercalate h with hslash | ⟨n, hn, hd⟩
      · exact .inr (.inl hslash)
      · have hpiece := (List.mem_filter.mp ((collapsed_sublist path).subset hn)).1
        exact .inl (mem_of_mem_splitOn hpiece hd)

theorem length_intercalate_cons (n : Name) (ns : List Name) :
    (List.intercalate ['/'] (n :: ns)).length
      = n.length + if ns = [] then 0 else 1 + (List.intercalate ['/'] ns).length := by
  rcases eq_or_ne ns [] with rfl | hne
  · rw [List.intercalate_singleton]
    rfl
  · rw [List.intercalate_cons_of_ne_nil hne, if_neg hne]
    simp only [List.length_append, List.length_singleton]
    omega

theorem length_intercalate_mono {ms : List Name} (h : ns.Sublist ms) :
    (List.intercalate ['/'] ns).length ≤ (List.intercalate ['/'] ms).length := by
  induction h with
  | slnil => exact le_rfl
  | @cons ns ms m _ ih =>
      rw [length_intercalate_cons]
      split
      · rename_i hms
        rw [hms] at ih
        exact ih.trans (Nat.zero_le _)
      · omega
  | @cons_cons ns ms m hsub ih =>
      rw [length_intercalate_cons, length_intercalate_cons]
      rcases eq_or_ne ns [] with rfl | hne
      · rw [if_pos rfl]
        omega
      · have hms : ms ≠ [] := fun hms => hne (List.sublist_nil.mp (hms ▸ hsub))
        rw [if_neg hne, if_neg hms]
        omega

theorem initialSlashes_prefix (path : List Char) : ∃ rest, path = initialSlashes path ++ rest := by
  rw [initialSlashes]
  split
  · rename_i habs
    obtain ⟨rest, rfl⟩ := isAbs_eq_cons habs
    split
    · rename_i hdouble
      cases rest with
      | nil => cases hdouble
      | cons c rest =>
          have hc : c = '/' := by
            simpa [doubleSlash] using (Bool.and_eq_true_iff.mp hdouble).1
          exact ⟨rest, by rw [hc]; rfl⟩
    · exact ⟨rest, rfl⟩
  · exact ⟨path, rfl⟩

/-- The normal form of a path that is not empty is no longer than the path. -/
theorem length_normpathAny_le (h : path ≠ []) : (normpathAny path).length ≤ path.length := by
  obtain ⟨rest, hrest⟩ := initialSlashes_prefix path
  have hpieces : (collapsed path).Sublist (rest.splitOn '/') := by
    have hcomponents : components path = components rest := by
      conv_lhs => rw [hrest]
      exact components_initialSlashes path rest
    refine (collapsed_sublist path).trans ?_
    rw [hcomponents]
    exact List.filter_sublist
  have hlen := length_intercalate_mono hpieces
  rw [List.intercalate_splitOn] at hlen
  rw [normpathAny, orDot]
  split
  · exact List.length_pos_iff.mpr h
  · have hsplit := congrArg List.length hrest
    rw [List.length_append] at hsplit ⊢
    omega

/-! ## Resolving it -/

variable {fs : Fs} {depth : Nat} {cwd : List Char} {p q : List Char}

/-- The resolution of the path ends at a loop of links. -/
def Loops (fs : Fs) (depth : Nat) (cwd path : List Char) : Prop :=
  ∃ r, joinRealpath fs depth [] [] (join cwd path) = .ok r ∧ r.ok = false

/-- The pieces that name nothing may be left out, up to what comes of a loop. -/
theorem joinPieces_pick {resolve : Seen → List Char → List Char → Except RealpathError Resolving}
    (pieces : List Name) (seen : Seen) (path : List Char) :
    joinPieces fs resolve seen path (pick pieces) = joinPieces fs resolve seen path pieces ∨
      (∃ r, joinPieces fs resolve seen path pieces = .ok r ∧ r.ok = false) ∧
        ∃ r, joinPieces fs resolve seen path (pick pieces) = .ok r ∧ r.ok = false := by
  induction pieces generalizing seen path with
  | nil => exact .inl rfl
  | cons name rest ih =>
      by_cases hskip : name = [] ∨ name = ['.']
      · have hpick : pick (name :: rest) = pick rest := by
          rw [pick, List.filter_cons]
          rcases hskip with rfl | rfl <;> rfl
        rw [hpick, joinPieces, if_pos hskip]
        exact ih seen path
      have hpick : pick (name :: rest) = name :: pick rest := by
        obtain ⟨hne, hdot⟩ := not_or.mp hskip
        rw [pick, List.filter_cons, decide_eq_true hne, decide_eq_true hdot]
        rfl
      rw [hpick, joinPieces, joinPieces, if_neg hskip, if_neg hskip]
      by_cases hup : name = dotdot
      · rw [if_pos hup, if_pos hup]
        exact ih seen (dirname path)
      rw [if_neg hup, if_neg hup]
      dsimp only
      split
      · exact .inl rfl
      split
      · exact ih seen _
      split
      · exact ih seen _
      · exact .inr ⟨⟨_, rfl, rfl⟩, ⟨_, rfl, rfl⟩⟩
      · split
        · exact .inl rfl
        · split
          · exact ih _ _
          · exact .inr ⟨⟨_, rfl, rfl⟩, ⟨_, rfl, rfl⟩⟩

theorem isAbs_join (hcwd : isAbs cwd = true) (p : List Char) : isAbs (join cwd p) = true := by
  obtain ⟨rest, rfl⟩ := isAbs_eq_cons hcwd
  rw [join]
  split
  · assumption
  · split <;> rfl

theorem components_join_congr (habs : isAbs p = isAbs q) (h : components p = components q) :
    components (join cwd p) = components (join cwd q) := by
  rw [join, join, habs]
  split
  · exact h
  · split
    · rename_i hcwd
      rcases Bool.or_eq_true_iff.mp hcwd with hnil | hslash
      · rw [of_decide_eq_true hnil]
        exact h
      · obtain ⟨dir, rfl⟩ := List.getLast?_eq_some_iff.mp (of_decide_eq_true hslash)
        rw [List.append_assoc, List.append_assoc, List.singleton_append, List.singleton_append,
          components_append_slash, components_append_slash, h]
    · rw [components_append_slash, components_append_slash, h]

/-- The resolution of a path that starts at the root goes by its components. -/
theorem joinRealpath_components (fs : Fs) (hcwd : isAbs cwd = true) (depth : Nat) (p : List Char) :
    ∃ pieces, pick pieces = components (join cwd p) ∧
      joinRealpath fs (depth + 1) [] [] (join cwd p)
        = joinPieces fs (joinRealpath fs depth) [] ['/'] pieces := by
  obtain ⟨rest, hrest⟩ := isAbs_eq_cons (isAbs_join hcwd p)
  refine ⟨rest.splitOn '/', ?_, ?_⟩
  · rw [hrest, components_slash]
    rfl
  · rw [hrest, joinRealpath]
    rfl

/-- **The spelling does not matter.**  Two paths with the same components, both absolute or both
relative, are resolved alike, unless one of them meets a loop. -/
theorem realpath_congr (hcwd : isAbs cwd = true) (habs : isAbs p = isAbs q)
    (h : components p = components q) (hloop : ¬ Loops fs depth cwd p) :
    realpath fs depth cwd q = realpath fs depth cwd p := by
  cases depth with
  | zero => rfl
  | succ depth =>
      obtain ⟨ps, hps, hp⟩ := joinRealpath_components fs hcwd depth p
      obtain ⟨qs, hqs, hq⟩ := joinRealpath_components fs hcwd depth q
      have hpick : pick qs = pick ps := by rw [hps, hqs, components_join_congr habs h]
      have hthrough : ¬ ∃ r, joinPieces fs (joinRealpath fs depth) [] ['/'] ps = .ok r ∧
          r.ok = false := by
        rw [← hp]
        exact hloop
      have hleft : joinPieces fs (joinRealpath fs depth) [] ['/'] (pick ps)
          = joinPieces fs (joinRealpath fs depth) [] ['/'] ps :=
        (joinPieces_pick ps [] ['/']).resolve_right fun h => hthrough h.1
      have hright : joinPieces fs (joinRealpath fs depth) [] ['/'] (pick ps)
          = joinPieces fs (joinRealpath fs depth) [] ['/'] qs := by
        rw [← hpick]
        refine (joinPieces_pick qs [] ['/']).resolve_right fun h => hthrough ?_
        rw [← hleft, ← hpick]
        exact h.2
      rw [realpath, realpath, hp, hq, ← hright, hleft]

/-- A path that the kernel resolves meets no loop. -/
theorem not_loops_of_stat {i : Ino} (hcwd : isAbs cwd = true)
    (hstat : fs.stat (join cwd path) = .ok i) : ¬ Loops fs depth cwd path := by
  rintro ⟨r, hr, hfalse⟩
  obtain ⟨out, hwalk, rfl⟩ := Fs.stat_ok.mp hstat
  obtain ⟨rest, hrest⟩ := isAbs_eq_cons (isAbs_join hcwd path)
  rw [hrest] at hr hwalk
  have hroot : joinRealpath fs depth [] ['/'] ('/' :: rest) = .ok r := by
    rw [← hr]
    cases depth <;> rfl
  have hbase : base ('/' :: rest) [] = [] := if_pos rfl
  have hcorrect := joinRealpath_correct fs depth (At.root fs) (Resolved.nil fs) (Pending.nil fs _)
    (hbase ▸ hwalk) hroot
  cases hcorrect.ok.symm.trans hfalse

/-- Without a `..` the normal form is resolved as the path is. -/
theorem realpath_normpathAny (hcwd : isAbs cwd = true) (h : dotdot ∉ components path)
    (hloop : ¬ Loops fs depth cwd path) :
    realpath fs depth cwd (normpathAny path) = realpath fs depth cwd path := by
  refine realpath_congr hcwd (normpathAny_front path).1.symm ?_ hloop
  rw [components_normpathAny, collapsed_of_not_mem h]

end Posix
