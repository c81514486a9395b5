/-
# `Lib.Text` — whitespace and lines as `str` has them

`str.strip`, `str.splitlines` and the class `\s` of `re` go by the same tables
of code points: `isSpace` for whitespace, `isLineBreak` for line boundaries.
-/
import Mathlib.Data.List.DropRight
import Mathlib.Data.List.TakeWhile

namespace Text

/-- `str.isspace` of one character. -/
def isSpace (c : Char) : Bool :=
  let n := c.toNat
  (9 ≤ n && n ≤ 13) || (28 ≤ n && n ≤ 32) || n = 0x85 || n = 0xA0 || n = 0x1680
    || (0x2000 ≤ n && n ≤ 0x200A) || n = 0x2028 || n = 0x2029 || n = 0x202F || n = 0x205F
    || n = 0x3000

/-- A character `str.splitlines` ends a line at. -/
def isLineBreak (c : Char) : Bool :=
  let n := c.toNat
  (10 ≤ n && n ≤ 13) || (28 ≤ n && n ≤ 30) || n = 0x85 || n = 0x2028 || n = 0x2029

/-- `str.splitlines`: a line feed after a carriage return ends no line of its own. -/
def splitlines : List Char → List (List Char)
  | [] => []
  | '\r' :: '\n' :: cs => [] :: splitlines cs
  | c :: cs =>
      if isLineBreak c then [] :: splitlines cs
      else
        match splitlines cs with
        | [] => [[c]]
        | l :: ls => (c :: l) :: ls

/-- `str.strip`. -/
def strip (s : List Char) : List Char := (s.dropWhile isSpace).rdropWhile isSpace

/-- A text without whitespace is left as it is. -/
theorem strip_of_no_space {s : List Char} (h : ∀ c ∈ s, isSpace c = false) : strip s = s := by
  have hleft : s.dropWhile isSpace = s := by
    cases s with
    | nil =>
        rfl
    | cons c cs =>
        rw [List.dropWhile_cons, if_neg]
        rw [h c List.mem_cons_self]
        exact Bool.false_ne_true
  rw [strip, hleft, List.rdropWhile_eq_self_iff]
  intro hne hlast
  rw [h _ (List.getLast_mem hne)] at hlast
  cases hlast

/-- Something is left of a text that is not blank. -/
theorem strip_ne_nil {s : List Char} {c : Char} (hmem : c ∈ s) (hc : isSpace c = false) :
    strip s ≠ [] := by
  have hleft : c ∈ s.dropWhile isSpace := by
    rw [← List.takeWhile_append_dropWhile (p := isSpace) (l := s)] at hmem
    rcases List.mem_append.mp hmem with htake | hdrop
    · rw [List.mem_takeWhile_imp htake] at hc
      cases hc
    · exact hdrop
  intro hnil
  rw [strip, List.rdropWhile_eq_nil_iff] at hnil
  rw [hnil c hleft] at hc
  cases hc

theorem strip_within (s : List Char) : strip s <:+: s :=
  (List.rdropWhile_prefix _ _).isInfix.trans (List.dropWhile_suffix _).isInfix

/-- A text is its own strip if it neither starts nor ends with whitespace. -/
theorem strip_eq_self_iff {s : List Char} : strip s = s ↔
    (∀ c, s.head? = some c → isSpace c = false) ∧ ∀ c, s.getLast? = some c → isSpace c = false := by
  constructor
  · intro h
    have hleft : s.dropWhile isSpace = s := by
      refine (List.dropWhile_suffix _).eq_of_length_le ?_
      calc s.length = (strip s).length := by rw [h]
        _ ≤ (s.dropWhile isSpace).length := (List.rdropWhile_prefix _ _).length_le
    rw [strip, hleft] at h
    refine ⟨fun c hc => ?_, fun c hc => ?_⟩
    · obtain ⟨cs, rfl⟩ := List.head?_eq_some_iff.mp hc
      simpa using List.dropWhile_eq_self_iff.mp hleft
    · obtain ⟨cs, rfl⟩ := List.getLast?_eq_some_iff.mp hc
      simpa using List.rdropWhile_eq_self_iff.mp h
  · rintro ⟨hhead, hlast⟩
    have hleft : s.dropWhile isSpace = s := by
      cases s with
      | nil =>
          rfl
      | cons c cs =>
          rw [List.dropWhile_cons, if_neg]
          rw [hhead c rfl]
          exact Bool.false_ne_true
    rw [strip, hleft, List.rdropWhile_eq_self_iff]
    intro hne
    rw [hlast _ (List.getLast?_eq_some_getLast hne)]
    exact Bool.false_ne_true

/-- The line feed at the end of such a text is all that goes. -/
theorem strip_line {s : List Char} (hs : strip s = s) (hne : s ≠ []) : strip (s ++ ['\n']) = s := by
  obtain ⟨hhead, hlast⟩ := strip_eq_self_iff.mp hs
  obtain ⟨c, cs, rfl⟩ := List.exists_cons_of_ne_nil hne
  have hleft : ((c :: cs) ++ ['\n']).dropWhile isSpace = (c :: cs) ++ ['\n'] := by
    rw [List.cons_append, List.dropWhile_cons, if_neg]
    rw [hhead c rfl]
    exact Bool.false_ne_true
  rw [strip, hleft, List.rdropWhile_concat_pos _ _ _ rfl, List.rdropWhile_eq_self_iff]
  intro hne
  rw [hlast _ (List.getLast?_eq_some_getLast hne)]
  exact Bool.false_ne_true

/-! ## Lines -/

/-- A line ends with whitespace. -/
theorem isSpace_of_isLineBreak {c : Char} (h : isLineBreak c = true) : isSpace c = true := by
  simp only [isLineBreak, isSpace, Bool.or_eq_true, Bool.and_eq_true, decide_eq_true_eq] at h ⊢
  omega

/-- A text that stands on one line. -/
def OneLine (s : List Char) : Prop := ∀ c ∈ s, isLineBreak c = false

instance decOneLine (s : List Char) : Decidable (OneLine s) :=
  List.decidableBAll (fun c => isLineBreak c = false) s

theorem oneLine_of_noSpace {s : List Char} (h : ∀ c ∈ s, isSpace c = false) : OneLine s := by
  intro c hc
  refine Bool.eq_false_iff.mpr (fun hbreak => ?_)
  have := isSpace_of_isLineBreak hbreak
  rw [h c hc] at this
  cases this

theorem OneLine.append {l l' : List Char} (h : OneLine l) (h' : OneLine l') : OneLine (l ++ l') := by
  intro c hc
  exact (List.mem_append.mp hc).elim (h c) (h' c)

/-- A text of whole lines: nothing, or one that ends where a line does. -/
def WholeLines (s : List Char) : Prop := ∀ c, s.getLast? = some c → isLineBreak c = true

/-- Lines, each ended by a line feed. -/
def unlines (ls : List (List Char)) : List Char := ls.flatMap (· ++ ['\n'])

theorem splitlines_crlf (cs : List Char) :
    splitlines ('\r' :: '\n' :: cs) = [] :: splitlines cs := by
  rw [splitlines]

/-- A line break ends a line, unless it is the first half of a carriage return and line feed. -/
theorem splitlines_break {c : Char} {cs : List Char} (hc : isLineBreak c = true)
    (hseam : c = '\r' → cs.head? ≠ some '\n') : splitlines (c :: cs) = [] :: splitlines cs := by
  rw [splitlines, if_pos hc]
  rintro rest rfl rfl
  exact hseam rfl rfl

/-- Any other character stands at the front of the first line after it. -/
theorem splitlines_char {c : Char} {cs : List Char} (hc : isLineBreak c = false) :
    splitlines (c :: cs) = (c :: (splitlines cs).headD []) :: (splitlines cs).tail := by
  rw [splitlines, if_neg (by rw [hc]; exact Bool.false_ne_true)]
  · cases splitlines cs with
    | nil =>
        rfl
    | cons l ls =>
        rfl
  · rintro rest rfl _
    cases hc

theorem splitlines_ne_nil {s : List Char} (h : s ≠ []) : splitlines s ≠ [] := by
  induction s using splitlines.induct with
  | case1 =>
      exact absurd rfl h
  | case2 cs =>
      rw [splitlines_crlf]
      exact List.cons_ne_nil _ _
  | case3 c cs hcrlf hc =>
      rw [splitlines_break hc (fun hr hn => ?_)]
      · exact List.cons_ne_nil _ _
      · obtain ⟨rest, rfl⟩ := List.head?_eq_some_iff.mp hn
        exact hcrlf rest hr rfl
  | case4 c cs _ hc =>
      rw [splitlines_char (Bool.eq_false_iff.mpr hc)]
      exact List.cons_ne_nil _ _
  | case5 c cs _ hc =>
      rw [splitlines_char (Bool.eq_false_iff.mpr hc)]
      exact List.cons_ne_nil _ _

/-- A line and its line feed. -/
theorem splitlines_line {l : List Char} (h : OneLine l) (t : List Char) :
    splitlines (l ++ '\n' :: t) = l :: splitlines t := by
  induction l with
  | nil =>
      exact splitlines_break rfl (fun hr => absurd hr (by decide))
  | cons c l ih =>
      rw [List.cons_append, splitlines_char (h c List.mem_cons_self),
        ih (fun d hd => h d (List.mem_cons_of_mem _ hd))]
      rfl

theorem splitlines_unlines {ls : List (List Char)} (h : ∀ l ∈ ls, OneLine l) (t : List Char) :
    splitlines (unlines ls ++ t) = ls ++ splitlines t := by
  induction ls with
  | nil =>
      rfl
  | cons l ls ih =>
      rw [unlines, List.flatMap_cons, List.append_assoc, List.append_assoc, List.singleton_append,
        splitlines_line (h l List.mem_cons_self), ← unlines,
        ih (fun l' hl' => h l' (List.mem_cons_of_mem _ hl')), List.cons_append]

theorem splitlines_oneLine {l : List Char} (h : OneLine l) (hne : l ≠ []) : splitlines l = [l] := by
  induction l with
  | nil =>
      exact absurd rfl hne
  | cons c l ih =>
      rw [splitlines_char (h c List.mem_cons_self)]
      rcases eq_or_ne l [] with rfl | hl
      · rfl
      · rw [ih (fun d hd => h d (List.mem_cons_of_mem _ hd)) hl]
        rfl

theorem getLast?_cons_of_some {c d : Char} {cs : List Char} (h : cs.getLast? = some d) :
    (c :: cs).getLast? = some d := by
  rw [List.getLast?_cons, h]
  rfl

/-- Lines of a text that starts where a line does. -/
theorem splitlines_append {s t : List Char} (hs : WholeLines s)
    (hseam : s.getLast? = some '\r' → t.head? ≠ some '\n') :
    splitlines (s ++ t) = splitlines s ++ splitlines t := by
  induction s using splitlines.induct with
  | case1 =>
      rfl
  | case2 cs ih =>
      rw [List.cons_append, List.cons_append, splitlines_crlf, splitlines_crlf,
        ih (fun d hd => hs d (getLast?_cons_of_some (getLast?_cons_of_some hd)))
          (fun hd => hseam (getLast?_cons_of_some (getLast?_cons_of_some hd))), List.cons_append]
  | case3 c cs hcrlf hc ih =>
      have hfront : c = '\r' → cs.head? ≠ some '\n' := by
        intro hr hn
        obtain ⟨rest, rfl⟩ := List.head?_eq_some_iff.mp hn
        exact hcrlf rest hr rfl
      have hjoined : c = '\r' → (cs ++ t).head? ≠ some '\n' := by
        rintro rfl
        cases cs with
        | nil =>
            exact hseam rfl
        | cons d cs =>
            exact hfront rfl
      rw [List.cons_append, splitlines_break hc hjoined, splitlines_break hc hfront,
        ih (fun d hd => hs d (getLast?_cons_of_some hd))
          (fun hd => hseam (getLast?_cons_of_some hd)), List.cons_append]
  | case4 c cs _ hc hnil =>
      rcases eq_or_ne cs [] with rfl | hne
      · exact absurd (hs c rfl) hc
      · exact absurd hnil (splitlines_ne_nil hne)
  | case5 c cs _ hc l ls hcs ih =>
      have hc' := Bool.eq_false_iff.mpr hc
      rw [List.cons_append, splitlines_char hc', splitlines_char hc',
        ih (fun d hd => hs d (getLast?_cons_of_some hd))
          (fun hd => hseam (getLast?_cons_of_some hd)), hcs]
      rfl

end Text
