/-
# `Lib.Lines` — a text stream read line by line

Iterating over a text stream yields its lines, each with its terminator; only
the last one may lack it.  `\n` is the only terminator here: a text-mode stream
has already turned `\r` and `\r\n` into it.
-/
import Mathlib.Data.List.Basic

namespace Lines

/-- The lines of a text, each with its newline. -/
def lines : List Char → List (List Char)
  | [] => []
  | c :: cs =>
      if c = '\n' then [c] :: lines cs
      else
        match lines cs with
        | [] => [[c]]
        | l :: ls => (c :: l) :: ls

/-- No text is lost or duplicated. -/
theorem lines_flatten : ∀ t : List Char, (lines t).flatten = t
  | [] => rfl
  | c :: cs => by
      have ih := lines_flatten cs
      by_cases hc : c = '\n'
      · simp [lines, hc, ih]
      · simp only [lines, if_neg hc]
        cases h : lines cs with
        | nil =>
            rw [h] at ih
            simp at ih
            simp [ih]
        | cons l ls =>
            rw [h] at ih
            simpa using ih

/-- A cut between lines cuts the text. -/
theorem lines_cut {t : List Char} {front rest : List (List Char)} (h : lines t = front ++ rest) :
    t = front.flatten ++ rest.flatten := by
  rw [← List.flatten_append, ← h, lines_flatten]

/-- A text without a newline is one line. -/
theorem lines_of_not_mem : ∀ {t : List Char}, t ≠ [] → '\n' ∉ t → lines t = [t]
  | [c], _, h => by
      have hc : c ≠ '\n' := fun e => h (by simp [e])
      simp [lines, hc]
  | c :: d :: t, _, h => by
      have hc : c ≠ '\n' := fun e => h (by simp [e])
      have ih := lines_of_not_mem (t := d :: t) (by simp) (fun hm => h (List.mem_cons_of_mem _ hm))
      rw [lines, if_neg hc, ih]

/-- A text whose only newline ends it is one line. -/
theorem lines_terminated : ∀ {t : List Char}, '\n' ∉ t → lines (t ++ ['\n']) = [t ++ ['\n']]
  | [], _ => by simp [lines]
  | c :: t, h => by
      have hc : c ≠ '\n' := fun e => h (by simp [e])
      have ih := lines_terminated (t := t) (fun hm => h (List.mem_cons_of_mem _ hm))
      rw [List.cons_append, lines, if_neg hc, ih]

/-- After a newline the lines start afresh. -/
theorem lines_append : ∀ a b : List Char, lines (a ++ '\n' :: b) = lines (a ++ ['\n']) ++ lines b
  | [], b => by simp [lines]
  | c :: a, b => by
      have ih := lines_append a b
      by_cases hc : c = '\n'
      · simp [lines, hc, ih]
      · rw [List.cons_append, List.cons_append, lines, if_neg hc, lines, if_neg hc, ih]
        -- `a ++ ['\n']` is not empty, so it has a first line for `c` to join
        cases h : lines (a ++ ['\n']) with
        | nil =>
            have := lines_flatten (a ++ ['\n'])
            rw [h] at this
            simp at this
        | cons l ls => rfl

/-- A line at the end of a text: the lines before it, and what joins its front. -/
theorem lines_snoc {u : List Char} (hu : lines u = [u]) :
    ∀ a : List Char, ∃ ls x, lines (a ++ u) = ls ++ [x ++ u] ∧ ls.flatten ++ x = a
  | [] => ⟨[], [], by simp [hu], rfl⟩
  | c :: a => by
      obtain ⟨ls, x, h₁, h₂⟩ := lines_snoc hu a
      by_cases hc : c = '\n'
      · exact ⟨[c] :: ls, x, by simp [lines, hc, h₁], by simp [h₂]⟩
      · cases ls with
        | nil =>
            refine ⟨[], c :: x, ?_, ?_⟩
            · simp [lines, hc, h₁]
            · simpa using h₂
        | cons l ls =>
            refine ⟨(c :: l) :: ls, x, ?_, ?_⟩
            · simp [lines, hc, h₁]
            · simpa using h₂

/-- Every line but the last is a text without a newline, and its newline. -/
theorem lines_cons : ∀ {t l : List Char} {ls : List (List Char)}, lines t = l :: ls → ls ≠ [] →
    ∃ x u, '\n' ∉ x ∧ l = x ++ ['\n'] ∧ lines u = ls
  | [], l, ls, h, _ => by cases h
  | c :: t, l, ls, h, hne => by
      rw [lines] at h
      split at h
      · rename_i hc
        obtain ⟨rfl, rfl⟩ := List.cons.inj h
        exact ⟨[], t, List.not_mem_nil, by rw [hc]; rfl, rfl⟩
      · rename_i hc
        split at h
        · obtain ⟨-, rfl⟩ := List.cons.inj h
          exact absurd rfl hne
        · rename_i l' ls' htail
          obtain ⟨rfl, rfl⟩ := List.cons.inj h
          obtain ⟨x, u, hx, rfl, hu⟩ := lines_cons htail hne
          refine ⟨c :: x, u, ?_, rfl, hu⟩
          rw [List.mem_cons, not_or]
          exact ⟨fun e => hc e.symm, hx⟩

/-- Whatever follows some of a text's lines, they stay lines. -/
theorem lines_front {t : List Char} {front rest : List (List Char)} (h : lines t = front ++ rest)
    (hne : rest ≠ []) (u : List Char) : lines (front.flatten ++ u) = front ++ lines u := by
  induction front generalizing t with
  | nil => rfl
  | cons l front ih =>
      obtain ⟨x, t', hx, rfl, ht'⟩ := lines_cons h (List.append_ne_nil_of_right_ne_nil _ hne)
      rw [List.flatten_cons, List.append_assoc, List.append_assoc, List.singleton_append,
        lines_append, lines_terminated hx, ih ht']
      rfl

/-- The first lines of a text are the lines of the text they make up. -/
theorem lines_prefix {t : List Char} {front : List (List Char)} (h : front <+: lines t) :
    lines front.flatten = front := by
  obtain ⟨rest, hrest⟩ := h
  by_cases hne : rest = []
  · rw [hne, List.append_nil] at hrest
    rw [hrest, lines_flatten]
  · have hfront := lines_front hrest.symm hne []
    rwa [List.append_nil, lines, List.append_nil] at hfront

/-- A cut between two lines comes right after a newline. -/
theorem lines_break {t : List Char} {front rest : List (List Char)} (h : lines t = front ++ rest)
    (hfront : front ≠ []) (hrest : rest ≠ []) : ∃ x, front.flatten = x ++ ['\n'] := by
  induction front generalizing t with
  | nil => exact absurd rfl hfront
  | cons l front ih =>
      obtain ⟨x, t', -, rfl, ht'⟩ := lines_cons h (List.append_ne_nil_of_right_ne_nil _ hrest)
      by_cases hnil : front = []
      · exact ⟨x, by rw [hnil, List.flatten_singleton]⟩
      · obtain ⟨y, hy⟩ := ih ht' hnil
        exact ⟨x ++ ['\n'] ++ y, by rw [List.flatten_cons, hy, List.append_assoc _ y]⟩

/-- Without their last line they are no longer. -/
theorem length_dropLast_flatten (ls : List (List Char)) :
    ls.dropLast.flatten.length ≤ ls.flatten.length := by
  obtain ⟨last, hlast⟩ := List.dropLast_prefix ls
  have hcut := congrArg (fun ls => ls.flatten.length) hlast
  simp only [List.flatten_append, List.length_append] at hcut
  omega

end Lines
