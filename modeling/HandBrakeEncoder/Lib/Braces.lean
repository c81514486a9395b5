/-
# `Lib.Braces` — scanning a character stream for brace-delimited spans

A scan reads one character at a time and keeps three things: how many braces
are open, whether it is inside a quoted string, and whether the previous
character escaped this one.  A *span* is the text from the brace that takes the
depth from zero to one up to the brace that takes it back.

**The laws.**

    spans of `a ++ b`      = spans of `a`, then spans of `b` from where `a` ended   (`Scan.spans_append`)
    a neutral text           is passed over without a span or a change of mode      (`Neutral`)
    noise at depth zero      is skipped                                             (`Noise.spans`)
    `{ body }`, body neutral is one span, the whole text                            (`Neutral.spans_object`)

`Neutral` is the closure condition a grammar has to meet for its texts to be
scanned correctly: it is stable under concatenation, contains every plain
character and every quoted string, and wrapping it in braces keeps it.
-/
import Mathlib.Data.List.Basic

namespace Braces

/-! ## The automaton -/

/-- Where a scan stands between two characters. -/
structure Mode where
  depth : Nat
  inString : Bool
  escaped : Bool
  deriving DecidableEq, Repr

/-- Outside every brace and every string. -/
def Mode.start : Mode := ⟨0, false, false⟩

/-- Inside `d + 1` braces and no string. -/
def Mode.within (d : Nat) : Mode := ⟨d + 1, false, false⟩

/-- Inside a string that opened within `d + 1` braces. -/
def Mode.quoted (d : Nat) : Mode := ⟨d + 1, true, false⟩

/-- The mode after one character. -/
def Mode.next (m : Mode) (c : Char) : Mode :=
  if m.inString then
    if m.escaped then { m with escaped := false }
    else if c = '\\' then { m with escaped := true }
    else if c = '"' then { m with inString := false }
    else m
  else if c = '"' then { m with inString := true }
  else if c = '{' then { m with depth := m.depth + 1 }
  else if c = '}' then { m with depth := m.depth - 1 }
  else m

/-- The character opens a span. -/
def Mode.opens (m : Mode) (c : Char) : Bool := !m.inString && m.depth == 0 && c == '{'

/-- The character completes the open span. -/
def Mode.closes (m : Mode) (c : Char) : Bool := !m.inString && m.depth == 1 && c == '}'

/-- A scan in progress: the mode, and the text of the open span so far. -/
structure Scan where
  mode : Mode
  pending : List Char
  deriving DecidableEq, Repr

def Scan.start : Scan := ⟨.start, []⟩

/-- The pending text after one character; outside a span there is none. -/
def Scan.keep (s : Scan) (c : Char) : List Char :=
  if s.mode.opens c then [c]
  else if s.mode.closes c then []
  else if s.mode.depth = 0 then []
  else s.pending ++ [c]

def Scan.step (s : Scan) (c : Char) : Scan := ⟨s.mode.next c, s.keep c⟩

/-- The span the character completes, if it completes one. -/
def Scan.out (s : Scan) (c : Char) : List (List Char) :=
  if s.mode.closes c then [s.pending ++ [c]] else []

/-- The scan after a text. -/
def Scan.after : Scan → List Char → Scan
  | s, [] => s
  | s, c :: cs => (s.step c).after cs

/-- The spans a text completes, in order. -/
def Scan.spans : Scan → List Char → List (List Char)
  | _, [] => []
  | s, c :: cs => s.out c ++ (s.step c).spans cs

@[simp] theorem Scan.after_nil (s : Scan) : s.after [] = s := rfl

@[simp] theorem Scan.after_cons (s : Scan) (c : Char) (cs : List Char) :
    s.after (c :: cs) = (s.step c).after cs := rfl

@[simp] theorem Scan.spans_nil (s : Scan) : s.spans [] = [] := rfl

@[simp] theorem Scan.spans_cons (s : Scan) (c : Char) (cs : List Char) :
    s.spans (c :: cs) = s.out c ++ (s.step c).spans cs := rfl

theorem Scan.after_append (s : Scan) (a b : List Char) :
    s.after (a ++ b) = (s.after a).after b := by
  induction a generalizing s with
  | nil => rfl
  | cons c a ih => exact ih (s.step c)

/-- A scan composes: the second text is scanned from where the first one ended. -/
theorem Scan.spans_append (s : Scan) (a b : List Char) :
    s.spans (a ++ b) = s.spans a ++ (s.after a).spans b := by
  induction a generalizing s with
  | nil => rfl
  | cons c a ih =>
      show s.out c ++ (s.step c).spans (a ++ b) = _
      rw [ih (s.step c), ← List.append_assoc]
      rfl

/-- If a text completes no span, no prefix of it does. -/
theorem Scan.spans_prefix {s : Scan} {a b : List Char} (h : s.spans (a ++ b) = []) :
    s.spans a = [] := by
  rw [Scan.spans_append] at h
  exact (List.append_eq_nil_iff.mp h).1

/-! ## Neutral texts -/

/-- A text the scanner passes over inside an object: it completes no span, and
leaves the mode as it found it. -/
def Neutral (t : List Char) : Prop :=
  ∀ (d : Nat) (acc : List Char),
    Scan.after ⟨.within d, acc⟩ t = ⟨.within d, acc ++ t⟩ ∧ Scan.spans ⟨.within d, acc⟩ t = []

/-- A character that means nothing to the scanner outside a string. -/
def Plain (c : Char) : Prop := c ≠ '"' ∧ c ≠ '{' ∧ c ≠ '}'

instance decPlain (c : Char) : Decidable (Plain c) := by unfold Plain; infer_instance

theorem Neutral.nil : Neutral [] := fun d acc => by simp

theorem Neutral.append {a b : List Char} (ha : Neutral a) (hb : Neutral b) : Neutral (a ++ b) := by
  intro d acc
  obtain ⟨ha₁, ha₂⟩ := ha d acc
  obtain ⟨hb₁, hb₂⟩ := hb d (acc ++ a)
  rw [Scan.after_append, Scan.spans_append, ha₁, ha₂, hb₁, hb₂]
  exact ⟨by rw [List.append_assoc], rfl⟩

theorem Neutral.plain {c : Char} (hc : Plain c) : Neutral [c] := by
  obtain ⟨hq, ho, hcl⟩ := hc
  intro d acc
  constructor
  · simp [Scan.step, Mode.next, Scan.keep, Mode.opens, Mode.closes, Mode.within, hq, ho, hcl]
  · simp [Scan.out, Mode.closes, Mode.within, hcl]

theorem Neutral.of_plain {t : List Char} (h : ∀ c ∈ t, Plain c) : Neutral t := by
  induction t with
  | nil => exact Neutral.nil
  | cons c t ih =>
      have hc : Neutral [c] := Neutral.plain (h c List.mem_cons_self)
      exact hc.append (ih (fun x hx => h x (List.mem_cons_of_mem _ hx)))

/-- Braces around a neutral text: the depth goes up and comes back, and since it
started above zero nothing is completed. -/
theorem Neutral.braces {t : List Char} (h : Neutral t) : Neutral ('{' :: t ++ ['}']) := by
  intro d acc
  have hopen : Scan.step ⟨.within d, acc⟩ '{' = ⟨.within (d + 1), acc ++ ['{']⟩ := by
    simp [Scan.step, Mode.next, Scan.keep, Mode.opens, Mode.closes, Mode.within]
  have hout : Scan.out ⟨.within d, acc⟩ '{' = [] := by
    simp [Scan.out, Mode.closes]
  obtain ⟨h₁, h₂⟩ := h (d + 1) (acc ++ ['{'])
  constructor
  · rw [List.cons_append, Scan.after_cons, hopen, Scan.after_append, h₁]
    simp [Scan.step, Mode.next, Scan.keep, Mode.opens, Mode.closes, Mode.within]
  · rw [List.cons_append, Scan.spans_cons, hout, hopen, Scan.spans_append, h₁, h₂]
    simp [Scan.out, Mode.closes, Mode.within]

/-! ### Strings

The body of a string is read in the mode `quoted`; only an unescaped quote
leaves it. -/

/-- A string body: every character is ordinary, or a backslash and what it escapes. -/
inductive Body : List Char → Prop
  | nil : Body []
  | plain {c : Char} {cs : List Char} : c ≠ '"' → c ≠ '\\' → Body cs → Body (c :: cs)
  | escape {c : Char} {cs : List Char} : Body cs → Body ('\\' :: c :: cs)

theorem Body.append {a b : List Char} (ha : Body a) (hb : Body b) : Body (a ++ b) := by
  induction ha with
  | nil => exact hb
  | plain hq hs _ ih => exact .plain hq hs ih
  | escape _ ih => exact .escape ih

/-- A string body neither leaves the string nor completes a span. -/
theorem Body.quoted {t : List Char} (h : Body t) :
    ∀ (d : Nat) (acc : List Char),
      Scan.after ⟨.quoted d, acc⟩ t = ⟨.quoted d, acc ++ t⟩ ∧
        Scan.spans ⟨.quoted d, acc⟩ t = [] := by
  induction h with
  | nil => intro d acc; simp
  | @plain c cs hq hs _ ih =>
      intro d acc
      have hstep : Scan.step ⟨.quoted d, acc⟩ c = ⟨.quoted d, acc ++ [c]⟩ := by
        simp [Scan.step, Mode.next, Scan.keep, Mode.opens, Mode.closes, Mode.quoted, hq, hs]
      have hout : Scan.out ⟨.quoted d, acc⟩ c = [] := by
        simp [Scan.out, Mode.closes, Mode.quoted]
      obtain ⟨h₁, h₂⟩ := ih d (acc ++ [c])
      rw [Scan.after_cons, Scan.spans_cons, hstep, hout, h₁, h₂]
      exact ⟨by rw [List.append_assoc]; rfl, rfl⟩
  | @escape c cs _ ih =>
      intro d acc
      -- the backslash sets `escaped`, and whatever follows only clears it
      have h₀ : Scan.step ⟨.quoted d, acc⟩ '\\' = ⟨⟨d + 1, true, true⟩, acc ++ ['\\']⟩ := by
        simp [Scan.step, Mode.next, Scan.keep, Mode.opens, Mode.closes, Mode.quoted]
      have h₁ : Scan.step ⟨⟨d + 1, true, true⟩, acc ++ ['\\']⟩ c
          = ⟨.quoted d, acc ++ ['\\'] ++ [c]⟩ := by
        simp [Scan.step, Mode.next, Scan.keep, Mode.opens, Mode.closes, Mode.quoted]
      have hout : ∀ m : Scan, m.mode.inString = true → ∀ x, m.out x = [] := by
        intro m hm x
        simp [Scan.out, Mode.closes, hm]
      obtain ⟨ih₁, ih₂⟩ := ih d (acc ++ ['\\'] ++ [c])
      rw [Scan.after_cons, Scan.after_cons, Scan.spans_cons, Scan.spans_cons, h₀, h₁,
        hout _ rfl, hout _ rfl, ih₁, ih₂]
      exact ⟨by simp, rfl⟩

theorem Neutral.string {t : List Char} (h : Body t) : Neutral ('"' :: t ++ ['"']) := by
  intro d acc
  have hopen : Scan.step ⟨.within d, acc⟩ '"' = ⟨.quoted d, acc ++ ['"']⟩ := by
    simp [Scan.step, Mode.next, Scan.keep, Mode.opens, Mode.closes, Mode.within, Mode.quoted]
  have hout : Scan.out ⟨.within d, acc⟩ '"' = [] := by
    simp [Scan.out, Mode.closes]
  obtain ⟨h₁, h₂⟩ := h.quoted d (acc ++ ['"'])
  constructor
  · rw [List.cons_append, Scan.after_cons, hopen, Scan.after_append, h₁]
    simp [Scan.step, Mode.next, Scan.keep, Mode.opens, Mode.closes, Mode.within, Mode.quoted]
  · rw [List.cons_append, Scan.spans_cons, hout, hopen, Scan.spans_append, h₁, h₂]
    simp [Scan.out, Mode.closes, Mode.quoted]

/-! ## At depth zero -/

/-- Text that can neither open a span nor a string. -/
def Noise (t : List Char) : Prop := ∀ c ∈ t, c ≠ '{' ∧ c ≠ '"'

instance decNoise (t : List Char) : Decidable (Noise t) :=
  List.decidableBAll (fun c => c ≠ '{' ∧ c ≠ '"') t

theorem Noise.append {a b : List Char} (ha : Noise a) (hb : Noise b) : Noise (a ++ b) := by
  intro c hc
  rcases List.mem_append.mp hc with h | h
  · exact ha c h
  · exact hb c h

/-- A closing brace at depth zero is ignored, so noise changes nothing. -/
theorem Noise.after {t : List Char} (h : Noise t) : Scan.start.after t = Scan.start := by
  induction t with
  | nil => rfl
  | cons c t ih =>
      obtain ⟨ho, hq⟩ := h c List.mem_cons_self
      have hstep : Scan.start.step c = Scan.start := by
        by_cases hc : c = '}' <;>
          simp [Scan.step, Mode.next, Scan.keep, Mode.opens, Mode.closes, Scan.start, Mode.start,
            ho, hq, hc]
      rw [Scan.after_cons, hstep]
      exact ih (fun x hx => h x (List.mem_cons_of_mem _ hx))

theorem Noise.spans {t : List Char} (h : Noise t) : Scan.start.spans t = [] := by
  induction t with
  | nil => rfl
  | cons c t ih =>
      have h₁ : Noise [c] := fun x hx => h x (by simp at hx; simp [hx])
      have hstep : Scan.start.step c = Scan.start := h₁.after
      have hout : Scan.start.out c = [] := by
        simp [Scan.out, Mode.closes, Scan.start, Mode.start]
      rw [Scan.spans_cons, hout, hstep]
      exact ih (fun x hx => h x (List.mem_cons_of_mem _ hx))

theorem Scan.start_open : Scan.start.step '{' = ⟨.within 0, ['{']⟩ := by
  simp [Scan.step, Mode.next, Scan.keep, Mode.opens, Scan.start, Mode.start, Mode.within]

/-- Up to its closing brace an object completes nothing. -/
theorem Neutral.spans_open {t : List Char} (h : Neutral t) : Scan.start.spans ('{' :: t) = [] := by
  have hout : Scan.start.out '{' = [] := by
    simp [Scan.out, Mode.closes]
  rw [Scan.spans_cons, hout, Scan.start_open, (h 0 ['{']).2]
  rfl

theorem Neutral.after_open {t : List Char} (h : Neutral t) :
    Scan.start.after ('{' :: t) = ⟨.within 0, '{' :: t⟩ := by
  rw [Scan.after_cons, Scan.start_open, (h 0 ['{']).1]
  rfl

/-- A whole object is one span. -/
theorem Neutral.spans_object {t : List Char} (h : Neutral t) :
    Scan.start.spans ('{' :: t ++ ['}']) = ['{' :: t ++ ['}']] := by
  rw [Scan.spans_append, h.spans_open, h.after_open]
  simp [Scan.out, Mode.closes, Mode.within]

/-- After a whole object the scan is back where it started. -/
theorem Neutral.after_object {t : List Char} (h : Neutral t) :
    Scan.start.after ('{' :: t ++ ['}']) = Scan.start := by
  rw [Scan.after_append, h.after_open]
  simp [Scan.step, Mode.next, Scan.keep, Mode.opens, Mode.closes, Mode.within, Scan.start,
    Mode.start]

end Braces
