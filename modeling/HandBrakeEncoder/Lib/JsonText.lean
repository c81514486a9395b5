/-
# `Lib.JsonText` — the texts of JSON values

The grammar of JSON as a predicate on texts, with any whitespace wherever the
grammar allows it.  Nothing here says which value a text denotes: that is the
decoder's business.  `NaN` and the two infinities are literals, as common
decoders accept them.

`Text.neutral` is the point of the module: a brace scanner passes over every
JSON value without losing its place, whatever its strings contain, so an object
is exactly one span (`ObjectText.spans`).
-/
import HandBrakeEncoder.Lib.Modes

namespace JsonText

open Braces

/-- Insignificant whitespace. -/
def Ws (t : List Char) : Prop := ∀ c ∈ t, c = ' ' ∨ c = '\t' ∨ c = '\n' ∨ c = '\r'

def Digits (t : List Char) : Prop := t ≠ [] ∧ ∀ c ∈ t, c.isDigit = true

def HexDigit (c : Char) : Prop :=
  c.isDigit = true ∨ c ∈ "abcdefABCDEF".toList

/-- A number: sign, integer part without a leading zero, fraction, exponent. -/
inductive NumberText : List Char → Prop
  | mk {sign int frac exp : List Char} :
      sign = [] ∨ sign = ['-'] →
      int = ['0'] ∨ (Digits int ∧ int.head? ≠ some '0') →
      frac = [] ∨ (∃ ds, Digits ds ∧ frac = '.' :: ds) →
      exp = [] ∨ (∃ e s ds, (e = 'e' ∨ e = 'E') ∧ (s = [] ∨ s = ['+'] ∨ s = ['-']) ∧
        Digits ds ∧ exp = e :: (s ++ ds)) →
      NumberText (sign ++ int ++ frac ++ exp)

def literals : List (List Char) :=
  ["null".toList, "true".toList, "false".toList, "NaN".toList, "Infinity".toList,
    "-Infinity".toList]

/-- What stands between the quotes of a string. -/
inductive StringBody : List Char → Prop
  | nil : StringBody []
  | plain {c : Char} {cs : List Char} :
      c ≠ '"' → c ≠ '\\' → 0x20 ≤ c.toNat → StringBody cs → StringBody (c :: cs)
  | escape {c : Char} {cs : List Char} :
      c ∈ "\"\\/bfnrt".toList → StringBody cs → StringBody ('\\' :: c :: cs)
  | unicode {a b c d : Char} {cs : List Char} :
      HexDigit a → HexDigit b → HexDigit c → HexDigit d → StringBody cs →
      StringBody ('\\' :: 'u' :: a :: b :: c :: d :: cs)

/-- The syntactic categories: a value, the inside of an array, the inside of an object. -/
inductive Kind
  | value
  | elements
  | members

/-- `Text k t`: `t` is a text of category `k`. -/
inductive Text : Kind → List Char → Prop
  | literal {t : List Char} : t ∈ literals → Text .value t
  | number {t : List Char} : NumberText t → Text .value t
  | string {t : List Char} : StringBody t → Text .value ('"' :: t ++ ['"'])
  | array {t : List Char} : Text .elements t → Text .value ('[' :: t ++ [']'])
  | object {t : List Char} : Text .members t → Text .value ('{' :: t ++ ['}'])
  | noElements {w : List Char} : Ws w → Text .elements w
  | lastElement {a t b : List Char} :
      Ws a → Text .value t → Ws b → Text .elements (a ++ t ++ b)
  | element {a t b r : List Char} :
      Ws a → Text .value t → Ws b → Text .elements r → Text .elements (a ++ t ++ b ++ ',' :: r)
  | noMembers {w : List Char} : Ws w → Text .members w
  | lastMember {a k b c t d : List Char} :
      Ws a → StringBody k → Ws b → Ws c → Text .value t → Ws d →
      Text .members (a ++ ('"' :: k ++ ['"']) ++ b ++ ':' :: (c ++ t ++ d))
  | member {a k b c t d r : List Char} :
      Ws a → StringBody k → Ws b → Ws c → Text .value t → Ws d → Text .members r →
      Text .members (a ++ ('"' :: k ++ ['"']) ++ b ++ ':' :: (c ++ t ++ d) ++ ',' :: r)

/-- The text of a JSON object. -/
def ObjectText (t : List Char) : Prop := ∃ body, Text .members body ∧ t = '{' :: body ++ ['}']

theorem emptyObject_text : ObjectText ['{', '}'] :=
  ⟨[], .noMembers (fun _ hc => absurd hc List.not_mem_nil), rfl⟩

/-! ## Every text is neutral -/

theorem Ws.neutral {t : List Char} (h : Ws t) : Neutral t :=
  Neutral.of_plain fun c hc => by
    rcases h c hc with rfl | rfl | rfl | rfl <;> decide

theorem plain_of_isDigit {c : Char} (h : c.isDigit = true) : Plain c := by
  refine ⟨?_, ?_, ?_⟩ <;> rintro rfl <;> exact absurd h (by decide)

theorem Digits.neutral {t : List Char} (h : Digits t) : Neutral t :=
  Neutral.of_plain fun c hc => plain_of_isDigit (h.2 c hc)

theorem NumberText.neutral {t : List Char} (h : NumberText t) : Neutral t := by
  cases h with
  | mk hs hi hf he =>
      refine ((Neutral.append ?_ ?_).append ?_).append ?_
      · rcases hs with rfl | rfl
        · exact Neutral.nil
        · exact Neutral.plain (by decide)
      · rcases hi with rfl | ⟨hi, -⟩
        · exact Neutral.plain (by decide)
        · exact hi.neutral
      · rcases hf with rfl | ⟨ds, hds, rfl⟩
        · exact Neutral.nil
        · exact (Neutral.plain (by decide)).append hds.neutral
      · rcases he with rfl | ⟨e, s, ds, he, hs, hds, rfl⟩
        · exact Neutral.nil
        · have hene : Neutral [e] := Neutral.plain (by rcases he with rfl | rfl <;> decide)
          have hsne : Neutral s := by
            rcases hs with rfl | rfl | rfl
            · exact Neutral.nil
            · exact Neutral.plain (by decide)
            · exact Neutral.plain (by decide)
          exact hene.append (hsne.append hds.neutral)

theorem literal_neutral {t : List Char} (h : t ∈ literals) : Neutral t := by
  have hplain : ∀ l ∈ literals, l.all (fun c => decide (Plain c)) = true := by decide
  exact Neutral.of_plain fun c hc => of_decide_eq_true (List.all_eq_true.mp (hplain t h) c hc)

theorem HexDigit.ne {c : Char} (h : HexDigit c) : c ≠ '"' ∧ c ≠ '\\' := by
  constructor <;> rintro rfl <;> exact absurd h (by unfold HexDigit; decide)

/-- A JSON string body is a body the scanner does not leave. -/
theorem StringBody.body {t : List Char} (h : StringBody t) : Body t := by
  induction h with
  | nil => exact .nil
  | plain hq hs _ _ ih => exact .plain hq hs ih
  | escape _ _ ih => exact .escape ih
  | unicode ha hb hc hd _ ih =>
      refine .escape (.plain ha.ne.1 ha.ne.2 (.plain hb.ne.1 hb.ne.2 ?_))
      exact .plain hc.ne.1 hc.ne.2 (.plain hd.ne.1 hd.ne.2 ih)

theorem StringBody.neutral {t : List Char} (h : StringBody t) : Neutral ('"' :: t ++ ['"']) :=
  Neutral.string h.body

/-- The scanner keeps its place over every JSON text, whatever its layout. -/
theorem Text.neutral {k : Kind} {t : List Char} (h : Text k t) : Neutral t := by
  induction h with
  | literal h => exact literal_neutral h
  | number h => exact h.neutral
  | string h => exact h.neutral
  | array _ ih =>
      exact ((Neutral.plain (by decide)).append ih).append (Neutral.plain (by decide))
  | object _ ih => exact ih.braces
  | noElements h => exact h.neutral
  | lastElement ha _ hb ih => exact (ha.neutral.append ih).append hb.neutral
  | element ha _ hb _ ih₁ ih₂ =>
      exact ((ha.neutral.append ih₁).append hb.neutral).append
        ((Neutral.plain (by decide)).append ih₂)
  | noMembers h => exact h.neutral
  | lastMember ha hk hb hc _ hd ih =>
      exact ((ha.neutral.append hk.neutral).append hb.neutral).append
        ((Neutral.plain (by decide)).append ((hc.neutral.append ih).append hd.neutral))
  | member ha hk hb hc _ hd _ ih₁ ih₂ =>
      refine (((ha.neutral.append hk.neutral).append hb.neutral).append
        ((Neutral.plain (by decide)).append ((hc.neutral.append ih₁).append hd.neutral))).append ?_
      exact (Neutral.plain (by decide)).append ih₂

/-! ## Line breaks are outside strings -/

/-- A text whose strings hold no line feed. -/
abbrev OnOneLine (t : List Char) : Prop := Strung (fun b => '\n' ∉ b) t

theorem Ws.strung {t : List Char} (h : Ws t) : OnOneLine t :=
  Strung.of_not_mem fun hq => by
    rcases h '"' hq with he | he | he | he <;> exact absurd he (by decide)

theorem Digits.not_mem {t : List Char} (h : Digits t) : '"' ∉ t :=
  fun hq => absurd (h.2 '"' hq) (by decide)

theorem NumberText.strung {t : List Char} (h : NumberText t) : OnOneLine t := by
  cases h with
  | mk hs hi hf he =>
      refine ((Strung.append ?_ ?_).append ?_).append ?_
      · rcases hs with rfl | rfl
        · exact Strung.nil
        · exact Strung.of_not_mem (by decide)
      · rcases hi with rfl | ⟨hi, -⟩
        · exact Strung.of_not_mem (by decide)
        · exact Strung.of_not_mem hi.not_mem
      · rcases hf with rfl | ⟨ds, hds, rfl⟩
        · exact Strung.nil
        · exact .plain (by decide) (Strung.of_not_mem hds.not_mem)
      · rcases he with rfl | ⟨e, s, ds, he, hs, hds, rfl⟩
        · exact Strung.nil
        · have hsigned : OnOneLine (s ++ ds) := by
            refine Strung.append ?_ (Strung.of_not_mem hds.not_mem)
            rcases hs with rfl | rfl | rfl
            · exact Strung.nil
            · exact Strung.of_not_mem (by decide)
            · exact Strung.of_not_mem (by decide)
          refine .plain ?_ hsigned
          rcases he with rfl | rfl <;> decide

theorem literal_strung {t : List Char} (h : t ∈ literals) : OnOneLine t := by
  have hplain : ∀ l ∈ literals, '"' ∉ l := by decide
  exact Strung.of_not_mem (hplain t h)

theorem HexDigit.ne_newline {c : Char} (h : HexDigit c) : c ≠ '\n' := by
  rintro rfl
  exact absurd h (by unfold HexDigit; decide)

theorem StringBody.not_mem_newline {t : List Char} (h : StringBody t) : '\n' ∉ t := by
  induction h with
  | nil => exact List.not_mem_nil
  | plain _ _ hc _ ih =>
      rw [List.mem_cons, not_or]
      refine ⟨?_, ih⟩
      rintro rfl
      exact absurd hc (by decide)
  | escape hc _ ih =>
      rw [List.mem_cons, List.mem_cons, not_or, not_or]
      refine ⟨by decide, ?_, ih⟩
      rintro rfl
      exact absurd hc (by decide)
  | unicode ha hb hc hd _ ih =>
      simp only [List.mem_cons, not_or]
      exact ⟨by decide, by decide, ha.ne_newline.symm, hb.ne_newline.symm, hc.ne_newline.symm,
        hd.ne_newline.symm, ih⟩

theorem StringBody.strung {t : List Char} (h : StringBody t) : OnOneLine ('"' :: t ++ ['"']) :=
  .string h.body h.not_mem_newline .nil

/-- One wrapping for arrays and objects: neither bracket is a quotation mark. -/
theorem OnOneLine.wrap {t : List Char} (h : OnOneLine t) {a b : Char} (ha : a ≠ '"') (hb : b ≠ '"') :
    OnOneLine (a :: t ++ [b]) :=
  .plain ha (h.append (.plain hb .nil))

theorem Text.strung {k : Kind} {t : List Char} (h : Text k t) : OnOneLine t := by
  induction h with
  | literal h => exact literal_strung h
  | number h => exact h.strung
  | string h => exact h.strung
  | array _ ih => exact OnOneLine.wrap ih (by decide) (by decide)
  | object _ ih => exact OnOneLine.wrap ih (by decide) (by decide)
  | noElements h => exact h.strung
  | lastElement ha _ hb ih => exact (ha.strung.append ih).append hb.strung
  | element ha _ hb _ ih₁ ih₂ =>
      exact ((ha.strung.append ih₁).append hb.strung).append (.plain (by decide) ih₂)
  | noMembers h => exact h.strung
  | lastMember ha hk hb hc _ hd ih =>
      exact ((ha.strung.append hk.strung).append hb.strung).append
        (.plain (by decide) ((hc.strung.append ih).append hd.strung))
  | member ha hk hb hc _ hd _ ih₁ ih₂ =>
      exact (((ha.strung.append hk.strung).append hb.strung).append
        (.plain (by decide) ((hc.strung.append ih₁).append hd.strung))).append
          (.plain (by decide) ih₂)

theorem ObjectText.strung {t : List Char} (h : ObjectText t) : OnOneLine t := by
  obtain ⟨body, hb, rfl⟩ := h
  exact OnOneLine.wrap hb.strung (by decide) (by decide)

/-! ## An object is one span -/

theorem ObjectText.spans {t : List Char} (h : ObjectText t) : Scan.start.spans t = [t] := by
  obtain ⟨body, hb, rfl⟩ := h
  exact hb.neutral.spans_object

theorem ObjectText.after {t : List Char} (h : ObjectText t) : Scan.start.after t = Scan.start := by
  obtain ⟨body, hb, rfl⟩ := h
  exact hb.neutral.after_object

/-- Everything before the closing brace completes nothing. -/
theorem ObjectText.split {t : List Char} (h : ObjectText t) :
    ∃ front, t = front ++ ['}'] ∧ Scan.start.spans front = [] := by
  obtain ⟨body, hb, rfl⟩ := h
  exact ⟨'{' :: body, rfl, hb.neutral.spans_open⟩

end JsonText
