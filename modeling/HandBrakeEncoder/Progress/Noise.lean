/-
# `Progress.Noise` — objects among noise

`parse_progress_objects` keeps its string flag outside objects as well as inside
them, so what it makes of a text depends on the quotation marks between the
objects.  Noise whose marks pair up is passed over.  Noise that leaves a string
open hides the brace the next object starts with, and from there on the strings
and the rest have changed places.

## What is proved

For a text `n₀ t₁ n₁ … t_k n_k`, the `n_i` without a brace and the `t_i` objects:

    the t_i are the spans of the scan        exactly if n₀, …, n_{k-1} pair their marks   (`spans_iff`)
    the objects come back under every decoder  exactly if they do                         (`strewn_parsed_iff`)

Every decoder, because one decoder may map different texts to one object: with
duplicate keys a text hidden by an odd quotation mark can hold, in its own
strings, another text of the same object.
-/
import HandBrakeEncoder.Progress.Escapes
import HandBrakeEncoder.Lib.JsonText
import Mathlib.Data.List.Basic

namespace HandBrakeEncoder.Progress

open Braces JsonText

/-- The text of an object and the noise before it. -/
structure Piece where
  lead : PyStr
  text : PyStr
  braceless : Braceless lead
  object : ObjectText text

/-- Objects among noise: each with the noise before it, and the noise after the last. -/
structure Strewn where
  pieces : List Piece
  rest : PyStr
  braceless : Braceless rest

/-- The pieces in order, and the rest. -/
def scatter : List Piece → PyStr → PyStr
  | [], rest => rest
  | p :: pieces, rest => p.lead ++ (p.text ++ scatter pieces rest)

def Strewn.text (o : Strewn) : PyStr := scatter o.pieces o.rest

def Strewn.texts (o : Strewn) : List PyStr := o.pieces.map Piece.text

/-! ## Paired quotation marks -/

/-- A piece whose noise pairs its marks is one span, and the scan is back at its start. -/
theorem Piece.spans_append (p : Piece) (h : Paired p.lead) (more : PyStr) :
    Scan.start.spans (p.lead ++ (p.text ++ more)) = p.text :: Scan.start.spans more := by
  rw [Scan.spans_append, p.braceless.spans, p.braceless.after h, Scan.spans_append,
    p.object.spans, p.object.after]
  rfl

theorem spans_scatter {rest : PyStr} (hrest : Braceless rest) {pieces : List Piece}
    (h : ∀ p ∈ pieces, Paired p.lead) :
    Scan.start.spans (scatter pieces rest) = pieces.map Piece.text := by
  induction pieces with
  | nil => exact hrest.spans _
  | cons p pieces ih =>
      rw [scatter, p.spans_append (h p List.mem_cons_self),
        ih (fun p' hp' => h p' (List.mem_cons_of_mem _ hp'))]
      rfl

/-! ## An open string

The opening braces are counted: the noise has none, so the objects have as many as
the whole text, and the spans have one fewer. -/

theorem count_scatter {rest : PyStr} (hrest : Braceless rest) (pieces : List Piece) :
    (scatter pieces rest).count '{' = (pieces.map Piece.text).flatten.count '{' := by
  induction pieces with
  | nil => exact List.count_eq_zero_of_not_mem hrest.1
  | cons p pieces ih =>
      have hlead : p.lead.count '{' = 0 := List.count_eq_zero_of_not_mem p.braceless.1
      rw [scatter, List.count_append, List.count_append, hlead, ih, List.map_cons,
        List.flatten_cons, List.count_append, Nat.zero_add]

/-- Outside every brace but inside a string, an opening brace is lost. -/
theorem count_spans_hidden {s : Scan} (hd : s.mode.depth = 0) (hq : s.mode.inString = true)
    (more : PyStr) : (s.spans ('{' :: more)).flatten.count '{' ≤ more.count '{' := by
  have hout : s.out '{' = [] := by
    simp [Scan.out, Mode.closes]
  have hkeep : s.keep '{' = [] := by
    simp [Scan.keep, Mode.opens, Mode.closes, hd, hq]
  have hsub := ((s.step '{').spans_sublist more).count_le '{'
  rw [show (s.step '{').pending = [] from hkeep, List.nil_append] at hsub
  rw [Scan.spans_cons, hout]
  exact hsub

theorem Piece.count_spans_open (p : Piece) (h : ¬ Paired p.lead) (more : PyStr) :
    (Scan.start.spans (p.lead ++ (p.text ++ more))).flatten.count '{'
      < (p.text ++ more).count '{' := by
  have hmode := Scan.after_mode Scan.start p.lead
  have hd : (Scan.start.after p.lead).mode.depth = 0 := by
    rw [hmode]
    exact p.braceless.run_depth Mode.start
  have hq : (Scan.start.after p.lead).mode.inString = true := by
    rw [hmode]
    by_contra hnot
    exact h ((paired_iff Mode.unquoted_start).mpr (Bool.eq_false_of_not_eq_true hnot))
  obtain ⟨body, -, htext⟩ := p.object
  rw [Scan.spans_append, p.braceless.spans, htext]
  have hhidden := count_spans_hidden hd hq (body ++ ['}'] ++ more)
  rw [List.nil_append]
  refine Nat.lt_of_le_of_lt hhidden ?_
  rw [List.cons_append, List.cons_append, List.count_cons_self]
  exact Nat.lt_succ_self _

theorem count_spans_scatter {rest : PyStr} (hrest : Braceless rest) {pieces : List Piece}
    (h : ∃ p ∈ pieces, ¬ Paired p.lead) :
    (Scan.start.spans (scatter pieces rest)).flatten.count '{'
      < (pieces.map Piece.text).flatten.count '{' := by
  induction pieces with
  | nil =>
      obtain ⟨p, hp, -⟩ := h
      exact absurd hp List.not_mem_nil
  | cons p pieces ih =>
      rw [scatter, List.map_cons, List.flatten_cons, List.count_append]
      by_cases hlead : Paired p.lead
      · have hrest' : ∃ p' ∈ pieces, ¬ Paired p'.lead := by
          obtain ⟨p', hp', hopen⟩ := h
          rcases List.mem_cons.mp hp' with rfl | hp'
          · exact absurd hlead hopen
          · exact ⟨p', hp', hopen⟩
        rw [p.spans_append hlead, List.flatten_cons, List.count_append]
        exact Nat.add_lt_add_left (ih hrest') _
      · have hlt := p.count_spans_open hlead (scatter pieces rest)
        rw [List.count_append, count_scatter hrest] at hlt
        exact hlt

/-- The spans are the objects exactly if the noise before each pairs its quotation marks. -/
theorem spans_iff (o : Strewn) :
    Scan.start.spans o.text = o.texts ↔ ∀ p ∈ o.pieces, Paired p.lead := by
  constructor
  · intro hspans
    by_contra hnot
    push Not at hnot
    have hlt := count_spans_scatter o.braceless hnot
    rw [show Scan.start.spans (scatter o.pieces o.rest) = o.pieces.map Piece.text from hspans] at hlt
    exact Nat.lt_irrefl _ hlt
  · intro h
    exact spans_scatter o.braceless h

/-! ## What comes back -/

/-- Texts that decode to these objects give them back in order. -/
theorem decodeSpans_objects {loads : JsonLoads} {texts : List PyStr} {objects : List JDict}
    (h : texts.map loads = objects.map (fun d => .ok (.obj d))) (found : List JDict) :
    decodeSpans loads found texts = .ok (found ++ objects) := by
  induction texts generalizing objects found with
  | nil =>
      cases objects with
      | nil => rw [List.append_nil, decodeSpans]
      | cons d objects => cases h
  | cons t texts ih =>
      cases objects with
      | nil => cases h
      | cons d objects =>
          obtain ⟨ht, htexts⟩ := List.cons.inj h
          have hspan : decodeSpan loads found t = .ok (found ++ [d]) := by
            rw [decodeSpan, ht]
          rw [decodeSpans, hspan]
          dsimp only
          rw [ih htexts, List.append_assoc, List.singleton_append]

/-- A decoder that tells every text from every other. -/
def echo : JsonLoads := fun text => .ok (.obj [(text, .null)])

theorem decodeSpans_echo (texts : List PyStr) :
    decodeSpans echo [] texts = .ok (texts.map fun text => [(text, .null)]) := by
  have h : texts.map echo = (texts.map fun text => [(text, JVal.null)]).map (fun d => .ok (.obj d)) := by
    rw [List.map_map]
    rfl
  rw [decodeSpans_objects h, List.nil_append]

/-- Exactly the objects come back, in order and under every decoder that accepts them, if and
only if the noise before each of them pairs its quotation marks. -/
theorem strewn_parsed_iff (o : Strewn) :
    (∀ (loads : JsonLoads) (objects : List JDict),
      o.texts.map loads = objects.map (fun d => .ok (.obj d)) →
        parseProgressObjects loads o.text = .ok objects) ↔
      ∀ p ∈ o.pieces, Paired p.lead := by
  rw [← spans_iff]
  constructor
  · intro h
    have hparse := h echo (o.texts.map fun text => [(text, .null)]) (by rw [List.map_map]; rfl)
    rw [parseProgressObjects_eq, decodeSpans_echo, Except.ok.injEq] at hparse
    refine List.map_injective_iff.mpr ?_ hparse
    intro t t' ht
    exact congrArg Prod.fst (List.cons.inj ht).1
  · intro hspans loads objects hobjects
    rw [parseProgressObjects_eq, hspans, decodeSpans_objects hobjects, List.nil_append]

/-- An inch sign in a disc title, and then an object. -/
def inchSign : Strewn where
  pieces := [{
    lead := "12\" ".toList
    text := ['{', '}']
    braceless := by decide
    object := emptyObject_text }]
  rest := ['\n']
  braceless := by decide

/-- The object after the inch sign is not found. -/
theorem object_hidden_by_inch_sign :
    ¬ ∀ (o : Strewn) (loads : JsonLoads) (objects : List JDict),
      o.texts.map loads = objects.map (fun d => .ok (.obj d)) →
        parseProgressObjects loads o.text = .ok objects := by
  intro h
  have hparse := h inchSign (fun _ => .ok (.obj [])) [[]] rfl
  have hspans : Scan.start.spans inchSign.text = [] := by decide
  rw [parseProgressObjects_eq, hspans] at hparse
  cases hparse

end HandBrakeEncoder.Progress
