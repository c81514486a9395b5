/-
# `Progress.Compose` — the laws of one parse after another

`parse_progress_objects` has no memory between two calls, so `run_encode` hands it
the whole buffer again, skips lines that cannot complete an object and starts anew
from an empty buffer.  What makes this sound is how a parse of `a ++ b` relates to
parses of `a` and of `b`.

    more text      leaves the objects of `a` where they are, and an exception too
    outside        after `a` ends at depth 0 outside a string, `b` is parsed as if alone
    no '}'         nothing is completed, so nothing changes

The second is a condition on the loop variables after `a`; `Tracks.scanFrom` turns it
into one on the brace scan, where both flags off is the start (`EndsOutside.after`).
-/
import HandBrakeEncoder.Progress.Incremental

namespace HandBrakeEncoder.Progress

open Braces

variable {loads : JsonLoads} {env : LoopEnv} {a b : PyStr}

/-- The loop gets to the end of the text, and there `depth` is 0 and `in_string` is off. -/
def EndsOutside (loads : JsonLoads) (text : PyStr) : Prop :=
  ∃ st, scanFrom loads text 0 text .init = .ok st ∧ st.depth = 0 ∧ st.inString = false

/-! ## The loop variables at the end -/

/-- A loop that is not left goes on tracking the scan. -/
theorem Tracks.scanFrom {rest pre : PyStr} {s : Scan} {st st' : ScanState} (h : Tracks pre s st)
    (hscan : Progress.scanFrom loads (pre ++ rest) pre.length rest st = .ok st') :
    Tracks (pre ++ rest) (s.after rest) st' := by
  induction rest generalizing pre s st with
  | nil =>
      cases hscan
      rw [List.append_nil]
      exact h
  | cons c rest ih =>
      have hstep := scanChar_stepsLike loads rest c h
      rw [StepsLike] at hstep
      rw [Progress.scanFrom] at hscan
      cases hdec : decodeSpans loads st.objects (s.out c) with
      | error e =>
          rw [hdec] at hstep
          rw [hstep] at hscan
          cases hscan
      | ok objects =>
          rw [hdec] at hstep
          obtain ⟨st₁, hst₁, htracks, -⟩ := hstep
          rw [hst₁] at hscan
          have hrest := @ih (pre ++ [c]) (s.step c) st₁ htracks
          simp only [List.append_assoc, List.singleton_append, List.length_append,
            List.length_singleton] at hrest
          exact hrest hscan

/-- Outside braces and strings the scan is back at its start. -/
theorem EndsOutside.after (h : EndsOutside loads a) : Scan.start.after a = Scan.start := by
  obtain ⟨st, hscan, hdepth, hstring⟩ := h
  have htracks : Tracks a (Scan.start.after a) st := Tracks.init.scanFrom hscan
  have hsound : (Scan.start.after a).mode.Sound := by
    rw [Scan.after_mode]
    exact Mode.sound_start.run a
  apply Scan.after_eq_start
  show Scan.start.mode.run a = Mode.start
  rw [← Scan.after_mode]
  exact hsound.eq_start (htracks.depth.symm.trans hdepth) (htracks.inString.symm.trans hstring)

/-! ## The laws -/

/-- A parse returns unless a text it hands to the decoder makes that raise something it does not
catch. -/
theorem parse_returns_iff (loads : JsonLoads) (text : PyStr) :
    (∃ objects, parseProgressObjects loads text = .ok objects) ↔
      ∀ span ∈ Scan.start.spans text, ¬ Fatal loads span := by
  rw [parseProgressObjects_eq]
  constructor
  · rintro ⟨objects, h⟩
    exact (decodeSpans_ok h).1
  · intro h
    exact ⟨_, decodeSpans_harmless h []⟩

/-- What a parse found, a parse of more text finds first. -/
theorem parse_prefix {objects : List JDict} (h : parseProgressObjects loads (a ++ b) = .ok objects) :
    ∃ found, parseProgressObjects loads a = .ok found ∧ found <+: objects := by
  rw [parse_append] at h
  obtain ⟨found, more, hfound, -, rfl⟩ := joined_eq_ok h
  exact ⟨found, hfound, List.prefix_append found more⟩

theorem parse_error {e : PyExc} (h : parseProgressObjects loads a = .error e) (b : PyStr) :
    parseProgressObjects loads (a ++ b) = .error e := by
  rw [parse_append, h]
  rfl

theorem EndsOutside.parse (h : EndsOutside loads a) (b : PyStr) :
    parseProgressObjects loads (a ++ b) =
      joined (parseProgressObjects loads a) (parseProgressObjects loads b) := by
  rw [parse_append, h.after, ← parseProgressObjects_eq]

/-! ## The lines the loop skips -/

/-- A line that does not leave the loop gives it a list of objects. -/
theorem readLine_gathers {st st' : LoopState} {line : PyStr} (h : readLine env st line = .ok st') :
    ∃ objects, gather env.loads st.buffer [line] = .ok objects := by
  by_cases hb : '}' ∈ line
  · rw [gather_line_parsed hb]
    cases hparse : parseProgressObjects env.loads (st.buffer ++ line) with
    | ok objects => exact ⟨objects, rfl⟩
    | error e =>
        rw [readLine_parse_error hb hparse] at h
        cases h
  · exact ⟨[], gather_line_plain hb⟩

/-- The buffer of the loop holds no object. -/
theorem readLoop_buffer {ls : List PyStr} {st st' : LoopState}
    (h : parseProgressObjects env.loads st.buffer = .ok []) (hloop : readLoop env st ls = .ok st') :
    parseProgressObjects env.loads st'.buffer = .ok [] := by
  induction ls generalizing st with
  | nil =>
      cases hloop
      exact h
  | cons line ls ih =>
      obtain ⟨st₁, hline, hrest⟩ := readLoop_cons_ok hloop
      obtain ⟨objects, hobjects⟩ := readLine_gathers hline
      refine ih ?_ hrest
      rw [(readLine_delivers hline).1]
      exact parse_kept_line h hobjects

/-- For all texts: a parse returns unless the decoder raises something it does not catch; a parse of
`a ++ b` that returns finds first what a parse of `a` finds, and raises what that raises; where `a`
ends outside braces and strings it is the parse of `a` and then that of `b`; and a `b` without a
closing brace changes nothing, so a line of that kind, put to any buffer the loop comes by, would
give it no object. -/
theorem scan_composes (loads : JsonLoads) (a b : PyStr) :
    ((∃ objects, parseProgressObjects loads (a ++ b) = .ok objects) ↔
        ∀ span ∈ Scan.start.spans (a ++ b), ¬ Fatal loads span) ∧
      (∀ objects, parseProgressObjects loads (a ++ b) = .ok objects →
        ∃ found, parseProgressObjects loads a = .ok found ∧ found <+: objects) ∧
      (∀ e, parseProgressObjects loads a = .error e → parseProgressObjects loads (a ++ b) = .error e) ∧
      (EndsOutside loads a → parseProgressObjects loads (a ++ b) =
        joined (parseProgressObjects loads a) (parseProgressObjects loads b)) ∧
      ('}' ∉ b → parseProgressObjects loads (a ++ b) = parseProgressObjects loads a) ∧
      ∀ (env : LoopEnv) (ls : List PyStr) (st : LoopState), readLoop env .init ls = .ok st →
        '}' ∉ b → parseProgressObjects env.loads (st.buffer ++ b) = .ok [] := by
  refine ⟨parse_returns_iff loads (a ++ b), fun _ => parse_prefix, fun _ h => parse_error h b,
    fun h => h.parse b, fun hb => parse_plain hb a, ?_⟩
  intro env ls st hloop hb
  rw [parse_plain hb]
  exact readLoop_buffer rfl hloop

end HandBrakeEncoder.Progress
