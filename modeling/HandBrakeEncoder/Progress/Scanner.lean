/-
# `Progress.Scanner` — `parse_progress_objects`

HandBrake pretty-prints its state objects over several lines, so the runner
counts braces to find them and decodes each one it completes.  `scanChar` is
the body of that loop with its five variables; `objects` grows as spans
complete.

**Proved here.**  The loop is the general brace scan of `Lib.Braces` followed
by decoding (`parseProgressObjects_eq`): the slice `chunk[start : index + 1]`
is always the span the scan completes, so nothing about indices survives into
the later modules.

`loads` stands for `json.loads`.  Only `json.JSONDecodeError` is caught around
it; any other exception leaves the function.
-/
import HandBrakeEncoder.Py
import HandBrakeEncoder.Lib.Braces

namespace HandBrakeEncoder.Progress

open Braces

/-- `json.loads`: the decoded value, or the exception it raises. -/
abbrev JsonLoads := PyStr → Except PyExc JVal

/-- The loop variables.  `start = -1` is `none`. -/
structure ScanState where
  objects : List JDict
  depth : Nat
  start : Option Nat
  inString : Bool
  escaped : Bool

def ScanState.init : ScanState := ⟨[], 0, none, false, false⟩

/-- `chunk[start:stop]`. -/
def slice (chunk : PyStr) (start stop : Nat) : PyStr := (chunk.drop start).take (stop - start)

/-- Decode one completed span: a malformed one is skipped, a non-object dropped. -/
def decodeSpan (loads : JsonLoads) (objects : List JDict) (text : PyStr) :
    Except PyExc (List JDict) :=
  match loads text with
  | .ok (.obj d) => .ok (objects ++ [d])
  | .ok _ => .ok objects
  | .error (.jsonDecodeError _) => .ok objects
  | .error e => .error e

/-- One iteration of `for index, char in enumerate(chunk)`. -/
def scanChar (loads : JsonLoads) (chunk : PyStr) (st : ScanState) (index : Nat) (char : Char) :
    Except PyExc ScanState :=
  if st.inString then
    if st.escaped then .ok { st with escaped := false }
    else if char = '\\' then .ok { st with escaped := true }
    else if char = '"' then .ok { st with inString := false }
    else .ok st
  else if char = '"' then .ok { st with inString := true }
  else if char = '{' then
    .ok { st with
      start := if st.depth = 0 then some index else st.start
      depth := st.depth + 1 }
  else if char = '}' then
    if st.depth = 0 then .ok st
    else
      match st.depth - 1, st.start with
      | 0, some start =>
          match decodeSpan loads st.objects (slice chunk start (index + 1)) with
          | .ok objects => .ok { st with objects := objects, depth := 0, start := none }
          | .error e => .error e
      | depth, _ => .ok { st with depth := depth }
  else .ok st

/-- The loop, from position `index`. -/
def scanFrom (loads : JsonLoads) (chunk : PyStr) :
    Nat → List Char → ScanState → Except PyExc ScanState
  | _, [], st => .ok st
  | index, char :: rest, st =>
      match scanChar loads chunk st index char with
      | .ok st' => scanFrom loads chunk (index + 1) rest st'
      | .error e => .error e

def parseProgressObjects (loads : JsonLoads) (chunk : PyStr) : Except PyExc (List JDict) :=
  match scanFrom loads chunk 0 chunk .init with
  | .ok st => .ok st.objects
  | .error e => .error e

/-! ## The loop is a brace scan -/

/-- Decode spans in order, onto the objects found so far. -/
def decodeSpans (loads : JsonLoads) : List JDict → List PyStr → Except PyExc (List JDict)
  | objects, [] => .ok objects
  | objects, text :: texts =>
      match decodeSpan loads objects text with
      | .ok objects' => decodeSpans loads objects' texts
      | .error e => .error e

/-- The loop variables after `pre` say what the brace scan says: same mode, and
inside a span `start` is where the pending text begins. -/
structure Tracks (pre : List Char) (s : Scan) (st : ScanState) : Prop where
  depth : st.depth = s.mode.depth
  inString : st.inString = s.mode.inString
  escaped : st.escaped = s.mode.escaped
  idle : s.mode.depth = 0 → s.pending = []
  span : 0 < s.mode.depth → ∃ i, st.start = some i ∧ i ≤ pre.length ∧ pre.drop i = s.pending

theorem Tracks.init : Tracks [] .start .init :=
  ⟨rfl, rfl, rfl, fun _ => rfl, fun h => absurd h (by decide)⟩

/-- The slice taken when a span completes is the pending text and the closing brace. -/
theorem slice_eq {pre rest : List Char} {c : Char} {i : Nat} (hi : i ≤ pre.length) :
    slice (pre ++ c :: rest) i (pre.length + 1) = pre.drop i ++ [c] := by
  have hlen : (pre.drop i ++ [c]).length = pre.length + 1 - i := by
    simp only [List.length_append, List.length_drop, List.length_singleton]
    omega
  have hsplit : (pre ++ c :: rest).drop i = (pre.drop i ++ [c]) ++ rest := by
    rw [List.drop_append_of_le_length hi]
    simp
  rw [slice, hsplit, List.take_append_of_le_length (by omega), List.take_of_length_le (by omega)]

/-- A character that neither opens nor completes a span leaves `depth` and
`start` alone; an open span grows by it. -/
theorem Tracks.stay {pre : List Char} {c : Char} {s : Scan} {st : ScanState} (h : Tracks pre s st)
    (hdepth : (s.mode.next c).depth = s.mode.depth)
    (hkeep : s.keep c = if s.mode.depth = 0 then [] else s.pending ++ [c]) :
    Tracks (pre ++ [c]) (s.step c)
      { st with inString := (s.mode.next c).inString, escaped := (s.mode.next c).escaped } := by
  refine ⟨h.depth.trans hdepth.symm, rfl, rfl, ?_, ?_⟩
  · intro h0
    have hd : s.mode.depth = 0 := hdepth ▸ h0
    simp [Scan.step, hkeep, hd]
  · intro hpos
    have hd : 0 < s.mode.depth := hdepth ▸ hpos
    obtain ⟨i, hi, hle, hdrop⟩ := h.span hd
    refine ⟨i, hi, by simp; omega, ?_⟩
    rw [List.drop_append_of_le_length hle, hdrop]
    simp [Scan.step, hkeep, Nat.pos_iff_ne_zero.mp hd]

/-- What one iteration has to do when the scan takes `c`: the same move, and the
same decoding. -/
def StepsLike (loads : JsonLoads) (chunk pre : PyStr) (c : Char) (s : Scan) (st : ScanState) :
    Prop :=
  match decodeSpans loads st.objects (s.out c) with
  | .ok objects => ∃ st', scanChar loads chunk st pre.length c = .ok st' ∧
      Tracks (pre ++ [c]) (s.step c) st' ∧ st'.objects = objects
  | .error e => scanChar loads chunk st pre.length c = .error e

/-- Where nothing is opened or completed, `Tracks.stay` is the whole step. -/
theorem StepsLike.stay {loads : JsonLoads} {chunk pre : PyStr} {c : Char} {s : Scan}
    {st : ScanState} (h : Tracks pre s st) (hout : s.out c = [])
    (hdepth : (s.mode.next c).depth = s.mode.depth)
    (hkeep : s.keep c = if s.mode.depth = 0 then [] else s.pending ++ [c])
    (hstep : scanChar loads chunk st pre.length c = .ok
      { st with inString := (s.mode.next c).inString, escaped := (s.mode.next c).escaped }) :
    StepsLike loads chunk pre c s st := by
  rw [StepsLike]
  rw [hout]
  exact ⟨_, hstep, h.stay hdepth hkeep, rfl⟩

/-- Inside a string only the string flags move. -/
theorem StepsLike.inString {loads : JsonLoads} {chunk pre : PyStr} {c : Char} {s : Scan}
    {st : ScanState} (h : Tracks pre s st) (hs : s.mode.inString = true) :
    StepsLike loads chunk pre c s st := by
  have hq := h.inString
  have hx := h.escaped
  refine .stay h (by simp [Scan.out, Mode.closes, hs]) ?_
    (by simp [Scan.keep, Mode.opens, Mode.closes, hs]) ?_
  · simp only [Mode.next, hs, if_true]
    split_ifs <;> rfl
  · obtain ⟨objects, depth, start, q, x⟩ := st
    simp only at hq hx
    subst hq hx
    simp only [scanChar, Mode.next, hs, if_true]
    split_ifs <;> simp_all

/-- Outside a string, a character other than a brace at most opens a string. -/
theorem StepsLike.outside {loads : JsonLoads} {chunk pre : PyStr} {c : Char} {s : Scan}
    {st : ScanState} (h : Tracks pre s st) (hs : s.mode.inString = false)
    (ho : c ≠ '{') (hc : c ≠ '}') : StepsLike loads chunk pre c s st := by
  have hq := h.inString
  have hx := h.escaped
  refine .stay h (by simp [Scan.out, Mode.closes, hc]) ?_
    (by simp [Scan.keep, Mode.opens, Mode.closes, ho, hc]) ?_
  · simp only [Mode.next, hs, ho, hc, if_false]
    split_ifs <;> rfl
  · obtain ⟨objects, depth, start, q, x⟩ := st
    simp only at hq hx
    subst hq hx
    simp only [scanChar, Mode.next, hs, ho, hc, if_false]
    split_ifs <;> simp_all

/-- An opening brace; at depth zero it starts a span at its own index. -/
theorem StepsLike.opening {loads : JsonLoads} {chunk pre : PyStr} {s : Scan}
    {st : ScanState} (h : Tracks pre s st) (hs : s.mode.inString = false) :
    StepsLike loads chunk pre '{' s st := by
  have hst : st.inString = false := h.inString.trans hs
  have hout : s.out '{' = [] := by simp [Scan.out, Mode.closes]
  have hnext : s.mode.next '{' = { s.mode with depth := s.mode.depth + 1 } := by
    simp [Mode.next, hs]
  rw [StepsLike]
  rw [hout]
  refine ⟨{ st with
    start := if st.depth = 0 then some pre.length else st.start
    depth := st.depth + 1 }, by simp [scanChar, hst], ?_, rfl⟩
  refine ⟨?_, ?_, ?_, ?_, ?_⟩
  · simp [Scan.step, hnext, h.depth]
  · simp [Scan.step, hnext, h.inString]
  · simp [Scan.step, hnext, h.escaped]
  · intro h0
    simp [Scan.step, hnext] at h0
  · intro _
    by_cases hd : s.mode.depth = 0
    · refine ⟨pre.length, by simp [h.depth, hd], by simp, ?_⟩
      simp [Scan.step, Scan.keep, Mode.opens, hs, hd]
    · obtain ⟨i, hi, hle, hdrop⟩ := h.span (Nat.pos_of_ne_zero hd)
      refine ⟨i, by simp [h.depth, hd, hi], by simp; omega, ?_⟩
      rw [List.drop_append_of_le_length hle, hdrop]
      simp [Scan.step, Scan.keep, Mode.opens, Mode.closes, hd]

/-- A closing brace: ignored at depth zero, otherwise the depth falls, and at
depth one the span from `start` is decoded. -/
theorem StepsLike.closing {loads : JsonLoads} {pre rest : PyStr} {s : Scan}
    {st : ScanState} (h : Tracks pre s st) (hs : s.mode.inString = false) :
    StepsLike loads (pre ++ '}' :: rest) pre '}' s st := by
  have hst : st.inString = false := h.inString.trans hs
  have hnext : s.mode.next '}' = { s.mode with depth := s.mode.depth - 1 } := by
    simp [Mode.next, hs]
  cases hd : s.mode.depth with
  | zero =>
      have hst0 : st.depth = 0 := h.depth.trans hd
      refine .stay h (by simp [Scan.out, Mode.closes, hd]) (by simp [hnext, hd])
        (by simp [Scan.keep, Mode.opens, Mode.closes, hd]) ?_
      obtain ⟨objects, depth, start, q, x⟩ := st
      simp only at hst hst0
      subst hst hst0
      simp [scanChar, hnext, ← h.inString, ← h.escaped]
  | succ d =>
      obtain ⟨i, hi, hle, hdrop⟩ := h.span (by omega)
      cases d with
      | zero =>
          have hst1 : st.depth = 1 := h.depth.trans hd
          have hout : s.out '}' = [pre.drop i ++ ['}']] := by
            simp [Scan.out, Mode.closes, hs, hd, hdrop]
          rw [StepsLike]
          rw [hout]
          cases hdec : decodeSpan loads st.objects (pre.drop i ++ ['}']) with
          | error e => simp [decodeSpans, hdec, scanChar, hst, hst1, hi, slice_eq hle]
          | ok objects =>
              simp only [decodeSpans, hdec]
              have hscan : scanChar loads (pre ++ '}' :: rest) st pre.length '}'
                  = .ok { st with objects := objects, depth := 0, start := none } := by
                simp [scanChar, hst, hst1, hi, slice_eq hle, hdec]
              refine ⟨_, hscan, ⟨?_, ?_, ?_, ?_, ?_⟩, rfl⟩
              · simp [Scan.step, hnext, hd]
              · simp [Scan.step, hnext, h.inString]
              · simp [Scan.step, hnext, h.escaped]
              · intro _
                simp [Scan.step, Scan.keep, Mode.opens, Mode.closes, hs, hd]
              · intro hpos
                simp [Scan.step, hnext, hd] at hpos
      | succ d =>
          have hst2 : st.depth = d + 2 := h.depth.trans hd
          have hout : s.out '}' = [] := by simp [Scan.out, Mode.closes, hd]
          rw [StepsLike]
          rw [hout]
          refine ⟨{ st with depth := d + 1 }, by simp [scanChar, hst, hst2],
            ⟨?_, ?_, ?_, ?_, ?_⟩, rfl⟩
          · simp [Scan.step, hnext, hd]
          · simp [Scan.step, hnext, h.inString]
          · simp [Scan.step, hnext, h.escaped]
          · intro h0
            simp [Scan.step, hnext, hd] at h0
          · intro _
            refine ⟨i, hi, by simp; omega, ?_⟩
            rw [List.drop_append_of_le_length hle, hdrop]
            simp [Scan.step, Scan.keep, Mode.opens, Mode.closes, hd]

/-- One character: the loop moves as the scan does, and decodes what the scan completes. -/
theorem scanChar_stepsLike (loads : JsonLoads) {pre : PyStr} (rest : PyStr) (c : Char) {s : Scan}
    {st : ScanState} (h : Tracks pre s st) : StepsLike loads (pre ++ c :: rest) pre c s st := by
  cases hs : s.mode.inString with
  | true => exact .inString h hs
  | false =>
      by_cases ho : c = '{'
      · subst ho
        exact .opening h hs
      · by_cases hc : c = '}'
        · subst hc
          exact .closing h hs
        · exact .outside h hs ho hc

theorem decodeSpans_append (loads : JsonLoads) (objects : List JDict) (a b : List PyStr) :
    decodeSpans loads objects (a ++ b) =
      match decodeSpans loads objects a with
      | .ok objects' => decodeSpans loads objects' b
      | .error e => .error e := by
  induction a generalizing objects with
  | nil => rfl
  | cons t a ih =>
      simp only [List.cons_append, decodeSpans]
      cases decodeSpan loads objects t with
      | ok objects' => exact ih objects'
      | error e => rfl

/-- The loop over the rest of the chunk, from any position. -/
theorem scanFrom_eq (loads : JsonLoads) (rest : PyStr) :
    ∀ (pre : PyStr) (s : Scan) (st : ScanState), Tracks pre s st →
      (match scanFrom loads (pre ++ rest) pre.length rest st with
        | .ok st' => .ok st'.objects
        | .error e => .error e) = decodeSpans loads st.objects (s.spans rest) := by
  induction rest with
  | nil => intro pre s st _; rfl
  | cons c rest ih =>
      intro pre s st h
      have hstep := scanChar_stepsLike loads rest c h
      rw [StepsLike] at hstep
      rw [Scan.spans_cons, decodeSpans_append]
      cases hdec : decodeSpans loads st.objects (s.out c) with
      | error e =>
          rw [hdec] at hstep
          simp only [scanFrom, hstep]
      | ok objects =>
          rw [hdec] at hstep
          obtain ⟨st', hst', htracks, hobjects⟩ := hstep
          have := ih (pre ++ [c]) (s.step c) st' htracks
          simp only [List.append_assoc, List.singleton_append, List.length_append,
            List.length_singleton] at this
          simp only [scanFrom, hst']
          rw [this, hobjects]

/-- `parse_progress_objects` is the brace scan of the chunk, each span decoded in order. -/
theorem parseProgressObjects_eq (loads : JsonLoads) (chunk : PyStr) :
    parseProgressObjects loads chunk = decodeSpans loads [] (Scan.start.spans chunk) :=
  scanFrom_eq loads chunk [] .start .init .init

end HandBrakeEncoder.Progress
