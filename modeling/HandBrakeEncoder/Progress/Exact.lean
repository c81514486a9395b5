/-
# `Progress.Exact` — progress decoding is exact

A stdout whose objects each end on a line of their own, with noise between
them, makes exactly the callbacks its objects call for, in order and once each.

**The shape of the stream.**  A `Record` is an object's text with the noise
before it and the noise that completes its line; a `Stdout` is a sequence of
records, each ended by a newline, and then either noise or one last record the
end of the stream cuts off.  `Record.line` is the text from the end of one
object's line to the end of the next one's, so the cap is a bound on it.

**The invariant.**  Between records the buffer is empty.  Inside a record every
line but the last one leaves the buffer a proper prefix of noise and object,
which completes no span; the last line holds the object's closing brace, so the
buffer is parsed, holds one object, and is cleared.
-/
import HandBrakeEncoder.Progress.Loop
import HandBrakeEncoder.Lib.JsonText

namespace HandBrakeEncoder.Progress

open Braces JsonText Lines

/-! ## The callbacks an object calls for -/

/-- A hundred times `x` as a double, at most 100. -/
def hundredfold (x : ℚ) : PyFloat :=
  if x * 100 ≤ -floatLimit then .negInf else .finite (min (Binary64.round (x * 100)) 100)

/-- `min(100 * q, 100)` in doubles: `q` becomes one, and so does the product. -/
def percent (q : ℚ) : PyFloat := hundredfold (Binary64.round q)

/-- `on_eta(_remaining_seconds(obj))`, when the object has a `State`. -/
def expectedEta (obj : JDict) : List Callback :=
  if obj.has "State" then
    match remainingSeconds obj with
    | .ok eta => [.onEta eta]
    | .error _ => []
  else []

/-- `on_progress(min(100 * Progress, 100))`, when `Working` is a `dict` with a number. -/
def expectedProgress (obj : JDict) : List Callback :=
  match progressFraction obj with
  | some fraction => [.onProgress (percent (fraction.value))]
  | none => []

def expectedCalls (obj : JDict) : List Callback := expectedEta obj ++ expectedProgress obj

theorem round_hundred : Binary64.round 100 = 100 := by
  have h := Binary64.round_int (n := 100) (by norm_num)
  exact_mod_cast h

/-- The code's float expression, on a finite float. -/
theorem percentOf_finite (x : ℚ) : percentOf (.finite x) = hundredfold x := by
  have hlim := hundred_lt_floatLimit
  simp only [percentOf, hundredfold, PyFloat.mul, PyFloat.ofExact]
  by_cases hhigh : floatLimit ≤ x * 100
  · -- an infinity, cut down to 100
    have hlow : ¬ x * 100 ≤ -floatLimit := by linarith
    have hround : 100 ≤ Binary64.round (x * 100) := by
      rw [← round_hundred]
      exact Binary64.round_mono (by rw [round_hundred]; linarith)
    simp [hhigh, hlow, min_eq_right hround, PyFloat.min, PyFloat.lt]
  · by_cases hlow : x * 100 ≤ -floatLimit
    · simp [hhigh, hlow, PyFloat.min, PyFloat.lt]
    · by_cases hcut : 100 < Binary64.round (x * 100)
      · simp [hhigh, hlow, hcut, min_eq_right hcut.le, PyFloat.min, PyFloat.lt]
      · simp [hhigh, hlow, hcut, min_eq_left (not_lt.mp hcut), PyFloat.min, PyFloat.lt]

/-- Numbers in range never make `_remaining_seconds` raise. -/
theorem remainingSeconds_ok {obj : JDict} (h : JVal.InRangeFields obj) :
    ∃ eta, remainingSeconds obj = .ok eta := by
  rw [remainingSeconds]
  cases hw : (obj.get "Working").dict? with
  | none => exact ⟨_, rfl⟩
  | some working =>
      have hworking : JVal.InRangeFields working := (h.get "Working").dict? hw
      cases hn : (working.get "ETASeconds").num? with
      | none =>
          simp only [hn]
          split_ifs <;> exact ⟨_, rfl⟩
      | some eta =>
          have heta : eta.isFinite = .ok true := ((hworking.get "ETASeconds").num? hn).isFinite
          simp only [hn, heta]
          split_ifs <;> exact ⟨_, rfl⟩

/-! ## Reporting one object -/

section Report
variable {env : LoopEnv} (hraises : ∀ i e, env.raises i = some e → e.isException = true)
include hraises

/-- A callback that raises an `Exception` was still made. -/
theorem invoke_ok (calls : List Callback) (cb : Callback) :
    invoke env calls cb = .ok (calls ++ [cb]) := by
  rw [invoke]
  cases h : env.raises calls.length with
  | none => rfl
  | some e => simp [ignoring, hraises _ e h]

theorem reportEta_ok (heta : env.onEta = true) {obj : JDict} (h : JVal.InRangeFields obj)
    (calls : List Callback) : reportEta env calls obj = .ok (calls ++ expectedEta obj) := by
  obtain ⟨eta, hr⟩ := remainingSeconds_ok h
  unfold reportEta expectedEta
  cases obj.has "State" with
  | true => simp [heta, hr, invoke_ok hraises]
  | false => simp

theorem reportProgress_ok {obj : JDict} (h : JVal.InRangeFields obj) (calls : List Callback) :
    reportProgress env calls obj = .ok (calls ++ expectedProgress obj) := by
  unfold reportProgress expectedProgress
  cases hf : progressFraction obj with
  | none => simp
  | some fraction =>
      have hrange : fraction.InRange := by
        rw [progressFraction] at hf
        cases hw : (obj.get "Working").dict? with
        | none => simp [hw] at hf
        | some working =>
            simp only [hw] at hf
            have hworking : JVal.InRangeFields working := (h.get "Working").dict? hw
            exact (hworking.get "Progress").num? hf
      simp [hrange.toFloat, invoke_ok hraises, percentOf_finite, percent]

theorem reportObjects_single (heta : env.onEta = true) {obj : JDict} (h : JVal.InRangeFields obj)
    (calls : List Callback) :
    reportObjects env calls [obj] = .ok (calls ++ expectedCalls obj) := by
  simp [reportObjects, reportEta_ok hraises heta h, reportProgress_ok hraises h, expectedCalls]

end Report

/-! ## The shape of the stream -/

/-- An object's text, the noise before it, and the noise that completes its line. -/
structure Record where
  lead : PyStr
  text : PyStr
  trail : PyStr
  obj : JDict

/-- The record up to the end of its line, the newline excepted. -/
def Record.front (r : Record) : PyStr := r.lead ++ r.text ++ r.trail

/-- From the end of one object's line to the end of the next one's. -/
def Record.line (r : Record) : PyStr := r.front ++ ['\n']

/-- The noise is noise, the text is a JSON object with numbers in range, and
`json.loads` returns that object for it. -/
structure Record.Valid (loads : JsonLoads) (r : Record) : Prop where
  lead : Noise r.lead
  text : ObjectText r.text
  trail : Noise r.trail
  oneLine : '\n' ∉ r.trail
  loads : loads r.text = .ok (.obj r.obj)
  inRange : JVal.InRangeFields r.obj

/-- How the stream ends: in noise, or in a record whose line has no newline. -/
inductive Ending
  | noise (rest : PyStr)
  | cutOff (r : Record)

def Ending.text : Ending → PyStr
  | .noise rest => rest
  | .cutOff r => r.front

def Ending.records : Ending → List Record
  | .noise _ => []
  | .cutOff r => [r]

def Ending.Valid (loads : JsonLoads) : Ending → Prop
  | .noise rest => Noise rest
  | .cutOff r => r.Valid loads

/-- A stdout: records on lines of their own, then the ending. -/
structure Stdout where
  records : List Record
  ending : Ending

def Stdout.text (o : Stdout) : PyStr := (o.records.map Record.line).flatten ++ o.ending.text

/-- Every record of the stream, the cut-off one included. -/
def Stdout.all (o : Stdout) : List Record := o.records ++ o.ending.records

structure Stdout.Valid (loads : JsonLoads) (o : Stdout) : Prop where
  records : ∀ r ∈ o.records, r.Valid loads
  ending : o.ending.Valid loads

/-- The text from the end of one object's line to the end of the next one's; the
first begins where the stream does. -/
def Stdout.segments (o : Stdout) : List PyStr :=
  o.records.map Record.line ++ o.ending.records.map Record.front

/-- The callbacks the stream calls for. -/
def Stdout.calls (o : Stdout) : List Callback := o.all.flatMap (fun r => expectedCalls r.obj)

/-! ## Reading one record -/

section Exact
variable {env : LoopEnv} (hraises : ∀ i e, env.raises i = some e → e.isException = true)
  (heta : env.onEta = true)
include hraises heta

/-- The lines of one object, from an empty buffer: everything before the last
line completes nothing, the last line completes the object. -/
theorem readLoop_object {lead text trail : PyStr} {obj : JDict} (hlead : Noise lead)
    (htext : ObjectText text) (htrail : Noise trail) (hline : lines ('}' :: trail) = ['}' :: trail])
    (hlen : (lead ++ text ++ trail).length ≤ maxBufferBytes)
    (hloads : env.loads text = .ok (.obj obj)) (hrange : JVal.InRangeFields obj)
    (calls : List Callback) :
    readLoop env ⟨[], calls⟩ (lines (lead ++ text ++ trail))
      = .ok ⟨[], calls ++ expectedCalls obj⟩ := by
  obtain ⟨front, htf, hfront⟩ := htext.split
  have hwhole : lead ++ text ++ trail = (lead ++ front) ++ '}' :: trail := by
    rw [htf]
    simp
  obtain ⟨ls, x, hls, hx⟩ := lines_snoc hline (lead ++ front)
  -- what the earlier lines accumulate is a prefix of noise and an open object
  have hopen : Scan.start.spans (lead ++ front) = [] := by
    rw [Scan.spans_append, hlead.spans, hlead.after, hfront]
    rfl
  have hacc : readLoop env ⟨[], calls⟩ ls = .ok ⟨ls.flatten, calls⟩ := by
    have hspan : Scan.start.spans ([] ++ ls.flatten) = [] := by
      rw [← hx] at hopen
      exact Scan.spans_prefix hopen
    have hle : ([] ++ ls.flatten : PyStr).length ≤ maxBufferBytes := by
      have hcut := congrArg List.length hx
      rw [hwhole] at hlen
      simp only [List.length_append, List.nil_append] at hcut hlen ⊢
      omega
    simpa using readLoop_accumulate env ls ⟨[], calls⟩ hspan hle
  have hbuf : ls.flatten ++ (x ++ '}' :: trail) = lead ++ text ++ trail := by
    rw [hwhole, ← hx, List.append_assoc]
  have hspan : Scan.start.spans (ls.flatten ++ (x ++ '}' :: trail)) = [text] := by
    rw [hbuf, Scan.spans_append, Scan.spans_append, Scan.after_append, hlead.spans, hlead.after,
      htext.spans, htext.after, htrail.spans]
    rfl
  have hlast : readLine env ⟨ls.flatten, calls⟩ (x ++ '}' :: trail)
      = .ok ⟨[], calls ++ expectedCalls obj⟩ := by
    rw [readLine_span env ⟨ls.flatten, calls⟩ (by simp) hspan hloads,
      reportObjects_single hraises heta hrange]
  rw [hwhole, hls, readLoop_append hacc, readLoop, hlast]
  rfl

theorem readLoop_line {r : Record} (h : r.Valid env.loads)
    (hlen : r.line.length ≤ maxBufferBytes) (calls : List Callback) :
    readLoop env ⟨[], calls⟩ (lines r.line) = .ok ⟨[], calls ++ expectedCalls r.obj⟩ := by
  have htrail : Noise (r.trail ++ ['\n']) := h.trail.append (by decide)
  have hone : lines ('}' :: (r.trail ++ ['\n'])) = ['}' :: (r.trail ++ ['\n'])] :=
    lines_terminated (t := '}' :: r.trail) (by simpa using h.oneLine)
  have hshape : r.line = r.lead ++ r.text ++ (r.trail ++ ['\n']) := by
    simp [Record.line, Record.front]
  rw [hshape] at hlen ⊢
  exact readLoop_object hraises heta h.lead h.text htrail hone hlen h.loads h.inRange calls

theorem readLoop_ending {e : Ending} (h : e.Valid env.loads)
    (hlen : ∀ r ∈ e.records, r.front.length ≤ maxBufferBytes) (calls : List Callback) :
    ∃ buffer, readLoop env ⟨[], calls⟩ (lines e.text)
      = .ok ⟨buffer, calls ++ e.records.flatMap (fun r => expectedCalls r.obj)⟩ := by
  match e, h, hlen with
  | .noise rest, h, _ =>
      have hnoise : ∀ l ∈ lines rest, Noise l := by
        intro l hl c hc
        refine h c ?_
        rw [← lines_flatten rest]
        exact List.mem_flatten_of_mem hl hc
      obtain ⟨buffer, hb⟩ := readLoop_noise env (lines rest) ⟨[], calls⟩
        (fun c hc => absurd hc List.not_mem_nil) hnoise
      exact ⟨buffer, by simpa [Ending.text, Ending.records] using hb⟩
  | .cutOff r, h, hlen =>
      have hr : r.Valid env.loads := h
      refine ⟨[], ?_⟩
      have := readLoop_object hraises heta hr.lead hr.text hr.trail
        (lines_of_not_mem (by simp) (by simpa using hr.oneLine)) (hlen r (by simp [Ending.records]))
        hr.loads hr.inRange calls
      simpa [Ending.text, Ending.records, Record.front] using this

/-- Induction over the records: each one leaves an empty buffer and its callbacks. -/
theorem readLoop_records (e : Ending) (he : e.Valid env.loads)
    (hlen : ∀ r ∈ e.records, r.front.length ≤ maxBufferBytes) (records : List Record) :
    ∀ calls : List Callback, (∀ r ∈ records, r.Valid env.loads) →
      (∀ r ∈ records, r.line.length ≤ maxBufferBytes) →
      ∃ buffer, readLoop env ⟨[], calls⟩ (lines ((records.map Record.line).flatten ++ e.text))
        = .ok ⟨buffer, calls ++ (records ++ e.records).flatMap (fun r => expectedCalls r.obj)⟩ := by
  induction records with
  | nil =>
      intro calls _ _
      exact readLoop_ending hraises heta he hlen calls
  | cons r records ih =>
      intro calls hvalid hcap
      have hsplit : lines (((r :: records).map Record.line).flatten ++ e.text)
          = lines r.line ++ lines ((records.map Record.line).flatten ++ e.text) := by
        rw [List.map_cons, List.flatten_cons, List.append_assoc, Record.line, List.append_assoc,
          List.singleton_append, lines_append]
      obtain ⟨buffer, hb⟩ := ih (calls ++ expectedCalls r.obj)
        (fun r' h => hvalid r' (List.mem_cons_of_mem _ h))
        (fun r' h => hcap r' (List.mem_cons_of_mem _ h))
      refine ⟨buffer, ?_⟩
      rw [hsplit, readLoop_append (readLoop_line hraises heta (hvalid r List.mem_cons_self)
        (hcap r List.mem_cons_self) calls), hb]
      simp

end Exact

/-- Decoding is exact: over every stream of records, each segment within the
cap, the callbacks made are those of its objects, in order and once each. -/
theorem readLoop_calls_exact {env : LoopEnv} {o : Stdout} (heta : env.onEta = true)
    (hraises : ∀ i e, env.raises i = some e → e.isException = true) (hvalid : o.Valid env.loads)
    (hcap : ∀ s ∈ o.segments, s.length ≤ maxBufferBytes) :
    ∃ buffer, readLoop env .init (lines o.text) = .ok ⟨buffer, o.calls⟩ := by
  have hrecords : ∀ r ∈ o.records, r.line.length ≤ maxBufferBytes := fun r hr =>
    hcap _ (List.mem_append_left _ (List.mem_map_of_mem hr))
  have hending : ∀ r ∈ o.ending.records, r.front.length ≤ maxBufferBytes := fun r hr =>
    hcap _ (List.mem_append_right _ (List.mem_map_of_mem hr))
  exact readLoop_records hraises heta o.ending hvalid.ending hending o.records [] hvalid.records
    hrecords

/-! ## The first segment counts too

`nestedText` closes a nested object on its first line, so the buffer is parsed
before the object is complete. -/

def nestedText : PyStr := "\x7b\"State\":\x7b\x7d\n\x7d".toList

def nestedObj : JDict := [("State".toList, .obj [])]

def nestedEnv : LoopEnv where
  loads := fun t => if t = nestedText then .ok (.obj nestedObj) else .error (.jsonDecodeError [])
  onEta := true
  raises := fun _ => none

def nestedRecord (lead : PyStr) : Record := ⟨lead, nestedText, [], nestedObj⟩

theorem nestedText_object : ObjectText nestedText := by
  have hws : Ws [] := fun c hc => absurd hc List.not_mem_nil
  have hkey : StringBody "State".toList := by
    repeat' first | exact .nil | refine .plain (by decide) (by decide) (by decide) ?_
  have hinner : Text .value ['{', '}'] := .object (t := []) (.noMembers hws)
  exact ⟨"\"State\":{}\n".toList,
    .lastMember (a := []) (b := []) (c := []) (d := ['\n']) hws hkey hws hws hinner
      (fun c hc => by simp at hc; simp [hc]), rfl⟩

theorem nestedRecord_valid {lead : PyStr} (h : Noise lead) :
    (nestedRecord lead).Valid nestedEnv.loads where
  lead := h
  text := nestedText_object
  trail := fun c hc => absurd hc List.not_mem_nil
  oneLine := List.not_mem_nil
  loads := by simp [nestedRecord, nestedEnv]
  inRange := by simp [nestedRecord, nestedObj, JVal.InRangeFields, JVal.InRange]

/-- An object with a `Progress`, a number the decoder reads as the double next to 0.29. -/
def progressText : PyStr := "\x7b\"Working\": \x7b\"Progress\": 0.29\x7d\x7d".toList

def progressObj : JDict :=
  [("Working".toList,
    .obj [("Progress".toList, .num (.float (.finite (5224175567749775 / 2 ^ 54))))])]

def progressRecord : Record := ⟨[], progressText, [], progressObj⟩

/-- A decoder of both texts. -/
def pairEnv : LoopEnv :=
  { nestedEnv with
    loads := fun t => if t = progressText then .ok (.obj progressObj) else nestedEnv.loads t }

theorem progressText_object : ObjectText progressText := by
  have hnil : Ws [] := fun c hc => absurd hc List.not_mem_nil
  have hblank : Ws [' '] := fun c hc => by simp at hc; simp [hc]
  have hworking : StringBody "Working".toList := by
    repeat' first | exact .nil | refine .plain (by decide) (by decide) (by decide) ?_
  have hprogress : StringBody "Progress".toList := by
    repeat' first | exact .nil | refine .plain (by decide) (by decide) (by decide) ?_
  have hnumber : NumberText "0.29".toList :=
    @NumberText.mk [] ['0'] ".29".toList [] (.inl rfl) (.inl rfl)
      (.inr ⟨"29".toList, ⟨by decide, List.all_eq_true.mp (by decide)⟩, rfl⟩) (.inl rfl)
  have hinner : Text .value "\x7b\"Progress\": 0.29\x7d".toList :=
    .object (.lastMember (a := []) (b := []) (c := [' ']) (d := []) hnil hprogress hnil hblank
      (.number hnumber) hnil)
  exact ⟨"\"Working\": \x7b\"Progress\": 0.29\x7d".toList,
    .lastMember (a := []) (b := []) (c := [' ']) (d := []) hnil hworking hnil hblank hinner hnil,
    rfl⟩

theorem progressObj_inRange : JVal.InRangeFields progressObj := by
  have hlim : |(5224175567749775 / 2 ^ 54 : ℚ)| < floatLimit := by decide +kernel
  exact ⟨⟨hlim, trivial⟩, trivial⟩

theorem progressRecord_valid : progressRecord.Valid pairEnv.loads where
  lead := fun _ hc => absurd hc List.not_mem_nil
  text := progressText_object
  trail := fun _ hc => absurd hc List.not_mem_nil
  oneLine := List.not_mem_nil
  loads := rfl
  inRange := progressObj_inRange

/-- The exactness theorem at both objects, the second cut off: 0.29 is reported as
28.999999999999996. -/
theorem readLoop_calls_exact_pair :
    ∃ buffer, readLoop pairEnv .init
        (lines (Stdout.text ⟨[nestedRecord "Progress: ".toList], .cutOff progressRecord⟩))
      = .ok ⟨buffer, [.onEta none, .onProgress (.finite (8162774324609023 / 2 ^ 48))]⟩ := by
  have hlead : Noise "Progress: ".toList := by decide
  have hne : nestedText ≠ progressText := by decide
  have hsame : pairEnv.loads nestedText = nestedEnv.loads nestedText := by
    simp only [pairEnv, if_neg hne]
  have hnested := nestedRecord_valid hlead
  have hfirst : (nestedRecord "Progress: ".toList).Valid pairEnv.loads :=
    { hnested with loads := hsame.trans hnested.loads }
  have hcalls : Stdout.calls ⟨[nestedRecord "Progress: ".toList], .cutOff progressRecord⟩
      = [.onEta none, .onProgress (.finite (8162774324609023 / 2 ^ 48))] := by decide +kernel
  rw [← hcalls]
  exact readLoop_calls_exact (o := ⟨[nestedRecord _], .cutOff progressRecord⟩) rfl
    (fun i e h => by cases h)
    ⟨fun r hr => List.mem_singleton.mp hr ▸ hfirst, progressRecord_valid⟩ (by decide)

/-- `n` characters of noise on a line of their own. -/
def preamble (n : Nat) : PyStr := List.replicate n 'x' ++ ['\n']

theorem preamble_noise (n : Nat) : Noise (preamble n) := by
  intro c hc
  rcases List.mem_append.mp hc with h | h
  · rw [List.eq_of_mem_replicate h]
    decide
  · rw [List.mem_singleton.mp h]
    decide

theorem preamble_lines (n : Nat) (rest : PyStr) :
    lines (preamble n ++ rest) = preamble n :: lines rest := by
  have hx : '\n' ∉ List.replicate n 'x' := fun hm =>
    absurd (List.eq_of_mem_replicate hm) (by decide)
  rw [preamble, List.append_assoc, List.singleton_append, lines_append, lines_terminated hx]
  rfl

/-- A line that completes nothing on a buffer past the cap drops it. -/
theorem readLine_drop (env : LoopEnv) (st : LoopState) {line : PyStr} (hb : '}' ∈ line)
    (hspan : Scan.start.spans (st.buffer ++ line) = [])
    (hlen : maxBufferBytes < (st.buffer ++ line).length) :
    readLine env st line = .ok { st with buffer := [] } := by
  have hparse : parseProgressObjects env.loads (st.buffer ++ line) = .ok [] := by
    rw [parseProgressObjects_eq, hspan]
    rfl
  simp only [readLine]
  rw [if_neg (by simpa using hb), hparse]
  simp only [hlen, if_true]

/-- After a preamble longer than the cap the nested object is dropped half read,
and what is left of it is noise. -/
theorem readLoop_long_preamble {n : Nat} (hn : maxBufferBytes ≤ n) :
    ∃ buffer, readLoop nestedEnv .init (lines (preamble n ++ nestedText ++ ['\n']))
      = .ok ⟨buffer, []⟩ := by
  have hlines : lines (preamble n ++ nestedText ++ ['\n'])
      = [preamble n, "\x7b\"State\":\x7b\x7d\n".toList, "\x7d\n".toList] := by
    rw [List.append_assoc, preamble_lines]
    rfl
  have h₁ : readLine nestedEnv .init (preamble n) = .ok ⟨preamble n, []⟩ := by
    have hb : '}' ∉ preamble n := by
      intro hm
      rcases List.mem_append.mp hm with h | h
      · exact absurd (List.eq_of_mem_replicate h) (by decide)
      · exact absurd (List.mem_singleton.mp h) (by decide)
    exact readLine_plain nestedEnv .init hb
  have h₂ : readLine nestedEnv ⟨preamble n, []⟩ "\x7b\"State\":\x7b\x7d\n".toList = .ok ⟨[], []⟩ := by
    refine readLine_drop nestedEnv ⟨preamble n, []⟩ (by decide) ?_ ?_
    · rw [Scan.spans_append, (preamble_noise n).spans, (preamble_noise n).after]
      decide
    · simp only [preamble, List.length_append, List.length_replicate, List.length_singleton]
      omega
  obtain ⟨buffer, h₃⟩ := readLoop_noise nestedEnv ["\x7d\n".toList] ⟨[], []⟩
    (fun c hc => absurd hc List.not_mem_nil) (by decide)
  refine ⟨buffer, ?_⟩
  rw [hlines, readLoop, h₁]
  simp only [readLoop, h₂]
  exact h₃

/-- The cap is a bound on the first segment as well: after a preamble longer than
the cap the first object is lost, although every later segment is short. -/
theorem first_object_lost_after_long_preamble :
    ¬ ∀ (env : LoopEnv) (o : Stdout), env.onEta = true →
      (∀ i e, env.raises i = some e → e.isException = true) → o.Valid env.loads →
      (∀ s ∈ o.segments.tail, s.length ≤ maxBufferBytes) →
      ∃ buffer, readLoop env .init (lines o.text) = .ok ⟨buffer, o.calls⟩ := by
  intro h
  obtain ⟨buffer, hrun⟩ := h nestedEnv ⟨[nestedRecord (preamble maxBufferBytes)], .noise []⟩ rfl
    (fun i e h => by cases h)
    ⟨fun r hr => by
        rw [List.mem_singleton.mp hr]
        exact nestedRecord_valid (preamble_noise _),
      fun c hc => absurd hc List.not_mem_nil⟩
    (fun s hs => absurd hs List.not_mem_nil)
  obtain ⟨buffer', hlost⟩ := readLoop_long_preamble (Nat.le_refl maxBufferBytes)
  have htext : Stdout.text ⟨[nestedRecord (preamble maxBufferBytes)], .noise []⟩
      = preamble maxBufferBytes ++ nestedText ++ ['\n'] := by
    simp only [Stdout.text, Record.line, Record.front, nestedRecord, Ending.text, List.map_cons,
      List.map_nil, List.flatten_cons, List.flatten_nil, List.append_nil]
  rw [htext, hlost] at hrun
  have hcalls : Stdout.calls ⟨[nestedRecord (preamble maxBufferBytes)], .noise []⟩
      = [.onEta none] := rfl
  rw [hcalls] at hrun
  simp at hrun

end HandBrakeEncoder.Progress
