/-
# `Progress.Loop` — the stdout loop of `run_encode`

The loop accumulates lines in `buffer`, parses the buffer again whenever a line
holds a closing brace, reports every object it finds and only then clears the
buffer.  A buffer past `_MAX_BUFFER_BYTES` that still holds no object is
dropped.

The callbacks are the observable result, so the loop state collects them in
order.  A callback may raise: an `Exception` is logged and ignored, anything
else leaves the loop.  `on_eta` may be `None`.
-/
import HandBrakeEncoder.Progress.Scanner
import HandBrakeEncoder.Lib.Lines

namespace HandBrakeEncoder.Progress

open Braces

/-- `_MAX_BUFFER_BYTES`. -/
def maxBufferBytes : Nat := 1 <<< 20

/-! ## Reading an ETA -/

/-- `working.get("Hours") == -1`. -/
def hoursWarmingUp (working : JDict) : Bool :=
  match (working.get "Hours").num? with
  | some hours => hours.exact == .finite (-1)
  | none => false

/-- `Pass` and `PassCount` are both numbers and more passes follow. -/
def morePasses (working : JDict) : Bool :=
  match (working.get "Pass").num?, (working.get "PassCount").num? with
  | some currentPass, some passCount => currentPass.lt passCount
  | _, _ => false

/-- `_remaining_seconds`. -/
def remainingSeconds (obj : JDict) : Except PyExc (Option ℤ) :=
  match (obj.get "Working").dict? with
  | none => .ok none
  | some working =>
      if (obj.get "State").str? ≠ some "WORKING".toList then .ok none
      else
        let eta := working.get "ETASeconds"
        if eta.isBool then .ok none
        else
          match eta.num? with
          | none => .ok none
          | some eta =>
              match eta.isFinite with
              | .error e => .error e
              | .ok finite =>
                  if !finite || eta.lt (.int 0) then .ok none
                  -- HandBrake uses Hours=-1 while its rate estimate warms up
                  else if hoursWarmingUp working then .ok none
                  else if morePasses working then .ok none
                  else .ok (some eta.truncate)

/-! ## Callbacks -/

/-- A callback the loop makes, with its argument. -/
inductive Callback
  | onEta (seconds : Option ℤ)
  | onProgress (pct : PyFloat)
  deriving DecidableEq

/-- What the loop is given: the decoder, whether `on_eta` is not `None`, and what
the `i`-th callback made raises, if it raises. -/
structure LoopEnv where
  loads : JsonLoads
  onEta : Bool
  raises : Nat → Option PyExc

/-- `except Exception: logger.warning(...)`. -/
def ignoring {α : Type} (e : PyExc) (a : α) : Except PyExc α :=
  if e.isException then .ok a else .error e

/-- Make one callback inside its `try`. -/
def invoke (env : LoopEnv) (calls : List Callback) (cb : Callback) :
    Except PyExc (List Callback) :=
  match env.raises calls.length with
  | none => .ok (calls ++ [cb])
  | some e => ignoring e (calls ++ [cb])

def reportEta (env : LoopEnv) (calls : List Callback) (obj : JDict) :
    Except PyExc (List Callback) :=
  if env.onEta && obj.has "State" then
    match remainingSeconds obj with
    | .ok eta => invoke env calls (.onEta eta)
    | .error e => ignoring e calls
  else .ok calls

/-- `min(float(fraction) * 100.0, 100.0)`. -/
def percentOf (x : PyFloat) : PyFloat := (x.mul 100).min (.finite 100)

/-- `working.get("Progress")` as a number, where `Working` is a `dict`. -/
def progressFraction (obj : JDict) : Option PyNum :=
  match (obj.get "Working").dict? with
  | none => none
  | some working => (working.get "Progress").num?

def reportProgress (env : LoopEnv) (calls : List Callback) (obj : JDict) :
    Except PyExc (List Callback) :=
  match progressFraction obj with
  | none => .ok calls
  | some fraction =>
      match fraction.toFloat with
      | .ok x => invoke env calls (.onProgress (percentOf x))
      | .error e => ignoring e calls

/-- `for obj in objects`. -/
def reportObjects (env : LoopEnv) : List Callback → List JDict → Except PyExc (List Callback)
  | calls, [] => .ok calls
  | calls, obj :: objs =>
      match reportEta env calls obj with
      | .error e => .error e
      | .ok calls' =>
          match reportProgress env calls' obj with
          | .error e => .error e
          | .ok calls'' => reportObjects env calls'' objs

/-! ## The loop -/

/-- The retained buffer, and the callbacks made so far. -/
structure LoopState where
  buffer : PyStr
  calls : List Callback
  deriving DecidableEq

def LoopState.init : LoopState := ⟨[], []⟩

/-- One iteration of `for line in proc.stdout`. -/
def readLine (env : LoopEnv) (st : LoopState) (line : PyStr) : Except PyExc LoopState :=
  let buffer := st.buffer ++ line
  if '}' ∉ line then .ok { st with buffer := buffer }
  else
    match parseProgressObjects env.loads buffer with
    | .error e => .error e
    | .ok [] =>
        if maxBufferBytes < buffer.length then .ok { st with buffer := [] }
        else .ok { st with buffer := buffer }
    | .ok objects =>
        match reportObjects env st.calls objects with
        | .error e => .error e
        | .ok calls => .ok ⟨[], calls⟩

/-- The loop over the lines of stdout. -/
def readLoop (env : LoopEnv) : LoopState → List PyStr → Except PyExc LoopState
  | st, [] => .ok st
  | st, line :: lines =>
      match readLine env st line with
      | .ok st' => readLoop env st' lines
      | .error e => .error e

/-- A loop that runs through its lines runs through the first one, and then through the others. -/
theorem readLoop_cons_ok {env : LoopEnv} {st st' : LoopState} {line : PyStr} {ls : List PyStr}
    (h : readLoop env st (line :: ls) = .ok st') :
    ∃ st₁, readLine env st line = .ok st₁ ∧ readLoop env st₁ ls = .ok st' := by
  rw [readLoop] at h
  cases hline : readLine env st line with
  | error e =>
      rw [hline] at h
      cases h
  | ok st₁ =>
      rw [hline] at h
      exact ⟨st₁, rfl, h⟩

theorem readLoop_append {env : LoopEnv} {st st' : LoopState} {ls : List PyStr}
    (h : readLoop env st ls = .ok st') (ms : List PyStr) :
    readLoop env st (ls ++ ms) = readLoop env st' ms := by
  induction ls generalizing st with
  | nil =>
      cases h
      rfl
  | cons l ls ih =>
      obtain ⟨st₁, hline, hrest⟩ := readLoop_cons_ok h
      rw [List.cons_append, readLoop, hline]
      exact ih hrest

theorem readLoop_append_error {env : LoopEnv} {st : LoopState} {ls : List PyStr} {e : PyExc}
    (h : readLoop env st ls = .error e) (ms : List PyStr) :
    readLoop env st (ls ++ ms) = .error e := by
  induction ls generalizing st with
  | nil => cases h
  | cons l ls ih =>
      simp only [List.cons_append, readLoop] at h ⊢
      cases hl : readLine env st l with
      | error e' =>
          rw [hl] at h
          exact h
      | ok st₁ =>
          rw [hl] at h
          exact ih h

/-! ## What one line does -/

section Lines
variable (env : LoopEnv) (st : LoopState) {line : PyStr}

/-- A line without a closing brace joins the buffer and is not parsed. -/
theorem readLine_plain (hb : '}' ∉ line) :
    readLine env st line = .ok { st with buffer := st.buffer ++ line } := by
  simp only [readLine]
  rw [if_pos hb]

/-- A line that completes no object: it is kept, unless the buffer grew past the
cap and is dropped. -/
theorem readLine_no_span (h : Scan.start.spans (st.buffer ++ line) = []) :
    readLine env st line = .ok { st with buffer := st.buffer ++ line } ∨
      (maxBufferBytes < (st.buffer ++ line).length ∧
        readLine env st line = .ok { st with buffer := [] }) := by
  have hparse : parseProgressObjects env.loads (st.buffer ++ line) = .ok [] := by
    rw [parseProgressObjects_eq, h]
    rfl
  by_cases hb : '}' ∈ line
  · simp only [readLine]
    rw [if_neg (by simpa using hb), hparse]
    by_cases hlen : maxBufferBytes < (st.buffer ++ line).length
    · exact Or.inr ⟨hlen, by simp only [hlen, if_true]⟩
    · exact Or.inl (by simp only [hlen, if_false])
  · exact Or.inl (readLine_plain env st hb)

/-- A line that completes exactly one object: it is reported and the buffer cleared. -/
theorem readLine_span {text : PyStr} {obj : JDict} (hb : '}' ∈ line)
    (hspan : Scan.start.spans (st.buffer ++ line) = [text])
    (hloads : env.loads text = .ok (.obj obj)) :
    readLine env st line =
      match reportObjects env st.calls [obj] with
      | .ok calls => .ok ⟨[], calls⟩
      | .error e => .error e := by
  have hparse : parseProgressObjects env.loads (st.buffer ++ line) = .ok [obj] := by
    rw [parseProgressObjects_eq, hspan]
    simp [decodeSpans, decodeSpan, hloads]
  simp only [readLine]
  rw [if_neg (by simpa using hb), hparse]
  cases h : reportObjects env st.calls [obj] <;> simp only [h]

end Lines

/-- Lines that complete no object and stay within the cap only accumulate. -/
theorem readLoop_accumulate (env : LoopEnv) (ls : List PyStr) :
    ∀ st : LoopState, Scan.start.spans (st.buffer ++ ls.flatten) = [] →
      (st.buffer ++ ls.flatten).length ≤ maxBufferBytes →
      readLoop env st ls = .ok { st with buffer := st.buffer ++ ls.flatten } := by
  induction ls with
  | nil => intro st _ _; simp [readLoop]
  | cons l ls ih =>
      intro st hspan hlen
      rw [List.flatten_cons, ← List.append_assoc] at hspan hlen
      have hl : readLine env st l = .ok { st with buffer := st.buffer ++ l } := by
        rcases readLine_no_span env st (Scan.spans_prefix hspan) with h | ⟨hdrop, -⟩
        · exact h
        · rw [List.length_append] at hlen
          omega
      rw [readLoop, hl]
      have := ih { st with buffer := st.buffer ++ l } hspan hlen
      simp only at this ⊢
      rw [this, List.flatten_cons, List.append_assoc]

/-- Lines of noise make no callback, however long they go on. -/
theorem readLoop_noise (env : LoopEnv) (ls : List PyStr) :
    ∀ st : LoopState, Noise st.buffer → (∀ l ∈ ls, Noise l) →
      ∃ buffer, readLoop env st ls = .ok { st with buffer := buffer } := by
  induction ls with
  | nil => intro st _ _; exact ⟨st.buffer, rfl⟩
  | cons l ls ih =>
      intro st hbuf hls
      have hl : Noise l := hls l List.mem_cons_self
      have hrest : ∀ l' ∈ ls, Noise l' := fun l' h => hls l' (List.mem_cons_of_mem _ h)
      have hnil : Noise ([] : PyStr) := fun c hc => absurd hc List.not_mem_nil
      rw [readLoop]
      rcases readLine_no_span env st (hbuf.append hl).spans with h | ⟨-, h⟩
      · rw [h]
        exact ih { st with buffer := st.buffer ++ l } (hbuf.append hl) hrest
      · rw [h]
        exact ih { st with buffer := [] } hnil hrest

end HandBrakeEncoder.Progress
