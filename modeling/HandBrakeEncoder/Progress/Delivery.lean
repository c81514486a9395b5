/-
# `Progress.Delivery` — what the loop delivers, from the text alone

A loop that runs through has made the callbacks of the objects it reported, in
order, and holds a buffer the text decides: `reported` and `kept` say what both
are without running a callback.  Both compose along the lines
(`reported_append`, `kept_append`).
-/
import HandBrakeEncoder.Progress.Escapes

namespace HandBrakeEncoder.Progress

open Braces

/-- The `on_eta` an object leads to. -/
def etaCall (env : LoopEnv) (obj : JDict) : List Callback :=
  if env.onEta && obj.has "State" then
    match remainingSeconds obj with
    | .ok eta => [.onEta eta]
    | .error _ => []
  else []

/-- The `on_progress` an object leads to. -/
def progressCall (obj : JDict) : List Callback :=
  match progressFraction obj with
  | none => []
  | some fraction =>
      match fraction.toFloat with
      | .ok x => [.onProgress (percentOf x)]
      | .error _ => []

def objectCalls (env : LoopEnv) (obj : JDict) : List Callback := etaCall env obj ++ progressCall obj

/-- The buffer the lines leave. -/
def kept (loads : JsonLoads) : PyStr → List PyStr → PyStr
  | buffer, [] => buffer
  | buffer, line :: lines =>
      if '}' ∉ line then kept loads (buffer ++ line) lines
      else kept loads (retained loads (buffer ++ line)) lines

variable {env : LoopEnv} {loads : JsonLoads}

theorem length_retained (text : PyStr) : (retained loads text).length ≤ maxBufferBytes := by
  rw [retained]
  split
  · rename_i h
    exact h.2
  · exact Nat.zero_le _

theorem kept_line_plain {line : PyStr} (hb : '}' ∉ line) (buffer : PyStr) :
    kept loads buffer [line] = buffer ++ line := by
  rw [kept, if_pos hb]
  rfl

theorem kept_line_parsed {line : PyStr} (hb : '}' ∈ line) (buffer : PyStr) :
    kept loads buffer [line] = retained loads (buffer ++ line) := by
  rw [kept, if_neg (not_not.mpr hb)]
  rfl

/-- A line joins the buffer, or the buffer is cleared. -/
theorem kept_line_cases (buffer line : PyStr) :
    kept loads buffer [line] = buffer ++ line ∨ kept loads buffer [line] = [] := by
  by_cases hb : '}' ∈ line
  · rw [kept_line_parsed hb, retained]
    exact (ite_eq_or_eq _ _ _)
  · exact .inl (kept_line_plain hb buffer)

/-! ## Composition -/

theorem kept_append (buffer : PyStr) (ls ms : List PyStr) :
    kept loads buffer (ls ++ ms) = kept loads (kept loads buffer ls) ms := by
  induction ls generalizing buffer with
  | nil =>
      rfl
  | cons l ls ih =>
      rw [List.cons_append, kept, kept]
      split
      · exact ih (buffer ++ l)
      · exact ih (retained loads (buffer ++ l))

theorem handed_append (buffer : PyStr) (ls ms : List PyStr) :
    handed loads buffer (ls ++ ms) = handed loads buffer ls ++ handed loads (kept loads buffer ls) ms := by
  induction ls generalizing buffer with
  | nil =>
      rfl
  | cons l ls ih =>
      rw [List.cons_append, handed, handed, kept]
      split
      · exact ih (buffer ++ l)
      · rw [ih (retained loads (buffer ++ l)), List.append_assoc]

theorem reported_append (buffer : PyStr) (ls ms : List PyStr) :
    reported loads buffer (ls ++ ms) =
      reported loads buffer ls ++ reported loads (kept loads buffer ls) ms := by
  rw [reported, handed_append, List.filterMap_append]
  rfl

/-! ## The callbacks made -/

theorem invoke_calls {calls calls' : List Callback} {cb : Callback}
    (h : invoke env calls cb = .ok calls') : calls' = calls ++ [cb] := by
  rw [invoke] at h
  split at h
  · cases h
    rfl
  · rw [ignoring] at h
    split at h
    · cases h
      rfl
    · cases h

theorem ignoring_calls {calls calls' : List Callback} {e : PyExc}
    (h : ignoring e calls = .ok calls') : calls' = calls := by
  rw [ignoring] at h
  split at h
  · cases h
    rfl
  · cases h

theorem reportEta_calls {calls calls' : List Callback} {obj : JDict}
    (h : reportEta env calls obj = .ok calls') : calls' = calls ++ etaCall env obj := by
  rw [reportEta] at h
  rw [etaCall]
  split at h
  · rename_i hstate
    rw [if_pos hstate]
    cases hseconds : remainingSeconds obj with
    | ok eta =>
        rw [hseconds] at h
        exact invoke_calls h
    | error e =>
        rw [hseconds] at h
        rw [ignoring_calls h, List.append_nil]
  · rename_i hstate
    rw [if_neg hstate, List.append_nil]
    cases h
    rfl

theorem reportProgress_calls {calls calls' : List Callback} {obj : JDict}
    (h : reportProgress env calls obj = .ok calls') : calls' = calls ++ progressCall obj := by
  rw [reportProgress] at h
  rw [progressCall]
  cases hfraction : progressFraction obj with
  | none =>
      rw [hfraction] at h
      cases h
      rw [List.append_nil]
  | some fraction =>
      rw [hfraction] at h
      dsimp only at h ⊢
      cases hfloat : fraction.toFloat with
      | ok x =>
          rw [hfloat] at h
          exact invoke_calls h
      | error e =>
          rw [hfloat] at h
          rw [ignoring_calls h, List.append_nil]

/-- Reports that run through make the callbacks of their objects. -/
theorem reportObjects_calls {objects : List JDict} {calls calls' : List Callback}
    (h : reportObjects env calls objects = .ok calls') :
    calls' = calls ++ objects.flatMap (objectCalls env) := by
  induction objects generalizing calls with
  | nil =>
      cases h
      rw [List.flatMap_nil, List.append_nil]
  | cons obj objects ih =>
      rw [reportObjects] at h
      split at h
      · cases h
      · rename_i calls₁ heta
        split at h
        · cases h
        · rename_i calls₂ hprogress
          rw [ih h, reportProgress_calls hprogress, reportEta_calls heta, List.flatMap_cons,
            objectCalls, List.append_assoc, List.append_assoc, List.append_assoc]

/-- One line: the buffer the text leaves, and the callbacks of the objects it completes. -/
theorem readLine_delivers {st st' : LoopState} {line : PyStr} (h : readLine env st line = .ok st') :
    st'.buffer = kept env.loads st.buffer [line] ∧
      st'.calls = st.calls ++ (reported env.loads st.buffer [line]).flatMap (objectCalls env) := by
  rw [reported, handed, kept]
  by_cases hb : '}' ∈ line
  · rw [if_neg (not_not.mpr hb), if_neg (not_not.mpr hb), kept, handed, List.append_nil]
    by_cases hspans : ∀ text ∈ Scan.start.spans (st.buffer ++ line), ¬ Fatal env.loads text
    · rw [readLine_parsed hb hspans] at h
      cases hreport : reportObjects env st.calls
          ((Scan.start.spans (st.buffer ++ line)).filterMap (decoded env.loads)) with
      | error e =>
          rw [hreport] at h
          cases h
      | ok calls =>
          rw [hreport] at h
          cases h
          exact ⟨rfl, reportObjects_calls hreport⟩
    · have hfatal := hspans
      simp only [not_forall, not_not, exists_prop] at hfatal
      obtain ⟨e, he⟩ := parseProgressObjects_error_iff.mpr hfatal
      rw [readLine_parse_error hb he] at h
      cases h
  · rw [if_pos hb, if_pos hb, kept, handed]
    rw [readLine_plain env st hb] at h
    cases h
    exact ⟨rfl, (List.append_nil _).symm⟩

/-- The whole loop. -/
theorem readLoop_delivers {st st' : LoopState} {lines : List PyStr}
    (h : readLoop env st lines = .ok st') :
    st'.buffer = kept env.loads st.buffer lines ∧
      st'.calls = st.calls ++ (reported env.loads st.buffer lines).flatMap (objectCalls env) := by
  induction lines generalizing st with
  | nil =>
      cases h
      exact ⟨rfl, (List.append_nil _).symm⟩
  | cons line lines ih =>
      obtain ⟨st₁, hline, hrest⟩ := readLoop_cons_ok h
      obtain ⟨hbuffer, hcalls⟩ := readLine_delivers hline
      obtain ⟨hbuffer', hcalls'⟩ := ih hrest
      have hkept := @kept_append env.loads st.buffer [line] lines
      have hreported := @reported_append env.loads st.buffer [line] lines
      rw [List.singleton_append, ← hbuffer] at hkept hreported
      rw [hkept, hreported, List.flatMap_append, ← List.append_assoc, ← hcalls]
      exact ⟨hbuffer', hcalls'⟩

end HandBrakeEncoder.Progress
