/-
# `Progress.Escapes` — what can leave the stdout loop

Everything the loop does with the child's text is inside a handler or cannot
raise, with two exceptions: `parse_progress_objects` catches `JSONDecodeError`
only, and the callbacks are wrapped in `except Exception`.  So the loop raises
exactly when one of the texts it hands to `json.loads` makes that raise
something else, or when a callback raises outside `Exception`.

`handed` lists those texts, and `callCount` counts the callbacks their objects
lead to.  Both follow the text alone: what the callbacks do has no part in them.
-/
import HandBrakeEncoder.Progress.Loop

namespace HandBrakeEncoder.Progress

open Braces

/-- What `json.loads` may raise: malformed text, nesting past the interpreter's limit, an integer
literal past the digit limit. -/
def Documented (loads : JsonLoads) : Prop := ∀ text e, loads text = .error e →
  (∃ msg, e = .jsonDecodeError msg) ∨ e = .recursionError ∨ ∃ msg, e = .valueError msg

/-- The text makes `json.loads` raise what `parse_progress_objects` does not catch. -/
def Fatal (loads : JsonLoads) (text : PyStr) : Prop :=
  ∃ e, loads text = .error e ∧ ∀ msg, e ≠ .jsonDecodeError msg

/-- The object the text decodes to, if it does. -/
def decoded (loads : JsonLoads) (text : PyStr) : Option JDict :=
  match loads text with
  | .ok v => v.dict?
  | .error _ => none

/-- The buffer after a parse: dropped once it held an object, or past the cap. -/
def retained (loads : JsonLoads) (text : PyStr) : PyStr :=
  if (Scan.start.spans text).filterMap (decoded loads) = [] ∧ text.length ≤ maxBufferBytes then text
  else []

/-- The texts the loop hands to `json.loads`, from the given buffer on. -/
def handed (loads : JsonLoads) : PyStr → List PyStr → List PyStr
  | _, [] => []
  | buffer, line :: lines =>
      if '}' ∉ line then handed loads (buffer ++ line) lines
      else Scan.start.spans (buffer ++ line) ++ handed loads (retained loads (buffer ++ line)) lines

variable {loads : JsonLoads} {env : LoopEnv} {st : LoopState}

theorem Documented.fatal (h : Documented loads) {text : PyStr} : Fatal loads text ↔
    loads text = .error .recursionError ∨ ∃ msg, loads text = .error (.valueError msg) := by
  constructor
  · rintro ⟨e, he, hnot⟩
    rcases h text e he with ⟨msg, rfl⟩ | rfl | ⟨msg, rfl⟩
    · exact absurd rfl (hnot msg)
    · exact .inl he
    · exact .inr ⟨msg, he⟩
  · rintro (he | ⟨msg, he⟩)
    · exact ⟨_, he, fun _ => nofun⟩
    · exact ⟨_, he, fun _ => nofun⟩

/-! ## Decoding -/

theorem decoded_eq_some {text : PyStr} {obj : JDict} :
    decoded loads text = some obj ↔ loads text = .ok (.obj obj) := by
  rw [decoded]
  cases hloads : loads text with
  | ok v => cases v <;> simp [JVal.dict?]
  | error e => simp

theorem decodeSpan_fatal (objects : List JDict) {text : PyStr} (h : Fatal loads text) :
    ∃ e, decodeSpan loads objects text = .error e ∧ loads text = .error e ∧
      ∀ msg, e ≠ .jsonDecodeError msg := by
  obtain ⟨e, he, hnot⟩ := h
  refine ⟨e, ?_, he, hnot⟩
  rw [decodeSpan, he]
  cases e with
  | jsonDecodeError msg => exact absurd rfl (hnot msg)
  | recursionError | valueError _ | overflowError | osError _ | timeoutExpired
  | handBrakeCancelled _ | handBrakeError _ | pathNotAllowed _ | sourceNotFound _ | presetError _
  | queueFull _ | other _ | baseException _ => rfl

theorem decodeSpan_harmless {objects : List JDict} {text : PyStr} (h : ¬ Fatal loads text) :
    decodeSpan loads objects text = .ok (objects ++ (decoded loads text).toList) := by
  rw [decodeSpan, decoded]
  cases hloads : loads text with
  | ok v => cases v <;> simp [JVal.dict?]
  | error e =>
      by_cases hmsg : ∃ msg, e = .jsonDecodeError msg
      · obtain ⟨msg, rfl⟩ := hmsg
        simp
      · exact absurd ⟨e, hloads, fun msg he => hmsg ⟨msg, he⟩⟩ h

theorem decodeSpans_harmless {texts : List PyStr} (h : ∀ text ∈ texts, ¬ Fatal loads text)
    (objects : List JDict) :
    decodeSpans loads objects texts = .ok (objects ++ texts.filterMap (decoded loads)) := by
  induction texts generalizing objects with
  | nil => simp [decodeSpans]
  | cons text texts ih =>
      rw [decodeSpans, decodeSpan_harmless (h text List.mem_cons_self)]
      dsimp only
      rw [ih fun t ht => h t (List.mem_cons_of_mem _ ht)]
      cases hdecoded : decoded loads text <;> simp [hdecoded]

/-- The first fatal text decides. -/
theorem decodeSpans_error {texts : List PyStr} {objects : List JDict} {e : PyExc}
    (h : decodeSpans loads objects texts = .error e) :
    ∃ text ∈ texts, loads text = .error e ∧ ∀ msg, e ≠ .jsonDecodeError msg := by
  induction texts generalizing objects with
  | nil => cases h
  | cons text texts ih =>
      rw [decodeSpans] at h
      by_cases hfatal : Fatal loads text
      · obtain ⟨e', hspan, he', hnot⟩ := decodeSpan_fatal objects hfatal
        rw [hspan] at h
        cases h
        exact ⟨text, List.mem_cons_self, he', hnot⟩
      · rw [decodeSpan_harmless hfatal] at h
        obtain ⟨t, ht, hrest⟩ := ih h
        exact ⟨t, List.mem_cons_of_mem _ ht, hrest⟩

/-- A fatal text among them makes the decoding raise. -/
theorem decodeSpans_fatal {texts : List PyStr} {text : PyStr} (htext : text ∈ texts)
    (hfatal : Fatal loads text) (objects : List JDict) :
    ∃ e, decodeSpans loads objects texts = .error e := by
  induction texts generalizing objects with
  | nil => exact absurd htext List.not_mem_nil
  | cons t texts ih =>
      rw [decodeSpans]
      by_cases ht : Fatal loads t
      · obtain ⟨e, hspan, -⟩ := decodeSpan_fatal objects ht
        rw [hspan]
        exact ⟨e, rfl⟩
      · rw [decodeSpan_harmless ht]
        rcases List.mem_cons.mp htext with rfl | hmem
        · exact absurd hfatal ht
        · exact ih hmem _

/-- Decoding that runs through met no fatal text, and the objects are those of the texts. -/
theorem decodeSpans_ok {texts : List PyStr} {objects : List JDict}
    (h : decodeSpans loads [] texts = .ok objects) :
    (∀ text ∈ texts, ¬ Fatal loads text) ∧ objects = texts.filterMap (decoded loads) := by
  have hharmless : ∀ text ∈ texts, ¬ Fatal loads text := by
    intro text htext hfatal
    obtain ⟨e, he⟩ := decodeSpans_fatal htext hfatal []
    rw [he] at h
    cases h
  rw [decodeSpans_harmless hharmless, List.nil_append] at h
  exact ⟨hharmless, (Except.ok.inj h).symm⟩

/-- A parse raises exactly at a fatal text. -/
theorem parseProgressObjects_error_iff {chunk : PyStr} :
    (∃ e, parseProgressObjects loads chunk = .error e) ↔
      ∃ text ∈ Scan.start.spans chunk, Fatal loads text := by
  rw [parseProgressObjects_eq]
  constructor
  · rintro ⟨e, he⟩
    obtain ⟨text, htext, hrest⟩ := decodeSpans_error he
    exact ⟨text, htext, e, hrest⟩
  · rintro ⟨text, htext, hfatal⟩
    exact decodeSpans_fatal htext hfatal []

/-! ## The callbacks -/

/-- The `i`-th callback made, for these `i`, raises nothing outside `Exception`. -/
def Calm (env : LoopEnv) (first count : Nat) : Prop :=
  ∀ i, first ≤ i → i < first + count → ∀ e, env.raises i = some e → e.isException = true

/-- Callbacks that raise nothing outside `Exception`. -/
def Ordinary (env : LoopEnv) : Prop := ∀ i e, env.raises i = some e → e.isException = true

theorem Ordinary.calm (h : Ordinary env) (first count : Nat) : Calm env first count :=
  fun i _ _ => h i

theorem Calm.zero (first : Nat) : Calm env first 0 := fun i hle hlt => by omega

theorem calm_add {first a b : Nat} :
    Calm env first (a + b) ↔ Calm env first a ∧ Calm env (first + a) b := by
  constructor
  · intro h
    exact ⟨fun i hle hlt => h i hle (by omega), fun i hle hlt => h i (by omega) (by omega)⟩
  · rintro ⟨hfirst, hlater⟩ i hle hlt
    by_cases hi : i < first + a
    · exact hfirst i hle hi
    · exact hlater i (by omega) (by omega)

/-- `on_eta` is called for the object, once or not at all. -/
def etaCalls (env : LoopEnv) (obj : JDict) : Nat :=
  if env.onEta && obj.has "State" then
    match remainingSeconds obj with
    | .ok _ => 1
    | .error _ => 0
  else 0

/-- `on_progress` is called for the object, once or not at all. -/
def progressCalls (obj : JDict) : Nat :=
  match progressFraction obj with
  | none => 0
  | some fraction =>
      match fraction.toFloat with
      | .ok _ => 1
      | .error _ => 0

/-- How many callbacks the objects lead to. -/
def callCount (env : LoopEnv) (objects : List JDict) : Nat :=
  (objects.map fun obj => etaCalls env obj + progressCalls obj).sum

/-- `r` is what is left after `count` callbacks: a longer list, or the exception of one that is
not calm. -/
def Makes (env : LoopEnv) (calls : List Callback) (count : Nat) : Except PyExc (List Callback) → Prop
  | .ok calls' => calls'.length = calls.length + count ∧ Calm env calls.length count
  | .error _ => ¬ Calm env calls.length count

variable {calls : List Callback}

theorem Makes.none (calls : List Callback) : Makes env calls 0 (.ok calls) :=
  ⟨rfl, Calm.zero _⟩

/-- Some callbacks, and then some more. -/
theorem Makes.bind {a b : Nat} {r : Except PyExc (List Callback)}
    {f : List Callback → Except PyExc (List Callback)} (hr : Makes env calls a r)
    (hf : ∀ calls', Makes env calls' b (f calls')) :
    Makes env calls (a + b) (r >>= f) := by
  cases r with
  | error e => exact fun hcalm => hr (calm_add.mp hcalm).1
  | ok calls' =>
      obtain ⟨hlen, hcalm⟩ := hr
      have hnext := hf calls'
      show Makes env calls (a + b) (f calls')
      cases hrest : f calls' with
      | ok calls'' =>
          rw [hrest] at hnext
          obtain ⟨hlen', hcalm'⟩ := hnext
          rw [hlen] at hcalm'
          exact ⟨by omega, calm_add.mpr ⟨hcalm, hcalm'⟩⟩
      | error e =>
          rw [hrest] at hnext
          intro hall
          have hlater := (calm_add.mp hall).2
          rw [← hlen] at hlater
          exact hnext hlater

theorem ignoring_ok {α : Type} {e : PyExc} (h : e.isException = true) (a : α) :
    ignoring e a = .ok a := by
  rw [ignoring, if_pos h]

theorem ignoring_error {α : Type} {e e' : PyExc} {a : α} (h : ignoring e a = .error e') :
    ∃ msg, e' = .baseException msg := by
  rw [ignoring] at h
  split at h
  · cases h
  · rename_i hnot
    cases h
    cases e with
    | baseException msg => exact ⟨msg, rfl⟩
    | jsonDecodeError _ | recursionError | valueError _ | overflowError | osError _
    | timeoutExpired | handBrakeCancelled _ | handBrakeError _ | pathNotAllowed _
    | sourceNotFound _ | presetError _ | queueFull _ | other _ => exact absurd rfl hnot

/-- The one thing the arithmetic on a number can raise. -/
theorem toFloat_error {x : PyNum} {e : PyExc} (h : x.toFloat = .error e) :
    e = .overflowError := by
  cases x with
  | float x =>
      cases x with
      | finite _ | posInf | negInf | nan => cases h
  | int n =>
      rw [PyNum.toFloat] at h
      split at h
      · cases h
        rfl
      · cases h

theorem remainingSeconds_error {obj : JDict} {e : PyExc} (h : remainingSeconds obj = .error e) :
    e = .overflowError := by
  simp only [remainingSeconds] at h
  split at h
  · cases h
  split at h
  · cases h
  split at h
  · cases h
  split at h
  · cases h
  rename_i eta _
  cases hfloat : eta.toFloat with
  | error e' =>
      simp only [PyNum.isFinite, hfloat, Except.error.injEq] at h
      rw [← h]
      exact toFloat_error hfloat
  | ok x =>
      exfalso
      simp only [PyNum.isFinite, hfloat] at h
      cases x <;> simp only at h <;> split_ifs at h

theorem invoke_makes (calls : List Callback) (cb : Callback) :
    Makes env calls 1 (invoke env calls cb) := by
  have hone : ∀ i, calls.length ≤ i → i < calls.length + 1 → i = calls.length :=
    fun i hle hlt => by omega
  rw [invoke]
  cases hraises : env.raises calls.length with
  | none =>
      refine ⟨List.length_append, fun i hle hlt e he => ?_⟩
      rw [hone i hle hlt, hraises] at he
      cases he
  | some e =>
      dsimp only
      by_cases hexc : e.isException = true
      · rw [ignoring_ok hexc]
        refine ⟨List.length_append, fun i hle hlt e' he' => ?_⟩
        rw [hone i hle hlt, hraises] at he'
        cases he'
        exact hexc
      · rw [ignoring, if_neg hexc]
        exact fun hcalm => hexc (hcalm _ le_rfl (Nat.lt_succ_self _) e hraises)

theorem reportEta_makes (calls : List Callback) (obj : JDict) :
    Makes env calls (etaCalls env obj) (reportEta env calls obj) := by
  rw [reportEta, etaCalls]
  split
  · cases hseconds : remainingSeconds obj with
    | ok eta => exact invoke_makes calls _
    | error e =>
        rw [remainingSeconds_error hseconds]
        exact .none calls
  · exact .none calls

theorem reportProgress_makes (calls : List Callback) (obj : JDict) :
    Makes env calls (progressCalls obj) (reportProgress env calls obj) := by
  rw [reportProgress, progressCalls]
  cases progressFraction obj with
  | none => exact .none calls
  | some fraction =>
      dsimp only
      cases hfloat : fraction.toFloat with
      | ok x => exact invoke_makes calls _
      | error e =>
          rw [toFloat_error hfloat]
          exact .none calls

/-- The reports go on unless a callback of theirs raises outside `Exception`. -/
theorem reportObjects_makes (objects : List JDict) (calls : List Callback) :
    Makes env calls (callCount env objects) (reportObjects env calls objects) := by
  induction objects generalizing calls with
  | nil => exact .none calls
  | cons obj objects ih =>
      have hsteps : reportObjects env calls (obj :: objects)
          = reportEta env calls obj >>= fun calls' =>
              reportProgress env calls' obj >>= fun calls'' => reportObjects env calls'' objects := by
        rw [reportObjects]
        cases reportEta env calls obj with
        | error e => rfl
        | ok calls' =>
            dsimp only
            cases hprogress : reportProgress env calls' obj with
            | error e =>
                show Except.error e = reportProgress env calls' obj >>= _
                rw [hprogress]
                rfl
            | ok calls'' =>
                show _ = reportProgress env calls' obj >>= _
                rw [hprogress]
                rfl
      have hcount : callCount env (obj :: objects)
          = etaCalls env obj + (progressCalls obj + callCount env objects) := by
        rw [callCount, List.map_cons, List.sum_cons, Nat.add_assoc]
        rfl
      rw [hsteps, hcount]
      exact (reportEta_makes calls obj).bind fun calls' =>
        (reportProgress_makes calls' obj).bind fun calls'' => ih calls''

/-- Only an exception outside `Exception` leaves the reports. -/
theorem reportObjects_error {objects : List JDict} {calls : List Callback} {e : PyExc}
    (h : reportObjects env calls objects = .error e) : ∃ msg, e = .baseException msg := by
  have hinvoke : ∀ {calls cb}, invoke env calls cb = .error e → ∃ msg, e = .baseException msg := by
    intro calls cb hcall
    rw [invoke] at hcall
    split at hcall
    · cases hcall
    · exact ignoring_error hcall
  have heta : ∀ {calls obj}, reportEta env calls obj = .error e → ∃ msg, e = .baseException msg := by
    intro calls obj hreport
    rw [reportEta] at hreport
    split at hreport
    · split at hreport
      · exact hinvoke hreport
      · exact ignoring_error hreport
    · cases hreport
  have hprogress : ∀ {calls obj}, reportProgress env calls obj = .error e →
      ∃ msg, e = .baseException msg := by
    intro calls obj hreport
    rw [reportProgress] at hreport
    split at hreport
    · cases hreport
    · split at hreport
      · exact hinvoke hreport
      · exact ignoring_error hreport
  induction objects generalizing calls with
  | nil => cases h
  | cons obj objects ih =>
      rw [reportObjects] at h
      split at h
      · rename_i e' hreport
        cases h
        exact heta hreport
      · split at h
        · rename_i e' hreport
          cases h
          exact hprogress hreport
        · exact ih h

/-! ## The loop -/

/-- The objects the loop reports. -/
def reported (loads : JsonLoads) (buffer : PyStr) (lines : List PyStr) : List JDict :=
  (handed loads buffer lines).filterMap (decoded loads)

/-- Nothing makes the loop raise in these lines, with that buffer retained and that many callbacks
made before them. -/
structure Harmless (env : LoopEnv) (buffer : PyStr) (made : Nat) (lines : List PyStr) : Prop where
  texts : ∀ text ∈ handed env.loads buffer lines, ¬ Fatal env.loads text
  calls : Calm env made (callCount env (reported env.loads buffer lines))

variable {buffer line : PyStr} {lines : List PyStr} {made : Nat}

theorem Harmless.nil : Harmless env buffer made [] :=
  ⟨fun _ ht => absurd ht List.not_mem_nil, Calm.zero made⟩

theorem harmless_plain (hb : '}' ∉ line) :
    Harmless env buffer made (line :: lines) ↔ Harmless env (buffer ++ line) made lines := by
  have hhanded : handed env.loads buffer (line :: lines)
      = handed env.loads (buffer ++ line) lines := by
    rw [handed, if_pos hb]
  constructor
  · rintro ⟨htexts, hcalls⟩
    rw [reported, hhanded] at hcalls
    exact ⟨hhanded ▸ htexts, hcalls⟩
  · rintro ⟨htexts, hcalls⟩
    refine ⟨hhanded ▸ htexts, ?_⟩
    rw [reported, hhanded]
    exact hcalls

theorem callCount_append (objects objects' : List JDict) :
    callCount env (objects ++ objects') = callCount env objects + callCount env objects' := by
  rw [callCount, List.map_append, List.sum_append]
  rfl

/-- A line that is parsed: its own texts and callbacks, then those of the rest. -/
theorem harmless_parsed (hb : '}' ∈ line) :
    Harmless env buffer made (line :: lines) ↔
      (∀ text ∈ Scan.start.spans (buffer ++ line), ¬ Fatal env.loads text) ∧
      Calm env made
        (callCount env ((Scan.start.spans (buffer ++ line)).filterMap (decoded env.loads))) ∧
      Harmless env (retained env.loads (buffer ++ line))
        (made + callCount env ((Scan.start.spans (buffer ++ line)).filterMap (decoded env.loads)))
        lines := by
  have hhanded : handed env.loads buffer (line :: lines) = Scan.start.spans (buffer ++ line) ++
      handed env.loads (retained env.loads (buffer ++ line)) lines := by
    rw [handed, if_neg (not_not.mpr hb)]
  have hcount : callCount env (reported env.loads buffer (line :: lines))
      = callCount env ((Scan.start.spans (buffer ++ line)).filterMap (decoded env.loads)) +
        callCount env (reported env.loads (retained env.loads (buffer ++ line)) lines) := by
    rw [reported, hhanded, List.filterMap_append, callCount_append]
    rfl
  constructor
  · rintro ⟨htexts, hcalls⟩
    rw [hhanded] at htexts
    rw [hcount] at hcalls
    obtain ⟨hnow, hlater⟩ := calm_add.mp hcalls
    exact ⟨fun text ht => htexts text (List.mem_append_left _ ht), hnow,
      fun text ht => htexts text (List.mem_append_right _ ht), hlater⟩
  · rintro ⟨hspans, hnow, htexts, hlater⟩
    refine ⟨fun text ht => ?_, ?_⟩
    · rw [hhanded] at ht
      rcases List.mem_append.mp ht with h | h
      · exact hspans text h
      · exact htexts text h
    · rw [hcount]
      exact calm_add.mpr ⟨hnow, hlater⟩

/-- A line the parse of which raises nothing: what is left depends on the callbacks. -/
theorem readLine_parsed (hb : '}' ∈ line)
    (hspans : ∀ text ∈ Scan.start.spans (st.buffer ++ line), ¬ Fatal env.loads text) :
    readLine env st line = (reportObjects env st.calls
        ((Scan.start.spans (st.buffer ++ line)).filterMap (decoded env.loads))).map
      (LoopState.mk (retained env.loads (st.buffer ++ line))) := by
  have hparse : parseProgressObjects env.loads (st.buffer ++ line)
      = .ok ((Scan.start.spans (st.buffer ++ line)).filterMap (decoded env.loads)) := by
    rw [parseProgressObjects_eq, decodeSpans_harmless hspans, List.nil_append]
  simp only [readLine]
  rw [if_neg (not_not.mpr hb), hparse, retained]
  generalize (Scan.start.spans (st.buffer ++ line)).filterMap (decoded env.loads) = objects
  cases objects with
  | nil =>
      by_cases hlen : maxBufferBytes < (st.buffer ++ line).length
      · have hnot : ¬ (([] : List JDict) = [] ∧ (st.buffer ++ line).length ≤ maxBufferBytes) :=
          fun h => absurd h.2 (not_le.mpr hlen)
        rw [if_neg hnot]
        simp only [hlen, if_true]
        rfl
      · have hkeep : ([] : List JDict) = [] ∧ (st.buffer ++ line).length ≤ maxBufferBytes :=
          ⟨rfl, not_lt.mp hlen⟩
        rw [if_pos hkeep]
        simp only [hlen, if_false]
        rfl
  | cons obj objects =>
      have hnot : ¬ (obj :: objects = [] ∧ (st.buffer ++ line).length ≤ maxBufferBytes) := by
        rintro ⟨hnil, -⟩
        cases hnil
      rw [if_neg hnot]
      cases hreport : reportObjects env st.calls (obj :: objects) with
      | ok calls =>
          simp only [hreport]
          rfl
      | error e =>
          simp only [hreport]
          rfl

theorem readLine_parse_error {e : PyExc} (hb : '}' ∈ line)
    (h : parseProgressObjects env.loads (st.buffer ++ line) = .error e) :
    readLine env st line = .error e := by
  simp only [readLine]
  rw [if_neg (not_not.mpr hb), h]

/-- **The loop ends exactly with harmless lines**: it raises at a fatal text, and at a callback
outside `Exception`, and nowhere else. -/
theorem readLoop_ok_iff (lines : List PyStr) : ∀ st : LoopState,
    (∃ st', readLoop env st lines = .ok st') ↔
      Harmless env st.buffer st.calls.length lines := by
  induction lines with
  | nil => exact fun st => ⟨fun _ => .nil, fun _ => ⟨st, rfl⟩⟩
  | cons line lines ih =>
      intro st
      rw [readLoop]
      by_cases hb : '}' ∈ line
      · rw [harmless_parsed hb]
        by_cases hspans : ∀ text ∈ Scan.start.spans (st.buffer ++ line), ¬ Fatal env.loads text
        · rw [readLine_parsed hb hspans]
          have hmakes : Makes env st.calls _ _ := reportObjects_makes
            ((Scan.start.spans (st.buffer ++ line)).filterMap (decoded env.loads)) st.calls
          cases hreport : reportObjects env st.calls
              ((Scan.start.spans (st.buffer ++ line)).filterMap (decoded env.loads)) with
          | error e =>
              rw [hreport] at hmakes
              constructor
              · rintro ⟨_, hst⟩
                cases hst
              · rintro ⟨-, hnow, -⟩
                exact absurd hnow hmakes
          | ok calls =>
              rw [hreport] at hmakes
              obtain ⟨hlen, hnow⟩ := hmakes
              rw [← hlen]
              exact (ih ⟨retained env.loads (st.buffer ++ line), calls⟩).trans
                ⟨fun hrest => ⟨hspans, hnow, hrest⟩, fun hall => hall.2.2⟩
        · have hfatal := hspans
          simp only [not_forall, not_not, exists_prop] at hfatal
          obtain ⟨e, he⟩ := parseProgressObjects_error_iff.mpr hfatal
          rw [readLine_parse_error hb he]
          constructor
          · rintro ⟨_, hst⟩
            cases hst
          · rintro ⟨hall, -⟩
            exact absurd hall hspans
      · rw [harmless_plain hb, readLine_plain env st hb]
        exact ih { st with buffer := st.buffer ++ line }

/-- Callbacks that raise nothing outside `Exception` leave the texts to decide. -/
theorem Ordinary.harmless_iff (h : Ordinary env) : Harmless env buffer made lines ↔
    ∀ text ∈ handed env.loads buffer lines, ¬ Fatal env.loads text :=
  ⟨fun hall => hall.texts, fun htexts => ⟨htexts, h.calm _ _⟩⟩

/-- What leaves the loop is none of the runner's own exceptions. -/
theorem readLine_error (hloads : Documented env.loads) {e : PyExc}
    (h : readLine env st line = .error e) :
    e = .recursionError ∨ (∃ msg, e = .valueError msg) ∨ ∃ msg, e = .baseException msg := by
  simp only [readLine] at h
  split at h
  · cases h
  split at h
  · rename_i e' hparse
    cases h
    rw [parseProgressObjects_eq] at hparse
    obtain ⟨text, -, htext, hnot⟩ := decodeSpans_error hparse
    rcases hloads text e htext with ⟨msg, rfl⟩ | rfl | hvalue
    · exact absurd rfl (hnot msg)
    · exact .inl rfl
    · exact .inr (.inl hvalue)
  · split at h
    · cases h
    · cases h
  · split at h
    · rename_i e' hreport
      cases h
      exact .inr (.inr (reportObjects_error hreport))
    · cases h

end HandBrakeEncoder.Progress
