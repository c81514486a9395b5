/-
# `Progress.Percent` — which values `on_progress` is given

`min(float(fraction) * 100.0, 100.0)` cuts at the top and nowhere else, and a NaN
is not smaller than anything, so it passes.  The value is a percentage exactly
when the fraction as a float is neither below zero nor a NaN
(`percentOf_isPercent_iff`), and every fraction an object brings along is passed on
(`passed_iff`).
-/
import HandBrakeEncoder.Progress.Delivery
import HandBrakeEncoder.Progress.Exact

namespace HandBrakeEncoder

/-- A real number from 0 to 100. -/
def PyFloat.IsPercent : PyFloat → Prop
  | .finite q => 0 ≤ q ∧ q ≤ 100
  | .posInf | .negInf | .nan => False

/-- Not below zero, and not a NaN. -/
def PyFloat.NonNegative : PyFloat → Prop
  | .finite q => 0 ≤ q
  | .posInf => True
  | .negInf | .nan => False

namespace Progress

open Braces

/-- The `Progress` of the object, where it is a number that converts, is not below zero. -/
def NonNegativeProgress (obj : JDict) : Prop :=
  ∀ fraction x, progressFraction obj = some fraction → fraction.toFloat = .ok x → x.NonNegative

/-- `on_progress` is called with `x` at some line of stdout. -/
def Passed (env : LoopEnv) (lines : List PyStr) (x : PyFloat) : Prop :=
  ∃ front st, front <+: lines ∧ readLoop env .init front = .ok st ∧ .onProgress x ∈ st.calls

theorem percentOf_isPercent_iff {x : PyFloat} (hx : x.Rounded) :
    (percentOf x).IsPercent ↔ x.NonNegative := by
  have hlim := hundred_lt_floatLimit
  cases x with
  | posInf =>
      show PyFloat.IsPercent (.finite 100) ↔ True
      exact iff_true_intro ⟨by norm_num, le_refl _⟩
  | negInf | nan =>
      exact Iff.rfl
  | finite q =>
      rw [percentOf_finite, hundredfold]
      have hq : Binary64.round q = q := hx
      by_cases hlow : q * 100 ≤ -floatLimit
      · rw [if_pos hlow]
        show False ↔ 0 ≤ q
        refine iff_of_false id (fun hq => ?_)
        linarith
      · rw [if_neg hlow]
        show 0 ≤ min (Binary64.round (q * 100)) 100 ∧ min (Binary64.round (q * 100)) 100 ≤ 100 ↔ 0 ≤ q
        constructor
        · rintro ⟨hmin, _⟩
          by_contra hneg
          -- a double below zero stays below zero when it is multiplied
          have hless : Binary64.round (q * 100) ≤ Binary64.round q :=
            Binary64.round_mono (by linarith)
          have hcut := (le_min_iff.mp hmin).1
          linarith
        · intro hpos
          have hzero : Binary64.round 0 ≤ Binary64.round (q * 100) :=
            Binary64.round_mono (by linarith)
          rw [Binary64.round_zero] at hzero
          exact ⟨le_min hzero (by norm_num), min_le_right _ _⟩

theorem mem_progressCall {obj : JDict} {x : PyFloat} :
    .onProgress x ∈ progressCall obj ↔
      ∃ fraction y, progressFraction obj = some fraction ∧ fraction.toFloat = .ok y ∧
        x = percentOf y := by
  rw [progressCall]
  cases progressFraction obj with
  | none =>
      simp
  | some fraction =>
      cases hfloat : fraction.toFloat with
      | error e =>
          simp [hfloat]
      | ok y =>
          simp [hfloat]

theorem onProgress_not_mem_etaCall {env : LoopEnv} {obj : JDict} {x : PyFloat} :
    .onProgress x ∉ etaCall env obj := by
  rw [etaCall]
  split
  · split
    · simp
    · simp
  · simp

/-- The values passed are those of the objects reported. -/
theorem passed_iff {env : LoopEnv} {lines : List PyStr} {x : PyFloat} :
    Passed env lines x ↔ ∃ front, front <+: lines ∧ Harmless env [] 0 front ∧
      ∃ obj ∈ reported env.loads [] front, ∃ fraction y, progressFraction obj = some fraction ∧
        fraction.toFloat = .ok y ∧ x = percentOf y := by
  have hmem : ∀ {front st}, readLoop env .init front = .ok st →
      (.onProgress x ∈ st.calls ↔ ∃ obj ∈ reported env.loads [] front, ∃ fraction y,
        progressFraction obj = some fraction ∧ fraction.toFloat = .ok y ∧ x = percentOf y) := by
    intro front st hst
    rw [(readLoop_delivers hst).2]
    simp only [LoopState.init, List.nil_append, List.mem_flatMap, objectCalls, List.mem_append,
      onProgress_not_mem_etaCall, false_or, mem_progressCall]
  constructor
  · rintro ⟨front, st, hfront, hst, hx⟩
    exact ⟨front, hfront, (readLoop_ok_iff front .init).mp ⟨st, hst⟩, (hmem hst).mp hx⟩
  · rintro ⟨front, hfront, hharmless, hx⟩
    obtain ⟨st, hst⟩ := (readLoop_ok_iff front .init).mpr hharmless
    exact ⟨front, st, hfront, hst, (hmem hst).mpr hx⟩

/-- Every value passed is a percentage iff no fraction is below zero or a NaN. -/
theorem passed_isPercent_iff (env : LoopEnv) (lines : List PyStr) :
    (∀ x, Passed env lines x → x.IsPercent) ↔
      ∀ front, front <+: lines → Harmless env [] 0 front →
        ∀ obj ∈ reported env.loads [] front, NonNegativeProgress obj := by
  constructor
  · intro h front hfront hharmless obj hobj fraction y hfraction hfloat
    refine (percentOf_isPercent_iff (PyNum.toFloat_rounded hfloat)).mp (h _ (passed_iff.mpr ?_))
    exact ⟨front, hfront, hharmless, obj, hobj, fraction, y, hfraction, hfloat, rfl⟩
  · intro h x hx
    obtain ⟨front, hfront, hharmless, obj, hobj, fraction, y, hfraction, hfloat, rfl⟩ :=
      passed_iff.mp hx
    exact (percentOf_isPercent_iff (PyNum.toFloat_rounded hfloat)).mpr
      (h front hfront hharmless obj hobj fraction y hfraction hfloat)

end Progress

end HandBrakeEncoder
