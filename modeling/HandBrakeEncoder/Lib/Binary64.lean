/-
# `Lib.Binary64` — rounding to the nearest double

The finite doubles are the numbers `m * 2 ^ e` with `|m| ≤ 2 ^ 53` and `-1074 ≤ e`
(`IsDouble`); how far up they reach is left to the user.  A rational is rounded to a
multiple of the unit in its last place, the even one of two that are equally near.

What later proofs use of it: the result is a double (`round_isDouble`), a double is
left alone (`round_of_isDouble`), and the order is kept (`round_mono`).
-/
import Mathlib.Algebra.Order.Ring.Rat
import Mathlib.Data.Int.Log
import Mathlib.Data.Rat.Floor
import Mathlib.Tactic.Linarith
import Mathlib.Tactic.NormNum
import Mathlib.Tactic.Positivity
import Mathlib.Tactic.Ring

namespace Binary64

/-! ## The nearest integer -/

/-- The nearest integer, the even one of two. -/
def roundHalfEven (q : ℚ) : ℤ :=
  let r := q - ⌊q⌋
  if r < 1 / 2 then ⌊q⌋
  else if 1 / 2 < r then ⌊q⌋ + 1
  else if ⌊q⌋ % 2 = 0 then ⌊q⌋ else ⌊q⌋ + 1

variable {q q' : ℚ} {n : ℤ}

theorem roundHalfEven_int (n : ℤ) : roundHalfEven n = n := by
  simp [roundHalfEven]

/-- It is the floor or the next integer. -/
theorem roundHalfEven_floor (q : ℚ) : ⌊q⌋ ≤ roundHalfEven q ∧ roundHalfEven q ≤ ⌊q⌋ + 1 := by
  simp only [roundHalfEven]
  split
  · omega
  · split
    · omega
    · split
      · omega
      · omega

theorem roundHalfEven_mono (h : q ≤ q') : roundHalfEven q ≤ roundHalfEven q' := by
  have hlow := roundHalfEven_floor q
  have hhigh := roundHalfEven_floor q'
  rcases (Int.floor_le_floor h).lt_or_eq with hlt | heq
  · omega
  · have hrest : q - ⌊q⌋ ≤ q' - ⌊q'⌋ := by
      rw [heq]
      linarith
    simp only [roundHalfEven]
    rw [heq] at hrest ⊢
    split
    · split
      · exact le_rfl
      · split
        · omega
        · split
          · exact le_rfl
          · omega
    · rename_i hq
      rw [if_neg (by linarith : ¬ q' - ⌊q'⌋ < 1 / 2)]
      split
      · rw [if_pos (by linarith : 1 / 2 < q' - ⌊q'⌋)]
      · split
        · split
          · omega
          · exact le_rfl
        · split
          · exact le_rfl
          · exact le_rfl

theorem roundHalfEven_le (h : q ≤ n) : roundHalfEven q ≤ n := by
  have hmono := roundHalfEven_mono h
  rwa [roundHalfEven_int] at hmono

theorem le_roundHalfEven (h : n ≤ q) : n ≤ roundHalfEven q := by
  have hmono := roundHalfEven_mono h
  rwa [roundHalfEven_int] at hmono

/-! ## The nearest double -/

/-- The exponent of the unit in the last place. -/
def exponent (q : ℚ) : ℤ := if q = 0 then -1074 else max (-1074) (Int.log 2 |q| - 52)

/-- The nearest double. -/
def round (q : ℚ) : ℚ := roundHalfEven (q / 2 ^ exponent q) * 2 ^ exponent q

/-- A number some double has, as far as its size goes. -/
def IsDouble (x : ℚ) : Prop := ∃ m e : ℤ, |m| ≤ 2 ^ 53 ∧ -1074 ≤ e ∧ x = m * 2 ^ e

theorem unit_pos (e : ℤ) : (0 : ℚ) < 2 ^ e := zpow_pos (by norm_num) e

theorem unit_add (e : ℤ) (k : ℕ) : (2 : ℚ) ^ (e + k) = 2 ^ k * 2 ^ e := by
  rw [zpow_add₀ (by norm_num), zpow_natCast, mul_comm]

theorem unit_mono {d e : ℤ} (h : d ≤ e) : (2 : ℚ) ^ d ≤ 2 ^ e := zpow_le_zpow_right₀ (by norm_num) h

theorem le_exponent (q : ℚ) : -1074 ≤ exponent q := by
  rw [exponent]
  split
  · exact le_rfl
  · exact le_max_left _ _

theorem abs_lt_unit (q : ℚ) : |q| < 2 ^ 53 * 2 ^ exponent q := by
  rcases eq_or_ne q 0 with rfl | hne
  · rw [abs_zero]
    exact mul_pos (by norm_num) (unit_pos _)
  have hlog : |q| < (2 : ℚ) ^ (Int.log 2 |q| + 1) := by
    exact_mod_cast Int.lt_zpow_succ_log_self (b := 2) (by norm_num) |q|
  have hle : Int.log 2 |q| + 1 ≤ exponent q + (53 : ℕ) := by
    rw [exponent, if_neg hne]
    push_cast
    omega
  calc |q| < 2 ^ (Int.log 2 |q| + 1) := hlog
    _ ≤ 2 ^ (exponent q + (53 : ℕ)) := unit_mono hle
    _ = 2 ^ 53 * 2 ^ exponent q := unit_add _ _

theorem unit_le_abs (h : -1074 < exponent q) : 2 ^ 52 * 2 ^ exponent q ≤ |q| := by
  have hne : q ≠ 0 := by
    rintro rfl
    rw [exponent, if_pos rfl] at h
    exact lt_irrefl _ h
  have hexp : exponent q = Int.log 2 |q| - 52 := by
    rw [exponent, if_neg hne] at h ⊢
    omega
  have hlog : (2 : ℚ) ^ Int.log 2 |q| ≤ |q| := by
    exact_mod_cast Int.zpow_log_le_self (b := 2) (by norm_num) (abs_pos.mpr hne)
  have hsum : Int.log 2 |q| = exponent q + (52 : ℕ) := by
    rw [hexp]
    push_cast
    ring
  rw [hsum, unit_add] at hlog
  exact hlog

theorem round_le (h : q ≤ n * 2 ^ exponent q) : round q ≤ n * 2 ^ exponent q := by
  have hint := roundHalfEven_le ((div_le_iff₀ (unit_pos _)).mpr h)
  exact mul_le_mul_of_nonneg_right (by exact_mod_cast hint) (unit_pos _).le

theorem le_round (h : n * 2 ^ exponent q ≤ q) : n * 2 ^ exponent q ≤ round q := by
  have hint := le_roundHalfEven ((le_div_iff₀ (unit_pos _)).mpr h)
  exact mul_le_mul_of_nonneg_right (by exact_mod_cast hint) (unit_pos _).le

/-- Between two exponents stands a power of two, and both are rounded towards it at most. -/
theorem unit_between {d e : ℤ} (h : d < e) : (2 : ℚ) ^ 53 * 2 ^ d ≤ 2 ^ 52 * 2 ^ e := by
  rw [← unit_add, ← unit_add]
  exact unit_mono (by push_cast; omega)

theorem round_mono (h : q ≤ q') : round q ≤ round q' := by
  have hq := abs_lt.mp (abs_lt_unit q)
  have hq' := abs_lt.mp (abs_lt_unit q')
  rcases lt_trichotomy (exponent q) (exponent q') with hlt | heq | hgt
  · have hlow := unit_le_abs ((le_exponent q).trans_lt hlt)
    have hbetween := unit_between hlt
    have habs : |q| < |q'| := (abs_lt_unit q).trans_le (hbetween.trans hlow)
    have hpos : 0 < q' := by
      by_contra hneg
      rw [abs_of_nonpos (not_lt.mp hneg), abs_of_nonpos (h.trans (not_lt.mp hneg))] at habs
      linarith
    rw [abs_of_pos hpos] at hlow
    calc round q ≤ ((2 ^ 53 : ℤ) : ℚ) * 2 ^ exponent q := round_le (by push_cast; exact hq.2.le)
      _ ≤ ((2 ^ 52 : ℤ) : ℚ) * 2 ^ exponent q' := by push_cast; exact hbetween
      _ ≤ round q' := le_round (by push_cast; exact hlow)
  · rw [round, round, ← heq]
    have hint : roundHalfEven (q / 2 ^ exponent q) ≤ roundHalfEven (q' / 2 ^ exponent q) :=
      roundHalfEven_mono (div_le_div_of_nonneg_right h (unit_pos _).le)
    exact mul_le_mul_of_nonneg_right (by exact_mod_cast hint) (unit_pos _).le
  · have hlow := unit_le_abs ((le_exponent q').trans_lt hgt)
    have hbetween := unit_between hgt
    have habs : |q'| < |q| := (abs_lt_unit q').trans_le (hbetween.trans hlow)
    have hneg : q < 0 := by
      by_contra hpos
      rw [abs_of_nonneg (not_lt.mp hpos), abs_of_nonneg ((not_lt.mp hpos).trans h)] at habs
      linarith
    rw [abs_of_neg hneg] at hlow
    calc round q ≤ ((-2 ^ 52 : ℤ) : ℚ) * 2 ^ exponent q := round_le (by push_cast; linarith)
      _ ≤ ((-2 ^ 53 : ℤ) : ℚ) * 2 ^ exponent q' := by push_cast; linarith
      _ ≤ round q' := le_round (by push_cast; linarith [hq'.1])

theorem round_isDouble (q : ℚ) : IsDouble (round q) := by
  have hbound := abs_lt.mp (abs_lt_unit q)
  refine ⟨roundHalfEven (q / 2 ^ exponent q), exponent q, abs_le.mpr ⟨?_, ?_⟩, le_exponent q, rfl⟩
  · refine le_roundHalfEven ((le_div_iff₀ (unit_pos _)).mpr ?_)
    push_cast
    linarith [hbound.1]
  · refine roundHalfEven_le ((div_le_iff₀ (unit_pos _)).mpr ?_)
    push_cast
    exact hbound.2.le

/-- A multiple of the unit in its last place is left alone. -/
theorem round_of_multiple {x : ℚ} {m e : ℤ} (hx : x = m * 2 ^ e) (he : exponent x ≤ e) :
    round x = x := by
  obtain ⟨k, hk⟩ := Int.le.dest he
  have hint : x / 2 ^ exponent x = ((m * 2 ^ k : ℤ) : ℚ) := by
    rw [div_eq_iff (unit_pos _).ne']
    calc x = m * 2 ^ (exponent x + k) := by rw [hk]; exact hx
      _ = m * (2 ^ k * 2 ^ exponent x) := by rw [unit_add]
      _ = ((m * 2 ^ k : ℤ) : ℚ) * 2 ^ exponent x := by push_cast; ring
  rw [round, hint, roundHalfEven_int, ← hint, div_mul_cancel₀ _ (unit_pos _).ne']

theorem round_of_isDouble {x : ℚ} (h : IsDouble x) : round x = x := by
  obtain ⟨m, e, hm, he, hx⟩ := h
  have hsize : |x| = |m| * 2 ^ e := by
    rw [hx, abs_mul, abs_of_pos (unit_pos e)]
    push_cast
    rfl
  have hlog : ∀ b : ℤ, -1074 ≤ b → |x| < 2 ^ 53 * 2 ^ b → exponent x ≤ b := by
    intro b hb hlt
    rw [exponent]
    split
    · exact hb
    · rename_i hne
      have hpow : |x| < ((2 : ℕ) : ℚ) ^ (b + 53) := by
        have hadd := unit_add b 53
        push_cast at hadd ⊢
        rw [hadd]
        exact hlt
      have hlog := (Int.lt_zpow_iff_log_lt (by norm_num) (abs_pos.mpr hne)).mp hpow
      omega
  rcases hm.lt_or_eq with hlt | heq
  · refine round_of_multiple hx (hlog e he ?_)
    rw [hsize]
    exact mul_lt_mul_of_pos_right (by exact_mod_cast hlt) (unit_pos e)
  · -- the mantissa `2 ^ 53` is `2 ^ 52` one exponent further up
    have hone : (2 : ℚ) ^ (e + 1) = 2 * 2 ^ e := by
      rw [zpow_add_one₀ (by norm_num), mul_comm]
    have hle : exponent x ≤ e + 1 := by
      refine hlog (e + 1) (by omega) ?_
      rw [hsize, heq, hone]
      push_cast
      linarith [unit_pos e]
    have hhalf : x = ((m / 2 : ℤ) : ℚ) * 2 ^ (e + 1) := by
      have hm2 : m = 2 * (m / 2) := by
        rcases abs_choice m with habs | habs
        · omega
        · omega
      rw [hx, hone]
      conv_lhs => rw [hm2]
      push_cast
      ring
    exact round_of_multiple hhalf hle

theorem round_int (h : |n| ≤ 2 ^ 53) : round n = n :=
  round_of_isDouble ⟨n, 0, h, by norm_num, by simp⟩

@[simp] theorem round_zero : round 0 = 0 := by
  have h := round_int (n := 0) (by norm_num)
  exact_mod_cast h

/-- Twenty-nine hundredths, and a hundred times that. -/
example : round (29 / 100) = 5224175567749775 / 2 ^ 54 ∧
    round (5224175567749775 / 2 ^ 54 * 100) = 8162774324609023 / 2 ^ 48 := by
  decide +kernel

end Binary64
