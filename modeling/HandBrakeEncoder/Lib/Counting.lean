/-
# `Lib.Counting` — how many of the first `n` slots satisfy a predicate

A table of threads is a function from slot numbers, of which the first `n` are
in use.  The laws say what one update does to a count, so a counting invariant
reduces to linear arithmetic.
-/
import Mathlib.Logic.Function.Basic
import Mathlib.Data.Nat.Basic
import Mathlib.Data.Finset.Card

namespace Lib

variable {α β : Type*}

/-- The slots below `n` whose content satisfies `p`. -/
def countBelow (p : α → Bool) (f : Nat → α) : Nat → Nat
  | 0 => 0
  | n + 1 => countBelow p f n + (p (f n)).toNat

theorem countBelow_succ (p : α → Bool) (f : Nat → α) (n : Nat) :
    countBelow p f (n + 1) = countBelow p f n + (p (f n)).toNat := rfl

theorem countBelow_eq_countP (p : α → Bool) (f : Nat → α) (n : Nat) :
    countBelow p f n = (List.range n).countP (fun i => p (f i)) := by
  induction n with
  | zero => rfl
  | succ n ih =>
      rw [countBelow_succ, ih, List.range_succ, List.countP_append, List.countP_singleton]
      cases p (f n) with
      | false => rfl
      | true => rfl

theorem countBelow_mono {p : α → Bool} {q : β → Bool} {f : Nat → α} {g : Nat → β} {n : Nat}
    (h : ∀ i < n, p (f i) = true → q (g i) = true) : countBelow p f n ≤ countBelow q g n := by
  induction n with
  | zero => exact Nat.le_refl 0
  | succ n ih =>
      have hrest := ih (fun i hi => h i (Nat.lt_succ_of_lt hi))
      have hlast : (p (f n)).toNat ≤ (q (g n)).toNat := by
        cases hp : p (f n) with
        | false => exact Nat.zero_le _
        | true => rw [h n (Nat.lt_succ_self n) hp]
      exact Nat.add_le_add hrest hlast

theorem countBelow_congr {p : α → Bool} {q : β → Bool} {f : Nat → α} {g : Nat → β} {n : Nat}
    (h : ∀ i < n, p (f i) = q (g i)) : countBelow p f n = countBelow q g n :=
  Nat.le_antisymm (countBelow_mono fun i hi hp => (h i hi) ▸ hp)
    (countBelow_mono fun i hi hq => (h i hi).symm ▸ hq)

theorem countBelow_eq_zero {p : α → Bool} {f : Nat → α} {n : Nat}
    (h : ∀ i < n, p (f i) = false) : countBelow p f n = 0 := by
  induction n with
  | zero => rfl
  | succ n ih =>
      rw [countBelow_succ, ih (fun i hi => h i (Nat.lt_succ_of_lt hi)), h n (Nat.lt_succ_self n)]
      rfl

theorem countBelow_pos {p : α → Bool} {f : Nat → α} {n i : Nat} (hi : i < n)
    (hp : p (f i) = true) : 0 < countBelow p f n := by
  induction n with
  | zero => exact absurd hi (Nat.not_lt_zero i)
  | succ n ih =>
      rw [countBelow_succ]
      rcases Nat.lt_succ_iff_lt_or_eq.mp hi with h | rfl
      · have := ih h
        omega
      · rw [hp]
        exact Nat.lt_add_left _ Nat.one_pos

/-- An update past the counted slots is not seen. -/
theorem countBelow_update_ge {p : α → Bool} {f : Nat → α} {n i : Nat} {v : α} (hi : n ≤ i) :
    countBelow p (Function.update f i v) n = countBelow p f n :=
  countBelow_congr fun k hk => by rw [Function.update_of_ne (by omega)]

/-- An update of a counted slot trades its old content for the new one. -/
theorem countBelow_update {p : α → Bool} {f : Nat → α} {n i : Nat} {v : α} (hi : i < n) :
    countBelow p (Function.update f i v) n + (p (f i)).toNat
      = countBelow p f n + (p v).toNat := by
  induction n with
  | zero => exact absurd hi (Nat.not_lt_zero i)
  | succ n ih =>
      rw [countBelow_succ, countBelow_succ]
      rcases Nat.lt_succ_iff_lt_or_eq.mp hi with h | rfl
      · have := ih h
        rw [Function.update_of_ne (by omega)]
        omega
      · rw [countBelow_update_ge (Nat.le_refl _), Function.update_self]
        omega

/-- Slots that do not satisfy the predicate may be added. -/
theorem countBelow_extend {p : α → Bool} {f : Nat → α} {n m : Nat} (hnm : n ≤ m)
    (h : ∀ i, n ≤ i → p (f i) = false) : countBelow p f m = countBelow p f n := by
  induction m with
  | zero =>
      obtain rfl : n = 0 := Nat.le_zero.mp hnm
      rfl
  | succ m ih =>
      rcases Nat.lt_or_eq_of_le hnm with hlt | rfl
      · rw [countBelow_succ, ih (Nat.le_of_lt_succ hlt), h m (Nat.le_of_lt_succ hlt)]
        rfl
      · rfl

/-- If at most one slot counts, two that do are the same. -/
theorem eq_of_countBelow_le_one {p : α → Bool} {f : Nat → α} {n i k : Nat}
    (h : countBelow p f n ≤ 1) (hi : i < n) (hk : k < n) (hpi : p (f i) = true)
    (hpk : p (f k) = true) : i = k := by
  induction n with
  | zero => exact absurd hi (Nat.not_lt_zero i)
  | succ n ih =>
      rw [countBelow_succ] at h
      rcases Nat.lt_succ_iff_lt_or_eq.mp hi with hi' | rfl
      · rcases Nat.lt_succ_iff_lt_or_eq.mp hk with hk' | rfl
        · exact ih (by omega) hi' hk'
        · have := countBelow_pos hi' hpi
          rw [hpk, Bool.toNat_true] at h
          omega
      · rcases Nat.lt_succ_iff_lt_or_eq.mp hk with hk' | rfl
        · have := countBelow_pos hk' hpk
          rw [hpi, Bool.toNat_true] at h
          omega
        · rfl

/-- A set of counted slots is no larger than the count. -/
theorem card_le_countBelow {p : α → Bool} {f : Nat → α} {n : Nat} (is : Finset Nat)
    (h : ∀ i ∈ is, i < n ∧ p (f i) = true) : is.card ≤ countBelow p f n := by
  induction n generalizing is with
  | zero =>
      have hempty : is = ∅ := Finset.eq_empty_of_forall_notMem fun i hi =>
        Nat.not_lt_zero i (h i hi).1
      rw [hempty]
      exact Nat.le_refl 0
  | succ n ih =>
      have hrest := ih (is.erase n) fun i hi => by
        obtain ⟨hne, hmem⟩ := Finset.mem_erase.mp hi
        obtain ⟨hlt, hp⟩ := h i hmem
        exact ⟨by omega, hp⟩
      rw [countBelow_succ]
      rcases Classical.em (n ∈ is) with hn | hn
      · rw [Finset.card_erase_of_mem hn] at hrest
        rw [(h n hn).2, Bool.toNat_true]
        omega
      · rw [Finset.erase_eq_of_notMem hn] at hrest
        omega

end Lib
