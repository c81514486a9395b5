/-
# `Lib.Measure` — runs that cannot go on for ever

A measure that every progress step lowers, and no other step raises, bounds the
progress of any run (`Run.progress_le`).  A system that in addition can always go
on while its goal is not reached has a run to the goal (`Run.exists_to`): never
stuck and never for ever is completion.
-/
import Mathlib.Algebra.BigOperators.Group.Finset.Basic
import HandBrakeEncoder.Lib.Run

namespace Lib

variable {σ α β : Type*}

/-- The rule for a bound on progress. -/
theorem Run.progress_le {R : α → σ → σ → Prop} {μ : σ → Nat} {p : α → Bool} {s t : σ}
    {as : List α} (hstep : ∀ a s t, R a s t → (p a).toNat + μ t ≤ μ s) (h : Run R s as t) :
    as.countP p + μ t ≤ μ s := by
  induction h with
  | nil => simp
  | @snoc t u as a _ hs ih =>
      have hlast := hstep a t u hs
      rw [List.countP_append, List.countP_singleton]
      cases hp : p a with
      | false =>
          rw [hp] at hlast
          simp at hlast ⊢
          omega
      | true =>
          rw [hp] at hlast
          simp at hlast ⊢
          omega

/-- The rule for reaching a goal: an invariant under which the system can go on by a step that
lowers the measure, until it is there. -/
theorem Run.exists_to {R : α → σ → σ → Prop} {μ : σ → Nat} {P G : σ → Prop}
    (hstep : ∀ s, P s → G s ∨ ∃ a t, R a s t ∧ P t ∧ μ t < μ s) (s : σ) (h₀ : P s) :
    ∃ as t, Run R s as t ∧ P t ∧ G t := by
  induction hn : μ s using Nat.strong_induction_on generalizing s with
  | _ n ih =>
      rcases hstep s h₀ with hgoal | ⟨a, t, hR, hP, hlt⟩
      · exact ⟨[], s, .nil s, h₀, hgoal⟩
      · obtain ⟨as, u, hrun, hu⟩ := ih (μ t) (hn ▸ hlt) t hP rfl
        exact ⟨a :: as, u, .cons hR hrun, hu⟩

/-- An update of one slot trades its old weight for the new one. -/
theorem sum_range_update {m : β → Nat} {f : Nat → β} {n i : Nat} {v : β} (hi : i < n) :
    (∑ k ∈ Finset.range n, m (Function.update f i v k)) + m (f i)
      = (∑ k ∈ Finset.range n, m (f k)) + m v := by
  have hmem : i ∈ Finset.range n := Finset.mem_range.mpr hi
  have hrest : ∑ k ∈ (Finset.range n).erase i, m (Function.update f i v k)
      = ∑ k ∈ (Finset.range n).erase i, m (f k) := by
    refine Finset.sum_congr rfl fun k hk => ?_
    rw [Function.update_of_ne (Finset.ne_of_mem_erase hk)]
  rw [← Finset.add_sum_erase _ _ hmem, ← Finset.add_sum_erase _ (fun k => m (f k)) hmem, hrest,
    Function.update_self]
  omega

end Lib
