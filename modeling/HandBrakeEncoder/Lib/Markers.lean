/-
# `Lib.Markers` — a queue in which markers stand between the items

A FIFO queue holds items (`some`) and markers (`none`).  Some items are *fresh*,
and each of those must have at least `n` markers ahead of it.  `Behind n`
says so by recursion on the queue, so that a marker taken off the front lowers
the demand by one and an item taken off the front leaves it.
-/
import Mathlib.Data.List.Basic

namespace Lib

variable {α : Type*}

/-- Every fresh item has at least `n` markers ahead of it. -/
def Behind (fresh : α → Prop) : Nat → List (Option α) → Prop
  | _, [] => True
  | n, none :: q => Behind fresh (n - 1) q
  | n, some x :: q => (fresh x → n = 0) ∧ Behind fresh n q

namespace Behind

variable {fresh fresh' : α → Prop} {n m : Nat} {q : List (Option α)} {x : α}

theorem mono (h : Behind fresh n q) (hnm : m ≤ n) (hf : ∀ y, some y ∈ q → fresh' y → fresh y) :
    Behind fresh' m q := by
  induction q generalizing n m with
  | nil => trivial
  | cons y q ih =>
      have hrest : ∀ z, some z ∈ q → fresh' z → fresh z :=
        fun z hz => hf z (List.mem_cons_of_mem _ hz)
      cases y with
      | none => exact ih h (by omega) hrest
      | some y =>
          obtain ⟨hhead, htail⟩ := h
          refine ⟨fun hy => ?_, ih htail hnm hrest⟩
          have := hhead (hf y List.mem_cons_self hy)
          omega

/-- A queue without fresh items meets any demand. -/
theorem of_stale (h : ∀ y, some y ∈ q → ¬ fresh y) : Behind fresh n q := by
  induction q generalizing n with
  | nil => trivial
  | cons y q ih =>
      have hrest : ∀ z, some z ∈ q → ¬ fresh z := fun z hz => h z (List.mem_cons_of_mem _ hz)
      cases y with
      | none => exact ih hrest
      | some y => exact ⟨fun hy => absurd hy (h y List.mem_cons_self), ih hrest⟩

theorem snoc_none (h : Behind fresh n q) : Behind fresh n (q ++ [none]) := by
  induction q generalizing n with
  | nil => trivial
  | cons y q ih =>
      cases y with
      | none => exact ih h
      | some y => exact ⟨h.1, ih h.2⟩

/-- An item put at the end has every marker of the queue ahead of it. -/
theorem snoc_some [BEq α] [LawfulBEq α] (h : Behind fresh n q)
    (hx : fresh x → n ≤ q.count none) : Behind fresh n (q ++ [some x]) := by
  induction q generalizing n with
  | nil => exact ⟨fun hf => Nat.le_zero.mp (hx hf), trivial⟩
  | cons y q ih =>
      cases y with
      | none =>
          refine ih h fun hf => ?_
          have := hx hf
          rw [List.count_cons_self] at this
          omega
      | some y =>
          refine ⟨h.1, ih h.2 fun hf => ?_⟩
          have := hx hf
          rwa [List.count_cons_of_ne (show some y ≠ none from nofun)] at this

end Behind

end Lib
