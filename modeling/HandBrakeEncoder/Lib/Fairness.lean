/-
# `Lib.Fairness` — what must happen at last

A run is finite, so nothing in it is bound to happen.  A behavior goes on for
ever, one step or none at each moment, and is fair to a class of actions when the
class is not enabled from some moment on without one of them being taken.

`Behavior.leadsTo_of_helper` is the rule for what fairness brings about.  As long
as the goal is not reached some class helps: it is enabled, its steps bring the
goal or lower the rank, and the steps of others do not undo that.  Ranks are well
founded, so the help is needed finitely often.
-/
import Mathlib.Order.WellFounded
import HandBrakeEncoder.Lib.Run

namespace Lib

variable {σ α ι β : Type*} {R : α → σ → σ → Prop} {s₀ t : σ} {as : List α}

/-- One moment: a step, or none. -/
def Moves (R : α → σ → σ → Prop) : Option α → σ → σ → Prop
  | none, s, t => t = s
  | some a, s, t => R a s t

/-- A run without end. -/
structure Behavior (R : α → σ → σ → Prop) (s₀ : σ) where
  state : Nat → σ
  label : Nat → Option α
  init : state 0 = s₀
  next : ∀ n, Moves R (label n) (state n) (state (n + 1))

namespace Behavior

/-- The labels before a moment. -/
def trace (B : Behavior R s₀) (n : Nat) : List α := (List.range n).filterMap B.label

theorem run (B : Behavior R s₀) (n : Nat) : Run R s₀ (B.trace n) (B.state n) := by
  induction n with
  | zero =>
      rw [B.init]
      exact .nil s₀
  | succ n ih =>
      have hnext := B.next n
      rw [trace, List.range_succ, List.filterMap_append]
      cases hlabel : B.label n with
      | none =>
          rw [hlabel] at hnext
          have hsame : B.state (n + 1) = B.state n := hnext
          rw [hsame]
          simpa [trace, hlabel] using ih
      | some a =>
          rw [hlabel] at hnext
          simpa [trace, hlabel] using ih.snoc hnext

/-- What every step preserves lasts from the moment it holds. -/
theorem lasting (B : Behavior R s₀) {P : σ → Prop} (hstep : ∀ a s t, P s → R a s t → P t) {n : Nat}
    (hn : P (B.state n)) : ∀ m, n ≤ m → P (B.state m) := by
  intro m hm
  induction hm with
  | refl => exact hn
  | @step m _ ih =>
      have hnext := B.next m
      cases hlabel : B.label m with
      | none =>
          rw [hlabel] at hnext
          have hsame : B.state (m + 1) = B.state m := hnext
          exact hsame ▸ ih
      | some a =>
          rw [hlabel] at hnext
          exact hstep a _ _ ih hnext

theorem always (B : Behavior R s₀) {P : σ → Prop} (hstep : ∀ a s t, P s → R a s t → P t)
    (h₀ : P s₀) (n : Nat) : P (B.state n) :=
  B.lasting hstep (show P (B.state 0) from B.init.symm ▸ h₀) n (Nat.zero_le n)

/-- The class is not enabled for ever without an action of it. -/
def Fair (B : Behavior R s₀) (A : α → Prop) : Prop :=
  ∀ n, (∀ m, n ≤ m → ∃ a t, A a ∧ R a (B.state m) t) → ∃ m, n ≤ m ∧ ∃ a, B.label m = some a ∧ A a

/-- Whenever `P` holds, `Q` does then or later. -/
def LeadsTo (B : Behavior R s₀) (P Q : σ → Prop) : Prop :=
  ∀ n, P (B.state n) → ∃ m, n ≤ m ∧ Q (B.state m)

variable {B : Behavior R s₀} {P Q G : σ → Prop}

theorem LeadsTo.trans (first : B.LeadsTo P Q) (second : B.LeadsTo Q G) : B.LeadsTo P G := by
  intro start hP
  obtain ⟨middle, hle, hQ⟩ := first start hP
  refine (second middle hQ).imp fun last hlast => ?_
  exact ⟨hle.trans hlast.1, hlast.2⟩

/-- The helper rule.  `H i b s`: in the state `s` the class `i` helps, from the rank `b`. -/
theorem leadsTo_of_helper [LT β] [WellFoundedLT β] {A : ι → α → Prop} (hfair : ∀ i, B.Fair (A i))
    {H : ι → β → σ → Prop} (henabled : ∀ i b s, H i b s → ∃ a t, A i a ∧ R a s t)
    (hstep : ∀ i b a s t, H i b s → R a s t →
      (¬ A i a ∧ H i b t) ∨ G t ∨ ∃ k c, c < b ∧ H k c t) :
    B.LeadsTo (fun s => ∃ i b, H i b s) G := by
  rintro n ⟨i, b, hn⟩
  induction b using WellFoundedLT.induction generalizing n i with
  | _ b ih =>
      by_contra hnever
      -- else the class helps for ever from the same rank
      have hsame : ∀ m, n ≤ m → H i b (B.state m) ∧ ∀ a, B.label m = some a → ¬ A i a := by
        have hmoment : ∀ m, n ≤ m → H i b (B.state m) →
            H i b (B.state (m + 1)) ∧ ∀ a, B.label m = some a → ¬ A i a := by
          intro m hm hH
          have hnext := B.next m
          cases hlabel : B.label m with
          | none =>
              rw [hlabel] at hnext
              have hstay : B.state (m + 1) = B.state m := hnext
              exact ⟨hstay ▸ hH, fun a ha => by cases ha⟩
          | some a =>
              rw [hlabel] at hnext
              have hlater : n ≤ m + 1 := Nat.le_succ_of_le hm
              rcases hstep i b a _ _ hH hnext with ⟨hnot, hkeep⟩ | hG | ⟨k, c, hlt, hk⟩
              · refine ⟨hkeep, fun a' ha' => ?_⟩
                obtain rfl := Option.some.inj ha'
                exact hnot
              · exact absurd ⟨m + 1, hlater, hG⟩ hnever
              · obtain ⟨l, hl, hG⟩ := ih c hlt (m + 1) k hk
                exact absurd ⟨l, Nat.le_trans hlater hl, hG⟩ hnever
        intro m hm
        have hH : H i b (B.state m) := by
          induction hm with
          | refl => exact hn
          | step hm ih => exact (hmoment _ hm ih).1
        exact ⟨hH, (hmoment m hm hH).2⟩
      obtain ⟨m, hm, a, hlabel, ha⟩ := hfair i n fun m hm => henabled i b _ (hsame m hm).1
      exact (hsame m hm).2 a hlabel ha

/-! ## Behaviors that come to rest -/

/-- Every run is the beginning of a behavior in which nothing more happens. -/
theorem exists_of_run (h : Run R s₀ as t) :
    ∃ B : Behavior R s₀, ∀ m, as.length ≤ m → B.state m = t ∧ B.label m = none := by
  induction h with
  | nil => exact ⟨⟨fun _ => s₀, fun _ => none, rfl, fun _ => rfl⟩, fun _ _ => ⟨rfl, rfl⟩⟩
  | @snoc t u as a _ hstep ih =>
      obtain ⟨B, hrest⟩ := ih
      refine ⟨⟨fun m => if m ≤ as.length then B.state m else u,
        fun m => if m = as.length then some a else B.label m, ?_, fun m => ?_⟩, fun m hm => ?_⟩
      · rw [if_pos (Nat.zero_le _)]
        exact B.init
      · rcases Nat.lt_trichotomy m as.length with hlt | rfl | hgt
        · have hsucc : m + 1 ≤ as.length := hlt
          rw [if_neg (Nat.ne_of_lt hlt), if_pos (Nat.le_of_lt hlt), if_pos hsucc]
          exact B.next m
        · rw [if_pos rfl, if_pos (Nat.le_refl _), if_neg (Nat.not_succ_le_self _),
            (hrest _ (Nat.le_refl _)).1]
          exact hstep
        · rw [if_neg (Nat.ne_of_gt hgt), if_neg (Nat.not_le.mpr hgt),
            if_neg (Nat.not_le.mpr (Nat.lt_succ_of_lt hgt)), (hrest m (Nat.le_of_lt hgt)).2]
          rfl
      · rw [List.length_append, List.length_singleton] at hm
        exact ⟨if_neg (by omega), (if_neg (by omega)).trans (hrest m (by omega)).2⟩

/-- A behavior at rest is fair to what is not enabled there. -/
theorem Fair.of_rest {A : α → Prop} {n : Nat} (hrest : ∀ m, n ≤ m → B.state m = t)
    (hdone : ∀ a u, A a → ¬ R a t u) : B.Fair A := by
  intro k henabled
  obtain ⟨a, u, ha, hstep⟩ := henabled (max k n) (Nat.le_max_left _ _)
  rw [hrest _ (Nat.le_max_right _ _)] at hstep
  exact absurd hstep (hdone a u ha)

end Behavior

end Lib
