/-
# `Lib.Refinement` — a machine seen through its answers

A step of a machine answers whoever asked for it.  A machine refines a simpler one
when an abstraction function takes each of its steps to a step of the other with
the same answer; then every sequence of answers it gives is one the simpler
machine gives (`Refines.run`), and what holds of the answers there holds here.

`Run.pairwise` is the rule for properties of two answers, one after the other:
what the first one leaves behind stays, and decides what the second can be.
-/
import HandBrakeEncoder.Lib.Run

namespace Lib

variable {σ τ α β : Type*} {R : α → σ → σ → Prop} {answer : σ → α → β} {A : β → τ → τ → Prop}
  {abs : σ → τ} {P : σ → Prop} {s t : σ} {as : List α} {xs : List (α × β)}

/-- The steps of `R`, each with its answer. -/
def Answered (R : α → σ → σ → Prop) (answer : σ → α → β) : α × β → σ → σ → Prop :=
  fun x s t => R x.1 s t ∧ x.2 = answer s x.1

/-- A run gives answers. -/
theorem Run.answered (h : Run R s as t) :
    ∃ xs, xs.map Prod.fst = as ∧ Run (Answered R answer) s xs t := by
  induction h with
  | nil => exact ⟨[], rfl, .nil _⟩
  | @snoc t u as a _ hstep ih =>
      obtain ⟨xs, rfl, hrun⟩ := ih
      exact ⟨xs ++ [(a, answer t a)], List.map_append, hrun.snoc ⟨hstep, rfl⟩⟩

/-- Each step of `R` is, through `abs`, a step of `A` with the same answer; `P` is kept. -/
structure Refines (R : α → σ → σ → Prop) (answer : σ → α → β) (A : β → τ → τ → Prop)
    (abs : σ → τ) (P : σ → Prop) : Prop where
  keeps : ∀ a s t, P s → R a s t → P t
  step : ∀ a s t, P s → R a s t → A (answer s a) (abs s) (abs t)

theorem Refines.run (h : Refines R answer A abs P) (hrun : Run (Answered R answer) s xs t)
    (hs : P s) : P t ∧ Run A (abs s) (xs.map Prod.snd) (abs t) := by
  induction hrun with
  | nil => exact ⟨hs, .nil _⟩
  | @snoc t u xs x _ hstep ih =>
      obtain ⟨ht, hrun⟩ := ih
      obtain ⟨hR, hx⟩ := hstep
      refine ⟨h.keeps _ _ _ ht hR, ?_⟩
      rw [List.map_append]
      exact hrun.snoc (hx ▸ h.step _ _ _ ht hR)

/-- Of two labels of a run the first leaves `After` behind, which stays and decides the second. -/
theorem Run.pairwise {A : β → τ → τ → Prop} (After : β → τ → Prop) {Later : β → β → Prop}
    {L L' : τ} {es : List β} (hleaves : ∀ e L L', A e L L' → After e L')
    (hstays : ∀ e e' L L', After e L → A e' L L' → After e L')
    (hlater : ∀ e e' L L', After e L → A e' L L' → Later e e') (h : Run A L es L') :
    es.Pairwise Later := by
  suffices hinv : es.Pairwise Later ∧ ∀ e ∈ es, After e L' from hinv.1
  refine Run.trace (P := fun es L => es.Pairwise Later ∧ ∀ e ∈ es, After e L) ?_ h
    ⟨.nil, fun _ he => absurd he List.not_mem_nil⟩
  intro es e L L' ⟨hpair, hafter⟩ hstep
  refine ⟨List.pairwise_append.mpr ⟨hpair, List.pairwise_singleton _ _, ?_⟩, ?_⟩
  · intro d hd e' he'
    rw [List.mem_singleton.mp he']
    exact hlater d e _ _ (hafter d hd) hstep
  · intro d hd
    rcases List.mem_append.mp hd with hold | hnew
    · exact hstays d e _ _ (hafter d hold) hstep
    · rw [List.mem_singleton.mp hnew]
      exact hleaves e _ _ hstep

end Lib
