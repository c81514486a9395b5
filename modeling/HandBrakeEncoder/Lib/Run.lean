/-
# `Lib.Run` — runs of a labelled step relation

A run is a finite sequence of steps with their labels collected in order, so a
statement can speak about the state reached and about what happened on the way.
`Run.invariant` is the rule for the first kind, `Run.trace` for the second.
-/
import Mathlib.Data.List.Basic

namespace Lib

variable {σ α : Type*}

/-- `Run R s as t`: the steps labelled `as` lead from `s` to `t`. -/
inductive Run (R : α → σ → σ → Prop) : σ → List α → σ → Prop
  | nil (s : σ) : Run R s [] s
  | snoc {s t u : σ} {as : List α} {a : α} : Run R s as t → R a t u → Run R s (as ++ [a]) u

namespace Run

variable {R : α → σ → σ → Prop} {s t u : σ} {as bs : List α} {a : α}

theorem single (h : R a s t) : Run R s [a] t := (Run.nil s).snoc h

theorem trans (h₁ : Run R s as t) (h₂ : Run R t bs u) : Run R s (as ++ bs) u := by
  induction h₂ with
  | nil => simpa using h₁
  | snoc _ hstep ih =>
      rw [← List.append_assoc]
      exact ih.snoc hstep

theorem cons (h : R a s t) (h' : Run R t bs u) : Run R s (a :: bs) u := (single h).trans h'

/-- A run can be cut at any point of its trace. -/
theorem split : ∀ {cs : List α}, Run R s cs u → ∀ {as bs : List α}, cs = as ++ bs →
    ∃ t, Run R s as t ∧ Run R t bs u := by
  intro cs h
  induction h with
  | nil =>
      intro as bs hcs
      obtain ⟨rfl, rfl⟩ := List.append_eq_nil_iff.mp hcs.symm
      exact ⟨s, .nil s, .nil s⟩
  | @snoc t u cs a hrun hstep ih =>
      intro as bs hcs
      rcases List.eq_nil_or_concat bs with rfl | ⟨bs', b, hb⟩
      · rw [List.append_nil] at hcs
        exact ⟨u, hcs ▸ hrun.snoc hstep, .nil u⟩
      · rw [List.concat_eq_append] at hb
        subst hb
        rw [← List.append_assoc] at hcs
        obtain ⟨hcs', ha⟩ := List.append_inj' hcs rfl
        cases ha
        obtain ⟨m, h₁, h₂⟩ := ih hcs'
        exact ⟨m, h₁, h₂.snoc hstep⟩

theorem eq_of_nil (h : Run R s as t) (hnil : as = []) : s = t := by
  cases h with
  | nil =>
      rfl
  | snoc =>
      exact absurd hnil (List.concat_ne_nil _ _)

/-- A run with a label begins with its step. -/
theorem uncons (h : Run R s (a :: as) u) : ∃ t, R a s t ∧ Run R t as u := by
  obtain ⟨t, hhead, hrest⟩ := h.split (show a :: as = [a] ++ as from rfl)
  refine ⟨t, ?_, hrest⟩
  generalize htrace : [a] = trace at hhead
  cases hhead with
  | nil =>
      cases htrace
  | snoc hrun hstep =>
      obtain ⟨hnil, ha⟩ := List.append_inj' (show [] ++ [a] = _ ++ [_] from htrace) rfl
      cases ha
      cases hrun.eq_of_nil hnil.symm
      exact hstep

/-- What one step preserves, a run preserves. -/
theorem invariant {P : σ → Prop} (hstep : ∀ a s t, P s → R a s t → P t) (h : Run R s as t)
    (h₀ : P s) : P t := by
  induction h with
  | nil => exact h₀
  | snoc _ hs ih => exact hstep _ _ _ ih hs

/-- The same for a property of the state and of the labels so far. -/
theorem trace {P : List α → σ → Prop} (hstep : ∀ as a s t, P as s → R a s t → P (as ++ [a]) t)
    (h : Run R s as t) (h₀ : P [] s) : P as t := by
  induction h with
  | nil => exact h₀
  | snoc _ hs ih => exact hstep _ _ _ _ ih hs

/-- The rule for runs whose labels all satisfy `Q`. -/
theorem invariant_of {P : σ → Prop} {Q : α → Prop}
    (hstep : ∀ a s t, Q a → P s → R a s t → P t) (h : Run R s as t) (hq : ∀ a ∈ as, Q a)
    (h₀ : P s) : P t := by
  induction h with
  | nil => exact h₀
  | snoc _ hs ih =>
      exact hstep _ _ _ (hq _ (by simp)) (ih (fun a ha => hq a (by simp [ha]))) hs

/-- A run of a stronger relation is one of a weaker. -/
theorem mono {R' : α → σ → σ → Prop} (hR : ∀ a s t, R a s t → R' a s t) (h : Run R s as t) :
    Run R' s as t := by
  induction h with
  | nil => exact .nil _
  | snoc _ hs ih => exact ih.snoc (hR _ _ _ hs)

/-- What holds of every label may be taken along as a guard of each step. -/
theorem labelled {Q : α → Prop} (h : Run R s as t) (hq : ∀ a ∈ as, Q a) :
    Run (fun a s t => R a s t ∧ Q a) s as t := by
  induction h with
  | nil => exact .nil _
  | snoc _ hs ih =>
      exact (ih fun a ha => hq a (List.mem_append_left _ ha)).snoc ⟨hs, hq _ (by simp)⟩

/-- An invariant may be taken along as a guard of each step. -/
theorem guarded {P : σ → Prop} (hstep : ∀ a s t, P s → R a s t → P t) (h : Run R s as t)
    (h₀ : P s) : Run (fun a s t => R a s t ∧ P s) s as t := by
  induction h with
  | nil => exact .nil _
  | snoc hrun hs ih => exact ih.snoc ⟨hs, hrun.invariant hstep h₀⟩

end Run

end Lib
