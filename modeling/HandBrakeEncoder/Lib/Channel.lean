/-
# `Lib.Channel` — what goes in at one end and comes out at the other

A channel is a part of the state that labels put items into at the back and take
items out of at the front.  Its law is stated for one step and read off a whole
run: what has left, followed by what is still held, is what was held and has
entered, in that order.  A channel may drop items (`Channel`); one that never
does satisfies the law with equality (`Channel.Lossless`).
-/
import Mathlib.Data.List.Nodup
import HandBrakeEncoder.Lib.Run

namespace Lib

variable {σ α β : Type*}

/-- Items in order of entry, of which a step may drop some. -/
structure Channel (R : α → σ → σ → Prop) (β : Type*) where
  held : σ → List β
  enters : α → List β
  leaves : α → List β
  step : ∀ {a s t}, R a s t → (leaves a ++ held t).Sublist (held s ++ enters a)

namespace Channel

variable {R : α → σ → σ → Prop} (C : Channel R β) {s t : σ} {as : List α}

/-- What a trace puts in. -/
def entered (as : List α) : List β := as.flatMap C.enters

/-- What a trace takes out. -/
def left (as : List α) : List β := as.flatMap C.leaves

/-- Nothing is dropped. -/
def Lossless : Prop := ∀ a s t, R a s t → C.held s ++ C.enters a = C.leaves a ++ C.held t

/-- Over a run nothing is made up and nothing overtakes. -/
theorem run (h : Run R s as t) : (C.left as ++ C.held t).Sublist (C.held s ++ C.entered as) := by
  induction h with
  | nil => simp [left, entered]
  | @snoc t u as a _ hstep ih =>
      have hlast := (C.step hstep).append_left (C.left as)
      have hfirst := ih.append_right (C.enters a)
      rw [List.append_assoc] at hfirst
      have hall := hlast.trans hfirst
      simpa [left, entered, List.flatMap_append] using hall

/-- From an empty channel, what has left is part of what has entered. -/
theorem left_sublist (h : Run R s as t) (hempty : C.held s = []) :
    (C.left as).Sublist (C.entered as) := by
  have hall := C.run h
  rw [hempty, List.nil_append] at hall
  exact (List.sublist_append_left _ _).trans hall

variable {C}

/-- Over a run nothing is dropped either. -/
theorem Lossless.run (hC : C.Lossless) (h : Run R s as t) :
    C.held s ++ C.entered as = C.left as ++ C.held t := by
  induction h with
  | nil => simp [left, entered]
  | @snoc t u as a _ hstep ih =>
      have hlast := hC _ _ _ hstep
      calc C.held s ++ C.entered (as ++ [a])
          = (C.held s ++ C.entered as) ++ C.enters a := by simp [entered, List.flatMap_append]
        _ = C.left as ++ (C.held t ++ C.enters a) := by rw [ih, List.append_assoc]
        _ = C.left (as ++ [a]) ++ C.held u := by
            rw [hlast]
            simp [left, List.flatMap_append]

end Channel

/-! ## Order in a list without repetitions -/

/-- Of two items in order, the first lies where the second does or before it. -/
theorem pair_sublist_append_left {l l' : List β} {x y : β} (h : [x, y].Sublist (l ++ l'))
    (hy : y ∉ l') : [x, y].Sublist l := by
  obtain ⟨l₁, l₂, hsplit, h₁, h₂⟩ := List.sublist_append_iff.mp h
  have hnot : y ∉ l₂ := fun hmem => hy (h₂.subset hmem)
  rcases List.eq_nil_or_concat l₂ with rfl | ⟨init, last, rfl⟩
  · rw [List.append_nil] at hsplit
    exact hsplit ▸ h₁
  · rw [List.concat_eq_append, ← List.append_assoc] at hsplit
    have hlast : y = last := (List.append_inj' (show [x] ++ [y] = _ ++ [last] from hsplit) rfl).2
      |> List.singleton_injective
    exact absurd (by simp [hlast]) hnot

end Lib
