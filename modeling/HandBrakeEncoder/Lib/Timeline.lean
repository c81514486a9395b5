/-
# `Lib.Timeline` — a machine over time

Where several observers look at one machine, each at moments of its own, a run is
not enough: their moments have to be compared.  A timeline gives the state at
every moment, each the one before or one step on, so that any two moments are
joined by a run (`Timeline.run`).  Every run is part of a timeline
(`Timeline.extend`), and so are two, one after the other (`Timeline.through`).
-/
import HandBrakeEncoder.Lib.Run

namespace Lib

variable {σ α : Type*} {R : α → σ → σ → Prop} {s₀ t : σ} {as : List α}

/-- A state for each moment, from `s₀`. -/
structure Timeline (R : α → σ → σ → Prop) (s₀ : σ) where
  state : Nat → σ
  init : state 0 = s₀
  next : ∀ n, state (n + 1) = state n ∨ ∃ a, R a (state n) (state (n + 1))

namespace Timeline

/-- The later of two moments is reached from the earlier. -/
theorem run (T : Timeline R s₀) {m n : Nat} (h : m ≤ n) :
    ∃ as, Run R (T.state m) as (T.state n) := by
  induction h with
  | refl => exact ⟨[], .nil _⟩
  | @step n _ ih =>
      obtain ⟨as, hrun⟩ := ih
      rcases T.next n with hsame | ⟨a, hstep⟩
      · rw [hsame]
        exact ⟨as, hrun⟩
      · exact ⟨as ++ [a], hrun.snoc hstep⟩

theorem reached (T : Timeline R s₀) (n : Nat) : ∃ as, Run R s₀ as (T.state n) := by
  obtain ⟨as, hrun⟩ := T.run (Nat.zero_le n)
  rw [T.init] at hrun
  exact ⟨as, hrun⟩

/-- Nothing happens. -/
def still (R : α → σ → σ → Prop) (s₀ : σ) : Timeline R s₀ where
  state _ := s₀
  init := rfl
  next _ := .inl rfl

/-- From a moment on, a run is taken instead. -/
theorem extend (T : Timeline R s₀) (n : Nat) (h : Run R (T.state n) as t) :
    ∃ U : Timeline R s₀, (∀ m ≤ n, U.state m = T.state m) ∧
      ∀ m, n + as.length ≤ m → U.state m = t := by
  generalize hs : T.state n = s at h
  induction h with
  | nil =>
      refine ⟨⟨fun m => T.state (min m n), ?_, ?_⟩, ?_, ?_⟩
      · rw [Nat.zero_min]
        exact T.init
      · intro m
        rcases Nat.lt_or_ge m n with hlt | hge
        · rw [Nat.min_eq_left hlt, Nat.min_eq_left (Nat.le_of_lt hlt)]
          exact T.next m
        · rw [Nat.min_eq_right hge, Nat.min_eq_right (Nat.le_succ_of_le hge)]
          exact .inl rfl
      · intro m hm
        exact congrArg T.state (Nat.min_eq_left hm)
      · intro m hm
        exact (congrArg T.state (Nat.min_eq_right hm)).trans hs
  | @snoc t u as a _ hstep ih =>
      obtain ⟨U, hbefore, hafter⟩ := ih
      refine ⟨⟨fun m => if m ≤ n + as.length then U.state m else u, ?_, ?_⟩, ?_, ?_⟩
      · rw [if_pos (Nat.zero_le _)]
        exact U.init
      · intro m
        rcases Nat.lt_trichotomy m (n + as.length) with hlt | rfl | hgt
        · have hsucc : m + 1 ≤ n + as.length := hlt
          rw [if_pos hsucc, if_pos (Nat.le_of_lt hlt)]
          exact U.next m
        · rw [if_neg (Nat.not_succ_le_self _), if_pos (Nat.le_refl _),
            hafter _ (Nat.le_refl _)]
          exact .inr ⟨a, hstep⟩
        · rw [if_neg (show ¬ m + 1 ≤ n + as.length by omega), if_neg (Nat.not_le.mpr hgt)]
          exact .inl rfl
      · intro m hm
        rw [← hbefore m hm]
        exact if_pos (Nat.le_add_right_of_le hm)
      · intro m hm
        rw [List.length_append, List.length_singleton] at hm
        exact if_neg (by omega)

/-- Two runs, one after the other, are the beginning of a timeline. -/
theorem through {s : σ} {bs : List α} (h : Run R s₀ as s) (h' : Run R s bs t) :
    ∃ T : Timeline R s₀, T.state as.length = s ∧ ∀ m, as.length + bs.length ≤ m → T.state m = t := by
  obtain ⟨G, -, hG⟩ := (still R s₀).extend 0 h
  have hGs : G.state as.length = s := hG _ (Nat.le_of_eq (Nat.zero_add _))
  obtain ⟨T, hbefore, hafter⟩ := G.extend as.length (hGs ▸ h')
  exact ⟨T, (hbefore _ (Nat.le_refl _)).trans hGs, hafter⟩

end Timeline

end Lib
