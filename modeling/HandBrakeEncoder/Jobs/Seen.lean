/-
# `Jobs.Seen` — a step of the manager as one job sees it

Of everything a manager does, an accepted job notices two things: a step of the
worker that holds it, or its cancel event being set.  `Seen` splits the steps
that way, with what becomes of the workers that hold the job, so that an
invariant about one job is proved from the cases of `JobStep` alone.
-/
import HandBrakeEncoder.Jobs.Exec
import HandBrakeEncoder.Jobs.LifeCycle

namespace HandBrakeEncoder.Jobs

open Lib JobStatus

/-- A step, as the accepted job `j` sees it. -/
inductive Seen (j : JobId) (a : Action) (s t : State) : Prop
  | onJob (w : WorkerId) (h : JobStep w j a (s.workers w) (s.jobs j) (t.workers w) (t.jobs j))
      (others : ∀ v, v ≠ w → t.workers v = s.workers v) : Seen j a s t
  | aside (h : ∀ w pc job, ¬ JobStep w j a (s.workers w) (s.jobs j) pc job)
      (job : t.jobs j = s.jobs j ∨ t.jobs j = (s.jobs j).cancel)
      (workers : ∀ v, (t.workers v).job? = some j →
        t.workers v = s.workers v ∨ t.workers v = .dequeued j ∨ t.workers v = .claiming j) :
      Seen j a s t

variable {cfg : Config} {s t : State} {a : Action} {i j : JobId} {v w : WorkerId}
  {pc pc' : WorkerPc} {job job' : Job}

/-- The action tells which worker acts and, with its place, on which job. -/
theorem JobStep.unique (h : JobStep w i a (s.workers w) job pc job')
    {pc' : WorkerPc} {job₁ job₁' : Job} (h' : JobStep v j a (s.workers v) job₁ pc' job₁') :
    v = w ∧ j = i := by
  obtain rfl : v = w := Option.some.inj (h'.worker?_eq.symm.trans h.worker?_eq)
  exact ⟨rfl, Option.some.inj (h'.holds.symm.trans h.holds)⟩

/-- A worker's own steps are not those of a client or a controller. -/
theorem ClientStep.not_jobStep (h : ClientStep cfg a s t) : ¬ JobStep w j a pc job pc' job' := by
  intro h'
  cases h <;> cases h'

theorem ControlStep.not_jobStep {c : CtlId} (h : ControlStep cfg c a s t) :
    ¬ JobStep w j a pc job pc' job' := by
  intro h'
  cases h <;> cases h'

theorem ClientStep.seen (h : ClientStep cfg a s t) (hi : Inv s) (hj : j ∈ s.accepted) :
    Seen j a s t := by
  have hlt := hi.acceptedLt j hj
  refine .aside (fun w pc job => h.not_jobStep) ?_ ?_
  · rcases h.effect hi with ⟨_, created, rfl⟩ | ⟨_, _, rfl⟩ | hstill
    · exact .inl (Function.update_of_ne (Nat.ne_of_lt hlt) _ _)
    · exact .inl rfl
    · exact hstill.jobs j hlt
  · intro v hv
    rcases h.effect hi with ⟨_, created, rfl⟩ | ⟨_, _, rfl⟩ | hstill
    · exact .inl rfl
    · exact .inl rfl
    · exact .inl (hstill.workers_of_holds hv)

theorem WorkerStep.seen (h : WorkerStep w a s t) (hi : Inv s) : Seen j a s t := by
  cases h with
  | takeSentinel hw _ =>
      refine .aside (fun _ _ _ h => nomatch h) (.inl rfl) fun v hv => ?_
      rcases eq_or_ne v w with rfl | hvw
      · rw [State.setWorker_self] at hv
        cases hv
      · exact .inl (State.setWorker_ne _ _ hvw)
  | @takeJob _ i _ hw _ =>
      refine .aside (fun _ _ _ h => nomatch h) (.inl rfl) fun v hv => ?_
      rcases eq_or_ne v w with rfl | hvw
      · rw [State.setWorker_self] at hv ⊢
        obtain rfl : i = j := Option.some.inj hv
        exact .inr (.inl rfl)
      · exact .inl (State.setWorker_ne _ _ hvw)
  | @decrement _ i hw =>
      refine .aside (fun _ _ _ h => nomatch h) (.inl rfl) fun v hv => ?_
      rcases eq_or_ne v w with rfl | hvw
      · rw [State.setWorker_self] at hv ⊢
        obtain rfl : i = j := Option.some.inj hv
        exact .inr (.inr rfl)
      · exact .inl (State.setWorker_ne _ _ hvw)
  | @onJob _ _ i pc job hstep =>
      rcases eq_or_ne i j with rfl | hij
      · refine .onJob w ?_ fun v hvw => State.setWorker_ne _ _ hvw
        rw [State.setWorker_self]
        show JobStep w i a (s.workers w) (s.jobs i) pc (Function.update s.jobs i job i)
        rw [Function.update_self]
        exact hstep
      · refine .aside (fun v pc' job' h' => hij (hstep.unique h').2.symm)
          (.inl (Function.update_of_ne hij.symm _ _)) fun v hv => ?_
        rcases eq_or_ne v w with rfl | hvw
        · rw [State.setWorker_self] at hv
          rcases (hstep.fits (hi.fits v _ hstep.holds)).2 with ⟨hheld, _⟩ | ⟨hfree, _⟩
          · exact absurd (Option.some.inj (hheld.symm.trans hv)) hij
          · cases hfree.symm.trans hv
        · exact .inl (State.setWorker_ne _ _ hvw)

/-- Every step is seen in one of the two ways. -/
theorem Step.seen (h : Step cfg a s t) (hi : Inv s) (hj : j ∈ s.accepted) : Seen j a s t := by
  cases h with
  | client h => exact h.seen hi hj
  | worker w h => exact h.seen hi
  | control c h =>
      have hstill := h.still hi
      exact .aside (fun _ _ _ => h.not_jobStep) (hstill.jobs j (hi.acceptedLt j hj))
        fun v hv => .inl (hstill.workers_of_holds hv)

end HandBrakeEncoder.Jobs
