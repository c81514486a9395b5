/-
# `Jobs.Shutdown` — shutdown reaches every job that is not over

The snapshot of `shutdown` is taken from the store, but a deleted job runs on
outside it and an accepted one may not be on the queue yet.  What makes the
snapshot enough is an invariant of the whole manager (`Kept`): an accepted job
that is not terminal is in the store or already cancelled, since `delete` cancels
what it removes and `sweep` removes only what is terminal.

From the lock block on, no job is accepted, and each job not over is cancelled
or still ahead of the cancel loop.
-/
import HandBrakeEncoder.Jobs.LifeCycle
import HandBrakeEncoder.Jobs.Exec

namespace HandBrakeEncoder.Jobs

open Lib

variable {cfg : Config} {s t u : State} {as bs : List Action} {a : Action} {c : CtlId} {j : JobId}

/-- Every accepted job that is not over is in the store or cancelled. -/
def Kept (s : State) : Prop :=
  ∀ j ∈ s.accepted, (s.status j).terminal = false → j ∈ s.store ∨ (s.jobs j).cancelEvent = true

/-- A job leaves the store by a delete of it, or by a sweep that finds it expired. -/
theorem ClientStep.leaves (h : ClientStep cfg a s t) (hj : j ∈ s.store) :
    j ∈ t.store ∨ a = .delete j ∨ ∃ now, a = .sweep now ∧ (s.jobs j).expired cfg now = true := by
  cases h with
  | put _ => exact .inl hj
  | get => exact .inl hj
  | @submit _ created now =>
      refine .inl ?_
      rcases submitBlock_state cfg s created now with ⟨-, -, h⟩ | ⟨jobs, -, h⟩
      · rw [h]
        exact List.mem_append_left _ hj
      · rw [h]
        exact hj
  | @delete _ i =>
      rcases eq_or_ne j i with rfl | hne
      · exact .inr (.inl rfl)
      refine .inl ?_
      rcases deleteBlock_state s i with h | ⟨-, h⟩
      · rw [h]
        exact (List.mem_erase_of_ne hne).mpr hj
      · rw [h]
        exact hj
  | @sweep _ now =>
      cases hexpired : (s.jobs j).expired cfg now with
      | false => exact .inl (List.mem_filter.mpr ⟨hj, by rw [hexpired]; rfl⟩)
      | true => exact .inr (.inr ⟨now, rfl, hexpired⟩)

theorem Step.leaves (h : Step cfg a s t) (hj : j ∈ s.store) :
    j ∈ t.store ∨ a = .delete j ∨ ∃ now, a = .sweep now ∧ (s.jobs j).expired cfg now = true := by
  cases h with
  | client h => exact h.leaves hj
  | worker w h => cases h <;> exact .inl hj
  | control c h => cases h <;> exact .inl hj

theorem Job.expired_terminal {job : Job} {now : Clock} (h : job.expired cfg now = true) :
    job.status.terminal = true :=
  (Bool.and_eq_true_iff.mp h).1

theorem Step.delete_eq (h : Step cfg (.delete j) s t) : t = (deleteBlock s j).2 := by
  cases h with
  | client h =>
      cases h
      rfl
  | worker w h =>
      cases h with
      | onJob hjob => cases hjob
  | control c h => cases h

/-- A job leaves the store cancelled or over. -/
theorem Step.store (h : Step cfg a s t) (hj : j ∈ s.store) :
    j ∈ t.store ∨ (t.jobs j).cancelEvent = true ∨ (s.status j).terminal = true := by
  rcases h.leaves hj with hstay | rfl | ⟨now, -, hexpired⟩
  · exact .inl hstay
  · refine .inr (.inl ?_)
    rw [h.delete_eq]
    rcases deleteBlock_state s j with hstate | ⟨hnot, -⟩
    · rw [hstate]
      show (Function.update s.jobs j (s.jobs j).cancel j).cancelEvent = true
      rw [Function.update_self]
      rfl
    · exact absurd hj hnot
  · exact .inr (.inr (Job.expired_terminal hexpired))

/-- A job not over after a step was not over before. -/
theorem Step.live_from (h : Step cfg a s t) (hi : Inv s) (hj : j ∈ s.accepted)
    (hlive : (t.status j).terminal = false) : (s.status j).terminal = false := by
  rcases h.status hi hj with hsame | hedge
  · exact hsame ▸ hlive
  · exact hedge.not_terminal

theorem Kept.step (hk : Kept s) (hi : Inv s) (h : Step cfg a s t) : Kept t := by
  intro j hj hlive
  rcases Classical.em (j ∈ s.accepted) with hold | hnew
  · have hlive' := h.live_from hi hold hlive
    rcases hk j hold hlive' with hstore | hcancel
    · rcases h.store hstore with hstore' | hcancel | hterm
      · exact .inl hstore'
      · exact .inr hcancel
      · cases hlive'.symm.trans hterm
    · exact .inr (h.cancelEvent hi hold hcancel)
  · obtain ⟨_, rfl, created, rfl⟩ := h.accepted_new hi hj hnew
    exact .inl (List.mem_append_right _ (List.mem_singleton.mpr rfl))

theorem Reaches.kept (h : Reaches cfg as s) : Kept s := by
  suffices hinv : Inv s ∧ Kept s from hinv.2
  refine Run.invariant (P := fun s => Inv s ∧ Kept s) ?_ h ⟨Inv.init, fun _ hj => nomatch hj⟩
  intro a s t ⟨hi, hk⟩ hstep
  exact ⟨hi.step hstep, hk.step hi hstep⟩

/-! ## From the lock block on -/

/-- The job is over or cancelled. -/
def Settled (s : State) (j : JobId) : Prop :=
  (s.status j).terminal = true ∨ (s.jobs j).cancelEvent = true

/-- The job is settled, or ahead of the cancel loop of `c`. -/
def Covered (c : CtlId) (s : State) (j : JobId) : Prop :=
  Settled s j ∨ ∃ js, s.ctl c = .cancelling js ∧ j ∈ js

/-- The manager does not run, and every accepted job is covered. -/
structure Stopping (c : CtlId) (s : State) : Prop where
  notRunning : s.running = false
  covered : ∀ j ∈ s.accepted, Covered c s j

theorem Settled.step (h : Settled s j) (hstep : Step cfg a s t) (hi : Inv s)
    (hj : j ∈ s.accepted) : Settled t j := by
  rcases h with hterm | hcancel
  · refine .inl ?_
    rcases hstep.status hi hj with hsame | hedge
    · exact hsame ▸ hterm
    · cases hedge.not_terminal.symm.trans hterm
  · exact .inr (hstep.cancelEvent hi hj hcancel)

/-- The cancel loop leaves a job only by cancelling it. -/
theorem ControlStep.cancelling {js : List JobId} (h : ControlStep cfg c a s t)
    (hctl : s.ctl c = .cancelling js) (hj : j ∈ js) :
    (t.jobs j).cancelEvent = true ∨ ∃ js', t.ctl c = .cancelling js' ∧ j ∈ js' := by
  cases h with
  | @cancel _ i is hc =>
      obtain rfl : i :: is = js := CtlPc.cancelling.inj (hc.symm.trans hctl)
      rcases List.mem_cons.mp hj with rfl | hrest
      · refine .inl ?_
        show (Function.update s.jobs j (s.jobs j).cancel j).cancelEvent = true
        rw [Function.update_self]
        rfl
      · exact .inr ⟨is, Function.update_self _ _ _, hrest⟩
  | cancelled hc =>
      obtain rfl : [] = js := CtlPc.cancelling.inj (hc.symm.trans hctl)
      cases hj
  | startRunning hc _ => cases hc.symm.trans hctl
  | start hc _ => cases hc.symm.trans hctl
  | setRunning hc => cases hc.symm.trans hctl
  | spawn hc => cases hc.symm.trans hctl
  | append hc => cases hc.symm.trans hctl
  | shutdown hc => cases hc.symm.trans hctl
  | sentinel hc _ => cases hc.symm.trans hctl
  | sentinelsDone hc _ => cases hc.symm.trans hctl
  | join hc _ => cases hc.symm.trans hctl
  | joined hc _ => cases hc.symm.trans hctl
  | clear hc => cases hc.symm.trans hctl

/-- What only a controller changes is the same in both states. -/
structure SameControl (s t : State) : Prop where
  ctl : t.ctl = s.ctl
  running : t.running = s.running
  threads : t.threads = s.threads

theorem ClientStep.sameControl (h : ClientStep cfg a s t) : SameControl s t := by
  cases h with
  | put _ => exact ⟨rfl, rfl, rfl⟩
  | get => exact ⟨rfl, rfl, rfl⟩
  | sweep => exact ⟨rfl, rfl, rfl⟩
  | @delete _ i =>
      rcases deleteBlock_state s i with h | ⟨-, h⟩
      · rw [h]
        exact ⟨rfl, rfl, rfl⟩
      · rw [h]
        exact ⟨rfl, rfl, rfl⟩
  | @submit _ created now =>
      rcases submitBlock_state cfg s created now with ⟨-, -, h⟩ | ⟨jobs, -, h⟩
      · rw [h]
        exact ⟨rfl, rfl, rfl⟩
      · rw [h]
        exact ⟨rfl, rfl, rfl⟩

theorem WorkerStep.sameControl {w : WorkerId} (h : WorkerStep w a s t) : SameControl s t := by
  cases h <;> exact ⟨rfl, rfl, rfl⟩

theorem ClientStep.ctl?_eq (h : ClientStep cfg a s t) : a.ctl? = none := by
  cases h <;> rfl

theorem JobStep.ctl?_eq {w : WorkerId} {pc pc' : WorkerPc} {job job' : Job}
    (h : JobStep w j a pc job pc' job') : a.ctl? = none := by
  cases h <;> rfl

theorem WorkerStep.ctl?_eq {w : WorkerId} (h : WorkerStep w a s t) : a.ctl? = none := by
  cases h with
  | takeSentinel _ _ => rfl
  | takeJob _ _ => rfl
  | decrement _ => rfl
  | onJob hstep => exact hstep.ctl?_eq

theorem ControlStep.ctl?_eq (h : ControlStep cfg c a s t) : a.ctl? = some c := by
  cases h <;> rfl

/-- An action of a controller is a step of that controller. -/
theorem Step.control_of (h : Step cfg a s t) (ha : a.ctl? = some c) : ControlStep cfg c a s t := by
  cases h with
  | client h => cases h.ctl?_eq.symm.trans ha
  | worker w h => cases h.ctl?_eq.symm.trans ha
  | control d h =>
      obtain rfl : d = c := Option.some.inj (h.ctl?_eq.symm.trans ha)
      exact h

theorem ControlStep.ctl_ne {d : CtlId} (h : ControlStep cfg d a s t) (hcd : c ≠ d) :
    t.ctl c = s.ctl c := by
  cases h <;> first | rfl | exact Function.update_of_ne hcd _ _

/-- Only `start` lets the manager run. -/
theorem Step.stays_stopped (h : Step cfg a s t) (ha : ∀ d, a ≠ .setRunning d)
    (hr : s.running = false) : t.running = false := by
  cases h with
  | client h => exact h.sameControl.running.trans hr
  | worker w h => exact h.sameControl.running.trans hr
  | control d h =>
      cases h with
      | setRunning _ => exact absurd rfl (ha d)
      | shutdown _ => rfl
      | startRunning _ _ => exact hr
      | start _ _ => exact hr
      | spawn _ => exact hr
      | append _ => exact hr
      | cancel _ => exact hr
      | cancelled _ => exact hr
      | sentinel _ _ => exact hr
      | sentinelsDone _ _ => exact hr
      | join _ _ => exact hr
      | joined _ _ => exact hr
      | clear _ => exact hr

/-- While the manager does not run, no job is accepted. -/
theorem Step.accepted_stopped (h : Step cfg a s t) (hi : Inv s) (hr : s.running = false)
    (hj : j ∈ t.accepted) : j ∈ s.accepted := by
  by_contra hnew
  cases hr.symm.trans (h.accepted_new hi hj hnew).1

theorem Covered.step (hcov : Covered c s j) (h : Step cfg a s t) (hi : Inv s)
    (hj : j ∈ s.accepted) : Covered c t j := by
  rcases hcov with hsettled | ⟨js, hjs, hmem⟩
  · exact .inl (hsettled.step h hi hj)
  · cases h with
    | client h => exact .inr ⟨js, h.sameControl.ctl ▸ hjs, hmem⟩
    | worker w h => exact .inr ⟨js, h.sameControl.ctl ▸ hjs, hmem⟩
    | control d h =>
        rcases eq_or_ne c d with rfl | hne
        · rcases h.cancelling hjs hmem with hcancel | hrest
          · exact .inl (.inr hcancel)
          · exact .inr hrest
        · exact .inr ⟨js, (h.ctl_ne hne).trans hjs, hmem⟩

theorem Stopping.step (hs : Stopping c s) (hi : Inv s) (h : Step cfg a s t)
    (ha : ∀ d, a ≠ .setRunning d) : Stopping c t where
  notRunning := h.stays_stopped ha hs.notRunning
  covered := fun j hj =>
    have hold := h.accepted_stopped hi hs.notRunning hj
    (hs.covered j hold).step h hi hold

/-- The lock block of `shutdown` leaves every accepted job covered, and accepts none. -/
theorem Stopping.shutdown (h : Step cfg (.shutdown c) s t) (hk : Kept s) :
    Stopping c t ∧ t.accepted = s.accepted := by
  cases h.control_of rfl with
  | shutdown _ =>
      refine ⟨⟨rfl, fun j hj => ?_⟩, rfl⟩
      cases hterm : (s.status j).terminal with
      | true => exact .inl (.inl hterm)
      | false =>
          rcases hk j hj hterm with hstore | hcancel
          · refine .inr ⟨snapshot s, Function.update_self _ _ _, ?_⟩
            refine List.mem_filter.mpr ⟨hstore, ?_⟩
            show (!(s.status j).terminal) = true
            rw [hterm]
            rfl
          · exact .inl (.inr hcancel)

/-- The end of the cancel loop: what is covered is settled. -/
theorem Stopping.settled (hs : Stopping c s) (h : Step cfg (.cancelled c) s t)
    (hj : j ∈ s.accepted) : Settled s j := by
  rcases hs.covered j hj with hsettled | ⟨js, hjs, hmem⟩
  · exact hsettled
  · cases h.control_of rfl with
    | cancelled hc =>
        obtain rfl : [] = js := CtlPc.cancelling.inj (hc.symm.trans hjs)
        cases hmem

/-- What holds of a run from the lock block of a `shutdown` of `c`, `bs` being the
actions since and `before` the jobs accepted before. -/
structure AfterLock (c : CtlId) (before : List JobId) (bs : List Action) (u : State) : Prop where
  inv : Inv u
  stopping : Stopping c u
  accepted : ∀ j ∈ u.accepted, j ∈ before
  settled : Action.cancelled c ∈ bs → ∀ j ∈ u.accepted, Settled u j

theorem AfterLock.step {before : List JobId} (h : AfterLock c before bs s)
    (hstep : Step cfg a s t) (ha : ∀ d, a ≠ .setRunning d) :
    AfterLock c before (bs ++ [a]) t where
  inv := h.inv.step hstep
  stopping := h.stopping.step h.inv hstep ha
  accepted := fun j hj => h.accepted j (hstep.accepted_stopped h.inv h.stopping.notRunning hj)
  settled := fun hdone j hj => by
    have hold := hstep.accepted_stopped h.inv h.stopping.notRunning hj
    refine Settled.step ?_ hstep h.inv hold
    rcases List.mem_append.mp hdone with hbefore | hnow
    · exact h.settled hbefore j hold
    · obtain rfl := List.mem_singleton.mp hnow
      exact h.stopping.settled hstep hold

theorem AfterLock.run (h : Reaches cfg as s) (hlock : Step cfg (.shutdown c) s t)
    (hrun : Run (Step cfg) t bs u) (hstart : ∀ d, Action.setRunning d ∉ bs) :
    AfterLock c s.accepted bs u := by
  obtain ⟨hstop, hsame⟩ := Stopping.shutdown hlock h.kept
  have hfirst : AfterLock c s.accepted [] t :=
    ⟨h.inv.step hlock, hstop, fun j hj => hsame ▸ hj, fun hnil => nomatch hnil⟩
  refine Run.trace (P := fun bs u => (∀ d, Action.setRunning d ∉ bs) →
    AfterLock c s.accepted bs u) ?_ hrun (fun _ => hfirst) hstart
  intro bs a u v hu hstep hno
  refine (hu fun d hd => hno d (List.mem_append_left _ hd)).step hstep fun d hd => ?_
  exact hno d (List.mem_append_right _ (List.mem_singleton.mpr hd.symm))

/-- **Shutdown misses no live encode.**  From the lock block of a `shutdown` to the next
`start`, no job is accepted; and once its cancel loop has finished, every job ever
accepted that is not over has its cancel event set, wherever it is. -/
theorem shutdown_cancels_live (h : Reaches cfg as s) (hlock : Step cfg (.shutdown c) s t)
    (hrun : Run (Step cfg) t bs u) (hstart : ∀ d, Action.setRunning d ∉ bs) :
    (∀ j ∈ u.accepted, j ∈ s.accepted) ∧
    (Action.cancelled c ∈ bs → ∀ j ∈ u.accepted, (u.status j).terminal = false →
      (u.jobs j).cancelEvent = true) := by
  have hafter := AfterLock.run h hlock hrun hstart
  refine ⟨hafter.accepted, fun hdone j hj hlive => ?_⟩
  rcases hafter.settled hdone j hj with hterm | hcancel
  · cases hlive.symm.trans hterm
  · exact hcancel

/-- One job runs deleted from the store, another is accepted and not yet on the
queue, when a one-worker manager shuts down. -/
theorem shutdown_cancels_running_and_unqueued :
    ∃ u, Reaches ⟨1, 3600, 0⟩
        [.start 0, .setRunning 0, .spawn 0, .append 0, .submit 0 0, .put 0, .takeJob 0 0,
          .decrement 0, .claim 0 0, .call 0 0, .delete 0, .submit 0 0, .shutdown 0, .cancel 0,
          .cancelled 0] u ∧
      u.accepted = [0, 1] ∧ u.status 0 = .running ∧ u.status 1 = .queued ∧
      (u.jobs 0).cancelEvent = true ∧ (u.jobs 1).cancelEvent = true := by
  have hbefore : Reaches ⟨1, 3600, 0⟩
      [.start 0, .setRunning 0, .spawn 0, .append 0, .submit 0 0, .put 0, .takeJob 0 0,
        .decrement 0, .claim 0 0, .call 0 0, .delete 0, .submit 0 0] _ :=
    (Run.nil _).snoc (.control 0 (.start rfl rfl)) |>.snoc (.control 0 (.setRunning rfl))
      |>.snoc (.control 0 (.spawn rfl)) |>.snoc (.control 0 (.append rfl))
      |>.snoc (.client .submit) |>.snoc (.client (.put (by decide)))
      |>.snoc (.worker 0 (.takeJob rfl rfl)) |>.snoc (.worker 0 (.decrement rfl))
      |>.snoc (.worker 0 (.onJob (.claimGranted rfl))) |>.snoc (.worker 0 (.onJob .call))
      |>.snoc (.client .delete) |>.snoc (.client .submit)
  have hall := (shutdown_cancels_live hbefore (.control 0 (.shutdown rfl))
    ((Run.nil _).snoc (.control 0 (.cancel rfl)) |>.snoc (.control 0 (.cancelled rfl)))
    (by simp)).2 (by decide)
  exact ⟨_, hbefore.snoc (.control 0 (.shutdown rfl)) |>.snoc (.control 0 (.cancel rfl))
    |>.snoc (.control 0 (.cancelled rfl)), rfl, rfl, rfl, hall 0 (by decide) rfl,
    hall 1 (by decide) rfl⟩

end HandBrakeEncoder.Jobs
