/-
# `Jobs.Backlog` — what `_pending` counts

`_pending` is kept apart from the queue and from the store: `submit` raises it
under the lock, `put` and `get` do not touch it, and the worker lowers it in a
lock block of its own.  `State.waiting` lists the jobs in between, and the
counter is the length of that list in every reachable state.

**What it does not count.**  A deleted job leaves the store at once and the list
only when a worker gets to it.  So the limit of `submit` is a limit on stored
jobs exactly as long as no waiting job is deleted.
-/
import HandBrakeEncoder.Jobs.Stranded

namespace HandBrakeEncoder.Jobs

open Lib

variable {cfg : Config} {s t : State} {as : List Action} {a : Action} {j : JobId} {w : WorkerId}

/-! ## The waiting jobs -/

/-- The job the worker has taken and not yet counted off. -/
def WorkerPc.taken? : WorkerPc → Option JobId
  | .dequeued j => some j
  | _ => none

/-- The jobs that hold a place in the backlog: being put, in the queue, or just taken. -/
def State.waiting (s : State) : List JobId :=
  s.reserved ++ s.queue.filterMap id
    ++ (List.range s.nextWorker).filterMap (fun w => (s.workers w).taken?)

theorem WorkerPc.taken?_isSome (pc : WorkerPc) : pc.taken?.isSome = pc.uncounted := by
  cases pc <;> rfl

theorem WorkerPc.taken?_eq_some {pc : WorkerPc} : pc.taken? = some j ↔ pc = .dequeued j := by
  cases pc <;> simp [WorkerPc.taken?]

theorem mem_waiting (hi : Inv s) :
    j ∈ s.waiting ↔ j ∈ s.reserved ∨ some j ∈ s.queue ∨ ∃ w, s.workers w = .dequeued j := by
  rw [State.waiting, List.mem_append, List.mem_append, or_assoc]
  refine or_congr Iff.rfl (or_congr ?_ ?_)
  · rw [List.mem_filterMap]
    constructor
    · rintro ⟨x, hx, rfl⟩
      exact hx
    · intro hj
      exact ⟨some j, hj, rfl⟩
  · rw [List.mem_filterMap]
    constructor
    · rintro ⟨w, -, hw⟩
      exact ⟨w, WorkerPc.taken?_eq_some.mp hw⟩
    · rintro ⟨w, hw⟩
      have hheld : (s.workers w).job? = some j := by
        rw [hw]
        rfl
      exact ⟨w, List.mem_range.mpr (hi.started hheld), WorkerPc.taken?_eq_some.mpr hw⟩

theorem length_waiting (hp : PendingExact s) : s.pending = s.waiting.length := by
  have htaken : ((List.range s.nextWorker).filterMap (fun w => (s.workers w).taken?)).length
      = countBelow WorkerPc.uncounted s.workers s.nextWorker := by
    rw [List.length_filterMap_eq_countP, countBelow_eq_countP]
    simp only [WorkerPc.taken?_isSome]
  have hqueue : (s.queue.filterMap id).length = s.queue.countP Option.isSome :=
    List.length_filterMap_eq_countP
  rw [PendingExact] at hp
  rw [State.waiting, List.length_append, List.length_append, htaken, hqueue, hp]
  omega

theorem count_waiting_le (s : State) (j : JobId) : s.waiting.count j ≤ s.places j := by
  have htaken : ((List.range s.nextWorker).filterMap (fun w => (s.workers w).taken?)).count j
      ≤ countBelow (WorkerPc.holds j) s.workers s.nextWorker := by
    rw [List.count_filterMap, countBelow_eq_countP]
    refine List.countP_mono_left fun w _ hw => ?_
    have hpc := WorkerPc.taken?_eq_some.mp (beq_iff_eq.mp hw)
    rw [hpc]
    exact WorkerPc.holds_iff.mpr rfl
  have hqueue : (s.queue.filterMap id).count j = s.queue.count (some j) := List.count_filterMap
  rw [State.waiting, List.count_append, List.count_append, hqueue, State.places]
  omega

/-- No job holds two places. -/
theorem waiting_nodup (hi : Inv s) : s.waiting.Nodup :=
  List.nodup_iff_count_le_one.mpr fun j => Nat.le_trans (count_waiting_le s j) (hi.placesLe j)

theorem waiting_accepted (hi : Inv s) (hj : j ∈ s.waiting) : j ∈ s.accepted := by
  rcases (mem_waiting hi).mp hj with hres | hq | ⟨w, hw⟩
  · exact hi.placed_reserved hres
  · exact hi.placed_queue hq
  · exact hi.placed_worker (w := w) (by rw [hw]; rfl)

theorem waiting_queued (hi : Inv s) (hj : j ∈ s.waiting) : s.status j = .queued := by
  rcases (mem_waiting hi).mp hj with hres | hq | ⟨w, hw⟩
  · exact hi.reserved j hres
  · exact hi.queued j hq
  · have hfits := hi.fits w j (by rw [hw]; rfl)
    rw [hw] at hfits
    exact hfits

/-! ## The counter over a run -/

def Action.isDecrement : Action → Bool
  | .decrement _ => true
  | _ => false

/-- A step accepts a job below the limit and counts it, counts one off, or leaves the counter. -/
inductive Counted (cfg : Config) (a : Action) (s t : State) : Prop
  | up (room : 0 < cfg.maxQueue → s.pending < cfg.maxQueue) (pending : t.pending = s.pending + 1)
      (accepted : t.accepted.length = s.accepted.length + 1) (label : a.isDecrement = false)
  | down (pending : t.pending = s.pending - 1) (accepted : t.accepted = s.accepted)
      (label : a.isDecrement = true)
  | same (pending : t.pending = s.pending) (accepted : t.accepted = s.accepted)
      (label : a.isDecrement = false)

theorem ClientStep.counted (h : ClientStep cfg a s t) : Counted cfg a s t := by
  cases h with
  | put _ => exact .same rfl rfl rfl
  | get => exact .same rfl rfl rfl
  | sweep => exact .same rfl rfl rfl
  | @delete _ i =>
      rcases deleteBlock_state s i with h | ⟨-, h⟩
      · rw [h]
        exact .same rfl rfl rfl
      · rw [h]
        exact .same rfl rfl rfl
  | @submit _ created now =>
      rcases submitBlock_state cfg s created now with ⟨-, hroom, h⟩ | ⟨jobs, -, h⟩
      · rw [h]
        exact .up hroom rfl (List.length_append) rfl
      · rw [h]
        exact .same rfl rfl rfl

theorem JobStep.not_decrement {pc pc' : WorkerPc} {job job' : Job}
    (h : JobStep w j a pc job pc' job') : a.isDecrement = false := by
  cases h <;> rfl

theorem Step.counted (h : Step cfg a s t) : Counted cfg a s t := by
  cases h with
  | client h => exact h.counted
  | worker w h =>
      cases h with
      | takeSentinel _ _ => exact .same rfl rfl rfl
      | takeJob _ _ => exact .same rfl rfl rfl
      | decrement _ => exact .down rfl rfl rfl
      | onJob h => exact .same rfl rfl h.not_decrement
  | control c h =>
      cases h with
      | startRunning _ _ => exact .same rfl rfl rfl
      | start _ _ => exact .same rfl rfl rfl
      | setRunning _ => exact .same rfl rfl rfl
      | spawn _ => exact .same rfl rfl rfl
      | append _ => exact .same rfl rfl rfl
      | shutdown _ => exact .same rfl rfl rfl
      | cancel _ => exact .same rfl rfl rfl
      | cancelled _ => exact .same rfl rfl rfl
      | sentinel _ _ => exact .same rfl rfl rfl
      | sentinelsDone _ _ => exact .same rfl rfl rfl
      | join _ _ => exact .same rfl rfl rfl
      | joined _ _ => exact .same rfl rfl rfl
      | clear _ => exact .same rfl rfl rfl

/-- The counter is the number of jobs accepted less the number of decrements. -/
theorem Reaches.pending_eq (h : Reaches cfg as s) :
    s.pending = s.accepted.length - as.countP Action.isDecrement := by
  refine Run.trace (P := fun as s =>
    s.pending = (s.accepted.length : ℤ) - (as.countP Action.isDecrement : ℕ)) ?_ h rfl
  intro as a s t ih hstep
  rw [List.countP_append, List.countP_singleton]
  cases hstep.counted with
  | up _ hp hacc ha =>
      rw [hp, hacc, ha, ih]
      simp
      omega
  | down hp hacc ha =>
      rw [hp, hacc, ha, ih]
      simp
      omega
  | same hp hacc ha =>
      rw [hp, hacc, ha, ih]
      simp

theorem Reaches.pending_le (h : Reaches cfg as s) (hmax : 0 < cfg.maxQueue) :
    s.pending ≤ cfg.maxQueue := by
  refine Run.invariant (P := fun s => s.pending ≤ cfg.maxQueue) ?_ h (Int.le_of_lt hmax)
  intro a s t ih hstep
  cases hstep.counted with
  | up hroom hp _ _ =>
      have := hroom hmax
      omega
  | down hp _ _ => omega
  | same hp _ _ => omega

/-- A submission that does not store its job touches neither store, queue nor counter. -/
theorem submitBlock_not_stored {created now : Clock} {r : SubmitResult}
    (h : submitBlock cfg s created now = (r, t)) (hr : ∀ j, r ≠ .stored j) :
    t.store = s.store ∧ t.queue = s.queue ∧ t.pending = s.pending := by
  rw [submitBlock] at h
  split at h
  · cases h
    exact ⟨rfl, rfl, rfl⟩
  · split at h
    · cases h
      exact ⟨rfl, rfl, rfl⟩
    · cases h
      exact absurd rfl (hr _)

/-- **Backlog accounting is exact** in every reachable state: the counter is the number of accepted
jobs between the lock block of their `submit` and their worker's decrement. -/
theorem backlog_exact (h : Reaches cfg as s) :
    (s.pending = s.waiting.length ∧ s.waiting.Nodup
      ∧ ∀ j, j ∈ s.waiting ↔ j ∈ s.accepted
        ∧ (j ∈ s.reserved ∨ some j ∈ s.queue ∨ ∃ w, s.workers w = .dequeued j))
    ∧ s.pending = s.accepted.length - as.countP Action.isDecrement
    ∧ 0 ≤ s.pending ∧ s.queue.countP Option.isSome ≤ s.pending
    ∧ (0 < cfg.maxQueue → s.pending ≤ cfg.maxQueue)
    ∧ ∀ created now r t, submitBlock cfg s created now = (r, t) → (∀ j, r ≠ .stored j) →
      t.store = s.store ∧ t.queue = s.queue ∧ t.pending = s.pending := by
  have hi := h.inv
  have hp : PendingExact s := h.pending.1
  have hlen := length_waiting hp
  refine ⟨⟨hlen, waiting_nodup hi, fun j => ?_⟩, h.pending_eq, ?_, ?_, h.pending_le, ?_⟩
  · constructor
    · intro hj
      exact ⟨waiting_accepted hi hj, (mem_waiting hi).mp hj⟩
    · rintro ⟨-, hplace⟩
      exact (mem_waiting hi).mpr hplace
  · omega
  · rw [PendingExact] at hp
    omega
  · intro created now r t hsubmit hr
    exact submitBlock_not_stored hsubmit hr

theorem backlog_exact_two_waiting :
    ∃ s, Reaches ⟨1, 3600, 2⟩
        [.start 0, .setRunning 0, .spawn 0, .append 0, .submit 0 0, .put 0, .takeJob 0 0,
          .submit 1 1] s
      ∧ s.waiting.length = 2 ∧ s.waiting.Nodup ∧ s.queue.countP Option.isSome ≤ s.pending := by
  obtain ⟨s, hrun, hpending⟩ := reaches_of_replay ⟨1, 3600, 2⟩
    [.start 0, .setRunning 0, .spawn 0, .append 0, .submit 0 0, .put 0, .takeJob 0 0, .submit 1 1]
    (fun s => s.pending = 2) (by decide +kernel)
  obtain ⟨⟨hlen, hnodup, -⟩, -, -, hqueue, -⟩ := backlog_exact hrun
  exact ⟨s, hrun, by omega, hnodup, hqueue⟩

/-! ## What is refused -/

/-- The stored jobs a client sees as queued. -/
def State.queuedStored (s : State) : List JobId := s.store.filter (fun j => s.status j = .queued)

/-- `submit` raises only when it would store, with the counter at the limit. -/
theorem submitBlock_raised {created now : Clock} {e : PyExc}
    (h : submitBlock cfg s created now = (.raised e, t)) :
    0 < cfg.maxQueue ∧ cfg.maxQueue ≤ s.pending := by
  rw [submitBlock] at h
  split at h
  · cases h
  · split at h
    · rename_i hfull
      exact hfull
    · cases h

theorem submitBlock_full (created now : Clock) (hr : s.running = true) (hmax : 0 < cfg.maxQueue)
    (hfull : cfg.maxQueue ≤ s.pending) :
    submitBlock cfg s created now
      = (.raised (queueFull s.pending cfg.maxQueue), { s with nextJob := s.nextJob + 1 }) := by
  have hrunning : ¬ (!s.running) = true := by
    rw [hr]
    exact Bool.false_ne_true
  rw [submitBlock, if_neg hrunning, if_pos ⟨hmax, hfull⟩]

/-- The step removes no waiting job. -/
def SparesWaiting (a : Action) (s : State) : Prop := ∀ j, a = .delete j → j ∉ s.waiting

/-- A worker that has just taken a job after a step had before, or took it from the queue. -/
theorem WorkerStep.taken_from (h : WorkerStep w a s t) {v : WorkerId}
    (hv : t.workers v = .dequeued j) : s.workers v = .dequeued j ∨ some j ∈ s.queue := by
  have hother : ∀ {u : State} {pc : WorkerPc}, (u.setWorker w pc).workers v = .dequeued j →
      pc ≠ .dequeued j → u.workers v = .dequeued j := by
    intro u pc hset hne
    rcases eq_or_ne v w with rfl | hvw
    · rw [State.setWorker_self] at hset
      exact absurd hset hne
    · rw [State.setWorker_ne _ _ hvw] at hset
      exact hset
  cases h with
  | takeSentinel _ _ =>
      exact .inl (hother hv (fun h => by cases h))
  | @takeJob _ i rest hw hq =>
      rcases eq_or_ne i j with rfl | hij
      · right
        rw [hq]
        exact List.mem_cons_self
      · exact .inl (hother hv (fun h => hij (by cases h; rfl)))
  | decrement _ =>
      exact .inl (hother hv (fun h => by cases h))
  | onJob hjob =>
      refine .inl (hother hv ?_)
      rintro rfl
      exact absurd hjob.uncounted.2 Bool.noConfusion

/-- A job waiting after a step was waiting before, or has just been accepted and stored. -/
theorem Step.waiting_from (h : Step cfg a s t) (hi : Inv s) (hj : j ∈ t.waiting) :
    j ∈ s.waiting ∨ j ∈ t.store := by
  rw [mem_waiting hi]
  have hplace := (mem_waiting (hi.step h)).mp hj
  cases h with
  | client h =>
      obtain ⟨hworkers, -⟩ := h.workers
      rw [hworkers] at hplace
      rcases h.effect hi with ⟨-, created, rfl⟩ | ⟨i, hires, rfl⟩ | hstill
      · rcases hplace with hres | hrest
        · rcases List.mem_cons.mp hres with rfl | hres
          · exact .inr (List.mem_append_right _ (List.mem_singleton.mpr rfl))
          · exact .inl (.inl hres)
        · exact .inl (.inr hrest)
      · rcases hplace with hres | hq | hw
        · exact .inl (.inl (List.mem_of_mem_erase hres))
        · rcases List.mem_append.mp hq with hq | hq
          · exact .inl (.inr (.inl hq))
          · cases List.mem_singleton.mp hq
            exact .inl (.inl hires)
        · exact .inl (.inr (.inr hw))
      · rcases hplace with hres | hq | hw
        · exact .inl (.inl (hstill.reserved ▸ hres))
        · exact .inl (.inr (.inl (hstill.mem_queue hq)))
        · exact .inl (.inr (.inr hw))
  | worker w h =>
      rcases hplace with hres | hq | ⟨v, hv⟩
      · have hsame : t.reserved = s.reserved := by cases h <;> rfl
        exact .inl (.inl (hsame ▸ hres))
      · have hsub : some j ∈ s.queue := by
          cases h with
          | takeSentinel _ hqs => exact hqs ▸ List.mem_cons_of_mem _ hq
          | takeJob _ hqs => exact hqs ▸ List.mem_cons_of_mem _ hq
          | decrement _ => exact hq
          | onJob _ => exact hq
        exact .inl (.inr (.inl hsub))
      · rcases h.taken_from hv with hv | hq
        · exact .inl (.inr (.inr ⟨v, hv⟩))
        · exact .inl (.inr (.inl hq))
  | control c h =>
      have hstill := h.still hi
      rcases hplace with hres | hq | ⟨v, hv⟩
      · exact .inl (.inl (hstill.reserved ▸ hres))
      · exact .inl (.inr (.inl (hstill.mem_queue hq)))
      · have hv' := hstill.workers_of_holds (w := v) (j := j) (by rw [hv]; rfl)
        exact .inl (.inr (.inr ⟨v, hv'.symm.trans hv⟩))

/-- Every waiting job is stored. -/
def WaitingStored (s : State) : Prop := ∀ j ∈ s.waiting, j ∈ s.store

theorem WaitingStored.step (hw : WaitingStored s) (hi : Inv s) (h : Step cfg a s t)
    (hspare : SparesWaiting a s) : WaitingStored t := by
  intro j hj
  rcases h.waiting_from hi hj with hold | hnew
  · rcases h.leaves (hw j hold) with hstore | hdelete | ⟨now, -, hexpired⟩
    · exact hstore
    · exact absurd hold (hspare j hdelete)
    · have hover : (s.status j).terminal = true := Job.expired_terminal hexpired
      rw [waiting_queued hi hold] at hover
      cases hover
  · exact hnew

/-- With every waiting job stored, a refusal means as many stored jobs are queued as the limit. -/
theorem WaitingStored.refused (hw : WaitingStored s) (h : Reaches cfg as s) {created now : Clock}
    {e : PyExc} (hraised : submitBlock cfg s created now = (.raised e, t)) :
    cfg.maxQueue ≤ s.queuedStored.length := by
  obtain ⟨-, hfull⟩ := submitBlock_raised hraised
  have hi := h.inv
  have hlen := length_waiting h.pending.1
  have hsub : s.waiting ⊆ s.queuedStored := fun j hj =>
    List.mem_filter.mpr ⟨hw j hj, decide_eq_true (waiting_queued hi hj)⟩
  have hle := ((waiting_nodup hi).subperm hsub).length_le
  omega

/-- **A full queue is full of visible jobs** in every run that deletes no waiting job: whenever
`submit` raises, at least `max_queue` stored jobs are queued. -/
theorem queueFull_visible
    (h : Run (fun a s t => Step cfg a s t ∧ SparesWaiting a s) .init as s) {created now : Clock}
    {e : PyExc} (hraised : submitBlock cfg s created now = (.raised e, t)) :
    cfg.maxQueue ≤ s.queuedStored.length := by
  have hinv : Reaches cfg as s ∧ WaitingStored s := by
    refine Run.trace (P := fun as s => Reaches cfg as s ∧ WaitingStored s) ?_ h
      ⟨.nil _, fun _ hj => nomatch hj⟩
    intro as a s t ⟨hreach, hw⟩ ⟨hstep, hspare⟩
    exact ⟨hreach.snoc hstep, hw.step hreach.inv hstep hspare⟩
  exact hinv.2.refused hinv.1 hraised

/-- A run without deletes spares every waiting job. -/
theorem Reaches.sparing (h : Reaches cfg as s) (hno : ∀ j, Action.delete j ∉ as) :
    Run (fun a s t => Step cfg a s t ∧ SparesWaiting a s) .init as s := by
  refine Run.trace (P := fun as s => (∀ j, Action.delete j ∉ as) →
    Run (fun a s t => Step cfg a s t ∧ SparesWaiting a s) .init as s) ?_ h (fun _ => .nil _) hno
  intro as a s t ih hstep hno
  refine (ih fun j hj => hno j (List.mem_append_left _ hj)).snoc ⟨hstep, ?_⟩
  rintro j rfl
  exact absurd (List.mem_append_right as (List.mem_singleton.mpr rfl)) (hno j)

theorem queueFull_visible_one_queued :
    ∃ s, Reaches ⟨1, 3600, 1⟩
        [.start 0, .setRunning 0, .spawn 0, .append 0, .submit 0 0, .put 0, .takeJob 0 0,
          .decrement 0, .claim 0 0, .call 0 0, .submit 1 1, .put 1] s
      ∧ 1 ≤ s.queuedStored.length := by
  obtain ⟨s, hrun, hr, hpending⟩ := reaches_of_replay ⟨1, 3600, 1⟩
    [.start 0, .setRunning 0, .spawn 0, .append 0, .submit 0 0, .put 0, .takeJob 0 0,
      .decrement 0, .claim 0 0, .call 0 0, .submit 1 1, .put 1]
    (fun s => s.running = true ∧ s.pending = 1) (by decide +kernel)
  have hraised : submitBlock ⟨1, 3600, 1⟩ s 2 2 = (.raised (queueFull s.pending 1), _) :=
    submitBlock_full 2 2 hr Int.one_pos (Int.le_of_eq hpending.symm)
  have hvisible := queueFull_visible (hrun.sparing (by simp)) hraised
  exact ⟨s, hrun, Int.ofNat_le.mp hvisible⟩

/-- One job runs, the queued one is deleted, and the next is refused with nothing queued. -/
theorem queueFull_after_delete :
    ¬ ∀ (cfg : Config) (as : List Action) (s t : State) (created now : Clock) (e : PyExc),
      Reaches cfg as s → 0 < cfg.maxQueue → submitBlock cfg s created now = (.raised e, t) →
      cfg.maxQueue ≤ s.queuedStored.length := by
  intro hall
  obtain ⟨s, hrun, hr, hpending, hqueued⟩ := reaches_of_replay ⟨1, 3600, 1⟩
    [.start 0, .setRunning 0, .spawn 0, .append 0, .submit 0 0, .put 0, .takeJob 0 0,
      .decrement 0, .claim 0 0, .call 0 0, .submit 1 1, .put 1, .delete 1]
    (fun s => s.running = true ∧ s.pending = 1 ∧ s.queuedStored = []) (by decide +kernel)
  have hraised : submitBlock ⟨1, 3600, 1⟩ s 2 2 = (.raised (queueFull s.pending 1), _) :=
    submitBlock_full 2 2 hr Int.one_pos (Int.le_of_eq hpending.symm)
  have hvisible := hall _ _ s _ 2 2 _ hrun Int.one_pos hraised
  rw [hqueued] at hvisible
  cases hvisible

end HandBrakeEncoder.Jobs
