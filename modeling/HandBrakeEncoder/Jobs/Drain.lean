/-
# `Jobs.Drain` — after a shutdown the workers can all end

`shutdown` puts one sentinel per thread behind whatever waits and gives up on a
thread that is slow to end.  What it leaves behind finishes by itself:

- nothing goes on for ever.  `State.work` counts what the submissions in
  progress, the queue and the workers have left to do; each of their steps lowers
  it and no request raises it, for a stopped manager takes no job;
- nobody is stuck.  A worker at `get` finds something there, since the threads
  that have not ended are matched by the sentinels in the queue (`Epoch.balance`).

A function's own stores are not counted: how many it makes is its own affair.
-/
import HandBrakeEncoder.Jobs.Exec
import HandBrakeEncoder.Jobs.Restart
import HandBrakeEncoder.Lib.Measure

namespace HandBrakeEncoder.Jobs

open Lib

/-! ## What is left to do -/

/-- The steps of `_worker` from this place to the next `get`, at most. -/
def WorkerPc.todo : WorkerPc → Nat
  | .dequeued _ => 8
  | .claiming _ => 7
  | .claimed _ => 6
  | .executing _ => 5
  | .storing _ stores _ => stores.length
  | .notStarted | .getting | .exited | .died => 0

/-- What the submissions in progress, the queue and the workers have left to do, at most. -/
def State.work (s : State) : Nat :=
  10 * s.reserved.length + 9 * s.queue.length
    + ∑ w ∈ Finset.range s.nextWorker, (s.workers w).todo

/-- A `put`, or a step of a worker other than a store of the job's function. -/
def Action.advances : Action → Bool
  | .put _ => true
  | .fnStore _ _ _ => false
  | a => a.worker?.isSome

variable {cfg : Config} {s t : State} {as bs : List Action} {a : Action} {c : CtlId} {j : JobId}
  {w : WorkerId} {pc pc' : WorkerPc} {job job' : Job}

theorem todo_terminalStores (outcome : FnOutcome) : (terminalStores outcome).length < 5 := by
  cases outcome with
  | returned => exact Nat.lt_of_sub_eq_succ rfl
  | raised e => cases e <;> exact Nat.lt_of_sub_eq_succ rfl

theorem JobStep.todo (h : JobStep w j a pc job pc' job') :
    a.advances.toNat + pc'.todo ≤ pc.todo := by
  cases h with
  | claimRefused _ | claimGranted _ | call => exact Nat.le_of_ble_eq_true rfl
  | fnStore _ => exact Nat.le_of_ble_eq_true rfl
  | @finish _ outcome =>
      show 1 + (terminalStores outcome).length ≤ 5
      have := todo_terminalStores outcome
      omega
  | @storeAttr _ st ss kills _ =>
      cases ss with
      | nil => cases kills <;> exact Nat.le_of_ble_eq_true rfl
      | cons s ss => exact Nat.le_of_eq (Nat.add_comm _ _)

/-- The work after a started worker moves, with what becomes of the queue. -/
theorem State.work_move (hw : w < s.nextWorker) (hreserved : t.reserved = s.reserved)
    (hnext : t.nextWorker = s.nextWorker) (hworkers : t.workers = Function.update s.workers w pc) :
    t.work + (s.workers w).todo + 9 * s.queue.length
      = s.work + pc.todo + 9 * t.queue.length := by
  have hsum := sum_range_update (m := WorkerPc.todo) (f := s.workers) (v := pc) hw
  rw [State.work, State.work, hreserved, hnext, hworkers]
  omega

theorem WorkerStep.work (h : WorkerStep w a s t) (hi : Inv s) :
    a.advances.toNat + t.work ≤ s.work := by
  have hstarted : s.workers w ≠ .notStarted → w < s.nextWorker :=
    fun hne => Nat.lt_of_not_le fun hle => hne (hi.fresh w hle)
  cases h with
  | @takeSentinel _ rest hw hq =>
      have hmove := State.work_move (hstarted fun hnot => by cases hw.symm.trans hnot)
        (t := { s with queue := rest }.setWorker w .exited) rfl rfl rfl
      have hqueue : ({ s with queue := rest }.setWorker w .exited).queue = rest := rfl
      rw [hw, hq, hqueue] at hmove
      simp only [WorkerPc.todo, List.length_cons] at hmove
      show 1 + _ ≤ _
      omega
  | @takeJob _ j rest hw hq =>
      have hmove := State.work_move (hstarted fun hnot => by cases hw.symm.trans hnot)
        (t := { s with queue := rest }.setWorker w (.dequeued j)) rfl rfl rfl
      have hqueue : ({ s with queue := rest }.setWorker w (.dequeued j)).queue = rest := rfl
      rw [hw, hq, hqueue] at hmove
      simp only [WorkerPc.todo, List.length_cons] at hmove
      show 1 + _ ≤ _
      omega
  | @decrement _ j hw =>
      have hmove := State.work_move (hstarted fun hnot => by cases hw.symm.trans hnot)
        (t := { s with pending := s.pending - 1 }.setWorker w (.claiming j)) rfl rfl rfl
      have hqueue : ({ s with pending := s.pending - 1 }.setWorker w (.claiming j)).queue
        = s.queue := rfl
      rw [hw, hqueue] at hmove
      simp only [WorkerPc.todo] at hmove
      show 1 + _ ≤ _
      omega
  | @onJob _ _ j pc job hjob =>
      have hmove := State.work_move (hi.started hjob.holds)
        (t := (s.setJob j job).setWorker w pc) rfl rfl rfl
      have hqueue : ((s.setJob j job).setWorker w pc).queue = s.queue := rfl
      have htodo := hjob.todo
      rw [hqueue] at hmove
      omega

/-- A request to a stopped manager adds nothing. -/
theorem ClientStep.work (h : ClientStep cfg a s t) (hr : s.running = false) :
    a.advances.toNat + t.work ≤ s.work := by
  cases h with
  | get | sweep => exact Nat.le_of_eq (Nat.zero_add _)
  | @delete _ j =>
      rcases deleteBlock_state s j with heq | ⟨-, heq⟩
      · rw [heq]
        exact Nat.le_of_eq (Nat.zero_add _)
      · rw [heq]
        exact Nat.le_of_eq (Nat.zero_add _)
  | @submit _ created now =>
      rcases submitBlock_state cfg s created now with ⟨hrunning, -, -⟩ | ⟨jobs, -, heq⟩
      · cases hr.symm.trans hrunning
      · rw [heq]
        exact Nat.le_of_eq (Nat.zero_add _)
  | @put _ j hj =>
      have hlen := List.length_erase_of_mem hj
      have hpos := List.length_pos_of_mem hj
      have hwork : State.work { s with
            reserved := s.reserved.erase j, queue := s.queue ++ [some j] } =
          10 * (s.reserved.erase j).length + 9 * (s.queue ++ [some j]).length
            + ∑ w ∈ Finset.range s.nextWorker, (s.workers w).todo := rfl
      rw [hwork, State.work, List.length_append, List.length_singleton]
      show 1 + _ ≤ _
      omega

/-! ## After the shutdown -/

/-- The controller has returned and the manager takes no jobs. -/
structure Stopped (cfg : Config) (c : CtlId) (s : State) : Prop where
  epoch : Epoch cfg c s
  idle : s.ctl c = .idle
  stopped : s.running = false

theorem Stopped.of_same (h : Stopped cfg c s) (hstep : Step cfg a s t) (ha : a.ctl? = none)
    (hsame : SameControl s t) : Stopped cfg c t where
  epoch := h.epoch.step hstep fun d hd => by cases ha.symm.trans hd
  idle := (congrFun hsame.ctl c).trans h.idle
  stopped := hsame.running.trans h.stopped

/-- Until a controller acts again the manager stays stopped, and its work does not grow. -/
theorem Stopped.step (h : Stopped cfg c s) (hstep : Step cfg a s t) (ha : a.ctl? = none) :
    Stopped cfg c t ∧ a.advances.toNat + t.work ≤ s.work := by
  cases hstep with
  | client hc => exact ⟨h.of_same (.client hc) ha hc.sameControl, hc.work h.stopped⟩
  | worker w hw => exact ⟨h.of_same (.worker w hw) ha hw.sameControl, hw.work h.epoch.inv⟩
  | control d hc => cases hc.ctl?_eq.symm.trans ha

/-- Threads that have not ended have their sentinels in the queue. -/
theorem Stopped.sentinels (h : Stopped cfg c s) : s.unretired = s.queue.count none := by
  have hfits := h.epoch.fits
  have hbalance := h.epoch.balance
  rw [h.idle] at hfits hbalance
  have hthreads : s.threads.length = if s.running then cfg.numWorkers else 0 := hfits
  rw [h.stopped] at hthreads
  rw [hthreads] at hbalance
  exact hbalance

/-- A worker at `get` finds something. -/
theorem Stopped.queue_ne_nil (h : Stopped cfg c s) (hw : s.workers w = .getting) :
    s.queue ≠ [] := by
  have hstarted : w < s.nextWorker := by
    refine Nat.lt_of_not_le fun hle => ?_
    cases hw.symm.trans (h.epoch.inv.fresh w hle)
  have hpos : 0 < s.unretired := countBelow_pos hstarted (by rw [hw]; rfl)
  rw [h.sentinels] at hpos
  exact List.ne_nil_of_mem (List.count_pos_iff.mp hpos)

/-- The action ends a function in a way that ends its worker. -/
def Action.kills : Action → Bool
  | .finish _ outcome => outcome.kills
  | _ => false

theorem JobStep.can_advance (h : JobStep w j a pc (s.jobs j) pc' job') (hpc : s.workers w = pc)
    (ha : a.advances = true) (hk : a.kills = false) :
    ∃ a t, WorkerStep w a s t ∧ a.advances = true ∧ a.kills = false :=
  ⟨a, _, .onJob (hpc ▸ h), ha, hk⟩

/-- A worker that has not ended can go on, if it does not wait at an empty queue. -/
theorem Inv.can_advance (hi : Inv s) (hq : s.workers w = .getting → s.queue ≠ [])
    (hw : (s.workers w).live = true) :
    ∃ a t, WorkerStep w a s t ∧ a.advances = true ∧ a.kills = false := by
  cases hpc : s.workers w with
  | notStarted | exited | died => cases hpc ▸ hw
  | getting =>
      obtain ⟨x, rest, hqueue⟩ := List.exists_cons_of_ne_nil (hq hpc)
      cases x with
      | none => exact ⟨_, _, .takeSentinel hpc hqueue, rfl, rfl⟩
      | some j => exact ⟨_, _, .takeJob hpc hqueue, rfl, rfl⟩
  | dequeued j => exact ⟨_, _, .decrement hpc, rfl, rfl⟩
  | claiming j =>
      cases hclaim : (s.jobs j).claim with
      | none => exact (JobStep.claimRefused hclaim).can_advance hpc rfl rfl
      | some job => exact (JobStep.claimGranted hclaim).can_advance hpc rfl rfl
  | claimed j => exact JobStep.call.can_advance hpc rfl rfl
  | executing j =>
      exact (show JobStep w j (.finish w .returned) _ _ _ _ from .finish).can_advance hpc rfl rfl
  | storing j stores kills =>
      have hfits := hi.fits w j (congrArg WorkerPc.job? hpc)
      rw [hpc] at hfits
      obtain ⟨st, -, -, hends⟩ := hfits
      obtain ⟨x, xs, rfl⟩ := List.exists_cons_of_ne_nil hends.ne_nil
      exact (show JobStep w j (.storeAttr w 0) _ _ _ _ from .storeAttr).can_advance hpc rfl rfl

theorem Stopped.can_advance (h : Stopped cfg c s) (hw : (s.workers w).live = true) :
    ∃ a t, WorkerStep w a s t ∧ a.advances = true := by
  obtain ⟨a, t, hstep, ha, -⟩ := h.epoch.inv.can_advance h.queue_ne_nil hw
  exact ⟨a, t, hstep, ha⟩

theorem Stopped.run (h : Stopped cfg c s) (hrun : Run (Step cfg) s bs t)
    (hbs : ∀ a ∈ bs, a.ctl? = none) : Stopped cfg c t ∧ bs.countP Action.advances + t.work ≤ s.work := by
  have hquiet := hrun.labelled hbs
  have hstep : ∀ a s t, Stopped cfg c s → Step cfg a s t ∧ a.ctl? = none → Stopped cfg c t :=
    fun a s t hs hstep => (hs.step hstep.1 hstep.2).1
  refine ⟨hquiet.invariant hstep h, Run.progress_le ?_ (hquiet.guarded hstep h)⟩
  intro a s t ⟨⟨hstep, ha⟩, hs⟩
  exact (hs.step hstep ha).2

/-- **A shutdown drains.**  Once `shutdown` has returned, and until the next `start`, whatever the
requests and workers do: the submissions put and the steps workers take, stores of the functions
apart, are no more than `work`; a worker that has not ended can always go on; and the workers alone
can come to where all of them have ended. -/
theorem shutdown_drains (h : Reaches cfg as s) (hc : ControlledBy c as) (hidle : s.ctl c = .idle)
    (hr : s.running = false) {bs : List Action} {t : State} (hrun : Run (Step cfg) s bs t)
    (hbs : ∀ a ∈ bs, a.ctl? = none) :
    bs.countP Action.advances + t.work ≤ s.work
      ∧ (∀ w, (t.workers w).live = true → ∃ a u, WorkerStep w a t u ∧ a.advances = true)
      ∧ ∃ ds u, Run (fun a t u => ∃ w, WorkerStep w a t u) t ds u
        ∧ ∀ w, (u.workers w).live = false := by
  have hstopped : Stopped cfg c s := ⟨h.epoch hc, hidle, hr⟩
  obtain ⟨hend, hwork⟩ := hstopped.run hrun hbs
  have hgo : ∀ u, Stopped cfg c u → (∀ w, (u.workers w).live = false) ∨
      ∃ a v, (∃ w, WorkerStep w a u v) ∧ Stopped cfg c v ∧ v.work < u.work := by
    intro u hu
    by_cases hlive : ∃ w, (u.workers w).live = true
    · obtain ⟨w, hw⟩ := hlive
      obtain ⟨a, v, hstep, ha⟩ := hu.can_advance hw
      obtain ⟨hv, hle⟩ := hu.step (.worker w hstep) hstep.ctl?_eq
      rw [ha] at hle
      exact .inr ⟨a, v, ⟨w, hstep⟩, hv, Nat.lt_of_lt_of_le (Nat.lt_add_of_pos_left Nat.one_pos) hle⟩
    · exact .inl fun w => Bool.eq_false_iff.mpr fun hw => hlive ⟨w, hw⟩
  obtain ⟨ds, u, hds, -, hover⟩ := Run.exists_to hgo t hend
  exact ⟨hwork, fun w hw => hend.can_advance hw, ds, u, hds, hover⟩

/-- Two jobs wait when a one-worker manager has shut down, one of them not put yet. -/
theorem shutdown_drains_two : ∃ s, Reaches ⟨1, 3600, 0⟩
      [.start 0, .setRunning 0, .spawn 0, .append 0, .submit 0 0, .put 0, .submit 1 1,
        .shutdown 0, .cancel 0, .cancel 0, .cancelled 0, .sentinel 0, .sentinelsDone 0, .join 0,
        .joined 0, .clear 0] s ∧ s.work = 28 ∧
    ∃ ds u, Run (fun a t u => ∃ w, WorkerStep w a t u) s ds u ∧ ∀ w, (u.workers w).live = false := by
  obtain ⟨s, hs, hidle, hr, hwork⟩ := reaches_of_replay ⟨1, 3600, 0⟩
    [.start 0, .setRunning 0, .spawn 0, .append 0, .submit 0 0, .put 0, .submit 1 1,
      .shutdown 0, .cancel 0, .cancel 0, .cancelled 0, .sentinel 0, .sentinelsDone 0, .join 0,
      .joined 0, .clear 0]
    (fun s => s.ctl 0 = .idle ∧ s.running = false ∧ s.work = 28) (by decide +kernel)
  have hdrains := shutdown_drains hs (c := 0) (by simp [ControlledBy, Action.ctl?]) hidle hr
    (.nil s) (fun _ ha => absurd ha List.not_mem_nil)
  exact ⟨s, hs, hwork, hdrains.2.2⟩

end HandBrakeEncoder.Jobs
