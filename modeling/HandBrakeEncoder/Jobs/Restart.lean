/-
# `Jobs.Restart` — the worker bound across restarts

`shutdown` gives up on a `join` after two seconds, so a worker may outlive it
with its sentinel still in the queue, and the next `start` adds workers beside
it.  The bound holds all the same, by two accounts of one controller's cycle:

- every thread started and not yet given a sentinel back is matched by a sentinel
  in the queue or by one the controller still owes (`Epoch.balance`);
- a job that can still be claimed has enough sentinels ahead of it that, when it
  comes to the front, no more than `max(1, workers)` threads are left
  (`Epoch.ahead`).

Jobs of an earlier cycle do not count: they are over or cancelled before the next
`start` (`Epoch.stopped`), even one put late.
-/
import HandBrakeEncoder.Jobs.Shutdown
import HandBrakeEncoder.Lib.Markers

namespace HandBrakeEncoder.Jobs

open Lib

/-- Every controlling action of the run is one thread's. -/
def ControlledBy (c : CtlId) (as : List Action) : Prop :=
  ∀ a ∈ as, ∀ d, a.ctl? = some d → d = c

/-! ## The accounts -/

/-- The thread has started and has not taken a sentinel. -/
def WorkerPc.unretired : WorkerPc → Bool
  | .notStarted | .exited => false
  | _ => true

/-- Past the grant of its claim and not past the function. -/
def WorkerPc.active : WorkerPc → Bool
  | .claimed _ | .executing _ => true
  | _ => false

/-- The sentinels the controller has still to put for the threads it started. -/
def CtlPc.credit (threads : Nat) : CtlPc → Nat
  | .idle | .cancelling _ => threads
  | .starting | .joining _ | .clearing => 0
  | .spawning i => i
  | .appending i _ => i + 1
  | .sentinels k => threads - k

/-- The threads the `start` in progress has still to start. -/
def CtlPc.toSpawn (n : Nat) : CtlPc → Nat
  | .spawning i => n - i
  | .appending i _ => n - (i + 1)
  | _ => 0

/-- What the controller's place says about `_running` and `_threads`. -/
def CtlPc.Fits (n : Nat) (running : Bool) (threads : Nat) : CtlPc → Prop
  | .idle => threads = if running then n else 0
  | .starting => running = false ∧ threads = 0
  | .spawning i | .appending i _ => running = true ∧ threads = i ∧ i < n
  | .cancelling _ => running = false ∧ threads ≤ n
  | .sentinels k => running = false ∧ threads ≤ n ∧ k ≤ threads
  | .joining _ | .clearing => running = false

def State.unretired (s : State) : Nat := countBelow WorkerPc.unretired s.workers s.nextWorker

def State.active (s : State) : Nat := countBelow WorkerPc.active s.workers s.nextWorker

/-- The job can still be claimed. -/
def State.Fresh (s : State) (j : JobId) : Prop := (s.jobs j).cancelEvent = false

/-- The threads there are and those about to be started. -/
def State.load (cfg : Config) (c : CtlId) (s : State) : Nat :=
  s.unretired + (s.ctl c).toSpawn cfg.numWorkers

/-- What one controller keeps true of the manager. -/
structure Epoch (cfg : Config) (c : CtlId) (s : State) : Prop where
  inv : Inv s
  kept : Kept s
  fits : (s.ctl c).Fits cfg.numWorkers s.running s.threads.length
  balance : s.unretired = s.queue.count none + (s.ctl c).credit s.threads.length
  ahead : Behind s.Fresh (s.load cfg c - cfg.numWorkers) s.queue
  held : ∀ w j, s.workers w = .dequeued j ∨ s.workers w = .claiming j → s.Fresh j →
    s.load cfg c ≤ cfg.numWorkers
  active : s.active ≤ cfg.numWorkers
  stopped : s.running = false → ∀ j ∈ s.accepted, Covered c s j

theorem Epoch.init (cfg : Config) (c : CtlId) : Epoch cfg c .init where
  inv := Inv.init
  kept := fun _ hj => nomatch hj
  fits := rfl
  balance := rfl
  ahead := trivial
  held := fun _ _ hw => hw.elim nofun nofun
  active := Nat.zero_le _
  stopped := fun _ _ hj => nomatch hj

variable {cfg : Config} {s t : State} {as : List Action} {a : Action} {c : CtlId} {j : JobId}
  {w : WorkerId} {pc : WorkerPc}

theorem CtlPc.Fits.credit_le {n threads : Nat} {running : Bool} {p : CtlPc}
    (h : p.Fits n running threads) : p.credit threads + p.toSpawn n ≤ n := by
  cases p with
  | idle =>
      have : threads = if running then n else 0 := h
      show threads + 0 ≤ n
      split at this <;> omega
  | starting => exact Nat.zero_le n
  | spawning i =>
      obtain ⟨_, _, hlt⟩ := h
      show i + (n - i) ≤ n
      omega
  | appending i _ =>
      obtain ⟨_, _, hlt⟩ := h
      show i + 1 + (n - (i + 1)) ≤ n
      omega
  | cancelling _ => exact h.2
  | sentinels k =>
      obtain ⟨_, hle, _⟩ := h
      show threads - k + 0 ≤ n
      omega
  | joining _ => exact Nat.zero_le n
  | clearing => exact Nat.zero_le n

/-- There is a sentinel, in the queue or owed, for all threads but `max(1, workers)`. -/
theorem Epoch.load_le (h : Epoch cfg c s) :
    s.load cfg c ≤ s.queue.count none + cfg.numWorkers := by
  have hcredit := h.fits.credit_le
  have hbalance := h.balance
  rw [State.load]
  omega

theorem State.active_le_unretired (s : State) : s.active ≤ s.unretired :=
  countBelow_mono fun i _ hi => by
    cases hpc : s.workers i <;> first | rfl | (rw [hpc] at hi; cases hi)

/-- A step of a worker trades its place for another in any count of the workers. -/
theorem Inv.count_setWorker (hi : Inv s) (p : WorkerPc → Bool) (pc : WorkerPc)
    (hw : s.workers w ≠ .notStarted) :
    countBelow p (Function.update s.workers w pc) s.nextWorker + (p (s.workers w)).toNat
      = countBelow p s.workers s.nextWorker + (p pc).toNat := by
  refine countBelow_update (Nat.lt_of_not_le fun hle => ?_)
  exact hw (hi.fresh w hle)

/-- A job that can be claimed after a step could be before. -/
theorem Step.fresh_from (h : Step cfg a s t) (hi : Inv s) (hj : j ∈ s.accepted)
    (hf : t.Fresh j) : s.Fresh j := by
  refine Bool.eq_false_iff.mpr fun hc => ?_
  cases hf.symm.trans (h.cancelEvent hi hj hc)

/-- While the manager is stopped the accepted jobs stay covered. -/
theorem Epoch.stopped_step (h : Epoch cfg c s) (hstep : Step cfg a s t) (hr : s.running = false) :
    ∀ j ∈ t.accepted, Covered c t j := fun j hj =>
  have hold := hstep.accepted_stopped h.inv hr hj
  (h.stopped hr j hold).step hstep h.inv hold

/-! ## Clients -/

theorem ClientStep.workers (h : ClientStep cfg a s t) :
    t.workers = s.workers ∧ t.nextWorker = s.nextWorker := by
  cases h with
  | put _ => exact ⟨rfl, rfl⟩
  | get => exact ⟨rfl, rfl⟩
  | sweep => exact ⟨rfl, rfl⟩
  | @delete _ i =>
      rcases deleteBlock_state s i with h | ⟨-, h⟩
      · rw [h]
        exact ⟨rfl, rfl⟩
      · rw [h]
        exact ⟨rfl, rfl⟩
  | @submit _ created now =>
      rcases submitBlock_state cfg s created now with ⟨-, -, h⟩ | ⟨jobs, -, h⟩
      · rw [h]
        exact ⟨rfl, rfl⟩
      · rw [h]
        exact ⟨rfl, rfl⟩

theorem ClientStep.queue (h : ClientStep cfg a s t) :
    t.queue = s.queue ∨ ∃ j ∈ s.reserved, t.queue = s.queue ++ [some j] := by
  cases h with
  | put hj => exact .inr ⟨_, hj, rfl⟩
  | get => exact .inl rfl
  | sweep => exact .inl rfl
  | @delete _ i =>
      rcases deleteBlock_state s i with h | ⟨-, h⟩
      · rw [h]
        exact .inl rfl
      · rw [h]
        exact .inl rfl
  | @submit _ created now =>
      rcases submitBlock_state cfg s created now with ⟨-, -, h⟩ | ⟨jobs, -, h⟩
      · rw [h]
        exact .inl rfl
      · rw [h]
        exact .inl rfl

theorem Epoch.client (h : Epoch cfg c s) (hstep : ClientStep cfg a s t) : Epoch cfg c t := by
  have hi := h.inv
  have hs : Step cfg a s t := .client hstep
  obtain ⟨hctl, hrunning, hthreads⟩ := hstep.sameControl
  obtain ⟨hworkers, hnext⟩ := hstep.workers
  have hload : t.load cfg c = s.load cfg c := by
    unfold State.load State.unretired
    rw [hworkers, hnext, hctl]
  have hunretired : t.unretired = s.unretired := by
    unfold State.unretired
    rw [hworkers, hnext]
  have hold : ∀ j, some j ∈ s.queue → t.Fresh j → s.Fresh j :=
    fun j hj => hs.fresh_from hi (hi.placed_queue hj)
  refine
    { inv := hi.step hs, kept := h.kept.step hi hs, fits := ?_, balance := ?_, ahead := ?_
      held := ?_, active := ?_, stopped := ?_ }
  · rw [hctl, hrunning, hthreads]
    exact h.fits
  · rw [hunretired, hctl, hthreads, h.balance]
    rcases hstep.queue with hq | ⟨j, _, hq⟩
    · rw [hq]
    · rw [hq, List.count_append]
      rfl
  · rw [hload]
    rcases hstep.queue with hq | ⟨j, _, hq⟩
    · rw [hq]
      exact h.ahead.mono (Nat.le_refl _) hold
    · rw [hq]
      refine (h.ahead.mono (Nat.le_refl _) hold).snoc_some fun _ => ?_
      have := h.load_le
      omega
  · intro w j hw hfresh
    rw [hworkers] at hw
    have hheld : (s.workers w).job? = some j := by
      rcases hw with hw | hw <;> rw [hw] <;> rfl
    rw [hload]
    exact h.held w j hw (hs.fresh_from hi (hi.placed_worker hheld) hfresh)
  · unfold State.active
    rw [hworkers, hnext]
    exact h.active
  · intro hr
    exact h.stopped_step hs (hrunning ▸ hr)

/-! ## Workers -/

section JobStep

variable {pc' : WorkerPc} {job job' : Job}

theorem JobStep.unretired (h : JobStep w j a pc job pc' job') :
    pc.unretired = true ∧ pc'.unretired = true := by
  cases h with
  | @storeAttr _ _ ss kills _ =>
      refine ⟨rfl, ?_⟩
      cases ss with
      | nil => cases kills <;> rfl
      | cons _ _ => rfl
  | claimRefused _ => exact ⟨rfl, rfl⟩
  | claimGranted _ => exact ⟨rfl, rfl⟩
  | call => exact ⟨rfl, rfl⟩
  | fnStore _ => exact ⟨rfl, rfl⟩
  | finish => exact ⟨rfl, rfl⟩

theorem JobStep.ne_notStarted (h : JobStep w j a pc job pc' job') : pc ≠ .notStarted := by
  rintro rfl
  cases h

theorem JobStep.not_waiting (h : JobStep w j a pc job pc' job') (i : JobId) :
    pc' ≠ .dequeued i ∧ pc' ≠ .claiming i := by
  cases h with
  | @storeAttr _ _ ss kills _ =>
      cases ss with
      | nil => cases kills <;> exact ⟨nofun, nofun⟩
      | cons _ _ => exact ⟨nofun, nofun⟩
  | claimRefused _ => exact ⟨nofun, nofun⟩
  | claimGranted _ => exact ⟨nofun, nofun⟩
  | call => exact ⟨nofun, nofun⟩
  | fnStore _ => exact ⟨nofun, nofun⟩
  | finish => exact ⟨nofun, nofun⟩

/-- A worker becomes active by the grant of its claim only. -/
theorem JobStep.active_from (h : JobStep w j a pc job pc' job') :
    pc'.active.toNat ≤ pc.active.toNat ∨ pc = .claiming j ∧ job.cancelEvent = false := by
  cases h with
  | claimGranted hclaim => exact .inr ⟨rfl, Job.claim_not_cancelled hclaim⟩
  | @storeAttr _ _ ss kills _ =>
      refine .inl ?_
      cases ss with
      | nil => cases kills <;> exact Nat.zero_le _
      | cons _ _ => exact Nat.zero_le _
  | claimRefused _ => exact .inl (Nat.zero_le _)
  | call => exact .inl (Nat.le_refl _)
  | fnStore _ => exact .inl (Nat.le_refl _)
  | finish => exact .inl (Nat.zero_le _)

end JobStep

/-- A worker's step keeps the accounts when it takes `d` sentinels for `d` threads. -/
theorem Epoch.of_worker {d : Nat} (h : Epoch cfg c s) (hs : Step cfg a s t)
    (hsame : SameControl s t) (hacc : t.accepted = s.accepted)
    (hthreads : t.unretired + d = s.unretired)
    (htaken : t.queue.count none + d = s.queue.count none)
    (hqueue : ∀ j, some j ∈ t.queue → some j ∈ s.queue)
    (hahead : Behind s.Fresh (s.load cfg c - cfg.numWorkers - d) t.queue)
    (hheld : ∀ v j, t.workers v = .dequeued j ∨ t.workers v = .claiming j → s.Fresh j →
      (s.workers v = .dequeued j ∨ s.workers v = .claiming j) ∨ s.load cfg c ≤ cfg.numWorkers)
    (hactive : t.active ≤ cfg.numWorkers) : Epoch cfg c t := by
  have hi := h.inv
  have hi' := hi.step hs
  have hload : t.load cfg c + d = s.load cfg c := by
    unfold State.load
    rw [hsame.ctl]
    omega
  refine
    { inv := hi', kept := h.kept.step hi hs, fits := ?_, balance := ?_, ahead := ?_
      held := ?_, active := hactive
      stopped := fun hr => h.stopped_step hs (hsame.running ▸ hr) }
  · rw [hsame.ctl, hsame.running, hsame.threads]
    exact h.fits
  · have := h.balance
    rw [hsame.ctl, hsame.threads]
    omega
  · refine hahead.mono (by omega) fun j hj hfresh => ?_
    exact hs.fresh_from hi (hi.placed_queue (hqueue j hj)) hfresh
  · intro v j hv hfresh
    have hj : j ∈ s.accepted := by
      refine hacc ▸ hi'.placed_worker (w := v) ?_
      rcases hv with hv | hv <;> rw [hv] <;> rfl
    have hfresh' := hs.fresh_from hi hj hfresh
    have hle : s.load cfg c ≤ cfg.numWorkers := by
      rcases hheld v j hv hfresh' with hbefore | hle
      · exact h.held v j hbefore hfresh'
      · exact hle
    omega

theorem Epoch.takeSentinel (h : Epoch cfg c s) {rest : List (Option JobId)}
    (hw : s.workers w = .getting) (hq : s.queue = none :: rest) :
    Epoch cfg c ({ s with queue := rest }.setWorker w .exited) := by
  have hs : WorkerStep w (.takeSentinel w) s _ := .takeSentinel hw hq
  have hstarted : s.workers w ≠ .notStarted := hw ▸ nofun
  have hunretired := h.inv.count_setWorker WorkerPc.unretired .exited hstarted
  have hactive := h.inv.count_setWorker WorkerPc.active .exited hstarted
  rw [hw] at hunretired hactive
  have hahead := h.ahead
  rw [hq] at hahead
  refine h.of_worker (d := 1) (.worker w hs) hs.sameControl rfl hunretired ?_ ?_ hahead ?_ ?_
  · rw [hq, List.count_cons_self]
    rfl
  · exact fun j hj => hq ▸ List.mem_cons_of_mem _ hj
  · intro v j hv _
    rcases eq_or_ne v w with rfl | hvw
    · rw [State.setWorker_self] at hv
      exact hv.elim nofun nofun
    · rw [State.setWorker_ne _ _ hvw] at hv
      exact .inl hv
  · exact Nat.le_trans (Nat.le_of_eq hactive) h.active

theorem Epoch.takeJob (h : Epoch cfg c s) {rest : List (Option JobId)}
    (hw : s.workers w = .getting) (hq : s.queue = some j :: rest) :
    Epoch cfg c ({ s with queue := rest }.setWorker w (.dequeued j)) := by
  have hs : WorkerStep w (.takeJob w j) s _ := .takeJob hw hq
  have hstarted : s.workers w ≠ .notStarted := hw ▸ nofun
  have hunretired := h.inv.count_setWorker WorkerPc.unretired (.dequeued j) hstarted
  have hactive := h.inv.count_setWorker WorkerPc.active (.dequeued j) hstarted
  rw [hw] at hunretired hactive
  have hahead := h.ahead
  rw [hq] at hahead
  refine h.of_worker (d := 0) (.worker w hs) hs.sameControl rfl (Nat.succ.inj hunretired)
    ?_ ?_ hahead.2 ?_ ?_
  · rw [hq, List.count_cons_of_ne (show some j ≠ none from nofun)]
    rfl
  · exact fun i hi => hq ▸ List.mem_cons_of_mem _ hi
  · intro v i hv hfresh
    rcases eq_or_ne v w with rfl | hvw
    · -- the job came to the front: nothing is demanded of the queue any more
      rw [State.setWorker_self] at hv
      obtain rfl : j = i := by rcases hv with hv | hv <;> cases hv; rfl
      have := hahead.1 hfresh
      exact .inr (by omega)
    · rw [State.setWorker_ne _ _ hvw] at hv
      exact .inl hv
  · exact Nat.le_trans (Nat.le_of_eq hactive) h.active

theorem Epoch.decrement (h : Epoch cfg c s) (hw : s.workers w = .dequeued j) :
    Epoch cfg c ({ s with pending := s.pending - 1 }.setWorker w (.claiming j)) := by
  have hs : WorkerStep w (.decrement w) s _ := .decrement hw
  have hstarted : s.workers w ≠ .notStarted := hw ▸ nofun
  have hunretired := h.inv.count_setWorker WorkerPc.unretired (.claiming j) hstarted
  have hactive := h.inv.count_setWorker WorkerPc.active (.claiming j) hstarted
  rw [hw] at hunretired hactive
  refine h.of_worker (d := 0) (.worker w hs) hs.sameControl rfl (Nat.succ.inj hunretired) rfl
    (fun _ hj => hj) h.ahead ?_ (Nat.le_trans (Nat.le_of_eq hactive) h.active)
  intro v i hv _
  rcases eq_or_ne v w with rfl | hvw
  · rw [State.setWorker_self] at hv
    obtain rfl : j = i := by rcases hv with hv | hv <;> cases hv; rfl
    exact .inl (.inl hw)
  · rw [State.setWorker_ne _ _ hvw] at hv
    exact .inl hv

theorem Epoch.onJob {job : Job} (h : Epoch cfg c s)
    (hjob : JobStep w j a (s.workers w) (s.jobs j) pc job) :
    Epoch cfg c ((s.setJob j job).setWorker w pc) := by
  have hs : WorkerStep w a s _ := .onJob hjob
  have hi := h.inv
  have hstarted := hjob.ne_notStarted
  have hunretired := hi.count_setWorker WorkerPc.unretired pc hstarted
  have hactive := hi.count_setWorker WorkerPc.active pc hstarted
  rw [hjob.unretired.1, hjob.unretired.2] at hunretired
  have hsame : ((s.setJob j job).setWorker w pc).unretired + 0 = s.unretired :=
    Nat.succ.inj hunretired
  refine h.of_worker (d := 0) (.worker w hs) hs.sameControl rfl hsame rfl
    (fun _ hj => hj) h.ahead ?_ ?_
  · intro v i hv _
    rcases eq_or_ne v w with rfl | hvw
    · rw [State.setWorker_self] at hv
      exact hv.elim (fun hv => absurd hv (hjob.not_waiting i).1)
        (fun hv => absurd hv (hjob.not_waiting i).2)
    · rw [State.setWorker_ne _ _ hvw] at hv
      exact .inl hv
  · rcases hjob.active_from with hle | ⟨hclaiming, hfresh⟩
    · have hbefore : countBelow WorkerPc.active s.workers s.nextWorker ≤ cfg.numWorkers := h.active
      show countBelow WorkerPc.active (Function.update s.workers w pc) s.nextWorker ≤ _
      omega
    · -- a claim is granted while no more threads than workers are left
      have hload := h.held w j (.inr hclaiming) hfresh
      have hmost := ((s.setJob j job).setWorker w pc).active_le_unretired
      rw [State.load] at hload
      omega

theorem Epoch.worker (h : Epoch cfg c s) (hstep : WorkerStep w a s t) : Epoch cfg c t := by
  cases hstep with
  | takeSentinel hw hq => exact h.takeSentinel hw hq
  | takeJob hw hq => exact h.takeJob hw hq
  | decrement hw => exact h.decrement hw
  | onJob hjob => exact h.onJob hjob

/-! ## The controller -/

/-- Between the cancel loop and the next `start`, a job still queued cannot be claimed. -/
theorem Epoch.stale (h : Epoch cfg c s) (hr : s.running = false)
    (hctl : ∀ js, s.ctl c ≠ .cancelling js) (hj : j ∈ s.accepted) (hq : s.status j = .queued) :
    ¬ s.Fresh j := by
  intro hfresh
  rcases h.stopped hr j hj with (hterm | hcancel) | ⟨js, hjs, _⟩
  · rw [hq] at hterm
    cases hterm
  · cases hcancel.symm.trans hfresh
  · exact hctl js hjs

/-- A control step that starts no thread and does not let the manager run. -/
theorem Epoch.of_control (h : Epoch cfg c s) (hs : Step cfg a s t)
    (hworkers : t.workers = s.workers) (hnext : t.nextWorker = s.nextWorker)
    (hacc : t.accepted = s.accepted) (hqueue : t.queue = s.queue ∨ t.queue = s.queue ++ [none])
    (hspawn : (t.ctl c).toSpawn cfg.numWorkers = (s.ctl c).toSpawn cfg.numWorkers)
    (hfits : (t.ctl c).Fits cfg.numWorkers t.running t.threads.length)
    (hcredit : t.queue.count none + (t.ctl c).credit t.threads.length
      = s.queue.count none + (s.ctl c).credit s.threads.length)
    (hstopped : t.running = false → ∀ j ∈ t.accepted, Covered c t j) : Epoch cfg c t := by
  have hi := h.inv
  have hi' := hi.step hs
  have hload : t.load cfg c = s.load cfg c := by
    unfold State.load State.unretired
    rw [hworkers, hnext, hspawn]
  have hfresh : ∀ j ∈ t.accepted, t.Fresh j → s.Fresh j :=
    fun j hj => hs.fresh_from hi (hacc ▸ hj)
  refine
    { inv := hi', kept := h.kept.step hi hs, fits := hfits, balance := ?_, ahead := ?_
      held := ?_, active := ?_, stopped := hstopped }
  · rw [hcredit, ← h.balance]
    unfold State.unretired
    rw [hworkers, hnext]
  · rw [hload]
    have hmono : Behind t.Fresh (s.load cfg c - cfg.numWorkers) s.queue := by
      refine h.ahead.mono (Nat.le_refl _) fun j hj hf => hfresh j ?_ hf
      exact hacc ▸ hi.placed_queue hj
    rcases hqueue with hq | hq
    · exact hq ▸ hmono
    · exact hq ▸ hmono.snoc_none
  · intro v j hv hf
    rw [hworkers] at hv
    have hheld : (s.workers v).job? = some j := by
      rcases hv with hv | hv <;> rw [hv] <;> rfl
    rw [hload]
    exact h.held v j hv (hfresh j (hacc ▸ hi.placed_worker hheld) hf)
  · unfold State.active
    rw [hworkers, hnext]
    exact h.active

theorem State.setCtl_self (s : State) (c : CtlId) (p : CtlPc) : (s.setCtl c p).ctl c = p :=
  Function.update_self _ _ _

/-- A move of the thread that starts or stops, from one place to the next, with what it does. -/
theorem Epoch.of_move {p q : CtlPc} (h : Epoch cfg c s) (hs : Step cfg a s (t.setCtl c q))
    (hctl : s.ctl c = p) (hworkers : t.workers = s.workers) (hnext : t.nextWorker = s.nextWorker)
    (hacc : t.accepted = s.accepted) (hqueue : t.queue = s.queue ∨ t.queue = s.queue ++ [none])
    (hspawn : q.toSpawn cfg.numWorkers = p.toSpawn cfg.numWorkers)
    (hfits : p.Fits cfg.numWorkers s.running s.threads.length →
      q.Fits cfg.numWorkers t.running t.threads.length)
    (hcredit : t.queue.count none + q.credit t.threads.length
      = s.queue.count none + p.credit s.threads.length)
    (hstopped : t.running = false → ∀ j ∈ t.accepted, Covered c (t.setCtl c q) j) :
    Epoch cfg c (t.setCtl c q) := by
  subst hctl
  refine h.of_control hs hworkers hnext hacc hqueue ?_ ?_ ?_ hstopped
  · rw [State.setCtl_self, hspawn]
  · rw [State.setCtl_self]
    exact hfits h.fits
  · rw [State.setCtl_self]
    exact hcredit

theorem Epoch.setRunning (h : Epoch cfg c s) (hctl : s.ctl c = .starting) :
    Epoch cfg c ({ s with running := true }.setCtl c (.spawning 0)) := by
  have hs : Step cfg (.setRunning c) s _ := .control c (.setRunning hctl)
  have hi := h.inv
  have hfits := h.fits
  rw [hctl] at hfits
  obtain ⟨hr, hthreads⟩ := hfits
  have hstale : ∀ j ∈ s.accepted, s.status j = .queued → ¬ s.Fresh j :=
    fun j hj => h.stale hr (hctl ▸ nofun) hj
  have hbalance := h.balance
  rw [hctl] at hbalance
  refine
    { inv := hi.step hs, kept := h.kept.step hi hs, fits := ?_, balance := ?_, ahead := ?_
      held := ?_, active := h.active, stopped := nofun }
  · rw [State.setCtl_self]
    exact ⟨rfl, hthreads, cfg.numWorkers_pos⟩
  · rw [State.setCtl_self]
    exact hbalance
  · exact Behind.of_stale fun j hj => hstale j (hi.placed_queue hj) (hi.queued j hj)
  · intro v j hv hf
    have hheld : (s.workers v).job? = some j := by
      rcases hv with hv | hv <;> exact (congrArg WorkerPc.job? hv)
    refine absurd hf (hstale j (hi.placed_worker hheld) ?_)
    have hfit := hi.fits v j hheld
    rcases hv with hv | hv <;> exact (congrArg (WorkerPc.Fits (s.status j)) hv).mp hfit

theorem Epoch.spawn {i : Nat} (h : Epoch cfg c s) (hctl : s.ctl c = .spawning i) :
    Epoch cfg c (({ s with nextWorker := s.nextWorker + 1 }.setWorker s.nextWorker .getting).setCtl c
      (.appending i s.nextWorker)) := by
  have hs : Step cfg (.spawn c) s _ := .control c (.spawn hctl)
  have hi := h.inv
  have hfits := h.fits
  rw [hctl] at hfits
  obtain ⟨hr, hthreads, hlt⟩ := hfits
  have hbalance := h.balance
  rw [hctl] at hbalance
  have hcount : ∀ p : WorkerPc → Bool,
      countBelow p (Function.update s.workers s.nextWorker .getting) (s.nextWorker + 1)
        = countBelow p s.workers s.nextWorker + (p .getting).toNat := by
    intro p
    rw [countBelow_succ, countBelow_update_ge (Nat.le_refl _), Function.update_self]
  have hold : ∀ v j, Function.update s.workers s.nextWorker .getting v = .dequeued j ∨
      Function.update s.workers s.nextWorker .getting v = .claiming j →
      s.workers v = .dequeued j ∨ s.workers v = .claiming j := by
    intro v j hv
    rcases eq_or_ne v s.nextWorker with rfl | hne
    · rw [Function.update_self] at hv
      exact hv.elim nofun nofun
    · rwa [Function.update_of_ne hne] at hv
  have hload : State.load cfg c
      (({ s with nextWorker := s.nextWorker + 1 }.setWorker s.nextWorker .getting).setCtl c
        (.appending i s.nextWorker)) = s.load cfg c := by
    unfold State.load
    rw [State.setCtl_self, hctl]
    have hmore : countBelow WorkerPc.unretired (Function.update s.workers s.nextWorker .getting)
        (s.nextWorker + 1) = s.unretired + 1 := hcount WorkerPc.unretired
    show countBelow WorkerPc.unretired (Function.update s.workers s.nextWorker .getting)
        (s.nextWorker + 1) + (cfg.numWorkers - (i + 1)) = s.unretired + (cfg.numWorkers - i)
    omega
  refine
    { inv := hi.step hs, kept := h.kept.step hi hs, fits := ?_, balance := ?_, ahead := ?_
      held := ?_, active := ?_, stopped := ?_ }
  · rw [State.setCtl_self]
    exact ⟨hr, hthreads, hlt⟩
  · rw [State.setCtl_self]
    exact (hcount WorkerPc.unretired).trans (congrArg Nat.succ hbalance)
  · rw [hload]
    exact h.ahead
  · intro v j hv hf
    rw [hload]
    exact h.held v j (hold v j hv) hf
  · exact Nat.le_trans (Nat.le_of_eq (hcount WorkerPc.active)) h.active
  · intro hr'
    cases hr.symm.trans hr'

theorem Epoch.append {i : Nat} {v : WorkerId} (h : Epoch cfg c s)
    (hctl : s.ctl c = .appending i v) :
    Epoch cfg c ({ s with threads := s.threads ++ [v] }.setCtl c
      (if i + 1 < cfg.numWorkers then .spawning (i + 1) else .idle)) := by
  have hs : Step cfg (.append c) s _ := .control c (.append hctl)
  have hfits := h.fits
  rw [hctl] at hfits
  obtain ⟨hr, hthreads, hlt⟩ := hfits
  have hlen : (s.threads ++ [v]).length = i + 1 := by
    rw [List.length_append, hthreads]
    rfl
  refine h.of_move hs hctl rfl rfl rfl (.inl rfl) ?_ (fun _ => ?_) ?_
    fun hr' => nomatch hr.symm.trans hr'
  · split
    · rfl
    · show 0 = cfg.numWorkers - (i + 1)
      omega
  · split
    · rename_i hmore
      exact ⟨hr, hlen, hmore⟩
    · show (s.threads ++ [v]).length = if s.running then cfg.numWorkers else 0
      rw [hr, if_pos rfl, hlen]
      omega
  · split
    · rfl
    · show s.queue.count none + (s.threads ++ [v]).length = s.queue.count none + (i + 1)
      rw [hlen]

theorem Epoch.control (h : Epoch cfg c s) (hstep : ControlStep cfg c a s t) : Epoch cfg c t := by
  have hs : Step cfg a s t := .control c hstep
  have hfits := h.fits
  cases hstep with
  | startRunning _ _ => exact h
  | setRunning hctl => exact h.setRunning hctl
  | spawn hctl => exact h.spawn hctl
  | append hctl => exact h.append hctl
  | start hctl hr =>
      rw [hctl] at hfits
      have hnone : s.threads.length = 0 := by
        have : s.threads.length = if s.running then cfg.numWorkers else 0 := hfits
        rwa [hr] at this
      refine h.of_move hs hctl rfl rfl rfl (.inl rfl) rfl (fun _ => ⟨hr, hnone⟩) ?_ (h.stopped_step hs)
      show s.queue.count none + 0 = s.queue.count none + s.threads.length
      rw [hnone]
  | shutdown hctl =>
      rw [hctl] at hfits
      have hle : s.threads.length ≤ cfg.numWorkers := by
        have : s.threads.length = if s.running then cfg.numWorkers else 0 := hfits
        split at this <;> omega
      exact h.of_move hs hctl rfl rfl rfl (.inl rfl) rfl (fun _ => ⟨rfl, hle⟩) rfl
        fun _ => (Stopping.shutdown hs h.kept).1.covered
  | cancel hctl =>
      exact h.of_move hs hctl rfl rfl rfl (.inl rfl) rfl (fun hf => hf) rfl (h.stopped_step hs)
  | cancelled hctl =>
      exact h.of_move hs hctl rfl rfl rfl (.inl rfl) rfl (fun hf => ⟨hf.1, hf.2, Nat.zero_le _⟩) rfl
        (h.stopped_step hs)
  | @sentinel _ k hctl hk =>
      refine h.of_move hs hctl rfl rfl rfl (.inr rfl) rfl (fun hf => ⟨hf.1, hf.2.1, hk⟩) ?_
        (h.stopped_step hs)
      show (s.queue ++ [none]).count none + (s.threads.length - (k + 1))
        = s.queue.count none + (s.threads.length - k)
      rw [List.count_append, List.count_singleton_self]
      omega
  | @sentinelsDone _ k hctl hk =>
      refine h.of_move hs hctl rfl rfl rfl (.inl rfl) rfl (fun hf => hf.1) ?_ (h.stopped_step hs)
      show s.queue.count none + 0 = s.queue.count none + (s.threads.length - k)
      omega
  | join hctl _ =>
      exact h.of_move hs hctl rfl rfl rfl (.inl rfl) rfl (fun hf => hf) rfl (h.stopped_step hs)
  | joined hctl _ =>
      exact h.of_move hs hctl rfl rfl rfl (.inl rfl) rfl (fun hf => hf) rfl (h.stopped_step hs)
  | clear hctl =>
      rw [hctl] at hfits
      have hr : s.running = false := hfits
      refine h.of_move hs hctl rfl rfl rfl (.inl rfl) rfl (fun _ => ?_) rfl (h.stopped_step hs)
      show 0 = if s.running then cfg.numWorkers else 0
      rw [hr]
      rfl

/-! ## The bound -/

theorem Epoch.step (h : Epoch cfg c s) (hstep : Step cfg a s t)
    (ha : ∀ d, a.ctl? = some d → d = c) : Epoch cfg c t := by
  cases hstep with
  | client hstep => exact h.client hstep
  | worker w hstep => exact h.worker hstep
  | control d hstep =>
      obtain rfl := ha d hstep.ctl?_eq
      exact h.control hstep

theorem Reaches.epoch (h : Reaches cfg as s) (hc : ControlledBy c as) : Epoch cfg c s :=
  Run.invariant_of (R := Step cfg) (P := Epoch cfg c) (fun _ _ _ ha h hstep => h.step hstep ha) h hc
    (Epoch.init cfg c)

/-- **The worker bound.**  However often one controlling thread starts and shuts down
the manager, and however long a function ignores its cancellation, no more than
`max(1, workers)` submitted functions execute at the same time. -/
theorem executing_le_workers (h : Reaches cfg as s) (hc : ControlledBy c as)
    (ws : Finset WorkerId) (hws : ∀ w ∈ ws, ∃ j, s.workers w = .executing j) :
    (ws.card : ℤ) ≤ max 1 cfg.workers := by
  have hep := h.epoch hc
  have hcard : ws.card ≤ s.active := by
    refine card_le_countBelow ws fun w hw => ?_
    obtain ⟨j, hj⟩ := hws w hw
    exact ⟨hep.inv.started (congrArg WorkerPc.job? hj), by rw [hj]; rfl⟩
  have hle := hep.active
  rw [Config.numWorkers] at hle
  omega

/-- A job that ignores its cancellation outlives its shutdown; the worker of the next
cycle takes the sentinel left over, and only the old worker executes. -/
theorem executing_le_workers_restarted :
    ∃ s, Reaches ⟨1, 3600, 0⟩
        [.start 0, .setRunning 0, .spawn 0, .append 0, .submit 0 0, .put 0, .takeJob 0 0,
          .decrement 0, .claim 0 0, .call 0 0, .shutdown 0, .cancel 0, .cancelled 0, .sentinel 0,
          .sentinelsDone 0, .join 0, .joined 0, .clear 0, .start 0, .setRunning 0, .spawn 0,
          .append 0, .submit 0 0, .put 1, .takeSentinel 1] s ∧
      s.workers 0 = .executing 0 ∧ s.queue = [some 1] ∧
      (({0} : Finset WorkerId).card : ℤ) ≤ max 1 1 := by
  obtain ⟨s, hrun, hworker, hqueue⟩ := reaches_of_replay ⟨1, 3600, 0⟩
    [.start 0, .setRunning 0, .spawn 0, .append 0, .submit 0 0, .put 0, .takeJob 0 0,
      .decrement 0, .claim 0 0, .call 0 0, .shutdown 0, .cancel 0, .cancelled 0, .sentinel 0,
      .sentinelsDone 0, .join 0, .joined 0, .clear 0, .start 0, .setRunning 0, .spawn 0,
      .append 0, .submit 0 0, .put 1, .takeSentinel 1]
    (fun s => s.workers 0 = .executing 0 ∧ s.queue = [some 1]) (by decide +kernel)
  have hbound := executing_le_workers hrun (c := 0) (by simp [ControlledBy, Action.ctl?]) {0}
    fun w hw => ⟨0, Finset.mem_singleton.mp hw ▸ hworker⟩
  exact ⟨s, hrun, hworker, hqueue, hbound⟩

end HandBrakeEncoder.Jobs
