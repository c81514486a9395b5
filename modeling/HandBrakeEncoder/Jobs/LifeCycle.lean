/-
# `Jobs.LifeCycle` — one call per job, and a status that only moves forward

An accepted job is in at most one place: with the `submit` call that has not
put it yet, in the queue, or with one worker.  Its status is a function of that
place, and a job in no place is over.  `Inv` states this; every step of every
thread preserves it.

    submitting, queued, dequeued, claiming     QUEUED
    claimed, executing                         RUNNING
    storing                                    before its last store, an edge of the life cycle
    nowhere                                    terminal

From it come the edges a step can take, and two facts about a whole run: how
often a job's function was called, and what is left for a job whose cancel
event was set in time.
-/
import HandBrakeEncoder.Jobs.Manager

namespace HandBrakeEncoder.Jobs

open Lib JobStatus

/-! ## Where a job is -/

def WorkerPc.holds (j : JobId) (pc : WorkerPc) : Bool := pc.job? == some j

/-- How many places hold `j`. -/
def State.places (s : State) (j : JobId) : Nat :=
  s.reserved.count j + s.queue.count (some j) + countBelow (WorkerPc.holds j) s.workers s.nextWorker

def State.status (s : State) (j : JobId) : JobStatus := (s.jobs j).status

/-- The status the job of a worker at this place may have. -/
def WorkerPc.Fits (status : JobStatus) : WorkerPc → Prop
  | .dequeued _ | .claiming _ => status = .queued
  | .claimed _ | .executing _ => status = .running
  | .storing _ stores _ => ∃ st, Edge status st ∧ st.terminal = true ∧ EndsIn st stores
  | .notStarted | .getting | .exited | .died => True

/-- A job is in at most one place, and its status is what that place says. -/
structure Inv (s : State) : Prop where
  fresh : ∀ w, s.nextWorker ≤ w → s.workers w = .notStarted
  acceptedLt : ∀ j ∈ s.accepted, j < s.nextJob
  placesLe : ∀ j, s.places j ≤ 1
  placed : ∀ j, 0 < s.places j → j ∈ s.accepted
  ended : ∀ j ∈ s.accepted, s.places j = 0 → (s.status j).terminal = true
  reserved : ∀ j ∈ s.reserved, s.status j = .queued
  queued : ∀ j, some j ∈ s.queue → s.status j = .queued
  fits : ∀ w j, (s.workers w).job? = some j → (s.workers w).Fits (s.status j)

theorem WorkerPc.holds_iff {j : JobId} {pc : WorkerPc} : pc.holds j = true ↔ pc.job? = some j :=
  beq_iff_eq

theorem WorkerPc.holds_of_free {j : JobId} {pc : WorkerPc} (h : pc.job? = none) :
    pc.holds j = false := by
  rw [WorkerPc.holds, h]
  rfl

theorem WorkerPc.holds_of_ne {i j : JobId} {pc : WorkerPc} (h : pc.job? = some j) (hij : i ≠ j) :
    pc.holds i = false := by
  rw [WorkerPc.holds, h]
  exact beq_eq_false_iff_ne.mpr (fun hji => hij (Option.some.inj hji).symm)

namespace Inv

variable {s t : State} {j : JobId} {w : WorkerId}

theorem started (hi : Inv s) (hw : (s.workers w).job? = some j) : w < s.nextWorker := by
  refine Nat.lt_of_not_le (fun hle => ?_)
  rw [hi.fresh w hle] at hw
  cases hw

theorem placed_worker (hi : Inv s) (hw : (s.workers w).job? = some j) : j ∈ s.accepted := by
  have hpos := countBelow_pos (hi.started hw) (WorkerPc.holds_iff.mpr hw)
  exact hi.placed j (Nat.add_pos_right _ hpos)

theorem placed_reserved (hi : Inv s) (hj : j ∈ s.reserved) : j ∈ s.accepted := by
  have hpos := List.count_pos_iff.mpr hj
  exact hi.placed j (Nat.add_pos_left (Nat.add_pos_left hpos _) _)

theorem placed_queue (hi : Inv s) (hj : some j ∈ s.queue) : j ∈ s.accepted := by
  have hpos := List.count_pos_iff.mpr hj
  exact hi.placed j (Nat.add_pos_left (Nat.add_pos_right _ hpos) _)

/-- A job a worker holds is nowhere else. -/
theorem sole (hi : Inv s) (hw : (s.workers w).job? = some j) :
    j ∉ s.reserved ∧ some j ∉ s.queue ∧ ∀ w', (s.workers w').job? = some j → w' = w := by
  have hle := hi.placesLe j
  have hpos := countBelow_pos (hi.started hw) (WorkerPc.holds_iff.mpr hw)
  rw [State.places] at hle
  refine ⟨fun hj => ?_, fun hj => ?_, fun w' hw' => ?_⟩
  · have := List.count_pos_iff.mpr hj
    omega
  · have := List.count_pos_iff.mpr hj
    omega
  · exact eq_of_countBelow_le_one (by omega) (hi.started hw') (hi.started hw)
      (WorkerPc.holds_iff.mpr hw') (WorkerPc.holds_iff.mpr hw)

end Inv

theorem Inv.init : Inv .init where
  fresh := fun _ _ => rfl
  acceptedLt := fun _ h => nomatch h
  placesLe := fun _ => Nat.zero_le 1
  placed := fun _ h => nomatch h
  ended := fun _ h => nomatch h
  reserved := fun _ h => nomatch h
  queued := fun _ h => nomatch h
  fits := fun _ _ h => nomatch h

/-! ## Steps that move no job -/

/-- Between `s` and `t` no job changes its place, and no job more than its cancel event. -/
structure Still (s t : State) : Prop where
  accepted : t.accepted = s.accepted
  nextJob : s.nextJob ≤ t.nextJob
  jobs : ∀ j < s.nextJob, t.jobs j = s.jobs j ∨ t.jobs j = (s.jobs j).cancel
  reserved : t.reserved = s.reserved
  queue : ∀ j, t.queue.count (some j) = s.queue.count (some j)
  nextWorker : s.nextWorker ≤ t.nextWorker
  fresh : ∀ w, t.nextWorker ≤ w → t.workers w = .notStarted
  workers : ∀ w, t.workers w = s.workers w ∨
    (s.workers w).job? = none ∧ (t.workers w).job? = none

section Still

variable {cfg : Config} {s t : State} {a : Action} {j : JobId} {w : WorkerId}

theorem Still.status (h : Still s t) (hj : j < s.nextJob) : t.status j = s.status j := by
  unfold State.status
  rcases h.jobs j hj with hsame | hcancel
  · rw [hsame]
  · rw [hcancel]
    rfl

theorem Still.cancelEvent (h : Still s t) (hj : j < s.nextJob)
    (hc : (s.jobs j).cancelEvent = true) : (t.jobs j).cancelEvent = true := by
  rcases h.jobs j hj with hsame | hcancel
  · rw [hsame]
    exact hc
  · rw [hcancel]
    rfl

theorem Still.job? (h : Still s t) (w : WorkerId) : (t.workers w).job? = (s.workers w).job? := by
  rcases h.workers w with hw | ⟨hs, ht⟩
  · rw [hw]
  · rw [hs, ht]

theorem Still.workers_of_holds (h : Still s t) (hw : (t.workers w).job? = some j) :
    t.workers w = s.workers w := by
  rcases h.workers w with hw' | ⟨_, ht⟩
  · exact hw'
  · rw [ht] at hw
    cases hw

theorem Still.mem_queue (h : Still s t) (hj : some j ∈ t.queue) : some j ∈ s.queue :=
  List.count_pos_iff.mp (h.queue j ▸ List.count_pos_iff.mpr hj)

theorem Still.places (h : Still s t) (hi : Inv s) (j : JobId) : t.places j = s.places j := by
  have hmore : countBelow (WorkerPc.holds j) s.workers t.nextWorker
      = countBelow (WorkerPc.holds j) s.workers s.nextWorker :=
    countBelow_extend h.nextWorker fun w hw => by rw [hi.fresh w hw]; rfl
  have hsame : countBelow (WorkerPc.holds j) t.workers t.nextWorker
      = countBelow (WorkerPc.holds j) s.workers t.nextWorker :=
    countBelow_congr fun w _ => by rw [WorkerPc.holds, WorkerPc.holds, h.job? w]
  unfold State.places
  rw [h.reserved, h.queue j, hsame, hmore]

theorem Inv.still (hi : Inv s) (h : Still s t) : Inv t where
  fresh := h.fresh
  acceptedLt := fun j hj => Nat.lt_of_lt_of_le (hi.acceptedLt j (h.accepted ▸ hj)) h.nextJob
  placesLe := fun j => h.places hi j ▸ hi.placesLe j
  placed := fun j hj => h.accepted ▸ hi.placed j (h.places hi j ▸ hj)
  ended := fun j hj hp => by
    rw [h.accepted] at hj
    rw [h.status (hi.acceptedLt j hj)]
    exact hi.ended j hj (h.places hi j ▸ hp)
  reserved := fun j hj => by
    rw [h.reserved] at hj
    rw [h.status (hi.acceptedLt j (hi.placed_reserved hj))]
    exact hi.reserved j hj
  queued := fun j hj => by
    have hq := h.mem_queue hj
    rw [h.status (hi.acceptedLt j (hi.placed_queue hq))]
    exact hi.queued j hq
  fits := fun w j hw => by
    rw [h.job? w] at hw
    rw [h.status (hi.acceptedLt j (hi.placed_worker hw)),
      h.workers_of_holds ((h.job? w).trans hw)]
    exact hi.fits w j hw

/-- A step that leaves jobs, queue and workers as they are. -/
theorem Inv.still_same (hi : Inv s) (hacc : t.accepted = s.accepted) (hnext : t.nextJob = s.nextJob)
    (hjobs : ∀ j, t.jobs j = s.jobs j ∨ t.jobs j = (s.jobs j).cancel) (hres : t.reserved = s.reserved)
    (hq : t.queue = s.queue) (hn : t.nextWorker = s.nextWorker) (hw : t.workers = s.workers) :
    Still s t where
  accepted := hacc
  nextJob := hnext ▸ Nat.le_refl _
  jobs := fun j _ => hjobs j
  reserved := hres
  queue := fun j => by rw [hq]
  nextWorker := hn ▸ Nat.le_refl _
  fresh := fun w hle => by
    rw [hw]
    exact hi.fresh w (hn ▸ hle)
  workers := fun w => .inl (by rw [hw])

theorem cancel_jobs (s : State) (i j : JobId) :
    (s.setJob i (s.jobs i).cancel).jobs j = s.jobs j ∨
      (s.setJob i (s.jobs i).cancel).jobs j = (s.jobs j).cancel := by
  rcases eq_or_ne j i with rfl | hne
  · exact .inr (Function.update_self _ _ _)
  · exact .inl (Function.update_of_ne hne _ _)

theorem ControlStep.still {c : CtlId} (h : ControlStep cfg c a s t) (hi : Inv s) : Still s t := by
  cases h with
  | startRunning _ _ => exact hi.still_same rfl rfl (fun _ => .inl rfl) rfl rfl rfl rfl
  | start _ _ => exact hi.still_same rfl rfl (fun _ => .inl rfl) rfl rfl rfl rfl
  | setRunning _ => exact hi.still_same rfl rfl (fun _ => .inl rfl) rfl rfl rfl rfl
  | append _ => exact hi.still_same rfl rfl (fun _ => .inl rfl) rfl rfl rfl rfl
  | shutdown _ => exact hi.still_same rfl rfl (fun _ => .inl rfl) rfl rfl rfl rfl
  | cancel _ => exact hi.still_same rfl rfl (fun k => cancel_jobs s _ k) rfl rfl rfl rfl
  | cancelled _ => exact hi.still_same rfl rfl (fun _ => .inl rfl) rfl rfl rfl rfl
  | sentinelsDone _ _ => exact hi.still_same rfl rfl (fun _ => .inl rfl) rfl rfl rfl rfl
  | join _ _ => exact hi.still_same rfl rfl (fun _ => .inl rfl) rfl rfl rfl rfl
  | joined _ _ => exact hi.still_same rfl rfl (fun _ => .inl rfl) rfl rfl rfl rfl
  | clear _ => exact hi.still_same rfl rfl (fun _ => .inl rfl) rfl rfl rfl rfl
  | sentinel _ _ =>
      refine { hi.still_same (t := s) rfl rfl (fun _ => .inl rfl) rfl rfl rfl rfl with queue := ?_ }
      intro j
      show (s.queue ++ [none]).count (some j) = s.queue.count (some j)
      rw [List.count_append]
      rfl
  | spawn _ =>
      refine { hi.still_same (t := s) rfl rfl (fun _ => .inl rfl) rfl rfl rfl rfl with
        nextWorker := Nat.le_succ _
        fresh := fun w hw => ?_
        workers := fun w => ?_ }
      · exact (Function.update_of_ne (Nat.ne_of_gt hw) _ _).trans (hi.fresh w (Nat.le_of_succ_le hw))
      · rcases eq_or_ne w s.nextWorker with rfl | hne
        · refine .inr ⟨?_, ?_⟩
          · rw [hi.fresh _ (Nat.le_refl _)]
            rfl
          · show (Function.update s.workers s.nextWorker WorkerPc.getting s.nextWorker).job? = none
            rw [Function.update_self]
            rfl
        · exact .inl (Function.update_of_ne hne _ _)

end Still

/-! ## What a worker does to its job -/

section JobStep

variable {w : WorkerId} {j : JobId} {a : Action} {pc pc' : WorkerPc} {job job' : Job}

theorem JobStep.cancelEvent (h : JobStep w j a pc job pc' job') :
    job'.cancelEvent = job.cancelEvent := by
  cases h with
  | claimGranted hclaim =>
      rw [(Job.claim_some.mp hclaim).2]
  | fnStore _ => exact Job.store_cancelEvent _ _ _
  | storeAttr => exact Job.store_cancelEvent _ _ _
  | claimRefused _ => rfl
  | call => rfl
  | finish => rfl

theorem Job.claim_status (h : job.claim = some job') : job'.status = .running := by
  rw [(Job.claim_some.mp h).2]

theorem Job.claim_not_cancelled (h : job.claim = some job') : job.cancelEvent = false :=
  (Job.claim_some.mp h).1

/-- One store on the way to the status `st`: either it is the last and sets it, or
the status stays and the rest of the stores lead there. -/
theorem EndsIn.store {st : JobStatus} {x : AttrStore} {xs : List AttrStore}
    (h : EndsIn st (x :: xs)) (job : Job) (now : Clock) :
    (xs = [] ∧ (job.store now x).status = st) ∨
      ((job.store now x).status = job.status ∧ EndsIn st xs) := by
  cases h with
  | last => exact .inl ⟨rfl, rfl⟩
  | more hx hrest =>
      refine .inr ⟨?_, hrest⟩
      rw [Job.store_status]
      split
      · rename_i st'
        exact absurd rfl (hx st')
      · rfl

theorem EndsIn.ne_nil {st : JobStatus} {xs : List AttrStore} (h : EndsIn st xs) : xs ≠ [] := by
  cases h <;> exact List.cons_ne_nil _ _

/-- A worker's step changes the status of its job along an edge or not at all, and
leaves the worker at a place that fits, or free of a job that is over. -/
theorem JobStep.fits (h : JobStep w j a pc job pc' job') (hfits : pc.Fits job.status) :
    (job'.status = job.status ∨ Edge job.status job'.status) ∧
      (pc'.job? = some j ∧ pc'.Fits job'.status ∨
        pc'.job? = none ∧ job'.status.terminal = true) := by
  cases h with
  | claimRefused _ =>
      have hq : job.status = .queued := hfits
      exact ⟨.inl rfl, .inl ⟨rfl, .cancelled, hq ▸ .reject, rfl, rejectStores_endsIn⟩⟩
  | claimGranted hclaim =>
      have hq : job.status = .queued := hfits
      have hr := Job.claim_status hclaim
      exact ⟨.inr (hq ▸ hr ▸ .claim), .inl ⟨rfl, hr⟩⟩
  | call => exact ⟨.inl rfl, .inl ⟨rfl, hfits⟩⟩
  | @fnStore _ _ now hby =>
      have hsame := Job.store_status_byFunction hby job now
      exact ⟨.inl hsame, .inl ⟨rfl, hsame.trans hfits⟩⟩
  | @finish _ outcome =>
      have hr : job.status = .running := hfits
      obtain ⟨st, hedge, hends⟩ := terminalStores_endsIn outcome
      exact ⟨.inl rfl, .inl ⟨rfl, st, hr ▸ hedge, hedge.terminal_of_running, hends⟩⟩
  | @storeAttr _ x xs kills now =>
      obtain ⟨st, hedge, hterm, hends⟩ := hfits
      rcases hends.store job now with ⟨rfl, hst⟩ | ⟨hsame, hrest⟩
      · refine ⟨.inr (hst ▸ hedge), .inr ⟨?_, hst ▸ hterm⟩⟩
        cases kills <;> rfl
      · cases xs with
        | nil => exact absurd rfl hrest.ne_nil
        | cons y ys => exact ⟨.inl hsame, .inl ⟨rfl, st, hsame ▸ hedge, hterm, hrest⟩⟩

theorem JobStep.running_from (h : JobStep w j a pc job pc' job') (hfits : pc.Fits job.status)
    (hr : job'.status = .running) : job.status = .running ∨ job.cancelEvent = false := by
  cases h with
  | claimGranted hclaim => exact .inr (Job.claim_not_cancelled hclaim)
  | claimRefused _ => exact .inl hr
  | call => exact .inl hr
  | finish => exact .inl hr
  | @fnStore _ _ now hby => exact .inl ((Job.store_status_byFunction hby job now).symm.trans hr)
  | @storeAttr _ x xs kills now =>
      obtain ⟨st, _, hterm, hends⟩ := hfits
      rcases hends.store job now with ⟨_, hst⟩ | ⟨hsame, _⟩
      · rw [← hst, hr] at hterm
        cases hterm
      · exact .inl (hsame.symm.trans hr)

end JobStep

/-! ## The other steps -/

section Steps

variable {cfg : Config} {s t : State} {a : Action} {i j : JobId} {w : WorkerId} {pc : WorkerPc}
  {job : Job}

theorem State.setJob_status_self (s : State) (j : JobId) (job : Job) :
    (s.setJob j job).status j = job.status := by
  show (Function.update s.jobs j job j).status = job.status
  rw [Function.update_self]

theorem State.setJob_status_ne (s : State) (job : Job) (h : i ≠ j) :
    (s.setJob j job).status i = s.status i := by
  show (Function.update s.jobs j job i).status = (s.jobs i).status
  rw [Function.update_of_ne h]

theorem State.setJob_self (s : State) (j : JobId) : s.setJob j (s.jobs j) = s := by
  rw [State.setJob]
  rw [Function.update_eq_self]

theorem State.setWorker_self (s : State) (w : WorkerId) (pc : WorkerPc) :
    (s.setWorker w pc).workers w = pc := Function.update_self _ _ _

theorem State.setWorker_ne (s : State) {v : WorkerId} (pc : WorkerPc) (h : v ≠ w) :
    (s.setWorker w pc).workers v = s.workers v := Function.update_of_ne h _ _

/-- Where the holder of `j` keeps it or lets go of it, no other job changes its place. -/
theorem Inv.places_hold_ne (hi : Inv s) (hheld : (s.workers w).job? = some j) (p : ℤ)
    (hnext : pc.job? = some j ∨ pc.job? = none) (hij : i ≠ j) :
    (({ s with pending := p }.setJob j job).setWorker w pc).places i = s.places i := by
  have hcount := countBelow_update (p := WorkerPc.holds i) (f := s.workers) (v := pc)
    (hi.started hheld)
  have hpc : pc.holds i = false := by
    rcases hnext with hj | hj
    · exact WorkerPc.holds_of_ne hj hij
    · exact WorkerPc.holds_of_free hj
  rw [WorkerPc.holds_of_ne hheld hij, hpc] at hcount
  show s.reserved.count i + s.queue.count (some i)
    + countBelow (WorkerPc.holds i) (Function.update s.workers w pc) s.nextWorker = s.places i
  rw [State.places]
  omega

/-- And `j` has the place it had there, or none. -/
theorem Inv.places_hold_self (hi : Inv s) (hheld : (s.workers w).job? = some j) (p : ℤ) :
    (({ s with pending := p }.setJob j job).setWorker w pc).places j
      = s.places j - 1 + (pc.holds j).toNat := by
  have hcount := countBelow_update (p := WorkerPc.holds j) (f := s.workers) (v := pc)
    (hi.started hheld)
  have hpos := countBelow_pos (hi.started hheld) (WorkerPc.holds_iff.mpr hheld)
  have hle := hi.placesLe j
  rw [WorkerPc.holds_iff.mpr hheld, Bool.toNat_true] at hcount
  show s.reserved.count j + s.queue.count (some j)
    + countBelow (WorkerPc.holds j) (Function.update s.workers w pc) s.nextWorker = _
  rw [State.places] at hle ⊢
  omega

/-- The holder of `j` goes on with it or, when `j` is over, lets go of it. -/
theorem Inv.hold (hi : Inv s) (hheld : (s.workers w).job? = some j) (p : ℤ)
    (hnext : pc.job? = some j ∧ pc.Fits job.status ∨
      pc.job? = none ∧ job.status.terminal = true) :
    Inv (({ s with pending := p }.setJob j job).setWorker w pc) := by
  obtain ⟨hres, hqueue, hone⟩ := hi.sole hheld
  have hstarted := hi.started hheld
  have hstatus : ∀ i, i ≠ j →
      (({ s with pending := p }.setJob j job).setWorker w pc).status i = s.status i :=
    fun i hij => State.setJob_status_ne { s with pending := p } job hij
  have hself : (({ s with pending := p }.setJob j job).setWorker w pc).status j = job.status :=
    State.setJob_status_self { s with pending := p } j job
  have hother : ∀ i, i ≠ j →
      (({ s with pending := p }.setJob j job).setWorker w pc).places i = s.places i :=
    fun i hij => hi.places_hold_ne hheld p (hnext.imp And.left And.left) hij
  have hplaces := @Inv.places_hold_self s j w pc job hi hheld p
  have hle := hi.placesLe j
  have hbool := Bool.toNat_le (pc.holds j)
  refine
    { fresh := ?_, acceptedLt := hi.acceptedLt, placesLe := ?_, placed := ?_, ended := ?_
      reserved := ?_, queued := ?_, fits := ?_ }
  · intro v hv
    have hne : v ≠ w := fun hvw => Nat.not_le_of_lt hstarted (hvw ▸ hv)
    rw [State.setWorker_ne _ _ hne]
    exact hi.fresh v hv
  · intro i
    rcases eq_or_ne i j with rfl | hij
    · omega
    · exact hother i hij ▸ hi.placesLe i
  · intro i hpos
    rcases eq_or_ne i j with rfl | hij
    · exact hi.placed_worker hheld
    · exact hi.placed i (hother i hij ▸ hpos)
  · intro i hacc hzero
    rcases eq_or_ne i j with rfl | hij
    · rcases hnext with ⟨hjob, _⟩ | ⟨_, hterm⟩
      · rw [WorkerPc.holds_iff.mpr hjob, Bool.toNat_true] at hplaces
        omega
      · exact hself ▸ hterm
    · exact hstatus i hij ▸ hi.ended i hacc (hother i hij ▸ hzero)
  · intro i hi'
    have hij : i ≠ j := fun h => hres (h ▸ hi')
    exact hstatus i hij ▸ hi.reserved i hi'
  · intro i hi'
    have hij : i ≠ j := fun h => hqueue (h ▸ hi')
    exact hstatus i hij ▸ hi.queued i hi'
  · intro v i hv
    rcases eq_or_ne v w with rfl | hvw
    · rw [State.setWorker_self] at hv ⊢
      rcases hnext with ⟨hjob, hfits⟩ | ⟨hfree, _⟩
      · obtain rfl : j = i := Option.some.inj (hjob.symm.trans hv)
        exact hself ▸ hfits
      · rw [hfree] at hv
        cases hv
    · rw [State.setWorker_ne _ _ hvw] at hv ⊢
      have hij : i ≠ j := fun h => hvw (hone v (h ▸ hv))
      exact hstatus i hij ▸ hi.fits v i hv

/-- What a stored submission adds. -/
def State.accept (s : State) (created : Clock) : State :=
  { s with
    nextJob := s.nextJob + 1
    jobs := Function.update s.jobs s.nextJob { createdAt := created }
    pending := s.pending + 1
    store := s.store ++ [s.nextJob]
    accepted := s.accepted ++ [s.nextJob]
    reserved := s.nextJob :: s.reserved }

/-- What `submit` leaves: the fresh job accepted, or nothing but its id gone. -/
theorem submitBlock_state (cfg : Config) (s : State) (created now : Clock) :
    (s.running = true ∧ (0 < cfg.maxQueue → s.pending < cfg.maxQueue) ∧
      (submitBlock cfg s created now).2 = s.accept created) ∨
    ∃ jobs, (∀ j, j ≠ s.nextJob → jobs j = s.jobs j) ∧
      (submitBlock cfg s created now).2 = { s with nextJob := s.nextJob + 1, jobs } := by
  rw [submitBlock]
  split
  · exact .inr ⟨_, fun j hj => Function.update_of_ne hj _ _, rfl⟩
  · rename_i hrunning
    split
    · exact .inr ⟨s.jobs, fun _ _ => rfl, rfl⟩
    · rename_i hroom
      refine .inl ⟨by simpa using hrunning, fun hmax => ?_, rfl⟩
      exact lt_of_not_ge fun hfull => hroom ⟨hmax, hfull⟩

/-- What `delete` leaves: a stored job taken out and cancelled, or everything as it was. -/
theorem deleteBlock_state (s : State) (j : JobId) :
    (deleteBlock s j).2 = { s with
        store := s.store.erase j
        jobs := Function.update s.jobs j (s.jobs j).cancel } ∨
    (j ∉ s.store ∧ (deleteBlock s j).2 = s) := by
  rw [deleteBlock]
  split
  · exact .inl rfl
  · rename_i hnot
    exact .inr ⟨hnot, rfl⟩

/-- A client's step accepts a fresh job, puts an accepted one, or moves nothing. -/
theorem ClientStep.effect (h : ClientStep cfg a s t) (hi : Inv s) :
    (s.running = true ∧ ∃ created, t = s.accept created) ∨
      (∃ j ∈ s.reserved, t = { s with reserved := s.reserved.erase j, queue := s.queue ++ [some j] })
      ∨ Still s t := by
  cases h with
  | put hj => exact .inr (.inl ⟨_, hj, rfl⟩)
  | get => exact .inr (.inr (hi.still_same rfl rfl (fun _ => .inl rfl) rfl rfl rfl rfl))
  | sweep => exact .inr (.inr (hi.still_same rfl rfl (fun _ => .inl rfl) rfl rfl rfl rfl))
  | @delete _ i =>
      refine .inr (.inr ?_)
      rcases deleteBlock_state s i with h | ⟨-, h⟩
      · rw [h]
        exact hi.still_same rfl rfl (fun k => cancel_jobs s _ k) rfl rfl rfl rfl
      · rw [h]
        exact hi.still_same rfl rfl (fun _ => .inl rfl) rfl rfl rfl rfl
  | @submit _ created now =>
      rcases submitBlock_state cfg s created now with ⟨hrunning, -, h⟩ | ⟨jobs, hjobs, h⟩
      · exact .inl ⟨hrunning, created, h⟩
      · have hstill := hi.still_same (t := s) rfl rfl (fun _ => .inl rfl) rfl rfl rfl rfl
        rw [h]
        exact .inr (.inr { hstill with
          nextJob := Nat.le_succ _
          jobs := fun j hj => .inl (hjobs j (Nat.ne_of_lt hj)) })

theorem Inv.accept (hi : Inv s) (created : Clock) : Inv (s.accept created) := by
  have hnot : s.nextJob ∉ s.accepted := fun h => Nat.lt_irrefl _ (hi.acceptedLt _ h)
  have hzero : s.places s.nextJob = 0 :=
    Nat.eq_zero_of_not_pos (fun h => hnot (hi.placed _ h))
  have hself : (s.accept created).places s.nextJob = 1 := by
    show (s.nextJob :: s.reserved).count s.nextJob + s.queue.count (some s.nextJob)
      + countBelow (WorkerPc.holds s.nextJob) s.workers s.nextWorker = 1
    rw [List.count_cons_self]
    rw [State.places] at hzero
    omega
  have hother : ∀ i, i ≠ s.nextJob → (s.accept created).places i = s.places i := by
    intro i hne
    show (s.nextJob :: s.reserved).count i + s.queue.count (some i)
      + countBelow (WorkerPc.holds i) s.workers s.nextWorker = s.places i
    rw [List.count_cons_of_ne (Ne.symm hne)]
    rfl
  have hstatus : ∀ i ∈ s.accepted, (s.accept created).status i = s.status i := by
    intro i hacc
    have hne : i ≠ s.nextJob := fun h => hnot (h ▸ hacc)
    exact s.setJob_status_ne { createdAt := created } hne
  have hnew : (s.accept created).status s.nextJob = .queued :=
    s.setJob_status_self s.nextJob { createdAt := created }
  refine
    { fresh := hi.fresh, acceptedLt := ?_, placesLe := ?_, placed := ?_, ended := ?_
      reserved := ?_, queued := ?_, fits := ?_ }
  · intro i hacc
    rcases List.mem_append.mp hacc with hold | hnew'
    · exact Nat.lt_succ_of_lt (hi.acceptedLt i hold)
    · exact List.mem_singleton.mp hnew' ▸ Nat.lt_succ_self _
  · intro i
    rcases eq_or_ne i s.nextJob with rfl | hne
    · exact hself ▸ Nat.le_refl 1
    · exact hother i hne ▸ hi.placesLe i
  · intro i hpos
    rcases eq_or_ne i s.nextJob with rfl | hne
    · exact List.mem_append.mpr (.inr (List.mem_singleton.mpr rfl))
    · exact List.mem_append.mpr (.inl (hi.placed i (hother i hne ▸ hpos)))
  · intro i hacc hz
    rcases List.mem_append.mp hacc with hold | hnew'
    · have hne : i ≠ s.nextJob := fun h => hnot (h ▸ hold)
      exact hstatus i hold ▸ hi.ended i hold (hother i hne ▸ hz)
    · rw [List.mem_singleton.mp hnew', hself] at hz
      cases hz
  · intro i hres
    rcases List.mem_cons.mp hres with rfl | hold
    · exact hnew
    · exact hstatus i (hi.placed_reserved hold) ▸ hi.reserved i hold
  · intro i hq
    exact hstatus i (hi.placed_queue hq) ▸ hi.queued i hq
  · intro v i hv
    exact hstatus i (hi.placed_worker hv) ▸ hi.fits v i hv

theorem Inv.put (hi : Inv s) (hj : j ∈ s.reserved) :
    Inv { s with reserved := s.reserved.erase j, queue := s.queue ++ [some j] } := by
  have hplaces : ∀ i, State.places
      { s with reserved := s.reserved.erase j, queue := s.queue ++ [some j] } i = s.places i := by
    intro i
    show (s.reserved.erase j).count i + (s.queue ++ [some j]).count (some i)
      + countBelow (WorkerPc.holds i) s.workers s.nextWorker = s.places i
    rw [List.count_append, List.count_singleton]
    rw [State.places]
    rcases eq_or_ne i j with rfl | hij
    · have := List.count_pos_iff.mpr hj
      rw [List.count_erase_self, beq_self_eq_true, if_pos rfl]
      omega
    · rw [List.count_erase_of_ne hij, if_neg (by simpa using hij.symm)]
      omega
  exact
    { fresh := hi.fresh
      acceptedLt := hi.acceptedLt
      placesLe := fun i => hplaces i ▸ hi.placesLe i
      placed := fun i hpos => hi.placed i (hplaces i ▸ hpos)
      ended := fun i hacc hz => hi.ended i hacc (hplaces i ▸ hz)
      reserved := fun i hres => hi.reserved i (List.mem_of_mem_erase hres)
      queued := fun i hq => by
        rcases List.mem_append.mp hq with hold | hnew
        · exact hi.queued i hold
        · obtain rfl : i = j := Option.some.inj (List.mem_singleton.mp hnew)
          exact hi.reserved i hj
      fits := hi.fits }

theorem Inv.takeJob (hi : Inv s) {rest : List (Option JobId)} (hw : s.workers w = .getting)
    (hq : s.queue = some j :: rest) :
    Inv ({ s with queue := rest }.setWorker w (.dequeued j)) := by
  have hstarted : w < s.nextWorker := by
    refine Nat.lt_of_not_le (fun hle => ?_)
    rw [hi.fresh w hle] at hw
    cases hw
  have hplaces : ∀ i,
      ({ s with queue := rest }.setWorker w (.dequeued j)).places i = s.places i := by
    intro i
    have hc := countBelow_update (p := WorkerPc.holds i) (f := s.workers) (v := .dequeued j) hstarted
    rw [hw, WorkerPc.holds_of_free (show WorkerPc.getting.job? = none from rfl)] at hc
    show s.reserved.count i + rest.count (some i)
      + countBelow (WorkerPc.holds i) (Function.update s.workers w (.dequeued j)) s.nextWorker
        = s.places i
    rw [State.places]
    rw [hq]
    rcases eq_or_ne i j with rfl | hij
    · rw [List.count_cons_self]
      rw [show WorkerPc.holds i (.dequeued i) = true from WorkerPc.holds_iff.mpr rfl] at hc
      simp only [Bool.toNat_true, Bool.toNat_false] at hc
      omega
    · rw [List.count_cons_of_ne (fun h => hij (Option.some.inj h).symm)]
      rw [WorkerPc.holds_of_ne (show (WorkerPc.dequeued j).job? = some j from rfl) hij] at hc
      omega
  refine
    { fresh := ?_, acceptedLt := hi.acceptedLt
      placesLe := fun i => hplaces i ▸ hi.placesLe i
      placed := fun i hpos => hi.placed i (hplaces i ▸ hpos)
      ended := fun i hacc hz => hi.ended i hacc (hplaces i ▸ hz)
      reserved := hi.reserved
      queued := fun i hmem => hi.queued i (hq ▸ List.mem_cons_of_mem _ hmem)
      fits := ?_ }
  · intro v hv
    have hne : v ≠ w := fun h => Nat.not_le_of_lt hstarted (h ▸ hv)
    rw [State.setWorker_ne _ _ hne]
    exact hi.fresh v hv
  · intro v i hv
    rcases eq_or_ne v w with rfl | hvw
    · rw [State.setWorker_self] at hv ⊢
      obtain rfl : j = i := Option.some.inj hv
      exact hi.queued j (hq ▸ List.mem_cons_self)
    · rw [State.setWorker_ne _ _ hvw] at hv ⊢
      exact hi.fits v i hv

theorem WorkerStep.inv (h : WorkerStep w a s t) (hi : Inv s) : Inv t := by
  cases h with
  | takeJob hw hq => exact hi.takeJob hw hq
  | takeSentinel hw hq =>
      rename_i rest
      refine hi.still { hi.still_same (t := s) rfl rfl (fun _ => .inl rfl) rfl rfl rfl rfl with
        queue := fun j => ?_, fresh := fun v hv => ?_, workers := fun v => ?_ }
      · show rest.count (some j) = s.queue.count (some j)
        rw [hq, List.count_cons_of_ne (show none ≠ some j from nofun)]
      · have hne : v ≠ w := by
          rintro rfl
          rw [hi.fresh v hv] at hw
          cases hw
        rw [State.setWorker_ne _ _ hne]
        exact hi.fresh v hv
      · rcases eq_or_ne v w with rfl | hne
        · refine .inr ⟨congrArg WorkerPc.job? hw, ?_⟩
          rw [State.setWorker_self]
          rfl
        · exact .inl (State.setWorker_ne _ _ hne)
  | @decrement _ j hw =>
      have hheld : (s.workers w).job? = some j := congrArg WorkerPc.job? hw
      have hfits : WorkerPc.Fits (s.status j) (.claiming j) := by
        have := hi.fits w j hheld
        rw [hw] at this
        exact this
      have hnext : Inv (({ s with pending := s.pending - 1 }.setJob j (s.jobs j)).setWorker w
          (.claiming j)) := hi.hold hheld (s.pending - 1) (.inl ⟨rfl, hfits⟩)
      rwa [State.setJob_self { s with pending := s.pending - 1 } j] at hnext
  | onJob hstep =>
      exact hi.hold hstep.holds s.pending (hstep.fits (hi.fits w _ hstep.holds)).2

/-- Every step of every thread keeps the invariant. -/
theorem Inv.step (hi : Inv s) (h : Step cfg a s t) : Inv t := by
  cases h with
  | client h =>
      rcases h.effect hi with ⟨_, created, rfl⟩ | ⟨j, hj, rfl⟩ | hstill
      · exact hi.accept created
      · exact hi.put hj
      · exact hi.still hstill
  | worker w h => exact h.inv hi
  | control c h => exact hi.still (h.still hi)

theorem Reaches.inv {as : List Action} (h : Reaches cfg as s) : Inv s :=
  Run.invariant (fun _ _ _ hi hs => hi.step hs) h Inv.init

/-! ## What a step does to an accepted job -/

theorem Step.accepted_mono (h : Step cfg a s t) (hi : Inv s) (hj : j ∈ s.accepted) :
    j ∈ t.accepted := by
  cases h with
  | client h =>
      rcases h.effect hi with ⟨_, created, rfl⟩ | ⟨_, _, rfl⟩ | hstill
      · exact List.mem_append_left _ hj
      · exact hj
      · exact hstill.accepted ▸ hj
  | worker w h => cases h <;> exact hj
  | control c h => exact (h.still hi).accepted ▸ hj

/-- Ids are drawn in order. -/
theorem Step.nextJob_le (h : Step cfg a s t) (hi : Inv s) : s.nextJob ≤ t.nextJob := by
  cases h with
  | client h =>
      rcases h.effect hi with ⟨_, created, rfl⟩ | ⟨_, _, rfl⟩ | hstill
      · exact Nat.le_succ _
      · exact Nat.le_refl _
      · exact hstill.nextJob
  | worker w h => cases h <;> exact Nat.le_refl _
  | control c h => exact (h.still hi).nextJob

/-- A job becomes accepted by a stored submission, which draws its id. -/
theorem Step.accepted_new (h : Step cfg a s t) (hi : Inv s) (hj : j ∈ t.accepted)
    (hnew : j ∉ s.accepted) :
    s.running = true ∧ j = s.nextJob ∧ ∃ created, t = s.accept created := by
  cases h with
  | client h =>
      rcases h.effect hi with ⟨hrunning, created, rfl⟩ | ⟨_, _, rfl⟩ | hstill
      · rcases List.mem_append.mp hj with hold | hmem
        · exact absurd hold hnew
        · exact ⟨hrunning, List.mem_singleton.mp hmem, created, rfl⟩
      · exact absurd hj hnew
      · exact absurd (hstill.accepted ▸ hj) hnew
  | worker w h => cases h <;> exact absurd hj hnew
  | control c h => exact absurd ((h.still hi).accepted ▸ hj) hnew

/-- An accepted job starts out queued. -/
theorem Step.queued_new (h : Step cfg a s t) (hi : Inv s) (hj : j ∈ t.accepted)
    (hnew : j ∉ s.accepted) : t.status j = .queued := by
  obtain ⟨_, rfl, created, rfl⟩ := h.accepted_new hi hj hnew
  exact s.setJob_status_self s.nextJob { createdAt := created }

/-- An accepted job is left alone, has its cancel event set, or is worked on by its worker. -/
theorem Step.jobs (h : Step cfg a s t) (hi : Inv s) (hj : j ∈ s.accepted) :
    t.jobs j = s.jobs j ∨ t.jobs j = (s.jobs j).cancel ∨
      ∃ w pc, JobStep w j a (s.workers w) (s.jobs j) pc (t.jobs j) := by
  have hlt := hi.acceptedLt j hj
  cases h with
  | client h =>
      rcases h.effect hi with ⟨_, created, rfl⟩ | ⟨_, _, rfl⟩ | hstill
      · exact .inl (Function.update_of_ne (Nat.ne_of_lt hlt) _ _)
      · exact .inl rfl
      · exact (hstill.jobs j hlt).imp_right .inl
  | control c h => exact ((h.still hi).jobs j hlt).imp_right .inl
  | worker w h =>
      cases h with
      | takeSentinel _ _ => exact .inl rfl
      | takeJob _ _ => exact .inl rfl
      | decrement _ => exact .inl rfl
      | @onJob _ _ i pc job hstep =>
          rcases eq_or_ne j i with rfl | hne
          · refine .inr (.inr ⟨w, pc, ?_⟩)
            show JobStep w j a (s.workers w) (s.jobs j) pc (Function.update s.jobs j job j)
            rw [Function.update_self]
            exact hstep
          · exact .inl (Function.update_of_ne hne _ _)

/-- The status of an accepted job stays or moves along an edge of the life cycle. -/
theorem Step.status (h : Step cfg a s t) (hi : Inv s) (hj : j ∈ s.accepted) :
    t.status j = s.status j ∨ Edge (s.status j) (t.status j) := by
  rcases h.jobs hi hj with hsame | hcancel | ⟨w, pc, hstep⟩
  · exact .inl (congrArg Job.status hsame)
  · refine .inl ?_
    rw [State.status, hcancel]
    rfl
  · exact (hstep.fits (hi.fits w j hstep.holds)).1

/-- A cancel event once set stays set. -/
theorem Step.cancelEvent (h : Step cfg a s t) (hi : Inv s) (hj : j ∈ s.accepted)
    (hc : (s.jobs j).cancelEvent = true) : (t.jobs j).cancelEvent = true := by
  rcases h.jobs hi hj with hsame | hcancel | ⟨w, pc, hstep⟩
  · exact hsame ▸ hc
  · rw [hcancel]
    rfl
  · exact hstep.cancelEvent.trans hc

/-- A job starts to run only while its cancel event is not set. -/
theorem Step.running_from (h : Step cfg a s t) (hi : Inv s) (hj : j ∈ s.accepted)
    (hr : t.status j = .running) : s.status j = .running ∨ (s.jobs j).cancelEvent = false := by
  rcases h.jobs hi hj with hsame | hcancel | ⟨w, pc, hstep⟩
  · exact .inl ((congrArg Job.status hsame).symm.trans hr)
  · rw [State.status, hcancel] at hr
    exact .inl hr
  · exact hstep.running_from (hi.fits w j hstep.holds) hr

end Steps

/-! ## At most one call -/

/-- The action invokes the function of `j`. -/
def Action.isCall (j : JobId) : Action → Bool
  | .call _ i => i == j
  | _ => false

/-- How often the function of `j` was invoked, by any worker. -/
def calls (j : JobId) (as : List Action) : Nat := as.countP (Action.isCall j)

theorem calls_snoc (j : JobId) (as : List Action) (a : Action) :
    calls j (as ++ [a]) = calls j as + (a.isCall j).toNat := by
  rw [calls]
  rw [List.countP_append, List.countP_singleton]
  cases a.isCall j <;> rfl

/-- The function of `j` may still be called. -/
def State.Uncalled (s : State) (j : JobId) : Prop :=
  j ∉ s.accepted ∨ s.status j = .queued ∨ ∃ w, s.workers w = .claimed j

section Calls

variable {cfg : Config} {s t : State} {as : List Action} {a : Action} {i j : JobId} {w : WorkerId}
  {pc pc' : WorkerPc} {job job' : Job}

theorem ClientStep.not_call (h : ClientStep cfg a s t) : a.isCall j = false := by
  cases h <;> rfl

theorem ControlStep.not_call {c : CtlId} (h : ControlStep cfg c a s t) : a.isCall j = false := by
  cases h <;> rfl

theorem JobStep.call_claimed (h : JobStep w i a pc job pc' job') (hcall : a.isCall j = true) :
    pc = .claimed j ∧ pc' = .executing j := by
  cases h with
  | call =>
      obtain rfl : i = j := beq_iff_eq.mp hcall
      exact ⟨rfl, rfl⟩
  | claimRefused _ => cases hcall
  | claimGranted _ => cases hcall
  | fnStore _ => cases hcall
  | finish => cases hcall
  | storeAttr => cases hcall

/-- A worker gets to `claimed` by the grant of its own claim only. -/
theorem JobStep.claimed_from (h : JobStep w i a pc job pc' job') (hpc : pc' = .claimed j) :
    pc = .claiming j := by
  cases h with
  | claimGranted _ =>
      obtain rfl := WorkerPc.claimed.inj hpc
      rfl
  | claimRefused _ => cases hpc
  | call => cases hpc
  | fnStore _ => cases hpc
  | finish => cases hpc
  | @storeAttr _ _ xs kills _ =>
      cases xs with
      | nil => cases kills <;> cases hpc
      | cons _ _ => cases hpc

theorem Step.claimed_from (h : Step cfg a s t) (hi : Inv s) {v : WorkerId}
    (hv : t.workers v = .claimed j) : s.workers v = .claimed j ∨ s.workers v = .claiming j := by
  cases h with
  | client h =>
      rcases h.effect hi with ⟨_, created, rfl⟩ | ⟨_, _, rfl⟩ | hstill
      · exact .inl hv
      · exact .inl hv
      · exact .inl ((hstill.workers_of_holds (congrArg WorkerPc.job? hv)).symm.trans hv)
  | control c h =>
      exact .inl (((h.still hi).workers_of_holds (congrArg WorkerPc.job? hv)).symm.trans hv)
  | worker w h =>
      rcases eq_or_ne v w with rfl | hvw
      · cases h with
        | takeSentinel _ _ => cases (State.setWorker_self _ _ _).symm.trans hv
        | takeJob _ _ => cases (State.setWorker_self _ _ _).symm.trans hv
        | decrement _ => cases (State.setWorker_self _ _ _).symm.trans hv
        | onJob hstep => exact .inr (hstep.claimed_from ((State.setWorker_self _ _ _).symm.trans hv))
      · cases h with
        | takeSentinel _ _ => exact .inl ((State.setWorker_ne _ _ hvw).symm.trans hv)
        | takeJob _ _ => exact .inl ((State.setWorker_ne _ _ hvw).symm.trans hv)
        | decrement _ => exact .inl ((State.setWorker_ne _ _ hvw).symm.trans hv)
        | onJob _ => exact .inl ((State.setWorker_ne _ _ hvw).symm.trans hv)

/-- Once no call is left, none comes back. -/
theorem Step.uncalled (h : Step cfg a s t) (hi : Inv s) (hu : t.Uncalled j) : s.Uncalled j := by
  by_cases hacc : j ∈ s.accepted
  · rcases hu with hno | hq | ⟨v, hv⟩
    · exact absurd (h.accepted_mono hi hacc) hno
    · rcases h.status hi hacc with hsame | hedge
      · exact .inr (.inl (hsame.symm.trans hq))
      · exact absurd hq hedge.ne_queued
    · rcases h.claimed_from hi hv with hclaimed | hclaiming
      · exact .inr (.inr ⟨v, hclaimed⟩)
      · have hfits := hi.fits v j (congrArg WorkerPc.job? hclaiming)
        rw [hclaiming] at hfits
        exact .inr (.inl hfits)
  · exact .inl hacc

theorem Inv.not_uncalled (hi : Inv s) (hw : s.workers w = .executing j) : ¬ s.Uncalled j := by
  have hheld : (s.workers w).job? = some j := congrArg WorkerPc.job? hw
  rintro (hno | hq | ⟨v, hv⟩)
  · exact hno (hi.placed_worker hheld)
  · have hfits := hi.fits w j hheld
    rw [hw] at hfits
    cases hfits.symm.trans hq
  · have hvw := (hi.sole hheld).2.2 v (congrArg WorkerPc.job? hv)
    rw [hvw, hw] at hv
    cases hv

/-- A call is made by a worker that has claimed the job, and takes it to `executing`. -/
theorem Step.call_claimed (h : Step cfg a s t) (hcall : a.isCall j = true) :
    ∃ w, s.workers w = .claimed j ∧ t.workers w = .executing j := by
  cases h with
  | client h => exact absurd (h.not_call.symm.trans hcall) Bool.false_ne_true
  | control c h => exact absurd (h.not_call.symm.trans hcall) Bool.false_ne_true
  | worker w h =>
      cases h with
      | takeSentinel _ _ => cases hcall
      | takeJob _ _ => cases hcall
      | decrement _ => cases hcall
      | onJob hstep =>
          obtain ⟨hclaimed, hexec⟩ := hstep.call_claimed hcall
          exact ⟨w, hclaimed, (State.setWorker_self _ _ _).trans hexec⟩

/-- In any run the function of a job is invoked at most once, and not while it may
still be called. -/
theorem Reaches.calls_le_one (h : Reaches cfg as s) (j : JobId) :
    calls j as ≤ 1 ∧ (s.Uncalled j → calls j as = 0) := by
  suffices hinv : Inv s ∧ calls j as ≤ 1 ∧ (s.Uncalled j → calls j as = 0) from hinv.2
  refine Run.trace (P := fun as s => Inv s ∧ calls j as ≤ 1 ∧ (s.Uncalled j → calls j as = 0))
    ?_ h ⟨Inv.init, Nat.zero_le 1, fun _ => rfl⟩
  intro as a s t ⟨hi, hle, hnone⟩ hstep
  refine ⟨hi.step hstep, ?_⟩
  rw [calls_snoc]
  cases hcall : a.isCall j with
  | false => exact ⟨hle, fun hu => hnone (hstep.uncalled hi hu)⟩
  | true =>
      -- the call spends the only one there is
      obtain ⟨w, hclaimed, hexecuting⟩ := hstep.call_claimed hcall
      rw [hnone (.inr (.inr ⟨w, hclaimed⟩))]
      exact ⟨Nat.le_refl 1, fun hu => absurd hu ((hi.step hstep).not_uncalled hexecuting)⟩

/-! ## A job cancelled in time -/

/-- A cancelled job whose claim has not been granted. -/
structure Doomed (s : State) (j : JobId) : Prop where
  accepted : j ∈ s.accepted
  cancelled : (s.jobs j).cancelEvent = true
  status : s.status j = .queued ∨ s.status j = .cancelled

/-- A doomed job stays so, and no step calls its function. -/
theorem Doomed.step (hd : Doomed s j) (hi : Inv s) (h : Step cfg a s t) :
    Doomed t j ∧ a.isCall j = false := by
  have hnotRunning : s.status j ≠ .running := by
    rcases hd.status with hq | hc
    · exact hq ▸ nofun
    · exact hc ▸ nofun
  refine ⟨⟨h.accepted_mono hi hd.accepted, h.cancelEvent hi hd.accepted hd.cancelled, ?_⟩, ?_⟩
  · rcases h.status hi hd.accepted with hsame | hedge
    · exact hd.status.imp hsame.trans hsame.trans
    · rcases hedge.of_unstarted hd.status with hr | hc
      · rcases h.running_from hi hd.accepted hr with hr' | hnc
        · exact absurd hr' hnotRunning
        · cases hnc.symm.trans hd.cancelled
      · exact .inr hc
  · cases hcall : a.isCall j with
    | false => rfl
    | true =>
        obtain ⟨w, hw, _⟩ := h.call_claimed hcall
        have hfits := hi.fits w j (congrArg WorkerPc.job? hw)
        rw [hw] at hfits
        exact absurd hfits hnotRunning

/-- From a doomed job on, a run never calls its function. -/
theorem Doomed.run (h : Run (Step cfg) s as t) (hd : Doomed s j) (hi : Inv s) :
    Doomed t j ∧ calls j as = 0 := by
  have hrun := Run.trace (P := fun as t => Inv t ∧ Doomed t j ∧ calls j as = 0) ?_ h ⟨hi, hd, rfl⟩
  · exact hrun.2
  · intro as a s t ⟨hi, hd, hnone⟩ hstep
    obtain ⟨hd', hcall⟩ := hd.step hi hstep
    exact ⟨hi.step hstep, hd', by rw [calls_snoc, hnone, hcall]; rfl⟩

/-- While no worker has been in `_claim` with it, an accepted job is queued. -/
structure Unclaimed (s : State) (j : JobId) : Prop where
  status : s.status j = .queued
  place : ∀ w, (s.workers w).job? = some j → s.workers w = .dequeued j ∨ s.workers w = .claiming j

theorem JobStep.claims (h : JobStep w j a pc job pc' job')
    (hpc : pc = .dequeued j ∨ pc = .claiming j) : a = .claim w j := by
  cases h with
  | claimRefused _ => rfl
  | claimGranted _ => rfl
  | call => rcases hpc with hpc | hpc <;> cases hpc
  | fnStore _ => rcases hpc with hpc | hpc <;> cases hpc
  | finish => rcases hpc with hpc | hpc <;> cases hpc
  | storeAttr => rcases hpc with hpc | hpc <;> cases hpc

/-- Who holds `j` after a step that is not its claim: the same worker at the same
place, or one that has not claimed it yet. -/
theorem Step.holder (h : Step cfg a s t) (hi : Inv s) {v : WorkerId}
    (hv : (t.workers v).job? = some j) :
    t.workers v = s.workers v ∨ t.workers v = .dequeued j ∨ t.workers v = .claiming j ∨
      ∃ pc job, JobStep v j a (s.workers v) (s.jobs j) pc job := by
  cases h with
  | client h =>
      rcases h.effect hi with ⟨_, created, rfl⟩ | ⟨_, _, rfl⟩ | hstill
      · exact .inl rfl
      · exact .inl rfl
      · exact .inl (hstill.workers_of_holds hv)
  | control c h => exact .inl ((h.still hi).workers_of_holds hv)
  | worker w h =>
      rcases eq_or_ne v w with rfl | hvw
      · cases h with
        | takeSentinel _ _ =>
            rw [State.setWorker_self] at hv
            cases hv
        | takeJob _ _ =>
            rw [State.setWorker_self] at hv ⊢
            obtain rfl := Option.some.inj hv
            exact .inr (.inl rfl)
        | decrement _ =>
            rw [State.setWorker_self] at hv ⊢
            obtain rfl := Option.some.inj hv
            exact .inr (.inr (.inl rfl))
        | onJob hstep =>
            rw [State.setWorker_self] at hv
            rcases (hstep.fits (hi.fits v _ hstep.holds)).2 with ⟨hheld, _⟩ | ⟨hfree, _⟩
            · obtain rfl := Option.some.inj (hheld.symm.trans hv)
              exact .inr (.inr (.inr ⟨_, _, hstep⟩))
            · cases hfree.symm.trans hv
      · cases h with
        | takeSentinel _ _ => exact .inl (State.setWorker_ne _ _ hvw)
        | takeJob _ _ => exact .inl (State.setWorker_ne _ _ hvw)
        | decrement _ => exact .inl (State.setWorker_ne _ _ hvw)
        | onJob _ => exact .inl (State.setWorker_ne _ _ hvw)

theorem Unclaimed.step (hu : Unclaimed s j) (hi : Inv s) (hj : j ∈ s.accepted)
    (h : Step cfg a s t) (ha : ∀ w, a ≠ .claim w j) : Unclaimed t j := by
  have hidle : ∀ {w pc job}, ¬ JobStep w j a (s.workers w) (s.jobs j) pc job :=
    fun {w _ _} hstep => ha w (hstep.claims (hu.place w hstep.holds))
  refine ⟨?_, fun v hv => ?_⟩
  · rcases h.jobs hi hj with hsame | hcancel | ⟨w, pc, hstep⟩
    · exact (congrArg Job.status hsame).trans hu.status
    · rw [State.status, hcancel]
      exact hu.status
    · exact absurd hstep hidle
  · rcases h.holder hi hv with hsame | hdequeued | hclaiming | ⟨pc, job, hstep⟩
    · exact hsame ▸ hu.place v (hsame ▸ hv)
    · exact .inl hdequeued
    · exact .inr hclaiming
    · exact absurd hstep hidle

theorem Reaches.unclaimed (h : Reaches cfg as s) (hj : j ∈ s.accepted)
    (has : ∀ w, Action.claim w j ∉ as) : Unclaimed s j := by
  suffices hinv : Inv s ∧ ((∀ w, Action.claim w j ∉ as) → j ∈ s.accepted → Unclaimed s j) from
    hinv.2 has hj
  refine Run.trace
    (P := fun as s => Inv s ∧ ((∀ w, Action.claim w j ∉ as) → j ∈ s.accepted → Unclaimed s j))
    ?_ h ⟨Inv.init, fun _ hmem => nomatch hmem⟩
  intro as a s t ⟨hi, hu⟩ hstep
  refine ⟨hi.step hstep, fun hno hacc => ?_⟩
  have hno' : ∀ w, Action.claim w j ∉ as := fun w hw => hno w (List.mem_append_left _ hw)
  have ha : ∀ w, a ≠ .claim w j := fun w hw => hno w (by simp [hw])
  rcases Classical.em (j ∈ s.accepted) with hold | hnew
  · exact (hu hno' hold).step hi hold hstep ha
  · refine ⟨hstep.queued_new hi hacc hnew, fun w hw => ?_⟩
    obtain ⟨_, _, created, rfl⟩ := hstep.accepted_new hi hacc hnew
    exact absurd (hi.placed_worker hw) hnew

/-! ## The life cycle -/

/-- A terminal status is never left. -/
theorem terminal_stable (h : Run (Step cfg) s as t) (hi : Inv s) (hj : j ∈ s.accepted)
    (hterm : (s.status j).terminal = true) : t.status j = s.status j := by
  suffices hinv : Inv t ∧ j ∈ t.accepted ∧ t.status j = s.status j from hinv.2.2
  refine Run.invariant (P := fun t => Inv t ∧ j ∈ t.accepted ∧ t.status j = s.status j)
    ?_ h ⟨hi, hj, rfl⟩
  intro a t u ⟨hi, hj, hsame⟩ hstep
  refine ⟨hi.step hstep, hstep.accepted_mono hi hj, ?_⟩
  rcases hstep.status hi hj with hstay | hedge
  · exact hstay.trans hsame
  · rw [← hsame, hedge.not_terminal] at hterm
    cases hterm

/-- **The life cycle of a job.**  In every state any interleaving reaches, an accepted
job's function has been invoked at most once; its status moves along the edges of
the life cycle only and never out of a terminal value; and if its cancel event is
set before a worker was in `_claim` with it, it is still queued, its function is
never invoked, and whatever follows, the only other status it takes is `CANCELLED`. -/
theorem job_life_cycle (h : Reaches cfg as s) (hj : j ∈ s.accepted) :
    calls j as ≤ 1 ∧
    (∀ a t, Step cfg a s t →
      (t.status j = s.status j ∨ Edge (s.status j) (t.status j)) ∧
        ∀ i ∈ t.accepted, i ∉ s.accepted → t.status i = .queued) ∧
    ((s.status j).terminal = true → ∀ bs t, Run (Step cfg) s bs t → t.status j = s.status j) ∧
    ((s.jobs j).cancelEvent = true → (∀ w, Action.claim w j ∉ as) →
      s.status j = .queued ∧ calls j as = 0 ∧
        ∀ bs t, Run (Step cfg) s bs t →
          calls j bs = 0 ∧ (t.status j = .queued ∨ t.status j = .cancelled)) := by
  have hi := h.inv
  refine ⟨(h.calls_le_one j).1, fun a t hstep => ?_, fun hterm bs t hrun => ?_,
    fun hcancel hno => ?_⟩
  · exact ⟨hstep.status hi hj, fun i hacc hnew => hstep.queued_new hi hacc hnew⟩
  · exact terminal_stable hrun hi hj hterm
  · have hq := (h.unclaimed hj hno).status
    have hd : Doomed s j := ⟨hj, hcancel, .inl hq⟩
    refine ⟨hq, (h.calls_le_one j).2 (.inr (.inl hq)), fun bs t hrun => ?_⟩
    obtain ⟨hd', hcalls⟩ := hd.run hrun hi
    exact ⟨hcalls, hd'.status⟩

/-- A job deleted while it waits in the queue of a one-worker manager. -/
theorem job_life_cycle_deleted :
    ∃ s, Reaches ⟨1, 3600, 0⟩
        [.start 0, .setRunning 0, .spawn 0, .append 0, .submit 0 0, .put 0, .delete 0] s ∧
      s.status 0 = .queued ∧ ∀ bs t, Run (Step ⟨1, 3600, 0⟩) s bs t →
        calls 0 bs = 0 ∧ (t.status 0 = .queued ∨ t.status 0 = .cancelled) := by
  have hrun : Reaches ⟨1, 3600, 0⟩
      [.start 0, .setRunning 0, .spawn 0, .append 0, .submit 0 0, .put 0, .delete 0] _ :=
    (Run.nil _).snoc (.control 0 (.start rfl rfl)) |>.snoc (.control 0 (.setRunning rfl))
      |>.snoc (.control 0 (.spawn rfl)) |>.snoc (.control 0 (.append rfl))
      |>.snoc (.client .submit) |>.snoc (.client (.put (by decide))) |>.snoc (.client .delete)
  have hcycle := (job_life_cycle hrun (j := 0) (by decide)).2.2.2 rfl (by simp)
  exact ⟨_, hrun, hcycle.1, hcycle.2.2⟩

end Calls

end HandBrakeEncoder.Jobs
