/-
# `Jobs.Serving` — every accepted job comes to its end

A running manager under load: clients submit, poll and delete for ever, so the
queue need never be empty.  If the threads are scheduled fairly and the functions
end, each accepted job is over at last, whatever is submitted after it:

    reserved    its own `submit` puts it                               Submitter j
    queued      the head of the queue goes to some worker, so what is
                ahead of the job shrinks; until then a worker that has
                not ended has ever less to do                          worker w
    held        its worker has ever less to do                         worker w

A thread started and not ended is there all along: of the threads started
`numWorkers` are not matched by a sentinel (`Epoch.balance`).
-/
import HandBrakeEncoder.Jobs.Drain
import HandBrakeEncoder.Jobs.Order
import HandBrakeEncoder.Jobs.Stranded
import HandBrakeEncoder.Lib.Fairness
import Mathlib.Data.Prod.Lex
import Mathlib.Order.WellFounded

namespace HandBrakeEncoder.Jobs

open Lib

variable {cfg : Config} {s t : State} {as : List Action} {a : Action} {c : CtlId} {i j : JobId}
  {w v : WorkerId} {pc pc' : WorkerPc} {job job' : Job}

/-! ## Called or cancelled -/

/-- The job is on its way to a worker's call. -/
def State.Unserved (s : State) (j : JobId) : Prop :=
  j ∈ s.reserved ∨ some j ∈ s.queue ∨ ∃ w, (s.workers w).uncalled? = some j

theorem WorkerPc.job?_of_uncalled? (h : pc.uncalled? = some j) : pc.job? = some j := by
  cases pc with
  | dequeued _ | claiming _ | claimed _ => exact h
  | notStarted | getting | executing _ | storing _ _ _ | exited | died => cases h

theorem Still.unserved (h : Still s t) (hu : s.Unserved j) : t.Unserved j := by
  rcases hu with hres | hq | ⟨w, hw⟩
  · exact .inl (h.reserved.symm ▸ hres)
  · exact .inr (.inl (List.count_pos_iff.mp (h.queue j ▸ List.count_pos_iff.mpr hq)))
  · have hheld := WorkerPc.job?_of_uncalled? hw
    rcases h.workers w with hsame | ⟨hnone, -⟩
    · exact .inr (.inr ⟨w, hsame ▸ hw⟩)
    · cases hnone.symm.trans hheld

theorem ClientStep.unserved (h : ClientStep cfg a s t) (hi : Inv s) (hu : s.Unserved j) :
    t.Unserved j := by
  rcases h.effect hi with ⟨-, created, rfl⟩ | ⟨i, hires, rfl⟩ | hstill
  · exact hu.imp_left (List.mem_cons_of_mem _)
  · rcases hu with hres | hq | hw
    · rcases eq_or_ne j i with rfl | hji
      · exact .inr (.inl (List.mem_append_right _ (List.mem_singleton.mpr rfl)))
      · exact .inl ((List.mem_erase_of_ne hji).mpr hres)
    · exact .inr (.inl (List.mem_append_left _ hq))
    · exact .inr (.inr hw)
  · exact hstill.unserved hu

/-- A worker calls the job it has taken, unless the job is cancelled. -/
theorem JobStep.unserved (h : JobStep w i a pc job pc' job') (hu : pc.uncalled? = some j) :
    pc'.uncalled? = some j ∨ a.isCall j = true ∨ i = j ∧ job.cancelEvent = true := by
  cases h with
  | @claimRefused job hclaim =>
      refine .inr (.inr ⟨Option.some.inj hu, ?_⟩)
      rw [Job.claim] at hclaim
      cases hcancel : job.cancelEvent with
      | true => rfl
      | false =>
          rw [hcancel] at hclaim
          cases hclaim
  | claimGranted _ => exact .inl hu
  | call => exact .inr (.inl (beq_iff_eq.mpr (Option.some.inj hu)))
  | fnStore _ | finish | storeAttr => cases hu

theorem WorkerStep.unserved (h : WorkerStep w a s t) (hu : s.Unserved j) :
    t.Unserved j ∨ a.isCall j = true ∨ (s.jobs j).cancelEvent = true := by
  have hothers := h.own.2
  have hother : ∀ v, v ≠ w → (s.workers v).uncalled? = some j →
      ∃ v, (t.workers v).uncalled? = some j := by
    intro v hvw hv
    exact ⟨v, (hothers v hvw).symm ▸ hv⟩
  cases h with
  | takeSentinel hw hq =>
      refine .inl (hu.imp_right (Or.imp (fun hmem => ?_) fun ⟨v, hv⟩ => hother v ?_ hv))
      · rw [hq] at hmem
        exact (List.mem_cons.mp hmem).resolve_left (Option.some_ne_none j)
      · rintro rfl
        rw [hw] at hv
        cases hv
  | @takeJob _ i rest hw hq =>
      rcases hu with hres | hmem | ⟨v, hv⟩
      · exact .inl (.inl hres)
      · rw [hq] at hmem
        rcases List.mem_cons.mp hmem with hji | hrest
        · obtain rfl := Option.some.inj hji
          refine .inl (.inr (.inr ⟨w, ?_⟩))
          rw [State.setWorker_self]
          rfl
        · exact .inl (.inr (.inl hrest))
      · refine .inl (.inr (.inr (hother v ?_ hv)))
        rintro rfl
        rw [hw] at hv
        cases hv
  | @decrement _ i hw =>
      refine .inl (hu.imp_right (Or.imp_right fun ⟨v, hv⟩ => ?_))
      rcases eq_or_ne v w with rfl | hvw
      · rw [hw] at hv
        refine ⟨v, ?_⟩
        rw [State.setWorker_self]
        exact hv
      · exact hother v hvw hv
  | @onJob _ _ i pc job hjob =>
      rcases hu with hres | hmem | ⟨v, hv⟩
      · exact .inl (.inl hres)
      · exact .inl (.inr (.inl hmem))
      · rcases eq_or_ne v w with rfl | hvw
        · rcases hjob.unserved hv with hkeep | hcall | ⟨rfl, hcancel⟩
          · refine .inl (.inr (.inr ⟨v, ?_⟩))
            rw [State.setWorker_self]
            exact hkeep
          · exact .inr (.inl hcall)
          · exact .inr (.inr hcancel)
        · exact .inl (.inr (.inr (hother v hvw hv)))

theorem Step.unserved (h : Step cfg a s t) (hi : Inv s) (hu : s.Unserved j) :
    t.Unserved j ∨ a.isCall j = true ∨ (s.jobs j).cancelEvent = true := by
  cases h with
  | client h => exact .inl (h.unserved hi hu)
  | worker w h => exact h.unserved hu
  | control c h => exact .inl ((h.still hi).unserved hu)

/-- An accepted job is on its way to its call, has been called, or is cancelled. -/
theorem Reaches.served (h : Reaches cfg as s) (hj : j ∈ s.accepted) :
    s.Unserved j ∨ 0 < calls j as ∨ (s.jobs j).cancelEvent = true := by
  suffices hinv : Inv s ∧ ∀ j ∈ s.accepted,
      s.Unserved j ∨ 0 < calls j as ∨ (s.jobs j).cancelEvent = true from hinv.2 j hj
  refine Run.trace (P := fun as s => Inv s ∧ ∀ j ∈ s.accepted,
    s.Unserved j ∨ 0 < calls j as ∨ (s.jobs j).cancelEvent = true) ?_ h
    ⟨Inv.init, fun _ hmem => absurd hmem List.not_mem_nil⟩
  intro as a s t ⟨hi, hserved⟩ hstep
  refine ⟨hi.step hstep, fun j hj => ?_⟩
  rw [calls_snoc]
  by_cases hold : j ∈ s.accepted
  · rcases hserved j hold with hu | hcalled | hcancel
    · rcases hstep.unserved hi hu with hu' | hcall | hcancel
      · exact .inl hu'
      · rw [hcall]
        exact .inr (.inl (Nat.succ_pos _))
      · exact .inr (.inr (hstep.cancelEvent hi hold hcancel))
    · exact .inr (.inl (Nat.add_pos_left hcalled _))
    · exact .inr (.inr (hstep.cancelEvent hi hold hcancel))
  · obtain ⟨-, rfl, created, rfl⟩ := hstep.accepted_new hi hj hold
    exact .inl (.inl List.mem_cons_self)

/-- A job that is over has been called once, or cancelled. -/
theorem Reaches.called_or_cancelled (h : Reaches cfg as s) (hj : j ∈ s.accepted)
    (hover : (s.status j).terminal = true) :
    calls j as = 1 ∨ (s.jobs j).cancelEvent = true := by
  have hi := h.inv
  rcases h.served hj with hu | hcalled | hcancel
  · exfalso
    rcases hu with hres | hq | ⟨w, hw⟩
    · rw [hi.reserved j hres] at hover
      cases hover
    · rw [hi.queued j hq] at hover
      cases hover
    · have hfits := hi.fits w j (WorkerPc.job?_of_uncalled? hw)
      cases hpc : s.workers w with
      | dequeued _ | claiming _ | claimed _ =>
          rw [hpc] at hfits
          have hstatus : s.status j = _ := hfits
          rw [hstatus] at hover
          cases hover
      | notStarted | getting | executing _ | storing _ _ _ | exited | died =>
          rw [hpc] at hw
          cases hw
  · exact .inl (Nat.le_antisymm (h.calls_le_one j).1 hcalled)
  · exact .inr hcancel

/-! ## A running manager -/

/-- A step while the manager serves: no controller acts, and no function ends its worker. -/
structure ServeStep (cfg : Config) (a : Action) (s t : State) : Prop where
  step : Step cfg a s t
  noControl : a.ctl? = none
  spares : a.kills = false

/-- The manager runs, its controller rests, and no worker has died. -/
structure Serving (cfg : Config) (c : CtlId) (s : State) : Prop where
  epoch : Epoch cfg c s
  idle : s.ctl c = .idle
  running : s.running = true
  noDeaths : NoDeaths s

theorem Action.kills_finish {outcome : FnOutcome} (hk : a.kills = false)
    (ha : a = .finish w outcome) : outcome.kills = false := by
  subst ha
  exact hk

theorem Serving.step (h : Serving cfg c s) (hstep : ServeStep cfg a s t) : Serving cfg c t := by
  have hsame : SameControl s t := by
    cases hstep.step with
    | client hc => exact hc.sameControl
    | worker w hw => exact hw.sameControl
    | control d hc => cases hc.ctl?_eq.symm.trans hstep.noControl
  refine ⟨h.epoch.step hstep.step fun d hd => ?_, ?_, hsame.running.trans h.running,
    h.noDeaths.step hstep.step fun w outcome ha => Action.kills_finish hstep.spares ha⟩
  · cases hstep.noControl.symm.trans hd
  · exact (congrFun hsame.ctl c).trans h.idle

/-- Of the threads started, as many as there are workers are not matched by a sentinel. -/
theorem Serving.exists_live (h : Serving cfg c s) : ∃ w, (s.workers w).live = true := by
  have hfits := h.epoch.fits
  have hbalance := h.epoch.balance
  rw [h.idle] at hfits hbalance
  have hthreads : s.threads.length = if s.running then cfg.numWorkers else 0 := hfits
  rw [h.running, if_pos rfl] at hthreads
  by_contra hnone
  have hzero : s.unretired = 0 := countBelow_eq_zero fun w _ => by
    have hdead : (s.workers w).live = false := Bool.eq_false_iff.mpr fun hw => hnone ⟨w, hw⟩
    cases hpc : s.workers w with
    | notStarted | exited => rfl
    | died => exact absurd hpc (h.noDeaths w).1
    | getting | dequeued _ | claiming _ | claimed _ | executing _ | storing _ _ _ =>
        rw [hpc] at hdead
        cases hdead
  have hcredit : CtlPc.credit s.threads.length .idle = s.threads.length := rfl
  have hpos := cfg.numWorkers_pos
  omega

/-- A step of the thread that runs worker `w`, a store of the job's function apart. -/
def Action.AdvanceOf (w : WorkerId) (a : Action) : Prop :=
  a.worker? = some w ∧ a.advances = true

/-- A worker that has not ended can go on, if it does not wait at an empty queue. -/
theorem Serving.can_advance (h : Serving cfg c s) (hq : s.workers w = .getting → s.queue ≠ [])
    (hw : (s.workers w).live = true) : ∃ a t, a.AdvanceOf w ∧ ServeStep cfg a s t := by
  obtain ⟨a, t, hstep, ha, hk⟩ := h.epoch.inv.can_advance hq hw
  exact ⟨a, t, ⟨hstep.own.1, ha⟩, .worker w hstep, hstep.ctl?_eq, hk⟩

/-- A step is of the worker, or leaves it where it is. -/
theorem ServeStep.of_worker (h : ServeStep cfg a s t) (w : WorkerId) :
    WorkerStep w a s t ∨ a.worker? ≠ some w ∧ t.workers w = s.workers w := by
  cases h.step with
  | client hc =>
      refine .inr ⟨?_, congrFun hc.workers.1 w⟩
      rw [hc.not_worker]
      exact (Option.some_ne_none w).symm
  | control d hc => cases hc.ctl?_eq.symm.trans h.noControl
  | worker v hv =>
      rcases eq_or_ne w v with rfl | hwv
      · exact .inl hv
      · refine .inr ⟨?_, hv.own.2 w hwv⟩
        rw [hv.own.1]
        exact fun heq => hwv (Option.some.inj heq).symm

/-! ## The job a worker holds -/

theorem JobStep.still_or_lower (h : JobStep w j a pc job pc' job') :
    a.advances = false ∧ pc' = pc ∨ pc'.todo < pc.todo := by
  have htodo := h.todo
  cases h with
  | fnStore _ => exact .inl ⟨rfl, rfl⟩
  | claimRefused _ | claimGranted _ | call | finish | storeAttr =>
      exact .inr (Nat.lt_of_lt_of_le (Nat.lt_add_of_pos_left Nat.one_pos) htodo)

/-- A worker with a job stays where it is, or has less to do, or is done with the job. -/
theorem WorkerStep.onward (h : WorkerStep w a s t) (hi : Inv s)
    (hheld : (s.workers w).job? = some j) :
    a.advances = false ∧ t.workers w = s.workers w
      ∨ (t.status j).terminal = true
      ∨ (t.workers w).job? = some j ∧ (t.workers w).todo < (s.workers w).todo := by
  cases h with
  | takeSentinel hw _ | takeJob hw _ =>
      rw [hw] at hheld
      cases hheld
  | @decrement _ i hw =>
      rw [hw] at hheld ⊢
      rw [State.setWorker_self]
      exact .inr (.inr ⟨hheld, Nat.lt_succ_self _⟩)
  | @onJob _ _ i pc job hjob =>
      obtain rfl := Option.some.inj (hjob.holds.symm.trans hheld)
      have hfits := (hjob.fits (hi.fits w i hheld)).2
      rw [State.setWorker_self]
      rcases hjob.still_or_lower with ⟨ha, hpc⟩ | hlt
      · exact .inl ⟨ha, hpc⟩
      · rcases hfits with ⟨hkeep, -⟩ | ⟨-, hover⟩
        · exact .inr (.inr ⟨hkeep, hlt⟩)
        · refine .inr (.inl ?_)
          show (((s.setJob i job).setWorker w pc).status i).terminal = true
          have hstatus : ((s.setJob i job).setWorker w pc).status i = job.status :=
            State.setJob_status_self s i job
          rw [hstatus]
          exact hover

/-- Worker `w` holds the job and has `n` things to do. -/
structure HeldBy (cfg : Config) (c : CtlId) (j : JobId) (w : WorkerId) (n : Nat) (s : State) :
    Prop where
  serving : Serving cfg c s
  held : (s.workers w).job? = some j
  todo : (s.workers w).todo = n

theorem held_ends {B : Behavior (ServeStep cfg) s} (hfair : ∀ w, B.Fair (Action.AdvanceOf w)) :
    B.LeadsTo (fun s => ∃ w n, HeldBy cfg c j w n s) (fun s => (s.status j).terminal = true) := by
  refine Behavior.leadsTo_of_helper hfair (fun w n s h => ?_) fun w n a s t h hstep => ?_
  · refine h.serving.can_advance (fun hget => ?_) (WorkerPc.live_of_job? h.held)
    have hheld := h.held
    rw [hget] at hheld
    cases hheld
  · have hserving := h.serving.step hstep
    rcases hstep.of_worker w with hown | ⟨hother, hsame⟩
    · rcases hown.onward h.serving.epoch.inv h.held with ⟨ha, hsame⟩ | hover | ⟨hheld, hlt⟩
      · refine .inl ⟨fun hadv => ?_, hserving, hsame.symm ▸ h.held, hsame.symm ▸ h.todo⟩
        cases ha.symm.trans hadv.2
      · exact .inr (.inl hover)
      · exact .inr (.inr ⟨w, _, h.todo ▸ hlt, hserving, hheld, rfl⟩)
    · exact .inl ⟨fun hadv => hother hadv.1, hserving, hsame.symm ▸ h.held, hsame.symm ▸ h.todo⟩

/-! ## The job in the queue -/

theorem JobStep.live (h : JobStep w j a pc job pc' job') (hdied : pc' ≠ .died) :
    pc'.live = true := by
  cases h with
  | claimRefused _ | claimGranted _ | call | fnStore _ | finish => rfl
  | @storeAttr _ _ ss kills _ =>
      cases ss with
      | cons _ _ => rfl
      | nil =>
          cases kills with
          | true => exact absurd rfl hdied
          | false => rfl

/-- A step of a worker takes the head of the queue, or leaves the queue and the worker alive. -/
theorem WorkerStep.takes_or_goes (h : WorkerStep w a s t) (hdied : t.workers w ≠ .died) :
    (∃ x, s.queue = x :: t.queue ∧ ∀ j, x = some j → (t.workers w).job? = some j)
      ∨ t.queue = s.queue ∧ (t.workers w).live = true
        ∧ (a.advances = false ∧ t.workers w = s.workers w
          ∨ (t.workers w).todo < (s.workers w).todo) := by
  cases h with
  | takeSentinel _ hq => exact .inl ⟨none, hq, fun j hj => by cases hj⟩
  | @takeJob _ i _ _ hq =>
      refine .inl ⟨some i, hq, fun j hj => ?_⟩
      rw [State.setWorker_self]
      exact hj
  | decrement hw =>
      rw [State.setWorker_self, hw]
      exact .inr ⟨rfl, rfl, .inr (Nat.lt_succ_self _)⟩
  | onJob hjob =>
      rw [State.setWorker_self] at hdied ⊢
      exact .inr ⟨rfl, hjob.live hdied, hjob.still_or_lower⟩

/-- The head of the queue is taken; or the queue only grows, and the worker goes on or stays. -/
theorem ServeStep.takes_or_grows (h : ServeStep cfg a s t) (hserving : Serving cfg c s)
    (hw : (s.workers w).live = true) :
    (∃ x v, s.queue = x :: t.queue ∧ ∀ j, x = some j → (t.workers v).job? = some j)
      ∨ (∃ ys, t.queue = s.queue ++ ys) ∧ (t.workers w).live = true
        ∧ (¬ a.AdvanceOf w ∧ t.workers w = s.workers w
          ∨ (t.workers w).todo < (s.workers w).todo) := by
  have hnext := hserving.step h
  cases h.step with
  | control d hc => cases hc.ctl?_eq.symm.trans h.noControl
  | client hc =>
      have hsame := congrFun hc.workers.1 w
      refine .inr ⟨?_, hsame.symm ▸ hw, .inl ⟨fun hadv => ?_, hsame⟩⟩
      · rcases hc.queue with hq | ⟨i, -, hq⟩
        · exact ⟨[], hq.trans (List.append_nil _).symm⟩
        · exact ⟨[some i], hq⟩
      · cases hc.not_worker.symm.trans hadv.1
  | worker v hv =>
      rcases hv.takes_or_goes (hnext.noDeaths v).1 with ⟨x, hq, hx⟩ | ⟨hq, hlive, hgoes⟩
      · exact .inl ⟨x, v, hq, hx⟩
      · refine .inr ⟨⟨[], hq.trans (List.append_nil _).symm⟩, ?_⟩
        rcases eq_or_ne w v with rfl | hwv
        · refine ⟨hlive, hgoes.imp_left fun ⟨ha, hsame⟩ => ⟨fun hadv => ?_, hsame⟩⟩
          cases ha.symm.trans hadv.2
        · have hsame := hv.own.2 w hwv
          refine ⟨hsame.symm ▸ hw, .inl ⟨fun hadv => ?_, hsame⟩⟩
          exact hwv (Option.some.inj (hadv.1.symm.trans hv.own.1))

/-- The job waits, with a number of items ahead of it and a worker with so much to do. -/
structure Ahead (cfg : Config) (c : CtlId) (j : JobId) (w : WorkerId) (n : Nat ×ₗ Nat)
    (s : State) : Prop where
  serving : Serving cfg c s
  queued : some j ∈ s.queue
  live : (s.workers w).live = true
  rank : toLex (s.queue.idxOf (some j), (s.workers w).todo) = n

theorem Serving.ahead (h : Serving cfg c s) (hj : some j ∈ s.queue) :
    ∃ w n, Ahead cfg c j w n s := by
  obtain ⟨w, hw⟩ := h.exists_live
  exact ⟨w, _, h, hj, hw, rfl⟩

theorem queued_held {B : Behavior (ServeStep cfg) s} (hfair : ∀ w, B.Fair (Action.AdvanceOf w)) :
    B.LeadsTo (fun s => ∃ w n, Ahead cfg c j w n s) (fun s => ∃ w n, HeldBy cfg c j w n s) := by
  refine Behavior.leadsTo_of_helper hfair (fun w n s h => ?_) fun w n a s t h hstep => ?_
  · exact h.serving.can_advance (fun _ => List.ne_nil_of_mem h.queued) h.live
  · have hserving := h.serving.step hstep
    rcases hstep.takes_or_grows h.serving h.live with ⟨x, v, hq, hx⟩ | ⟨⟨ys, hq⟩, hlive, hgoes⟩
    · rcases eq_or_ne x (some j) with rfl | hne
      · exact .inr (.inl ⟨v, _, hserving, hx j rfl, rfl⟩)
      · -- one item less is ahead of the job
        have hqueued : some j ∈ t.queue := by
          have hmem := h.queued
          rw [hq] at hmem
          exact (List.mem_cons.mp hmem).resolve_left hne.symm
        obtain ⟨u, hu⟩ := hserving.exists_live
        refine .inr (.inr ⟨u, _, ?_, hserving, hqueued, hu, rfl⟩)
        rw [← h.rank, hq, List.idxOf_cons_ne _ hne]
        exact Prod.Lex.toLex_lt_toLex.mpr (.inl (Nat.lt_succ_self _))
    · have hqueued : some j ∈ t.queue := hq ▸ List.mem_append_left _ h.queued
      have hplace : t.queue.idxOf (some j) = s.queue.idxOf (some j) := by
        rw [hq]
        exact List.idxOf_append_of_mem h.queued
      rcases hgoes with ⟨hnot, hsame⟩ | hlt
      · refine .inl ⟨hnot, hserving, hqueued, hlive, ?_⟩
        rw [hplace, hsame]
        exact h.rank
      · refine .inr (.inr ⟨w, _, ?_, hserving, hqueued, hlive, rfl⟩)
        rw [← h.rank, hplace]
        exact Prod.Lex.toLex_lt_toLex.mpr (.inr ⟨rfl, hlt⟩)

/-! ## The job being put -/

/-- A job stays with its `submit` until that puts it. -/
theorem Step.reserved_stays (h : Step cfg a s t) (hj : j ∈ s.reserved) (ha : a ≠ .put j) :
    j ∈ t.reserved := by
  cases h with
  | worker w h => cases h <;> exact hj
  | control c h => cases h <;> exact hj
  | client h =>
      cases h with
      | get | sweep => exact hj
      | @put _ i _ => exact (List.mem_erase_of_ne fun hji => ha (congrArg Action.put hji.symm)).mpr hj
      | @delete _ i =>
          rcases deleteBlock_state s i with hstate | ⟨-, hstate⟩
          · rw [hstate]
            exact hj
          · rw [hstate]
            exact hj
      | @submit _ created now =>
          rcases submitBlock_state cfg s created now with ⟨-, -, hstate⟩ | ⟨jobs, -, hstate⟩
          · rw [hstate]
            exact List.mem_cons_of_mem _ hj
          · rw [hstate]
            exact hj

theorem Step.put_reserved (h : Step cfg (.put j) s t) : j ∈ s.reserved := by
  cases h with
  | worker w h => cases h.own.1
  | control c h => cases h.ctl?_eq
  | client h =>
      cases h with
      | put hj => exact hj

theorem reserved_queued {B : Behavior (ServeStep cfg) s} (hfair : ∀ j, B.Fair (· = .put j)) :
    B.LeadsTo (fun s => Serving cfg c s ∧ j ∈ s.reserved)
      (fun s => ∃ w n, Ahead cfg c j w n s) := by
  have hrule : B.LeadsTo (fun s => ∃ (_ : Unit) (_ : Nat), Serving cfg c s ∧ j ∈ s.reserved)
      (fun s => ∃ w n, Ahead cfg c j w n s) := by
    refine Behavior.leadsTo_of_helper (A := fun _ => (· = .put j)) (fun _ => hfair j)
      (fun _ _ s h => ?_) fun _ _ a s t h hstep => ?_
    · exact ⟨_, _, rfl, .client (.put h.2), rfl, rfl⟩
    · have hserving := h.1.step hstep
      by_cases hput : a = .put j
      · subst hput
        refine .inr (.inl (hserving.ahead ?_))
        have hqueue : t.queue = s.queue ++ [some j] := hstep.step.queue
        exact hqueue ▸ List.mem_append_right _ (List.mem_singleton.mpr rfl)
      · exact .inl ⟨hput, hserving, hstep.step.reserved_stays h.2 hput⟩
  exact fun n hn => hrule n ⟨(), 0, hn⟩

/-! ## Every accepted job -/

/-- An accepted job is over, with its `submit`, in the queue, or held. -/
theorem Inv.somewhere (hi : Inv s) (hj : j ∈ s.accepted) :
    (s.status j).terminal = true ∨ j ∈ s.reserved ∨ some j ∈ s.queue
      ∨ ∃ w, (s.workers w).job? = some j := by
  rcases Nat.eq_zero_or_pos (s.places j) with hzero | hpos
  · exact .inl (hi.ended j hj hzero)
  · rw [State.places] at hpos
    by_cases hres : j ∈ s.reserved
    · exact .inr (.inl hres)
    · by_cases hq : some j ∈ s.queue
      · exact .inr (.inr (.inl hq))
      · rw [List.count_eq_zero_of_not_mem hres, List.count_eq_zero_of_not_mem hq] at hpos
        by_contra hnone
        have hzero : countBelow (WorkerPc.holds j) s.workers s.nextWorker = 0 := by
          refine countBelow_eq_zero fun w _ => Bool.eq_false_iff.mpr fun hheld => ?_
          exact hnone (.inr (.inr (.inr ⟨w, WorkerPc.holds_iff.mp hheld⟩)))
        omega

theorem accepted_ends {B : Behavior (ServeStep cfg) s} (hworkers : ∀ w, B.Fair (Action.AdvanceOf w))
    (hputs : ∀ j, B.Fair (· = .put j)) :
    B.LeadsTo (fun s => Serving cfg c s ∧ j ∈ s.accepted) (fun s => (s.status j).terminal = true) := by
  have hheld := held_ends (c := c) (j := j) hworkers
  have hqueued := (queued_held hworkers).trans hheld
  have hreserved := (reserved_queued hputs).trans hqueued
  rintro n ⟨hserving, hj⟩
  rcases hserving.epoch.inv.somewhere hj with hover | hres | hq | ⟨w, hw⟩
  · exact ⟨n, Nat.le_refl n, hover⟩
  · exact hreserved n ⟨hserving, hres⟩
  · exact hqueued n (hserving.ahead hq)
  · exact hheld n ⟨w, _, hserving, hw, rfl⟩

/-- **No accepted job waits for ever.**  From any state of a running manager whose controller rests
and whose workers live, on any endless run in which the threads are scheduled fairly, the functions
end and none of them ends its worker: whatever else is submitted, each job accepted by then comes to
a terminal status and keeps it, called exactly once unless cancelled. -/
theorem accepted_job_ends (h : Reaches cfg as s) (hc : ControlledBy c as) (ho : Ordinary as)
    (hidle : s.ctl c = .idle) (hr : s.running = true) (B : Behavior (ServeStep cfg) s)
    (hworkers : ∀ w, B.Fair (Action.AdvanceOf w)) (hputs : ∀ j, B.Fair (· = .put j))
    {n : Nat} (hj : j ∈ (B.state n).accepted) :
    ∃ m, n ≤ m ∧ ((B.state m).status j).terminal = true
      ∧ (∀ k, m ≤ k → (B.state k).status j = (B.state m).status j)
      ∧ (calls j (as ++ B.trace m) = 1 ∨ ((B.state m).jobs j).cancelEvent = true) := by
  have hserving : ∀ n, Serving cfg c (B.state n) :=
    B.always (fun a s t hs hstep => hs.step hstep) ⟨h.epoch hc, hidle, hr, h.noDeaths ho⟩
  obtain ⟨m, hnm, hover⟩ := accepted_ends hworkers hputs n ⟨hserving n, hj⟩
  have hreaches : Reaches cfg (as ++ B.trace m) (B.state m) :=
    h.trans ((B.run m).mono fun _ _ _ hstep => hstep.step)
  have hkept : ∀ m, n ≤ m → Inv (B.state m) ∧ j ∈ (B.state m).accepted := by
    refine B.lasting (P := fun s => Inv s ∧ j ∈ s.accepted) ?_ ⟨(hserving n).epoch.inv, hj⟩
    intro a s t ⟨hi, hmem⟩ hstep
    exact ⟨hi.step hstep.step, hstep.step.accepted_mono hi hmem⟩
  obtain ⟨hi, hmem⟩ := hkept m hnm
  refine ⟨m, hnm, hover, ?_, hreaches.called_or_cancelled hmem hover⟩
  intro k hmk
  refine (B.lasting (P := fun t => (Inv t ∧ j ∈ t.accepted) ∧ t.status j = (B.state m).status j)
    ?_ ⟨⟨hi, hmem⟩, rfl⟩ k hmk).2
  intro a t u ⟨⟨hi, hmem⟩, hsame⟩ hstep
  refine ⟨⟨hi.step hstep.step, hstep.step.accepted_mono hi hmem⟩, ?_⟩
  have hstay := terminal_stable (.single hstep.step) hi hmem (hsame.symm ▸ hover)
  exact hstay.trans hsame

/-- Workers waiting at an empty queue do not go on. -/
theorem ServeStep.not_advance (h : ServeStep cfg a s t) (hi : Inv s) (hq : s.queue = [])
    (hw : ∀ w < s.nextWorker, s.workers w = .getting) : ¬ a.AdvanceOf w := by
  intro hadv
  rcases h.of_worker w with hown | ⟨hother, -⟩
  · have hgetting : s.workers w = .getting := by
      by_cases hlt : w < s.nextWorker
      · exact hw w hlt
      · have hnot := hi.fresh w (Nat.le_of_not_lt hlt)
        cases hown with
        | takeSentinel hget _ | takeJob hget _ => exact hget
        | decrement hdeq => cases hnot.symm.trans hdeq
        | onJob hjob =>
            have hheld := hjob.holds
            rw [hnot] at hheld
            cases hheld
    cases hown with
    | takeSentinel _ hqueue | takeJob _ hqueue => cases hq.symm.trans hqueue
    | decrement hdeq => cases hgetting.symm.trans hdeq
    | onJob hjob =>
        have hheld := hjob.holds
        rw [hgetting] at hheld
        cases hheld
  · exact hother hadv.1

/-- Two jobs wait for one worker; the second is deleted while the first executes, and both end. -/
theorem accepted_job_ends_two : ∃ (s : State) (B : Behavior (ServeStep ⟨1, 3600, 0⟩) s) (m : Nat),
    Reaches ⟨1, 3600, 0⟩
      [.start 0, .setRunning 0, .spawn 0, .append 0, .submit 0 0, .put 0, .submit 1 1] s
    ∧ s.reserved = [1] ∧ ((B.state m).status 1).terminal = true := by
  obtain ⟨s, t, hreaches, hrun, ⟨hidle, hr, hres, hacc⟩, hq, hnone, hn, hget⟩ :=
    runs_of_replay ⟨1, 3600, 0⟩
    [.start 0, .setRunning 0, .spawn 0, .append 0, .submit 0 0, .put 0, .submit 1 1]
    [.takeJob 0 0, .decrement 0, .claim 0 0, .call 0 0, .put 1, .delete 1, .finish 0 .returned,
      .storeAttr 0 5, .storeAttr 0 5, .storeAttr 0 5, .takeJob 0 1, .decrement 0, .claim 0 1,
      .storeAttr 0 6, .storeAttr 0 6]
    (fun s t => (s.ctl 0 = .idle ∧ s.running = true ∧ s.reserved = [1] ∧ 1 ∈ s.accepted)
      ∧ t.queue = [] ∧ t.reserved = [] ∧ t.nextWorker = 1 ∧ t.workers 0 = .getting)
    (by decide +kernel)
  have hi : Inv t := Reaches.inv (hreaches.trans hrun)
  have hserve := (hrun.labelled (Q := fun a => a.ctl? = none ∧ a.kills = false) (by simp [Action.ctl?,
    Action.kills, FnOutcome.kills])).mono fun a s t hstep =>
      (⟨hstep.1, hstep.2.1, hstep.2.2⟩ : ServeStep ⟨1, 3600, 0⟩ a s t)
  obtain ⟨B, hrest⟩ := Behavior.exists_of_run hserve
  have hwaiting : ∀ w < t.nextWorker, t.workers w = .getting := by
    intro w hw
    rw [hn] at hw
    obtain rfl := Nat.lt_one_iff.mp hw
    exact hget
  have hworkers : ∀ w, B.Fair (Action.AdvanceOf w) := fun w =>
    .of_rest (fun m hm => (hrest m hm).1) fun a u hadv hstep => hstep.not_advance hi hq hwaiting hadv
  have hputs : ∀ j, B.Fair (· = .put j) := fun j =>
    .of_rest (fun m hm => (hrest m hm).1) fun a u hput hstep => by
      have hj := (hput ▸ hstep.step).put_reserved
      rw [hnone] at hj
      cases hj
  have hmem : 1 ∈ (B.state 0).accepted := by
    rw [B.init]
    exact hacc
  obtain ⟨m, -, hover, -⟩ := accepted_job_ends hreaches (c := 0) (by simp [ControlledBy, Action.ctl?])
    (by simp [Ordinary]) hidle hr B hworkers hputs hmem
  exact ⟨s, B, m, hreaches, hres, hover⟩

end HandBrakeEncoder.Jobs
