/-
# `Jobs.Order` — the backlog is first in, first out

The queue of the manager is one channel, and each worker between its `get` and
its call is another, of one place, which drops a job whose claim is refused.
What `Lib.Channel` says of a channel over a run is then what a client may expect
of the order of its jobs:

    queueChannel       put, sentinel      to   takeJob, takeSentinel      lossless
    workerChannel w    takeJob w          to   call w

The jobs put are the jobs accepted, one for one, less those whose `submit` has
not put them yet (`Split`).
-/
import HandBrakeEncoder.Jobs.Exec
import HandBrakeEncoder.Jobs.Restart
import HandBrakeEncoder.Lib.Channel
import Mathlib.Data.List.ReduceOption

namespace HandBrakeEncoder.Jobs

open Lib
open scoped List

/-! ## The two channels -/

/-- What the action puts on the queue. -/
def Action.enqueues : Action → List (Option JobId)
  | .put j => [some j]
  | .sentinel _ => [none]
  | _ => []

/-- What the action takes from the queue. -/
def Action.dequeues : Action → List (Option JobId)
  | .takeJob _ j => [some j]
  | .takeSentinel _ => [none]
  | _ => []

/-- The job the action gives to worker `w`. -/
def Action.gives (w : WorkerId) : Action → List JobId
  | .takeJob v j => if v = w then [j] else []
  | _ => []

/-- The job whose function worker `w` calls by the action. -/
def Action.callsBy (w : WorkerId) : Action → List JobId
  | .call v j => if v = w then [j] else []
  | _ => []

/-- The job the worker has taken and not called. -/
def WorkerPc.uncalled? : WorkerPc → Option JobId
  | .dequeued j | .claiming j | .claimed j => some j
  | .notStarted | .getting | .executing _ | .storing _ _ _ | .exited | .died => none

variable {cfg : Config} {s t : State} {as : List Action} {a : Action} {i j : JobId}
  {w v : WorkerId} {pc pc' : WorkerPc} {job job' : Job}

theorem WorkerPc.live_of_job? (h : pc.job? = some j) : pc.live = true := by
  cases pc with
  | dequeued _ | claiming _ | claimed _ | executing _ | storing _ _ _ => rfl
  | notStarted | getting | exited | died => cases h

theorem JobStep.dequeues_nil (h : JobStep w j a pc job pc' job') :
    a.enqueues = [] ∧ a.dequeues = [] := by
  cases h <;> exact ⟨rfl, rfl⟩

theorem Step.queue_channel (h : Step cfg a s t) : s.queue ++ a.enqueues = a.dequeues ++ t.queue := by
  cases h with
  | client h =>
      cases h with
      | put _ => rfl
      | get | sweep => exact List.append_nil _
      | @delete _ j =>
          rw [deleteBlock]
          split <;> exact List.append_nil _
      | @submit _ created now =>
          rw [submitBlock]
          split
          · exact List.append_nil _
          · split <;> exact List.append_nil _
  | worker w h =>
      cases h with
      | takeSentinel _ hq | takeJob _ hq =>
          rw [hq]
          exact List.append_nil _
      | decrement _ => exact List.append_nil _
      | onJob h =>
          rw [h.dequeues_nil.1, h.dequeues_nil.2]
          exact List.append_nil _
  | control c h =>
      cases h with
      | sentinel _ _ => rfl
      | startRunning _ _ | start _ _ | setRunning _ | spawn _ | append _ | shutdown _ | cancel _
      | cancelled _ | sentinelsDone _ _ | join _ _ | joined _ _ | clear _ =>
          exact List.append_nil _

/-- `self._queue`. -/
def queueChannel (cfg : Config) : Channel (Step cfg) (Option JobId) where
  held := State.queue
  enters := Action.enqueues
  leaves := Action.dequeues
  step h := h.queue_channel ▸ List.Sublist.refl _

theorem queueChannel_lossless (cfg : Config) : (queueChannel cfg).Lossless :=
  fun _ _ _ h => h.queue_channel

/-- An action of another thread neither gives the worker a job nor calls one for it. -/
theorem Action.idle_of_worker? (h : a.worker? ≠ some w) : a.gives w = [] ∧ a.callsBy w = [] := by
  cases a with
  | takeJob v j =>
      have hvw : v ≠ w := fun hvw => h (congrArg some hvw)
      exact ⟨if_neg hvw, rfl⟩
  | call v j =>
      have hvw : v ≠ w := fun hvw => h (congrArg some hvw)
      exact ⟨rfl, if_neg hvw⟩
  | _ => exact ⟨rfl, rfl⟩

/-- What worker `w` holds between its `get` and its call. -/
def State.inHand (w : WorkerId) (s : State) : List JobId := (s.workers w).uncalled?.toList

/-- A step that leaves the worker where it is, or starts its thread. -/
theorem State.inHand_of_idle (ha : a.worker? ≠ some w)
    (h : t.workers w = s.workers w ∨ (t.workers w).uncalled? = none) :
    (a.callsBy w ++ t.inHand w).Sublist (s.inHand w ++ a.gives w) := by
  obtain ⟨hgives, hcalls⟩ := Action.idle_of_worker? ha
  rw [hgives, hcalls, List.nil_append, List.append_nil]
  rcases h with hsame | hnone
  · rw [State.inHand, State.inHand, hsame]
  · rw [State.inHand, hnone]
    exact List.nil_sublist _

theorem JobStep.inHand (h : JobStep w j a pc job pc' job') :
    (a.callsBy w ++ pc'.uncalled?.toList).Sublist (pc.uncalled?.toList ++ a.gives w) := by
  cases h with
  | claimRefused _ => exact List.nil_sublist _
  | claimGranted _ => exact List.Sublist.refl _
  | call =>
      show (List.append (if w = w then [j] else []) []).Sublist [j]
      rw [if_pos rfl]
      exact List.Sublist.refl _
  | fnStore _ | finish => exact List.Sublist.refl _
  | @storeAttr _ _ ss kills _ =>
      cases ss with
      | nil => cases kills <;> exact List.Sublist.refl _
      | cons _ _ => exact List.Sublist.refl _

theorem WorkerStep.inHand (h : WorkerStep w a s t) :
    (a.callsBy w ++ t.inHand w).Sublist (s.inHand w ++ a.gives w) := by
  cases h with
  | takeSentinel hw _ =>
      rw [State.inHand, State.setWorker_self]
      exact List.nil_sublist _
  | @takeJob _ j _ hw _ =>
      rw [State.inHand, State.inHand, State.setWorker_self, hw]
      show [j].Sublist (if w = w then [j] else [])
      rw [if_pos rfl]
  | decrement hw =>
      rw [State.inHand, State.inHand, State.setWorker_self, hw]
      exact List.Sublist.refl _
  | onJob h =>
      rw [State.inHand, State.inHand, State.setWorker_self]
      exact h.inHand

/-- A worker acts under its own name and moves nobody else. -/
theorem WorkerStep.own (h : WorkerStep w a s t) :
    a.worker? = some w ∧ ∀ v, v ≠ w → t.workers v = s.workers v := by
  cases h with
  | takeSentinel _ _ | takeJob _ _ | decrement _ =>
      exact ⟨rfl, fun v hvw => State.setWorker_ne _ _ hvw⟩
  | onJob h => exact ⟨h.worker?_eq, fun v hvw => State.setWorker_ne _ _ hvw⟩

theorem ClientStep.not_worker (h : ClientStep cfg a s t) : a.worker? = none := by
  cases h <;> rfl

/-- A controller moves no worker; `start` sets one going. -/
theorem ControlStep.inHand {c : CtlId} (h : ControlStep cfg c a s t) (w : WorkerId) :
    a.worker? = none ∧ (t.workers w = s.workers w ∨ (t.workers w).uncalled? = none) := by
  cases h with
  | spawn _ =>
      refine ⟨rfl, ?_⟩
      rcases eq_or_ne w s.nextWorker with rfl | hne
      · right
        show (Function.update s.workers s.nextWorker WorkerPc.getting s.nextWorker).uncalled? = none
        rw [Function.update_self]
        rfl
      · exact .inl (Function.update_of_ne hne _ _)
  | startRunning _ _ | start _ _ | setRunning _ | append _ | shutdown _ | cancel _
  | cancelled _ | sentinel _ _ | sentinelsDone _ _ | join _ _ | joined _ _ | clear _ =>
      exact ⟨rfl, .inl rfl⟩

theorem Step.inHand (h : Step cfg a s t) (w : WorkerId) :
    (a.callsBy w ++ t.inHand w).Sublist (s.inHand w ++ a.gives w) := by
  cases h with
  | client h =>
      have hnone : a.worker? ≠ some w := by
        rw [h.not_worker]
        exact (Option.some_ne_none w).symm
      exact State.inHand_of_idle hnone (.inl (congrFun h.workers.1 w))
  | control c h =>
      obtain ⟨hworker, hstay⟩ := h.inHand w
      have hnone : a.worker? ≠ some w := by
        rw [hworker]
        exact (Option.some_ne_none w).symm
      exact State.inHand_of_idle hnone hstay
  | worker v h =>
      rcases eq_or_ne w v with rfl | hwv
      · exact h.inHand
      · obtain ⟨hworker, hothers⟩ := h.own
        have hnone : a.worker? ≠ some w := by
          rw [hworker]
          exact fun heq => hwv (Option.some.inj heq).symm
        exact State.inHand_of_idle hnone (.inl (hothers w hwv))

/-- Worker `w`, from its `get` to its call. -/
def workerChannel (cfg : Config) (w : WorkerId) : Channel (Step cfg) JobId where
  held := State.inHand w
  enters := Action.gives w
  leaves := Action.callsBy w
  step h := h.inHand w

/-! ## The jobs put are the jobs accepted -/

/-- The jobs put on the queue, in order. -/
def jobsPut (as : List Action) : List JobId := (as.flatMap Action.enqueues).reduceOption

/-- The jobs taken from it, in order. -/
def jobsTaken (as : List Action) : List JobId := (as.flatMap Action.dequeues).reduceOption

/-- The jobs waiting in it. -/
def State.queued (s : State) : List JobId := s.queue.reduceOption

theorem jobsPut_snoc (as : List Action) (a : Action) :
    jobsPut (as ++ [a]) = jobsPut as ++ a.enqueues.reduceOption := by
  simp [jobsPut, List.flatMap_append, List.reduceOption_append]

/-- The jobs accepted are those still with their `submit` and those put, each once. -/
structure Split (as : List Action) (s : State) : Prop where
  fresh : s.accepted.Nodup
  perm : s.accepted.Perm (s.reserved ++ jobsPut as)

theorem Split.of_same (h : Split as s) (hacc : t.accepted = s.accepted)
    (hres : t.reserved = s.reserved) (ha : a.enqueues.reduceOption = []) :
    Split (as ++ [a]) t := by
  refine ⟨hacc ▸ h.fresh, ?_⟩
  rw [hacc, hres, jobsPut_snoc, ha, List.append_nil]
  exact h.perm

theorem Split.accept (h : Split as s) (hi : Inv s) (created : Clock) {a : Action}
    (ha : a.enqueues = []) : Split (as ++ [a]) (s.accept created) := by
  have hnew : s.nextJob ∉ s.accepted := fun hmem => Nat.lt_irrefl _ (hi.acceptedLt _ hmem)
  refine ⟨List.nodup_append_comm.mp (List.nodup_cons.mpr ⟨hnew, h.fresh⟩), ?_⟩
  rw [jobsPut_snoc, ha]
  show (s.accepted ++ [s.nextJob]).Perm (s.nextJob :: s.reserved ++ (jobsPut as ++ []))
  rw [List.append_nil]
  exact (List.perm_append_singleton _ _).trans (h.perm.cons _)

theorem Split.put (h : Split as s) (hj : j ∈ s.reserved) : Split (as ++ [.put j])
    { s with reserved := s.reserved.erase j, queue := s.queue ++ [some j] } := by
  refine ⟨h.fresh, ?_⟩
  rw [jobsPut_snoc]
  show s.accepted.Perm (s.reserved.erase j ++ (jobsPut as ++ [j]))
  calc s.accepted
      _ ~ s.reserved ++ jobsPut as := h.perm
      _ ~ (j :: s.reserved.erase j) ++ jobsPut as := (List.perm_cons_erase hj).append_right _
      _ ~ (s.reserved.erase j ++ jobsPut as) ++ [j] := (List.perm_append_singleton _ _).symm
      _ = s.reserved.erase j ++ (jobsPut as ++ [j]) := List.append_assoc _ _ _

theorem Split.step (h : Split as s) (hi : Inv s) (hstep : Step cfg a s t) :
    Split (as ++ [a]) t := by
  cases hstep with
  | client hc =>
      cases hc with
      | put hj => exact h.put hj
      | get | sweep => exact h.of_same rfl rfl rfl
      | @delete _ j =>
          rcases deleteBlock_state s j with heq | ⟨-, heq⟩
          · rw [heq]
            exact h.of_same rfl rfl rfl
          · rw [heq]
            exact h.of_same rfl rfl rfl
      | @submit _ created now =>
          rcases submitBlock_state cfg s created now with ⟨-, -, heq⟩ | ⟨jobs, -, heq⟩
          · rw [heq]
            exact h.accept hi created rfl
          · rw [heq]
            exact h.of_same rfl rfl rfl
  | worker w hw =>
      cases hw with
      | takeSentinel _ _ | takeJob _ _ | decrement _ => exact h.of_same rfl rfl rfl
      | onJob hjob => exact h.of_same rfl rfl (by rw [hjob.dequeues_nil.1]; rfl)
  | control c hc => cases hc <;> exact h.of_same rfl rfl rfl

theorem Reaches.split (h : Reaches cfg as s) : Split as s := by
  suffices hinv : Inv s ∧ Split as s from hinv.2
  refine Run.trace (P := fun as s => Inv s ∧ Split as s) ?_ h
    ⟨Inv.init, List.nodup_nil, List.Perm.refl []⟩
  intro as a s t ⟨hi, hs⟩ hstep
  exact ⟨hi.step hstep, hs.step hi hstep⟩

/-! ## First in, first out -/

theorem Reaches.fifo (h : Reaches cfg as s) :
    as.flatMap Action.enqueues = as.flatMap Action.dequeues ++ s.queue :=
  (queueChannel_lossless cfg).run h

theorem Reaches.jobsPut_eq (h : Reaches cfg as s) : jobsPut as = jobsTaken as ++ s.queued := by
  rw [jobsPut, h.fifo, List.reduceOption_append]
  rfl

theorem Split.nodup (h : Split as s) : (s.reserved ++ jobsPut as).Nodup := h.perm.nodup_iff.mp h.fresh

theorem Split.jobsPut_nodup (h : Split as s) : (jobsPut as).Nodup :=
  (List.nodup_append.mp h.nodup).2.1

/-- The accepted jobs by where they are: with their `submit`, waiting, or taken. -/
theorem Reaches.partition (h : Reaches cfg as s) :
    s.accepted.Perm (s.reserved ++ s.queued ++ jobsTaken as) := by
  have hperm := h.split.perm
  rw [h.jobsPut_eq] at hperm
  calc s.accepted
      _ ~ s.reserved ++ (jobsTaken as ++ s.queued) := hperm
      _ ~ s.reserved ++ (s.queued ++ jobsTaken as) := List.perm_append_comm.append_left _
      _ = s.reserved ++ s.queued ++ jobsTaken as := (List.append_assoc _ _ _).symm

/-- **No job is lost, doubled or overtaken in the queue.**  In every state any interleaving
reaches, what was put is what was taken followed by what waits, in that order; and the accepted
jobs, all different, are those whose `submit` has not put them, those waiting and those taken. -/
theorem queue_fifo (h : Reaches cfg as s) :
    as.flatMap Action.enqueues = as.flatMap Action.dequeues ++ s.queue
      ∧ s.accepted.Nodup
      ∧ s.accepted.Perm (s.reserved ++ s.queued ++ jobsTaken as) :=
  ⟨h.fifo, h.split.fresh, h.partition⟩

/-- One worker, two jobs put, the first of them taken and a third not put yet. -/
def threeJobs : List Action :=
  [.start 0, .setRunning 0, .spawn 0, .append 0, .submit 0 0, .submit 1 1, .put 0, .put 1,
    .takeJob 0 0, .submit 2 2]

theorem threeJobs_reached : ∃ s, Reaches ⟨1, 3600, 0⟩ threeJobs s ∧ s.workers 0 = .dequeued 0 :=
  reaches_of_replay ⟨1, 3600, 0⟩ threeJobs (fun s => s.workers 0 = .dequeued 0) (by decide +kernel)

theorem queue_fifo_threeJobs : ∃ s, Reaches ⟨1, 3600, 0⟩ threeJobs s
    ∧ [some 0, some 1] = [some 0] ++ s.queue
    ∧ s.accepted.Perm (s.reserved ++ s.queued ++ [0]) := by
  obtain ⟨s, hs, -⟩ := threeJobs_reached
  obtain ⟨hfifo, -, hperm⟩ := queue_fifo hs
  exact ⟨s, hs, hfifo, hperm⟩

/-! ## Who is served before whom -/

theorem callsBy_sublist_gives (h : Reaches cfg as s) (w : WorkerId) :
    (as.flatMap (Action.callsBy w)).Sublist (as.flatMap (Action.gives w)) :=
  (workerChannel cfg w).left_sublist h rfl

theorem gives_sublist_dequeues (w : WorkerId) (a : Action) :
    (a.gives w).Sublist a.dequeues.reduceOption := by
  cases a with
  | takeJob v j =>
      show (if v = w then [j] else []).Sublist [j]
      split
      · exact List.Sublist.refl _
      · exact List.nil_sublist _
  | _ => exact List.nil_sublist _

theorem gives_sublist_jobsTaken (w : WorkerId) (as : List Action) :
    (as.flatMap (Action.gives w)).Sublist (jobsTaken as) := by
  induction as with
  | nil => exact List.Sublist.refl _
  | cons a as ih =>
      have hsplit : jobsTaken (a :: as) = a.dequeues.reduceOption ++ jobsTaken as := by
        rw [jobsTaken, List.flatMap_cons, List.reduceOption_append]
        rfl
      rw [List.flatMap_cons, hsplit]
      exact (gives_sublist_dequeues w a).append ih

/-- A job is put before another. -/
def PutBefore (as : List Action) (i j : JobId) : Prop := [i, j].Sublist (jobsPut as)

/-- A job held by a worker has been taken, and it waits nowhere. -/
theorem Reaches.taken_of_held (h : Reaches cfg as s) (hw : (s.workers w).job? = some j) :
    j ∈ jobsTaken as ∧ j ∉ s.queued := by
  obtain ⟨hres, hqueue, -⟩ := h.inv.sole hw
  have hnot : j ∉ s.queued := fun hmem => hqueue (List.reduceOption_mem_iff.mp hmem)
  have hmem := h.partition.mem_iff.mp (h.inv.placed_worker hw)
  rcases List.mem_append.mp hmem with hearly | htaken
  · rcases List.mem_append.mp hearly with hr | hq
    · exact absurd hr hres
    · exact absurd hq hnot
  · exact ⟨htaken, hnot⟩

/-- Whoever was put before a job that a worker holds has been taken too, and is another. -/
theorem Reaches.taken_before (h : Reaches cfg as s) (hw : (s.workers w).job? = some j)
    (hb : PutBefore as i j) : i ∈ jobsTaken as ∧ i ≠ j := by
  have hnodup := h.split.jobsPut_nodup.sublist hb
  refine ⟨?_, ?_⟩
  · have hsub := hb
    rw [PutBefore, h.jobsPut_eq] at hsub
    have htaken := pair_sublist_append_left hsub (h.taken_of_held hw).2
    exact htaken.subset List.mem_cons_self
  · rintro rfl
    exact (List.nodup_cons.mp hnodup).1 List.mem_cons_self

/-- A job that has been taken is over, or a worker holds it. -/
theorem Reaches.held_of_taken (h : Reaches cfg as s) (hi : i ∈ jobsTaken as)
    (hlive : (s.status i).terminal = false) : ∃ v, (s.workers v).job? = some i := by
  by_contra hnone
  have hnodup := h.partition.nodup_iff.mp h.split.fresh
  have hrest := (List.nodup_append.mp hnodup).2.2
  have hout : ∀ x ∈ s.reserved ++ s.queued, x ≠ i := fun x hx => hrest x hx i hi
  have hres : i ∉ s.reserved := fun hmem => hout i (List.mem_append_left _ hmem) rfl
  have hqueue : some i ∉ s.queue := fun hmem =>
    hout i (List.mem_append_right _ (List.reduceOption_mem_iff.mpr hmem)) rfl
  have hworkers : countBelow (WorkerPc.holds i) s.workers s.nextWorker = 0 :=
    countBelow_eq_zero fun v _ => Bool.eq_false_iff.mpr fun hv =>
      hnone ⟨v, WorkerPc.holds_iff.mp hv⟩
  have hplaces : s.places i = 0 := by
    rw [State.places, List.count_eq_zero_of_not_mem hres, List.count_eq_zero_of_not_mem hqueue,
      hworkers]
  have hacc : i ∈ s.accepted := h.partition.mem_iff.mpr (List.mem_append_right _ hi)
  exact absurd (h.inv.ended i hacc hplaces) (Bool.eq_false_iff.mp hlive)

/-- Every job put before one that a worker holds is over or with another worker. -/
theorem Reaches.ahead_of (h : Reaches cfg as s) (hw : (s.workers w).job? = some j)
    (hb : PutBefore as i j) (hlive : (s.status i).terminal = false) :
    ∃ v < s.nextWorker, v ≠ w ∧ (s.workers v).job? = some i := by
  obtain ⟨htaken, hij⟩ := h.taken_before hw hb
  obtain ⟨v, hv⟩ := h.held_of_taken htaken hlive
  refine ⟨v, h.inv.started hv, ?_, hv⟩
  rintro rfl
  exact hij (Option.some.inj (hv.symm.trans hw))

/-- **Jobs are served in the order they were put.**  Each worker calls jobs in that order; and
while a worker holds a job, the jobs put before it that are not over yet are fewer than the threads
started, so with one thread there are none. -/
theorem served_in_order (h : Reaches cfg as s) :
    (∀ w, (as.flatMap (Action.callsBy w)).Sublist (jobsPut as))
      ∧ ∀ w j, (s.workers w).job? = some j → ∀ live : Finset JobId,
        (∀ i ∈ live, PutBefore as i j ∧ (s.status i).terminal = false) →
        live.card < s.nextWorker := by
  constructor
  · intro w
    have htaken := (callsBy_sublist_gives h w).trans (gives_sublist_jobsTaken w as)
    rw [h.jobsPut_eq]
    exact htaken.trans (List.sublist_append_left _ _)
  · intro w j hw live hlive
    have hworker : ∀ i ∈ live, ∃ v < s.nextWorker, v ≠ w ∧ (s.workers v).job? = some i :=
      fun i hi => h.ahead_of hw (hlive i hi).1 (hlive i hi).2
    choose! worker hworker using hworker
    have hmaps : ∀ i ∈ live, worker i ∈ (Finset.range s.nextWorker).erase w := by
      intro i hi
      obtain ⟨hlt, hne, -⟩ := hworker i hi
      exact Finset.mem_erase.mpr ⟨hne, Finset.mem_range.mpr hlt⟩
    have hinj : Set.InjOn worker live := by
      intro i hi i' hi' heq
      have hfirst := (hworker i hi).2.2
      rw [heq] at hfirst
      exact Option.some.inj (hfirst.symm.trans (hworker i' hi').2.2)
    have hcard := Finset.card_le_card_of_injOn worker hmaps hinj
    have hmem : w ∈ Finset.range s.nextWorker := Finset.mem_range.mpr (h.inv.started hw)
    rw [Finset.card_erase_of_mem hmem, Finset.card_range] at hcard
    exact Nat.lt_of_le_of_lt hcard (Nat.sub_lt (Nat.zero_lt_of_lt (h.inv.started hw)) Nat.one_pos)

/-- The only worker has taken the second of two jobs, so the first is over. -/
theorem served_in_order_second : ∃ as s, Reaches ⟨1, 3600, 0⟩ as s ∧ s.workers 0 = .dequeued 1
    ∧ PutBefore as 0 1 ∧ (s.status 0).terminal = true := by
  obtain ⟨s, hs, hw, hnext⟩ := reaches_of_replay ⟨1, 3600, 0⟩
    [.start 0, .setRunning 0, .spawn 0, .append 0, .submit 0 0, .submit 1 1, .put 0, .put 1,
      .takeJob 0 0, .decrement 0, .claim 0 0, .call 0 0, .finish 0 .returned, .storeAttr 0 2,
      .storeAttr 0 2, .storeAttr 0 2, .takeJob 0 1]
    (fun s => s.workers 0 = .dequeued 1 ∧ s.nextWorker = 1) (by decide +kernel)
  refine ⟨_, s, hs, hw, List.Sublist.refl _, ?_⟩
  by_contra hlive
  have hone := (served_in_order hs).2 0 1 (congrArg WorkerPc.job? hw) {0} ?_
  · rw [hnext] at hone
    exact absurd hone (by decide)
  · intro i hi
    rw [Finset.mem_singleton.mp hi]
    exact ⟨List.Sublist.refl _, Bool.eq_false_iff.mpr hlive⟩

end HandBrakeEncoder.Jobs
