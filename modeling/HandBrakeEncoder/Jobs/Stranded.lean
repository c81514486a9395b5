/-
# `Jobs.Stranded` — the submission a shutdown leaves behind

`submit` accepts a job under the lock and puts it on the queue after releasing
it.  A shutdown in between can put all its sentinels first; the workers take
them and end, and the job then put is taken by nobody: it stays `QUEUED` and
counted in `_pending` for good.

**Exactly then.**  With one controlling thread and functions that raise ordinary
exceptions only, in a state where everything has come to rest no job is
stranded if and only if every `put` came before the last sentinel.  The
threads that have not ended are matched by the sentinels in the queue and owed
(`Epoch.balance`), so at rest no sentinel is left; and what stands at the end of
the queue was put after the last one (`Drain`).
-/
import HandBrakeEncoder.Jobs.Restart

namespace HandBrakeEncoder.Jobs

open Lib

/-- Every job was put before some later sentinel. -/
def PutsInTime (as : List Action) : Prop :=
  ∀ xs j ys, as = xs ++ .put j :: ys → ∃ d, Action.sentinel d ∈ ys

/-- Functions return or raise ordinary exceptions. -/
def Ordinary (as : List Action) : Prop :=
  ∀ w outcome, Action.finish w outcome ∈ as → outcome.kills = false

/-- `shutdown` has returned, no `submit` is in progress, and every worker thread has ended. -/
structure AtRest (c : CtlId) (s : State) : Prop where
  returned : s.ctl c = .idle
  stopped : s.running = false
  submitted : s.reserved = []
  ended : ∀ w < s.nextWorker, s.workers w = .exited ∨ s.workers w = .died

/-- No stored job is left queued or running, and nothing is counted as waiting. -/
def NoneStranded (s : State) : Prop :=
  (∀ j ∈ s.store, (s.status j).terminal = true) ∧ s.pending = 0

variable {cfg : Config} {s t : State} {as : List Action} {a : Action} {c : CtlId} {j : JobId}
  {w : WorkerId} {pc : WorkerPc}

/-! ## What is waiting -/

/-- The worker has taken its job off the queue and not yet counted it. -/
def WorkerPc.uncounted : WorkerPc → Bool
  | .dequeued _ => true
  | _ => false

/-- `_pending` counts the jobs being put, in the queue, and just taken. -/
def PendingExact (s : State) : Prop :=
  s.pending = s.reserved.length + s.queue.countP Option.isSome
    + countBelow WorkerPc.uncounted s.workers s.nextWorker

theorem JobStep.uncounted {pc' : WorkerPc} {job job' : Job} (h : JobStep w j a pc job pc' job') :
    pc.uncounted = false ∧ pc'.uncounted = false := by
  cases h with
  | @storeAttr _ _ ss kills _ =>
      refine ⟨rfl, ?_⟩
      cases ss with
      | nil => cases kills <;> rfl
      | cons _ _ => rfl
  | claimRefused _ => exact ⟨rfl, rfl⟩
  | claimGranted _ => exact ⟨rfl, rfl⟩
  | call => exact ⟨rfl, rfl⟩
  | fnStore _ => exact ⟨rfl, rfl⟩
  | finish => exact ⟨rfl, rfl⟩

theorem PendingExact.client (h : PendingExact s) (hstep : ClientStep cfg a s t) :
    PendingExact t := by
  cases hstep with
  | get => exact h
  | sweep => exact h
  | @delete _ i =>
      rcases deleteBlock_state s i with hstate | ⟨-, hstate⟩
      · rw [hstate]
        exact h
      · rw [hstate]
        exact h
  | @put _ i hi =>
      have hlen := List.length_erase_of_mem hi
      have hpos := List.length_pos_of_mem hi
      rw [PendingExact] at h ⊢
      show s.pending = ((s.reserved.erase i).length : ℤ)
        + ((s.queue ++ [some i]).countP Option.isSome : ℕ)
        + (countBelow WorkerPc.uncounted s.workers s.nextWorker : ℕ)
      rw [List.countP_append, List.countP_singleton, hlen]
      simp only [Option.isSome_some, if_true]
      omega
  | @submit _ created now =>
      rcases submitBlock_state cfg s created now with ⟨-, -, hstate⟩ | ⟨jobs, -, hstate⟩
      · rw [hstate]
        rw [PendingExact] at h
        show s.pending + 1 = ((s.reserved.length + 1 : ℕ) : ℤ)
          + (s.queue.countP Option.isSome : ℕ)
          + (countBelow WorkerPc.uncounted s.workers s.nextWorker : ℕ)
        omega
      · rw [hstate]
        exact h

theorem PendingExact.worker (h : PendingExact s) (hi : Inv s) (hstep : WorkerStep w a s t) :
    PendingExact t := by
  rw [PendingExact] at h ⊢
  cases hstep with
  | @takeSentinel _ rest hw hq =>
      have hcount := hi.count_setWorker (w := w) WorkerPc.uncounted .exited (hw ▸ nofun)
      rw [hw] at hcount
      rw [hq, List.countP_cons_of_neg (show ¬ (none : Option JobId).isSome = true from nofun)] at h
      show s.pending = (s.reserved.length : ℤ) + (rest.countP Option.isSome : ℕ)
        + (countBelow WorkerPc.uncounted (Function.update s.workers w .exited) s.nextWorker : ℕ)
      rw [Nat.add_right_cancel hcount]
      exact h
  | @takeJob _ i rest hw hq =>
      have hcount := hi.count_setWorker (w := w) WorkerPc.uncounted (.dequeued i) (hw ▸ nofun)
      rw [hw] at hcount
      rw [hq, List.countP_cons_of_pos (show (some i).isSome = true from rfl)] at h
      have hone : countBelow WorkerPc.uncounted (Function.update s.workers w (.dequeued i))
          s.nextWorker = countBelow WorkerPc.uncounted s.workers s.nextWorker + 1 := hcount
      show s.pending = (s.reserved.length : ℤ) + (rest.countP Option.isSome : ℕ)
        + (countBelow WorkerPc.uncounted (Function.update s.workers w (.dequeued i))
            s.nextWorker : ℕ)
      omega
  | @decrement _ i hw =>
      have hcount := hi.count_setWorker (w := w) WorkerPc.uncounted (.claiming i) (hw ▸ nofun)
      rw [hw] at hcount
      have hone : countBelow WorkerPc.uncounted (Function.update s.workers w (.claiming i))
          s.nextWorker + 1 = countBelow WorkerPc.uncounted s.workers s.nextWorker := hcount
      show s.pending - 1 = (s.reserved.length : ℤ) + (s.queue.countP Option.isSome : ℕ)
        + (countBelow WorkerPc.uncounted (Function.update s.workers w (.claiming i))
            s.nextWorker : ℕ)
      omega
  | @onJob _ _ i pc job hjob =>
      have hcount := hi.count_setWorker WorkerPc.uncounted pc hjob.ne_notStarted
      rw [hjob.uncounted.1, hjob.uncounted.2] at hcount
      show s.pending = (s.reserved.length : ℤ) + (s.queue.countP Option.isSome : ℕ)
        + (countBelow WorkerPc.uncounted (Function.update s.workers w pc) s.nextWorker : ℕ)
      rw [Nat.add_right_cancel hcount]
      exact h

theorem PendingExact.control (h : PendingExact s) (hstep : ControlStep cfg c a s t) :
    PendingExact t := by
  rw [PendingExact] at h ⊢
  cases hstep with
  | spawn _ =>
      have hsame : countBelow WorkerPc.uncounted (Function.update s.workers s.nextWorker .getting)
          (s.nextWorker + 1) = countBelow WorkerPc.uncounted s.workers s.nextWorker := by
        rw [countBelow_succ, countBelow_update_ge (Nat.le_refl _), Function.update_self]
        rfl
      show s.pending = (s.reserved.length : ℤ) + (s.queue.countP Option.isSome : ℕ)
        + (countBelow WorkerPc.uncounted (Function.update s.workers s.nextWorker .getting)
            (s.nextWorker + 1) : ℕ)
      rw [hsame]
      exact h
  | sentinel _ _ =>
      show s.pending = (s.reserved.length : ℤ) + ((s.queue ++ [none]).countP Option.isSome : ℕ)
        + (countBelow WorkerPc.uncounted s.workers s.nextWorker : ℕ)
      rw [List.countP_append]
      exact h
  | startRunning _ _ => exact h
  | start _ _ => exact h
  | setRunning _ => exact h
  | append _ => exact h
  | shutdown _ => exact h
  | cancel _ => exact h
  | cancelled _ => exact h
  | sentinelsDone _ _ => exact h
  | join _ _ => exact h
  | joined _ _ => exact h
  | clear _ => exact h

/-- Every stored job was accepted. -/
def StoredAccepted (s : State) : Prop := ∀ j ∈ s.store, j ∈ s.accepted

theorem StoredAccepted.step (h : StoredAccepted s) (hstep : Step cfg a s t) :
    StoredAccepted t := by
  cases hstep with
  | worker w hstep => cases hstep <;> exact h
  | control c hstep => cases hstep <;> exact h
  | client hstep =>
      cases hstep with
      | put _ => exact h
      | get => exact h
      | sweep => exact fun j hj => h j (List.mem_filter.mp hj).1
      | @delete _ i =>
          rcases deleteBlock_state s i with hstate | ⟨-, hstate⟩
          · rw [hstate]
            exact fun j hj => h j (List.mem_of_mem_erase hj)
          · rw [hstate]
            exact h
      | @submit _ created now =>
          rcases submitBlock_state cfg s created now with ⟨-, -, hstate⟩ | ⟨jobs, -, hstate⟩
          · rw [hstate]
            intro j hj
            exact List.mem_append.mpr ((List.mem_append.mp hj).imp_left (h j))
          · rw [hstate]
            exact h

theorem Reaches.pending (h : Reaches cfg as s) : PendingExact s ∧ StoredAccepted s := by
  suffices hinv : Inv s ∧ PendingExact s ∧ StoredAccepted s from hinv.2
  refine Run.invariant (P := fun s => Inv s ∧ PendingExact s ∧ StoredAccepted s) ?_ h
    ⟨Inv.init, rfl, fun _ hj => nomatch hj⟩
  intro a s t ⟨hi, hp, hst⟩ hstep
  refine ⟨hi.step hstep, ?_, hst.step hstep⟩
  cases hstep with
  | client hstep => exact hp.client hstep
  | worker w hstep => exact hp.worker hi hstep
  | control c hstep => exact hp.control hstep

/-! ## What stands at the end of the queue -/

/-- What the action appends to the queue, if it appends. -/
def Action.puts : Action → Option (Option JobId)
  | .put j => some (some j)
  | .sentinel _ => some none
  | _ => none

theorem JobStep.puts_eq {pc' : WorkerPc} {job job' : Job} (h : JobStep w j a pc job pc' job') :
    a.puts = none := by
  cases h <;> rfl

/-- A step appends what its action says; else it leaves the queue or takes its head. -/
theorem Step.queue (h : Step cfg a s t) :
    match a.puts with
    | some x => t.queue = s.queue ++ [x]
    | none => t.queue = s.queue ∨ ∃ x w, s.workers w = .getting ∧ s.queue = x :: t.queue := by
  cases h with
  | client h =>
      cases h with
      | put _ => rfl
      | get => exact .inl rfl
      | sweep => exact .inl rfl
      | @delete _ i =>
          rcases deleteBlock_state s i with h | ⟨-, h⟩
          · rw [h]
            exact .inl rfl
          · rw [h]
            exact .inl rfl
      | @submit _ created now =>
          rcases submitBlock_state cfg s created now with ⟨-, -, h⟩ | ⟨jobs, -, h⟩
          · rw [h]
            exact .inl rfl
          · rw [h]
            exact .inl rfl
  | worker w h =>
      cases h with
      | takeSentinel hw hq => exact .inr ⟨_, w, hw, hq⟩
      | takeJob hw hq => exact .inr ⟨_, w, hw, hq⟩
      | decrement _ => exact .inl rfl
      | onJob hstep =>
          have hnone : a.puts = none := hstep.puts_eq
          rw [hnone]
          exact .inl rfl
  | control c h =>
      cases h with
      | sentinel _ _ => rfl
      | startRunning _ _ => exact .inl rfl
      | start _ _ => exact .inl rfl
      | setRunning _ => exact .inl rfl
      | spawn _ => exact .inl rfl
      | append _ => exact .inl rfl
      | shutdown _ => exact .inl rfl
      | cancel _ => exact .inl rfl
      | cancelled _ => exact .inl rfl
      | sentinelsDone _ _ => exact .inl rfl
      | join _ _ => exact .inl rfl
      | joined _ _ => exact .inl rfl
      | clear _ => exact .inl rfl

theorem PutsInTime.snoc_put (j : JobId) : ¬ PutsInTime (as ++ [.put j]) := by
  intro h
  obtain ⟨d, hd⟩ := h as j [] rfl
  cases hd

theorem PutsInTime.snoc_sentinel (d : CtlId) : PutsInTime (as ++ [.sentinel d]) := by
  intro xs j ys hsplit
  rcases List.eq_nil_or_concat ys with rfl | ⟨ys', b, rfl⟩
  · obtain ⟨_, hlast⟩ := List.append_inj' hsplit rfl
    cases hlast
  · rw [List.concat_eq_append, ← List.cons_append, ← List.append_assoc] at hsplit
    obtain ⟨_, hlast⟩ := List.append_inj' hsplit rfl
    cases hlast
    exact ⟨d, by simp⟩

theorem PutsInTime.snoc_other (as : List Action) (ha : a.puts = none) :
    PutsInTime (as ++ [a]) ↔ PutsInTime as := by
  constructor
  · intro h xs j ys hsplit
    obtain ⟨d, hd⟩ := h xs j (ys ++ [a]) (by rw [hsplit]; simp)
    rcases List.mem_append.mp hd with hys | hlast
    · exact ⟨d, hys⟩
    · obtain rfl := List.mem_singleton.mp hlast
      cases ha
  · intro h xs j ys hsplit
    rcases List.eq_nil_or_concat ys with rfl | ⟨ys', b, rfl⟩
    · obtain ⟨_, hlast⟩ := List.append_inj' hsplit rfl
      cases hlast
      cases ha
    · rw [List.concat_eq_append, ← List.cons_append, ← List.append_assoc] at hsplit
      obtain ⟨hinit, _⟩ := List.append_inj' hsplit rfl
      obtain ⟨d, hd⟩ := h xs j ys' hinit
      exact ⟨d, by simp [hd]⟩

/-- Nothing but sentinels is owed to the threads that are left, so what was put
after the last sentinel stays at the end of the queue. -/
structure Drain (c : CtlId) (as : List Action) (s : State) : Prop where
  inTime : PutsInTime as → ∀ x ∈ s.queue.getLast?, x = none
  late : ¬ PutsInTime as → (s.ctl c).credit s.threads.length = 0 →
    ∃ j, s.queue.getLast? = some (some j)

/-- Only a sentinel pays the last of what is owed. -/
theorem Step.credit (h : Step cfg a s t) (hep : Epoch cfg c s)
    (hc : ∀ d, a.ctl? = some d → d = c) (ha : a.puts = none)
    (hzero : (t.ctl c).credit t.threads.length = 0) : (s.ctl c).credit s.threads.length = 0 := by
  cases h with
  | client h =>
      have hsame := h.sameControl
      rw [← hsame.ctl, ← hsame.threads]
      exact hzero
  | worker w h =>
      have hsame := h.sameControl
      rw [← hsame.ctl, ← hsame.threads]
      exact hzero
  | control d h =>
      obtain rfl := hc d h.ctl?_eq
      have hfits := hep.fits
      cases h with
      | startRunning _ _ => exact hzero
      | start hctl hr =>
          rw [hctl] at hfits ⊢
          have : s.threads.length = if s.running then cfg.numWorkers else 0 := hfits
          rwa [hr] at this
      | setRunning hctl =>
          rw [hctl]
          rfl
      | spawn hctl =>
          rw [State.setCtl_self] at hzero
          cases hzero
      | @append _ i v hctl =>
          rw [State.setCtl_self] at hzero
          split at hzero
          · cases hzero
          · have : (s.threads ++ [v]).length = 0 := hzero
            rw [List.length_append] at this
            cases this
      | shutdown hctl =>
          rw [State.setCtl_self] at hzero
          rw [hctl]
          exact hzero
      | cancel hctl =>
          rw [State.setCtl_self] at hzero
          rw [hctl]
          exact hzero
      | cancelled hctl =>
          rw [State.setCtl_self] at hzero
          rw [hctl]
          exact hzero
      | sentinel _ _ => cases ha
      | @sentinelsDone _ k hctl hk =>
          rw [hctl]
          show s.threads.length - k = 0
          omega
      | join hctl _ =>
          rw [hctl]
          rfl
      | joined hctl _ =>
          rw [hctl]
          rfl
      | clear hctl =>
          rw [hctl]
          rfl

/-- A worker that can take from the queue is matched by a sentinel in it or owed. -/
theorem Epoch.sentinel_of_getting (h : Epoch cfg c s) (hw : s.workers w = .getting)
    (hzero : (s.ctl c).credit s.threads.length = 0) : 0 < s.queue.count none := by
  have hstarted : w < s.nextWorker := by
    refine Nat.lt_of_not_le fun hle => ?_
    rw [h.inv.fresh w hle] at hw
    cases hw
  have hpos : 0 < s.unretired := countBelow_pos hstarted (by rw [hw]; rfl)
  have hbalance := h.balance
  omega

theorem Drain.step (hd : Drain c as s) (hep : Epoch cfg c s) (h : Step cfg a s t)
    (hc : ∀ d, a.ctl? = some d → d = c) : Drain c (as ++ [a]) t := by
  have hqueue := h.queue
  cases hputs : a.puts with
  | some x =>
      rw [hputs] at hqueue
      have hlast : t.queue.getLast? = some x := by
        have : t.queue = s.queue ++ [x] := hqueue
        rw [this, List.getLast?_concat]
      cases x with
      | some j =>
          obtain rfl : a = .put j := by cases a <;> cases hputs; rfl
          exact ⟨fun hin => absurd hin (PutsInTime.snoc_put j), fun _ _ => ⟨j, hlast⟩⟩
      | none =>
          obtain ⟨d, rfl⟩ : ∃ d, a = .sentinel d := by cases a <;> cases hputs; exact ⟨_, rfl⟩
          refine ⟨fun _ y hy => ?_, fun hlate => absurd (PutsInTime.snoc_sentinel d) hlate⟩
          rw [hlast] at hy
          exact (Option.some.inj hy).symm
  | none =>
      rw [hputs] at hqueue
      have hiff := PutsInTime.snoc_other as hputs
      rcases hqueue with hsame | ⟨x, w, hw, hcons⟩
      · refine ⟨fun hin => hsame ▸ hd.inTime (hiff.mp hin), fun hlate hzero => hsame ▸ ?_⟩
        exact hd.late (fun hin => hlate (hiff.mpr hin)) (h.credit hep hc hputs hzero)
      · cases hrest : t.queue with
        | cons y ys =>
            -- the end of the queue is the same
            have hsame : (y :: ys).getLast? = s.queue.getLast? := by
              rw [hcons, hrest, List.getLast?_cons_cons]
            refine ⟨fun hin => ?_, fun hlate hzero => ?_⟩
            · rw [hrest, hsame]
              exact hd.inTime (hiff.mp hin)
            · rw [hrest, hsame]
              exact hd.late (fun hin => hlate (hiff.mpr hin)) (h.credit hep hc hputs hzero)
        | nil =>
            rw [hrest] at hcons
            refine ⟨fun _ y hy => ?_, fun hlate hzero => ?_⟩
            · rw [hrest] at hy
              cases hy
            · -- the head taken was a sentinel, so it was not put late
              have hzero' := h.credit hep hc hputs hzero
              obtain ⟨j, hj⟩ := hd.late (fun hin => hlate (hiff.mpr hin)) hzero'
              have hpos := hep.sentinel_of_getting hw hzero'
              rw [hcons] at hj hpos
              obtain rfl : x = some j := Option.some.inj hj
              rw [List.count_cons_of_ne (show some j ≠ none from nofun)] at hpos
              cases hpos

theorem Reaches.drain (h : Reaches cfg as s) (hc : ControlledBy c as) : Drain c as s := by
  suffices hinv : ControlledBy c as → Epoch cfg c s ∧ Drain c as s from (hinv hc).2
  refine Run.trace (P := fun as s => ControlledBy c as → Epoch cfg c s ∧ Drain c as s) ?_ h ?_
  · intro as a s t hprev hstep hc
    obtain ⟨hep, hd⟩ := hprev fun b hb => hc b (List.mem_append_left _ hb)
    have ha : ∀ d, a.ctl? = some d → d = c :=
      hc a (List.mem_append_right _ (List.mem_singleton.mpr rfl))
    exact ⟨hep.step hstep ha, hd.step hep hstep ha⟩
  · refine fun _ => ⟨Epoch.init cfg c, fun _ x hx => (Option.not_mem_none x hx).elim, ?_⟩
    refine fun hlate => absurd (fun xs j ys hnil => ?_) hlate
    cases xs <;> cases hnil

/-! ## At rest -/

/-- No worker thread has ended by an exception or is about to. -/
def NoDeaths (s : State) : Prop :=
  ∀ w, s.workers w ≠ .died ∧ ∀ j stores, s.workers w ≠ .storing j stores true

theorem JobStep.no_death {pc' : WorkerPc} {job job' : Job} (h : JobStep w j a pc job pc' job')
    (hpc : ∀ i stores, pc ≠ .storing i stores true)
    (ha : ∀ v outcome, a = .finish v outcome → outcome.kills = false) :
    pc' ≠ .died ∧ ∀ i stores, pc' ≠ .storing i stores true := by
  cases h with
  | claimRefused _ => exact ⟨nofun, nofun⟩
  | claimGranted _ => exact ⟨nofun, nofun⟩
  | call => exact ⟨nofun, nofun⟩
  | fnStore _ => exact ⟨nofun, nofun⟩
  | @finish _ outcome =>
      rw [ha w outcome rfl]
      exact ⟨nofun, nofun⟩
  | @storeAttr _ _ ss kills _ =>
      cases kills with
      | true => exact absurd rfl (hpc _ _)
      | false => cases ss <;> exact ⟨nofun, nofun⟩

theorem NoDeaths.setWorker (h : NoDeaths s)
    (hpc : pc ≠ .died ∧ ∀ j stores, pc ≠ .storing j stores true) :
    NoDeaths (s.setWorker w pc) := by
  intro v
  rcases eq_or_ne v w with rfl | hvw
  · rw [State.setWorker_self]
    exact hpc
  · rw [State.setWorker_ne _ _ hvw]
    exact h v

theorem NoDeaths.step (h : NoDeaths s) (hstep : Step cfg a s t)
    (ha : ∀ w outcome, a = .finish w outcome → outcome.kills = false) : NoDeaths t := by
  cases hstep with
  | client hstep =>
      intro w
      rw [hstep.workers.1]
      exact h w
  | worker w hstep =>
      cases hstep with
      | takeSentinel _ _ => exact NoDeaths.setWorker (fun v => h v) ⟨nofun, nofun⟩
      | takeJob _ _ => exact NoDeaths.setWorker (fun v => h v) ⟨nofun, nofun⟩
      | decrement _ => exact NoDeaths.setWorker (fun v => h v) ⟨nofun, nofun⟩
      | onJob hjob => exact NoDeaths.setWorker (fun v => h v) (hjob.no_death (h w).2 ha)
  | control c hstep =>
      cases hstep with
      | spawn _ =>
          intro v
          exact NoDeaths.setWorker (w := s.nextWorker) h
            (show WorkerPc.getting ≠ .died ∧ _ from ⟨nofun, nofun⟩) v
      | startRunning _ _ => exact h
      | start _ _ => exact h
      | setRunning _ => exact h
      | append _ => exact h
      | shutdown _ => exact h
      | cancel _ => exact h
      | cancelled _ => exact h
      | sentinel _ _ => exact h
      | sentinelsDone _ _ => exact h
      | join _ _ => exact h
      | joined _ _ => exact h
      | clear _ => exact h

theorem Reaches.noDeaths (h : Reaches cfg as s) (ho : Ordinary as) : NoDeaths s := by
  refine Run.invariant_of (P := NoDeaths) (Q := fun a => ∀ w outcome, a = .finish w outcome →
    outcome.kills = false) (fun a s t ha hn hstep => hn.step hstep ha) h ?_
    (fun _ => ⟨nofun, nofun⟩)
  exact fun a hmem w outcome hfinish => ho w outcome (hfinish ▸ hmem)

/-- At rest every sentinel has been taken. -/
theorem AtRest.no_sentinel (hr : AtRest c s) (hep : Epoch cfg c s) (hn : NoDeaths s) :
    none ∉ s.queue := by
  have hnone : s.unretired = 0 := countBelow_eq_zero fun w hw => by
    rcases hr.ended w hw with hexit | hdied
    · rw [hexit]
      rfl
    · exact absurd hdied (hn w).1
  have hbalance := hep.balance
  intro hmem
  have := List.count_pos_iff.mpr hmem
  omega

theorem AtRest.credit (hr : AtRest c s) (hep : Epoch cfg c s) :
    (s.ctl c).credit s.threads.length = 0 := by
  have hfits := hep.fits
  rw [hr.returned] at hfits ⊢
  have : s.threads.length = if s.running then cfg.numWorkers else 0 := hfits
  rwa [hr.stopped] at this

theorem AtRest.free (hr : AtRest c s) (hi : Inv s) (w : WorkerId) : (s.workers w).job? = none := by
  rcases Nat.lt_or_ge w s.nextWorker with hlt | hge
  · rcases hr.ended w hlt with hw | hw <;> rw [hw] <;> rfl
  · rw [hi.fresh w hge]
    rfl

theorem AtRest.pending (hr : AtRest c s) (hp : PendingExact s) :
    s.pending = s.queue.countP Option.isSome := by
  have hcount : countBelow WorkerPc.uncounted s.workers s.nextWorker = 0 :=
    countBelow_eq_zero fun w hw => by
      rcases hr.ended w hw with hexit | hdied
      · rw [hexit]
        rfl
      · rw [hdied]
        rfl
  rw [PendingExact] at hp
  rw [hp, hr.submitted, hcount]
  exact (Int.add_zero _).trans (Int.zero_add _)

/-- **No job is stranded exactly when every submission came in time.**  At rest, all
stored jobs are over and none is counted as waiting if and only if each job was put
on the queue before some later sentinel. -/
theorem none_stranded_iff_putsInTime (h : Reaches cfg as s) (hc : ControlledBy c as)
    (ho : Ordinary as) (hr : AtRest c s) : NoneStranded s ↔ PutsInTime as := by
  have hep := h.epoch hc
  have hdrain := h.drain hc
  obtain ⟨hpending, hstored⟩ := h.pending
  have hsentinel := hr.no_sentinel hep (h.noDeaths ho)
  have hcount := hr.pending hpending
  constructor
  · rintro ⟨_, hzero⟩
    by_contra hlate
    obtain ⟨j, hj⟩ := hdrain.late hlate (hr.credit hep)
    have hpos : 0 < s.queue.countP Option.isSome :=
      List.countP_pos_iff.mpr ⟨some j, List.mem_of_getLast? hj, rfl⟩
    omega
  · intro hin
    have hempty : s.queue = [] := by
      cases hlast : s.queue.getLast? with
      | none => exact List.getLast?_eq_none_iff.mp hlast
      | some x =>
          obtain rfl := hdrain.inTime hin x hlast
          exact absurd (List.mem_of_getLast? hlast) hsentinel
    refine ⟨fun j hj => hep.inv.ended j (hstored j hj) ?_, ?_⟩
    · rw [State.places]
      rw [hr.submitted, hempty, countBelow_eq_zero fun w _ =>
        WorkerPc.holds_of_free (hr.free hep.inv w)]
      rfl
    · rw [hcount, hempty]
      rfl

theorem AtRest.of_one {s : State} (h : s.ctl 0 = .idle ∧ s.running = false ∧ s.reserved = [] ∧
    s.nextWorker = 1 ∧ s.workers 0 = .exited) : AtRest 0 s := by
  obtain ⟨hctl, hr, hres, hnext, hw⟩ := h
  refine ⟨hctl, hr, hres, fun w hlt => ?_⟩
  rw [hnext] at hlt
  obtain rfl := Nat.lt_one_iff.mp hlt
  exact .inl hw

/-- A job put before the sentinel of a one-worker shutdown ends, cancelled. -/
theorem none_stranded_iff_putsInTime_drained :
    ∃ s, Reaches ⟨1, 3600, 0⟩
        [.start 0, .setRunning 0, .spawn 0, .append 0, .submit 0 0, .shutdown 0, .cancel 0,
          .cancelled 0, .put 0, .sentinel 0, .sentinelsDone 0, .takeJob 0 0, .decrement 0,
          .claim 0 0, .storeAttr 0 5, .storeAttr 0 5, .takeSentinel 0, .join 0, .joined 0,
          .clear 0] s ∧
      (NoneStranded s ↔ PutsInTime
        [.start 0, .setRunning 0, .spawn 0, .append 0, .submit 0 0, .shutdown 0, .cancel 0,
          .cancelled 0, .put 0, .sentinel 0, .sentinelsDone 0, .takeJob 0 0, .decrement 0,
          .claim 0 0, .storeAttr 0 5, .storeAttr 0 5, .takeSentinel 0, .join 0, .joined 0,
          .clear 0]) ∧ s.status 0 = .cancelled := by
  obtain ⟨s, hrun, hrest, hstatus⟩ := reaches_of_replay ⟨1, 3600, 0⟩
    [.start 0, .setRunning 0, .spawn 0, .append 0, .submit 0 0, .shutdown 0, .cancel 0,
      .cancelled 0, .put 0, .sentinel 0, .sentinelsDone 0, .takeJob 0 0, .decrement 0,
      .claim 0 0, .storeAttr 0 5, .storeAttr 0 5, .takeSentinel 0, .join 0, .joined 0, .clear 0]
    (fun s => (s.ctl 0 = .idle ∧ s.running = false ∧ s.reserved = [] ∧ s.nextWorker = 1 ∧
      s.workers 0 = .exited) ∧ s.status 0 = .cancelled) (by decide +kernel)
  refine ⟨s, hrun, ?_, hstatus⟩
  exact none_stranded_iff_putsInTime hrun (c := 0) (by simp [ControlledBy, Action.ctl?])
    (by simp [Ordinary]) (AtRest.of_one hrest)

/-- A job accepted before the lock block of a one-worker shutdown and put after its
sentinel is left queued and counted when everything has come to rest. -/
theorem job_put_after_sentinel_stranded :
    ¬ ∀ (cfg : Config) (c : CtlId) (as : List Action) (s : State), Reaches cfg as s →
      ControlledBy c as → Ordinary as → AtRest c s → NoneStranded s := by
  intro hall
  obtain ⟨s, hrun, hrest, hstore, hstatus⟩ := reaches_of_replay ⟨1, 3600, 0⟩
    [.start 0, .setRunning 0, .spawn 0, .append 0, .submit 0 0, .shutdown 0, .cancel 0,
      .cancelled 0, .sentinel 0, .sentinelsDone 0, .takeSentinel 0, .put 0, .join 0, .joined 0,
      .clear 0]
    (fun s => (s.ctl 0 = .idle ∧ s.running = false ∧ s.reserved = [] ∧ s.nextWorker = 1 ∧
      s.workers 0 = .exited) ∧ s.store = [0] ∧ s.status 0 = .queued) (by decide +kernel)
  have hnone := hall _ 0 _ s hrun (by simp [ControlledBy, Action.ctl?]) (by simp [Ordinary])
    (AtRest.of_one hrest)
  have hterm := hnone.1 0 (by rw [hstore]; exact List.mem_singleton.mpr rfl)
  rw [hstatus] at hterm
  cases hterm

end HandBrakeEncoder.Jobs
