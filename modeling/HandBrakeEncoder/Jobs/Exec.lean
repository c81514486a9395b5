/-
# `Jobs.Exec` — the step relation as a function

Given the action, the next state of the manager is determined, and `exec`
computes it: `exec_iff` is the bridge to the relation.  A concrete interleaving is
then replayed by evaluation (`reaches_of_replay`).
-/
import HandBrakeEncoder.Jobs.Manager

namespace HandBrakeEncoder.Jobs

open Lib

/-- The worker that acts, if one does. -/
def Action.worker? : Action → Option WorkerId
  | .takeSentinel w | .takeJob w _ | .decrement w | .claim w _ | .call w _ | .fnStore w _ _
  | .finish w _ | .storeAttr w _ => some w
  | _ => none

/-- A step of a worker on the job it holds. -/
def execOnJob (j : JobId) (a : Action) (pc : WorkerPc) (job : Job) : Option (WorkerPc × Job) :=
  match a, pc with
  | .claim _ i, .claiming _ =>
      if i = j then
        match job.claim with
        | none => some (.storing j rejectStores false, job)
        | some job' => some (.claimed j, job')
      else none
  | .call _ i, .claimed _ => if i = j then some (.executing j, job) else none
  | .fnStore _ st now, .executing _ =>
      if st.byFunction then some (.executing j, job.store now st) else none
  | .finish _ outcome, .executing _ =>
      some (.storing j (terminalStores outcome) outcome.kills, job)
  | .storeAttr _ now, .storing _ (st :: ss) kills =>
      some (.afterStore j kills ss, job.store now st)
  | _, _ => none

/-- A step of the worker that the action names. -/
def execWorker (s : State) (w : WorkerId) (a : Action) : Option State :=
  match s.workers w with
  | .getting =>
      match a, s.queue with
      | .takeSentinel _, none :: rest => some ({ s with queue := rest }.setWorker w .exited)
      | .takeJob _ i, some j :: rest =>
          if i = j then some ({ s with queue := rest }.setWorker w (.dequeued j)) else none
      | _, _ => none
  | .dequeued j =>
      match a with
      | .decrement _ => some ({ s with pending := s.pending - 1 }.setWorker w (.claiming j))
      | _ => none
  | pc =>
      match pc.job? with
      | none => none
      | some j =>
          match execOnJob j a pc (s.jobs j) with
          | none => none
          | some (pc', job) => some ((s.setJob j job).setWorker w pc')

/-- A step of the controller that the action names. -/
def execControl (cfg : Config) (s : State) (c : CtlId) (a : Action) : Option State :=
  match a, s.ctl c with
  | .start _, .idle => some (if s.running then s else s.setCtl c .starting)
  | .setRunning _, .starting => some ({ s with running := true }.setCtl c (.spawning 0))
  | .spawn _, .spawning i =>
      some (({ s with nextWorker := s.nextWorker + 1 }.setWorker s.nextWorker .getting).setCtl c
        (.appending i s.nextWorker))
  | .append _, .appending i w =>
      some ({ s with threads := s.threads ++ [w] }.setCtl c
        (if i + 1 < cfg.numWorkers then .spawning (i + 1) else .idle))
  | .shutdown _, .idle => some ({ s with running := false }.setCtl c (.cancelling (snapshot s)))
  | .cancel _, .cancelling (j :: js) =>
      some ((s.setJob j (s.jobs j).cancel).setCtl c (.cancelling js))
  | .cancelled _, .cancelling [] => some (s.setCtl c (.sentinels 0))
  | .sentinel _, .sentinels k =>
      if k < s.threads.length then
        some ({ s with queue := s.queue ++ [none] }.setCtl c (.sentinels (k + 1)))
      else none
  | .sentinelsDone _, .sentinels k =>
      if k < s.threads.length then none else some (s.setCtl c (.joining 0))
  | .join _, .joining k =>
      if k < s.threads.length then some (s.setCtl c (.joining (k + 1))) else none
  | .joined _, .joining k =>
      if k < s.threads.length then none else some (s.setCtl c .clearing)
  | .clear _, .clearing => some ({ s with threads := [] }.setCtl c .idle)
  | _, _ => none

/-- The next state, if the action is enabled. -/
def exec (cfg : Config) (s : State) (a : Action) : Option State :=
  match a with
  | .submit created now => some (submitBlock cfg s created now).2
  | .put j =>
      if j ∈ s.reserved then
        some { s with reserved := s.reserved.erase j, queue := s.queue ++ [some j] }
      else none
  | .get _ => some s
  | .delete j => some (deleteBlock s j).2
  | .sweep now => some (sweepBlock cfg s now).2
  | a =>
      match a.worker?, a.ctl? with
      | some w, _ => execWorker s w a
      | none, some c => execControl cfg s c a
      | none, none => none

/-- Replay a list of actions. -/
def replay (cfg : Config) : State → List Action → Option State
  | s, [] => some s
  | s, a :: as =>
      match exec cfg s a with
      | none => none
      | some t => replay cfg t as

/-! ## Bridge to the relation -/

variable {cfg : Config} {s t : State} {a : Action} {c : CtlId} {w : WorkerId} {j : JobId}
  {pc pc' : WorkerPc} {job job' : Job}

theorem execOnJob_sound (ha : a.worker? = some w) (hpc : pc.job? = some j)
    (h : execOnJob j a pc job = some (pc', job')) : JobStep w j a pc job pc' job' := by
  unfold execOnJob at h
  split at h
  · obtain rfl := Option.some.inj ha
    obtain rfl := Option.some.inj hpc
    split at h
    · rename_i hij
      subst hij
      split at h
      · rename_i hclaim
        cases h
        exact .claimRefused hclaim
      · rename_i hclaim
        cases h
        exact .claimGranted hclaim
    · cases h
  · obtain rfl := Option.some.inj ha
    obtain rfl := Option.some.inj hpc
    split at h
    · rename_i hij
      subst hij
      cases h
      exact .call
    · cases h
  · obtain rfl := Option.some.inj ha
    obtain rfl := Option.some.inj hpc
    split at h
    · rename_i hby
      cases h
      exact .fnStore hby
    · cases h
  · obtain rfl := Option.some.inj ha
    obtain rfl := Option.some.inj hpc
    cases h
    exact .finish
  · obtain rfl := Option.some.inj ha
    obtain rfl := Option.some.inj hpc
    cases h
    exact .storeAttr
  · cases h

theorem execOnJob_complete (h : JobStep w j a pc job pc' job') :
    execOnJob j a pc job = some (pc', job') := by
  cases h with
  | claimRefused hclaim => simp only [execOnJob, if_true, hclaim]
  | claimGranted hclaim => simp only [execOnJob, if_true, hclaim]
  | call => simp only [execOnJob, if_true]
  | fnStore hby => simp only [execOnJob, hby, if_true]
  | finish => rfl
  | storeAttr => rfl

theorem execWorker_sound (ha : a.worker? = some w) (h : execWorker s w a = some t) :
    WorkerStep w a s t := by
  unfold execWorker at h
  split at h
  · rename_i hw
    split at h
    · rename_i hq
      obtain rfl := Option.some.inj ha
      cases h
      exact .takeSentinel hw hq
    · rename_i hq
      obtain rfl := Option.some.inj ha
      split at h
      · rename_i hij
        subst hij
        cases h
        exact .takeJob hw hq
      · cases h
    · cases h
  · rename_i hw
    split at h
    · obtain rfl := Option.some.inj ha
      cases h
      exact .decrement hw
    · cases h
  · split at h
    · cases h
    · rename_i hpc
      split at h
      · cases h
      · rename_i hjob
        cases h
        exact .onJob (execOnJob_sound ha hpc hjob)

theorem JobStep.worker?_eq (h : JobStep w j a pc job pc' job') : a.worker? = some w := by
  cases h <;> rfl

theorem execWorker_complete (h : WorkerStep w a s t) : execWorker s w a = some t := by
  cases h with
  | takeSentinel hw hq => simp only [execWorker, hw, hq]
  | takeJob hw hq => simp only [execWorker, hw, hq, if_true]
  | decrement hw => simp only [execWorker, hw]
  | onJob hstep =>
      have hjob := execOnJob_complete hstep
      unfold execWorker
      split
      · rename_i hw
        rw [hw] at hstep
        cases hstep
      · rename_i hw
        rw [hw] at hstep
        cases hstep
      · simp only [hstep.holds, hjob]

theorem execControl_sound (ha : a.ctl? = some c) (h : execControl cfg s c a = some t) :
    ControlStep cfg c a s t := by
  unfold execControl at h
  split at h
  · rename_i hctl
    obtain rfl := Option.some.inj ha
    cases h
    split
    · rename_i hr
      exact .startRunning hctl hr
    · rename_i hr
      exact .start hctl (Bool.eq_false_iff.mpr hr)
  · rename_i hctl
    obtain rfl := Option.some.inj ha
    cases h
    exact .setRunning hctl
  · rename_i hctl
    obtain rfl := Option.some.inj ha
    cases h
    exact .spawn hctl
  · rename_i hctl
    obtain rfl := Option.some.inj ha
    cases h
    exact .append hctl
  · rename_i hctl
    obtain rfl := Option.some.inj ha
    cases h
    exact .shutdown hctl
  · rename_i hctl
    obtain rfl := Option.some.inj ha
    cases h
    exact .cancel hctl
  · rename_i hctl
    obtain rfl := Option.some.inj ha
    cases h
    exact .cancelled hctl
  · rename_i hctl
    obtain rfl := Option.some.inj ha
    split at h
    · rename_i hk
      cases h
      exact .sentinel hctl hk
    · cases h
  · rename_i hctl
    obtain rfl := Option.some.inj ha
    split at h
    · cases h
    · rename_i hk
      cases h
      exact .sentinelsDone hctl hk
  · rename_i hctl
    obtain rfl := Option.some.inj ha
    split at h
    · rename_i hk
      cases h
      exact .join hctl hk
    · cases h
  · rename_i hctl
    obtain rfl := Option.some.inj ha
    split at h
    · cases h
    · rename_i hk
      cases h
      exact .joined hctl hk
  · rename_i hctl
    obtain rfl := Option.some.inj ha
    cases h
    exact .clear hctl
  · cases h

theorem execControl_complete (h : ControlStep cfg c a s t) : execControl cfg s c a = some t := by
  cases h with
  | startRunning hctl hr => simp only [execControl, hctl, hr, if_true]
  | start hctl hr => simp only [execControl, hctl, hr, Bool.false_eq_true, if_false]
  | setRunning hctl => simp only [execControl, hctl]
  | spawn hctl => simp only [execControl, hctl]
  | append hctl => simp only [execControl, hctl]
  | shutdown hctl => simp only [execControl, hctl]
  | cancel hctl => simp only [execControl, hctl]
  | cancelled hctl => simp only [execControl, hctl]
  | sentinel hctl hk => simp only [execControl, hctl, hk, if_true]
  | sentinelsDone hctl hk => simp only [execControl, hctl, hk, if_false]
  | join hctl hk => simp only [execControl, hctl, hk, if_true]
  | joined hctl hk => simp only [execControl, hctl, hk, if_false]
  | clear hctl => simp only [execControl, hctl]

theorem exec_sound (h : exec cfg s a = some t) : Step cfg a s t := by
  unfold exec at h
  split at h
  · cases h
    exact .client .submit
  · split at h
    · rename_i hj
      cases h
      exact .client (.put hj)
    · cases h
  · cases h
    exact .client .get
  · cases h
    exact .client .delete
  · cases h
    exact .client .sweep
  · split at h
    · rename_i hw
      exact .worker _ (execWorker_sound hw h)
    · rename_i hc
      exact .control _ (execControl_sound hc h)
    · cases h

theorem exec_of_worker (ha : a.worker? = some w) : exec cfg s a = execWorker s w a := by
  cases a <;> cases ha <;> rfl

theorem exec_complete (h : Step cfg a s t) : exec cfg s a = some t := by
  cases h with
  | client h =>
      cases h with
      | put hj => exact if_pos hj
      | submit => rfl
      | get => rfl
      | delete => rfl
      | sweep => rfl
  | worker w h =>
      have hexec := execWorker_complete h
      cases h with
      | takeSentinel _ _ => exact hexec
      | takeJob _ _ => exact hexec
      | decrement _ => exact hexec
      | onJob hstep => exact (exec_of_worker hstep.worker?_eq).trans hexec
  | control c h =>
      have hexec := execControl_complete h
      cases h <;> exact hexec

/-- The relation is the graph of the function. -/
theorem exec_iff : exec cfg s a = some t ↔ Step cfg a s t := ⟨exec_sound, exec_complete⟩

theorem replay_run {as : List Action} (h : replay cfg s as = some t) : Run (Step cfg) s as t := by
  induction as generalizing s with
  | nil =>
      cases h
      exact .nil _
  | cons a as ih =>
      rw [replay] at h
      split at h
      · cases h
      · rename_i hexec
        exact Run.cons (exec_sound hexec) (ih h)

/-- A replay that ends in a state with a decidable property reaches such a state. -/
theorem reaches_of_replay (cfg : Config) (as : List Action) (p : State → Prop) [DecidablePred p]
    (h : (replay cfg .init as).any (fun s => decide (p s)) = true) :
    ∃ s, Reaches cfg as s ∧ p s := by
  cases hs : replay cfg .init as with
  | none =>
      rw [hs] at h
      cases h
  | some s =>
      rw [hs] at h
      exact ⟨s, replay_run hs, of_decide_eq_true h⟩

/-- The same for a replay in two parts. -/
theorem runs_of_replay (cfg : Config) (as bs : List Action) (p : State → State → Prop)
    [DecidableRel p]
    (h : (replay cfg .init as).any (fun s => (replay cfg s bs).any fun t => decide (p s t)) = true) :
    ∃ s t, Reaches cfg as s ∧ Run (Step cfg) s bs t ∧ p s t := by
  cases hs : replay cfg .init as with
  | none =>
      rw [hs] at h
      cases h
  | some s =>
      rw [hs] at h
      change (replay cfg s bs).any (fun t => decide (p s t)) = true at h
      cases ht : replay cfg s bs with
      | none =>
          rw [ht] at h
          cases h
      | some t =>
          rw [ht] at h
          exact ⟨s, t, replay_run hs, replay_run ht, of_decide_eq_true h⟩

end HandBrakeEncoder.Jobs
