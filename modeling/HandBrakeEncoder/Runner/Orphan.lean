/-
# `Runner.Orphan` — when the child outlives `run_encode`

The `finally` block ends the child whichever way the stdout loop was left, but
it guards only the loop.  Four calls let an exception past it with the child
running: the `Thread` constructor and `start`, made before the `try` is entered;
the timed wait, raising anything but `TimeoutExpired`; and the warning logged
when it expires, which comes before the kill.

`no_orphan_iff`: these four, and no others, when a killed child exits within the
ten seconds it is waited for.
-/
import HandBrakeEncoder.Runner.Process

namespace HandBrakeEncoder.Runner

open Jobs Relation

/-- When `run_encode` has returned or raised, the child has exited and been reaped. -/
def NoOrphan (F : Call → Prop) : Prop :=
  ∀ (timeout : PyStr) (cancel : Bool) (s : Proc) (outcome : FnOutcome),
    Steps F timeout (.init cancel) s → s.main = .done outcome →
    ∃ rc, s.child = .exited rc ∧ s.returncode = some rc

/-- What is known of the child's code at each place after the final wait. -/
def MainPc.Reaped : MainPc → Option ℤ → Prop
  | .join _ rc, code | .verdict rc, code => code = some rc
  | .done _, code => ∃ rc, code = some rc
  | _, _ => True

/-- The calls outside the guard do not raise, and a killed child exits promptly. -/
structure Guarded (F : Call → Prop) : Prop where
  prompt : ¬ F .killedWait
  newThread : ¬ F .newThread
  startThread : ¬ F .startThread
  timedWait : ¬ F .timedWait
  timeoutLog : ¬ F .timeoutLog

variable {F : Call → Prop} {timeout : PyStr} {s t : Proc}

theorem MainStep.reaped (hF : Guarded F) (h : MainStep F timeout s t)
    (hs : s.main.Reaped s.returncode) : t.main.Reaped t.returncode := by
  cases h with
  | newThread _ | startThread _ | loopEnds _ | loopRaises _ _ _ _ | abortPoll _ _
  | abortExited _ _ | abortKill _ | abortWait _ _ | poll _ _ | pollExited _ _ | timedWait _ _
  | timeoutExpired _ _ | timeoutLog _ | timeoutKill _ => trivial
  | newThreadRaises _ _ hf _ => exact absurd hf hF.newThread
  | startThreadRaises _ _ hf _ => exact absurd hf hF.startThread
  | timedWaitRaises _ _ hf _ => exact absurd hf hF.timedWait
  | timeoutLogRaises _ _ hf _ => exact absurd hf hF.timeoutLog
  | abortWaitRaises _ _ hf _ => exact absurd hf hF.prompt
  | timeoutWaitRaises _ _ hf _ => exact absurd hf hF.prompt
  | @timeoutWait rc _ _ => exact ⟨rc, rfl⟩
  | finalWait _ _ => exact rfl
  | @joinRaise e rc hm =>
      rw [hm] at hs
      exact ⟨rc, hs⟩
  | join hm =>
      rw [hm] at hs
      exact hs
  | @verdict rc _ hm _ =>
      rw [hm] at hs
      exact ⟨rc, hs⟩

/-- Nobody forgets a code once it is recorded. -/
theorem MainPc.Reaped.mono {pc : MainPc} {code code' : Option ℤ}
    (hcode : ∀ rc, code = some rc → code' = some rc) (h : pc.Reaped code) : pc.Reaped code' := by
  cases pc with
  | join _ rc => exact hcode rc h
  | verdict rc => exact hcode rc h
  | done _ =>
      obtain ⟨rc, hrc⟩ := h
      exact ⟨rc, hcode rc hrc⟩
  | newThread | startThread | reading | abortPoll _ | abortKill _ | abortWait _ | poll _
  | timedWait _ | timeoutLog | timeoutKill | timeoutWait | finalWait _ => trivial

theorem Step.reaped (hF : Guarded F) (hrec : Recorded s) (h : Step F timeout s t)
    (hs : s.main.Reaped s.returncode) : t.main.Reaped t.returncode := by
  rcases h.main_or_same with hmain | hsame
  · exact hmain.reaped hF hs
  · rw [hsame.main]
    exact hs.mono (h.onward hrec).recorded

theorem Steps.recorded {cancel : Bool} (h : Steps F timeout (.init cancel) s) : Recorded s := by
  induction h with
  | refl => exact .init cancel
  | tail _ hstep ih => exact ih.step hstep

theorem Steps.reaped {cancel : Bool} (hF : Guarded F) (h : Steps F timeout (.init cancel) s) :
    s.main.Reaped s.returncode := by
  induction h with
  | refl => trivial
  | tail hrun hstep ih => exact hstep.reaped hF (Steps.recorded hrun) ih

/-! ## The four ways past the guard -/

/-- `run_encode` is over and the child runs on. -/
def Orphaned (F : Call → Prop) : Prop :=
  ∃ s outcome, Steps F [] (.init false) s ∧ s.main = .done outcome ∧ s.child = .running

theorem Orphaned.not_noOrphan (h : Orphaned F) : ¬ NoOrphan F := by
  obtain ⟨s, outcome, hrun, hdone, hchild⟩ := h
  intro hno
  obtain ⟨rc, hexited, -⟩ := hno [] false s outcome hrun hdone
  rw [hchild] at hexited
  cases hexited

theorem orphaned_newThread (hf : F .newThread) : Orphaned F :=
  ⟨_, _, .single (.main (.newThreadRaises (.other []) rfl hf rfl)), rfl, rfl⟩

/-- The thread constructor returns. -/
theorem steps_startThread : ∃ s, Steps F [] (.init false) s ∧ s.main = .startThread ∧
    s.child = .running ∧ s.returncode = none :=
  ⟨_, .single (.main (.newThread rfl)), rfl, rfl, rfl⟩

theorem orphaned_startThread (hf : F .startThread) : Orphaned F := by
  obtain ⟨s, hrun, hmain, hchild, -⟩ := steps_startThread (F := F)
  exact ⟨_, _, hrun.tail (.main (.startThreadRaises (.other []) hmain hf rfl)), rfl, hchild⟩

/-- The stdout loop ends and the child runs on: the timed wait is reached. -/
theorem steps_timedWait : ∃ s, Steps F [] (.init false) s ∧ s.main = .timedWait none ∧
    s.child = .running ∧ s.returncode = none := by
  obtain ⟨s, hrun, hmain, hchild, hcode⟩ := steps_startThread (F := F)
  have hreading := hrun.tail (.main (.startThread hmain))
  have hpoll := hreading.tail (.main (.loopEnds rfl))
  exact ⟨_, hpoll.tail (.main (.poll rfl (.silent hcode))), rfl, hchild, hcode⟩

theorem orphaned_timedWait (hf : F .timedWait) : Orphaned F := by
  obtain ⟨s, hrun, hmain, hchild, -⟩ := steps_timedWait (F := F)
  exact ⟨_, _, hrun.tail (.main (.timedWaitRaises (.other []) hmain hf rfl)), rfl, hchild⟩

theorem orphaned_timeoutLog (hf : F .timeoutLog) : Orphaned F := by
  obtain ⟨s, hrun, hmain, hchild, hcode⟩ := steps_timedWait (F := F)
  have hexpired := hrun.tail (.main (.timeoutExpired hmain hcode))
  exact ⟨_, _, hexpired.tail (.main (.timeoutLogRaises (.other []) rfl hf rfl)), rfl, hchild⟩

/-- **No child is orphaned exactly when the four calls outside the guard do not raise**, provided
a killed child exits promptly. -/
theorem no_orphan_iff (hprompt : ¬ F .killedWait) : NoOrphan F ↔
    ¬ F .newThread ∧ ¬ F .startThread ∧ ¬ F .timedWait ∧ ¬ F .timeoutLog := by
  constructor
  · intro hno
    exact ⟨fun hf => (orphaned_newThread hf).not_noOrphan hno,
      fun hf => (orphaned_startThread hf).not_noOrphan hno,
      fun hf => (orphaned_timedWait hf).not_noOrphan hno,
      fun hf => (orphaned_timeoutLog hf).not_noOrphan hno⟩
  · rintro ⟨hnew, hstart, hwait, hlog⟩ timeout cancel s outcome hrun hdone
    have hreaped := Steps.reaped ⟨hprompt, hnew, hstart, hwait, hlog⟩ hrun
    rw [hdone] at hreaped
    obtain ⟨rc, hrc⟩ := hreaped
    exact ⟨rc, Steps.recorded hrun rc hrc, hrc⟩

/-- The stdout loop and the reading of the error text are inside the guard. -/
theorem no_orphan_when_reading_raises : NoOrphan (fun c => c = .stdoutLoop ∨ c = .readStderr) :=
  (no_orphan_iff (by simp)).mpr ⟨by simp, by simp, by simp, by simp⟩

/-- The watcher thread cannot be started: the child runs on unwatched. -/
theorem child_orphaned_when_start_raises : ¬ ∀ F : Call → Prop, ¬ F .killedWait → NoOrphan F :=
  fun h => (orphaned_startThread (F := fun c => c = .startThread) rfl).not_noOrphan (h _ (by simp))

end HandBrakeEncoder.Runner
