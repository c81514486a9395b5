/-
# `Runner.Process` — `run_encode` and its child

From a successful `Popen` on, three things run: the thread in `run_encode`, the
`_watch_cancel` thread it starts, and the child.  A step is one call on the
`Popen` object, one read of the cancel event, or one event of the child, and a
run is any interleaving.

    thread      new Thread, start, the stdout loop, then the `finally` block
                ─ the loop raised:   poll, kill, wait(10)
                ─ otherwise:         poll, wait(timeout), on expiry log, kill, wait(10), raise
                then wait, join, and the verdict
    watcher     poll, wait for the cancel event, wait(0.2), poll, kill
    child       runs, exits with a code of its own; killed, it exits with -9

**The `Popen` object.**  `returncode` is set by whichever call reaps the child.
A `poll` that finds the other thread inside `waitpid` reports nothing even of a
child that has exited, so a poll may always come back empty until the child is
reaped.  `kill` polls first; what it reaps there a later call could reap, so it
is a signal here and no more.

**What may raise** is the parameter `F`, a set of calls; only the verdict raises
`HandBrakeCancelled`.  `loopFinished`, `waitRaised` and `watcherKilled` are
history; no step reads them.
-/
import HandBrakeEncoder.Jobs.Job
import Mathlib.Logic.Relation

namespace HandBrakeEncoder.Runner

open Jobs

/-- The calls that may raise.  The stdout loop stands for its reads, its parsing and its logging;
the timed wait raises `TimeoutExpired` in any case, `timedWait` is anything else.  `killedWait`
is a `wait(timeout=10)` that expires: the killed child has not exited by then. -/
inductive Call
  | newThread
  | startThread
  | stdoutLoop
  | timedWait
  | timeoutLog
  | killedWait
  | readStderr
  deriving DecidableEq

/-- The exit code of a killed child. -/
def sigkill : ℤ := -9

inductive Child
  | running
  | dying
  | exited (rc : ℤ)
  deriving DecidableEq

/-- A signal reaches only a child that has not exited. -/
def Child.kill : Child → Child
  | .running => .dying
  | c => c

/-- Where `run_encode` stands; `pending` is the exception the `finally` block was entered with. -/
inductive MainPc
  | newThread
  | startThread
  | reading
  | abortPoll (e : PyExc)
  | abortKill (e : PyExc)
  | abortWait (e : PyExc)
  | poll (pending : Option PyExc)
  | timedWait (pending : Option PyExc)
  | timeoutLog
  | timeoutKill
  | timeoutWait
  | finalWait (pending : Option PyExc)
  | join (pending : Option PyExc) (rc : ℤ)
  | verdict (rc : ℤ)
  | done (outcome : FnOutcome)

inductive WatchPc
  | notStarted
  | polling
  | waiting
  | grace
  | again
  | killing
  | ended
  deriving DecidableEq

structure Proc where
  main : MainPc
  watcher : WatchPc
  child : Child
  returncode : Option ℤ
  cancel : Bool
  loopFinished : Bool := false
  waitRaised : Bool := false
  watcherKilled : Bool := false

/-- Right after `Popen`; the cancel event may be set already. -/
def Proc.init (cancel : Bool) : Proc where
  main := .newThread
  watcher := .notStarted
  child := .running
  returncode := none
  cancel := cancel

/-- The process as it is when the cancel event is found set or not. -/
def Proc.sees (p : Proc) (cancel : Bool) : Proc := { p with cancel }

def timedOutText (timeout : PyStr) : PyStr :=
  "HandBrake timed out after ".toList ++ timeout ++ "s".toList

/-- `stderr or f"HandBrake exited with code {returncode}"`. -/
def failureText (stderr : PyStr) (rc : ℤ) : PyStr :=
  if stderr = [] then "HandBrake exited with code ".toList ++ (toString rc).toList else stderr

/-- How `run_encode` ends once the child's code is known and nothing is pending. -/
inductive Verdict (F : Call → Prop) (cancel : Bool) (rc : ℤ) : FnOutcome → Prop
  | finished : rc = 0 → Verdict F cancel rc .returned
  | cancelled : rc ≠ 0 → cancel = true →
      Verdict F cancel rc (.raised (.handBrakeCancelled "Cancelled".toList))
  | failed (stderr : PyStr) : rc ≠ 0 → cancel = false →
      Verdict F cancel rc (.raised (.handBrakeError (failureText stderr rc)))
  | unread (e : PyExc) : rc ≠ 0 → cancel = false → F .readStderr → external e = true →
      Verdict F cancel rc (.raised e)

/-- A `poll`: it reports the exit and reaps, or it reports nothing. -/
inductive Poll (s : Proc) : Bool → Proc → Prop
  | silent : s.returncode = none → Poll s false s
  | exited {rc : ℤ} : s.child = .exited rc → Poll s true { s with returncode := some rc }

/-- A step of the thread in `run_encode`. -/
inductive MainStep (F : Call → Prop) (timeout : PyStr) (s : Proc) : Proc → Prop
  | newThread : s.main = .newThread → MainStep F timeout s { s with main := .startThread }
  | newThreadRaises (e : PyExc) : s.main = .newThread → F .newThread → external e = true →
      MainStep F timeout s { s with main := .done (.raised e) }
  | startThread : s.main = .startThread →
      MainStep F timeout s { s with main := .reading, watcher := .polling }
  | startThreadRaises (e : PyExc) : s.main = .startThread → F .startThread → external e = true →
      MainStep F timeout s { s with main := .done (.raised e) }
  | loopEnds : s.main = .reading →
      MainStep F timeout s { s with main := .poll none, loopFinished := true }
  | loopRaises (e : PyExc) : s.main = .reading → F .stdoutLoop → external e = true →
      MainStep F timeout s { s with main := .abortPoll e }
  | abortPoll {e : PyExc} {t : Proc} : s.main = .abortPoll e → Poll s false t →
      MainStep F timeout s { t with main := .abortKill e }
  | abortExited {e : PyExc} {t : Proc} : s.main = .abortPoll e → Poll s true t →
      MainStep F timeout s { t with main := .poll (some e) }
  | abortKill {e : PyExc} : s.main = .abortKill e →
      MainStep F timeout s { s with main := .abortWait e, child := s.child.kill }
  | abortWait {e : PyExc} {rc : ℤ} : s.main = .abortWait e → s.child = .exited rc →
      MainStep F timeout s { s with main := .finalWait (some e), returncode := some rc }
  | abortWaitRaises {e : PyExc} (e' : PyExc) : s.main = .abortWait e → F .killedWait →
      external e' = true → MainStep F timeout s { s with main := .done (.raised e') }
  | poll {pending : Option PyExc} {t : Proc} : s.main = .poll pending → Poll s false t →
      MainStep F timeout s { t with main := .timedWait pending }
  | pollExited {pending : Option PyExc} {t : Proc} : s.main = .poll pending → Poll s true t →
      MainStep F timeout s { t with main := .finalWait pending }
  | timedWait {pending : Option PyExc} {rc : ℤ} : s.main = .timedWait pending →
      s.child = .exited rc →
      MainStep F timeout s { s with main := .finalWait pending, returncode := some rc }
  | timeoutExpired {pending : Option PyExc} : s.main = .timedWait pending →
      s.returncode = none →
      MainStep F timeout s { s with main := .timeoutLog, waitRaised := true }
  | timedWaitRaises {pending : Option PyExc} (e : PyExc) : s.main = .timedWait pending →
      F .timedWait → external e = true →
      MainStep F timeout s { s with main := .done (.raised e), waitRaised := true }
  | timeoutLog : s.main = .timeoutLog → MainStep F timeout s { s with main := .timeoutKill }
  | timeoutLogRaises (e : PyExc) : s.main = .timeoutLog → F .timeoutLog → external e = true →
      MainStep F timeout s { s with main := .done (.raised e) }
  | timeoutKill : s.main = .timeoutKill →
      MainStep F timeout s { s with main := .timeoutWait, child := s.child.kill }
  | timeoutWait {rc : ℤ} : s.main = .timeoutWait → s.child = .exited rc →
      MainStep F timeout s { s with
        main := .done (.raised (.handBrakeError (timedOutText timeout)))
        returncode := some rc }
  | timeoutWaitRaises (e : PyExc) : s.main = .timeoutWait → F .killedWait → external e = true →
      MainStep F timeout s { s with main := .done (.raised e) }
  | finalWait {pending : Option PyExc} {rc : ℤ} : s.main = .finalWait pending →
      s.child = .exited rc →
      MainStep F timeout s { s with main := .join pending rc, returncode := some rc }
  | joinRaise {e : PyExc} {rc : ℤ} : s.main = .join (some e) rc →
      MainStep F timeout s { s with main := .done (.raised e) }
  | join {rc : ℤ} : s.main = .join none rc →
      MainStep F timeout s { s with main := .verdict rc }
  | verdict {rc : ℤ} {outcome : FnOutcome} : s.main = .verdict rc →
      Verdict F s.cancel rc outcome → MainStep F timeout s { s with main := .done outcome }

/-- A step of the `_watch_cancel` thread; it may also end by raising. -/
inductive WatchStep (s : Proc) : Proc → Prop
  | poll {t : Proc} : s.watcher = .polling → Poll s false t →
      WatchStep s { t with watcher := .waiting }
  | pollExited {t : Proc} : s.watcher = .polling → Poll s true t →
      WatchStep s { t with watcher := .ended }
  | notSet : s.watcher = .waiting → s.cancel = false →
      WatchStep s { s with watcher := .polling }
  | set : s.watcher = .waiting → s.cancel = true → WatchStep s { s with watcher := .grace }
  | graceExited {rc : ℤ} : s.watcher = .grace → s.child = .exited rc →
      WatchStep s { s with watcher := .ended, returncode := some rc }
  | graceExpired : s.watcher = .grace → s.returncode = none →
      WatchStep s { s with watcher := .again }
  | again {t : Proc} : s.watcher = .again → Poll s false t →
      WatchStep s { t with watcher := .killing }
  | againExited {t : Proc} : s.watcher = .again → Poll s true t →
      WatchStep s { t with watcher := .ended }
  | kill : s.watcher = .killing →
      WatchStep s { s with
        watcher := .ended
        child := s.child.kill
        watcherKilled := s.watcherKilled || s.child = .running }
  | raises : s.watcher ≠ .notStarted → WatchStep s { s with watcher := .ended }

/-- An event of the child. -/
inductive ChildStep (s : Proc) : Proc → Prop
  | exits (rc : ℤ) : s.child = .running → ChildStep s { s with child := .exited rc }
  | dies : s.child = .dying → ChildStep s { s with child := .exited sigkill }

inductive Step (F : Call → Prop) (timeout : PyStr) (s t : Proc) : Prop
  | main (h : MainStep F timeout s t)
  | watcher (h : WatchStep s t)
  | child (h : ChildStep s t)
  | cancel (h : t = { s with cancel := true })

/-- Any interleaving of the thread, the watcher, the child and the setting of the event. -/
def Steps (F : Call → Prop) (timeout : PyStr) : Proc → Proc → Prop :=
  Relation.ReflTransGen (Step F timeout)

variable {F : Call → Prop} {timeout : PyStr} {s t : Proc}

/-! ## What any step keeps -/

/-- A recorded code is the code of a child that has exited. -/
def Recorded (s : Proc) : Prop := ∀ rc, s.returncode = some rc → s.child = .exited rc

/-- What a step leaves to those that follow: exits and records are final, the history grows. -/
structure Onward (s t : Proc) : Prop where
  exited : ∀ rc, s.child = .exited rc → t.child = .exited rc
  recorded : ∀ rc, s.returncode = some rc → t.returncode = some rc
  record : ∀ rc, t.returncode = some rc → s.returncode = some rc ∨ t.child = .exited rc
  cancel : s.cancel = true → t.cancel = true
  killed : t.watcherKilled = true → s.watcherKilled = true ∨
    (s.watcher = .killing ∧ s.child = .running)

theorem Onward.refl (s : Proc) : Onward s s where
  exited _ h := h
  recorded _ h := h
  record _ h := .inl h
  cancel h := h
  killed h := .inl h

/-- Only the places of the threads and the history differ. -/
theorem Onward.of_same (hchild : t.child = s.child) (hrc : t.returncode = s.returncode)
    (hcancel : t.cancel = s.cancel) (hkilled : t.watcherKilled = s.watcherKilled) :
    Onward s t where
  exited _ h := hchild.trans h
  recorded _ h := hrc.trans h
  record _ h := .inl (hrc.symm.trans h)
  cancel h := hcancel.trans h
  killed h := .inl (hkilled.symm.trans h)

/-- The child is reaped. -/
theorem Onward.of_reap (hs : Recorded s) {rc : ℤ} (hrc : s.child = .exited rc)
    (hchild : t.child = s.child) (hnew : t.returncode = some rc) (hcancel : t.cancel = s.cancel)
    (hkilled : t.watcherKilled = s.watcherKilled) : Onward s t where
  exited _ h := hchild.trans h
  recorded rc' h := by
    cases hrc.symm.trans (hs rc' h)
    exact hnew
  record rc' h := by
    cases hnew.symm.trans h
    exact .inr (hchild.trans hrc)
  cancel h := hcancel.trans h
  killed h := .inl (hkilled.symm.trans h)

/-- The child is sent a signal by the thread. -/
theorem Onward.of_kill (hchild : t.child = s.child.kill) (hrc : t.returncode = s.returncode)
    (hcancel : t.cancel = s.cancel) (hkilled : t.watcherKilled = s.watcherKilled) :
    Onward s t where
  exited _ h := by rw [hchild, h]; rfl
  recorded _ h := hrc.trans h
  record _ h := .inl (hrc.symm.trans h)
  cancel h := hcancel.trans h
  killed h := .inl (hkilled.symm.trans h)

theorem Poll.onward (hs : Recorded s) {seen : Bool} (h : Poll s seen t) : Onward s t := by
  cases h with
  | silent _ => exact .refl s
  | exited hrc => exact .of_reap hs hrc rfl rfl rfl rfl

theorem MainStep.onward (hs : Recorded s) (h : MainStep F timeout s t) : Onward s t := by
  cases h with
  | newThread _ | newThreadRaises _ _ _ _ | startThread _ | startThreadRaises _ _ _ _ | loopEnds _
  | loopRaises _ _ _ _ | abortWaitRaises _ _ _ _ | timeoutExpired _ _ | timedWaitRaises _ _ _ _
  | timeoutLog _ | timeoutLogRaises _ _ _ _ | timeoutWaitRaises _ _ _ _ | joinRaise _ | join _
  | verdict _ _ =>
      exact .of_same rfl rfl rfl rfl
  | abortPoll _ hp | abortExited _ hp | poll _ hp | pollExited _ hp =>
      have ho := hp.onward hs
      exact ⟨ho.exited, ho.recorded, ho.record, ho.cancel, ho.killed⟩
  | abortKill _ | timeoutKill _ => exact .of_kill rfl rfl rfl rfl
  | abortWait _ hrc | timedWait _ hrc | timeoutWait _ hrc | finalWait _ hrc =>
      exact .of_reap hs hrc rfl rfl rfl rfl

theorem WatchStep.onward (hs : Recorded s) (h : WatchStep s t) : Onward s t := by
  cases h with
  | poll _ hp | pollExited _ hp | again _ hp | againExited _ hp =>
      have ho := hp.onward hs
      exact ⟨ho.exited, ho.recorded, ho.record, ho.cancel, ho.killed⟩
  | notSet _ _ | set _ _ | graceExpired _ _ | raises _ => exact .of_same rfl rfl rfl rfl
  | graceExited _ hrc => exact .of_reap hs hrc rfl rfl rfl rfl
  | kill hw =>
      refine ⟨fun rc h => ?_, fun _ h => h, fun _ h => .inl h, fun h => h, fun h => ?_⟩
      · rw [h]
        rfl
      · rcases Bool.or_eq_true_iff.mp h with hold | hnew
        · exact .inl hold
        · exact .inr ⟨hw, of_decide_eq_true hnew⟩

theorem ChildStep.onward (h : ChildStep s t) : Onward s t := by
  cases h with
  | exits rc hc | dies hc =>
      refine ⟨fun rc' h => ?_, fun _ h => h, fun _ h => .inl h, fun h => h, fun h => .inl h⟩
      rw [hc] at h
      cases h

theorem Step.onward (hs : Recorded s) (h : Step F timeout s t) : Onward s t := by
  cases h with
  | main h => exact h.onward hs
  | watcher h => exact h.onward hs
  | child h => exact h.onward
  | cancel h =>
      subst h
      exact ⟨fun _ h => h, fun _ h => h, fun _ h => .inl h, fun _ => rfl, fun h => .inl h⟩

theorem Recorded.step (hs : Recorded s) (h : Step F timeout s t) : Recorded t := by
  intro rc hrc
  have ho := h.onward hs
  rcases ho.record rc hrc with hold | hnew
  · exact ho.exited rc (hs rc hold)
  · exact hnew

theorem Recorded.init (cancel : Bool) : Recorded (Proc.init cancel) := fun _ h => nomatch h

/-- The other actors leave the thread in `run_encode` and its history alone. -/
structure SameMain (s t : Proc) : Prop where
  main : t.main = s.main
  loopFinished : t.loopFinished = s.loopFinished
  waitRaised : t.waitRaised = s.waitRaised

theorem Poll.sameMain {seen : Bool} (h : Poll s seen t) : SameMain s t := by
  cases h with
  | silent _ => exact ⟨rfl, rfl, rfl⟩
  | exited _ => exact ⟨rfl, rfl, rfl⟩

theorem WatchStep.sameMain (h : WatchStep s t) : SameMain s t := by
  cases h with
  | poll _ hp | pollExited _ hp | again _ hp | againExited _ hp =>
      have hm := hp.sameMain
      exact ⟨hm.main, hm.loopFinished, hm.waitRaised⟩
  | notSet _ _ | set _ _ | graceExited _ _ | graceExpired _ _ | kill _ | raises _ =>
      exact ⟨rfl, rfl, rfl⟩

theorem Step.main_or_same (h : Step F timeout s t) : MainStep F timeout s t ∨ SameMain s t := by
  cases h with
  | main h => exact .inl h
  | watcher h => exact .inr h.sameMain
  | child h => cases h <;> exact .inr ⟨rfl, rfl, rfl⟩
  | cancel h =>
      subst h
      exact .inr ⟨rfl, rfl, rfl⟩

end HandBrakeEncoder.Runner
