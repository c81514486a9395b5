/-
# `Runner.Verdict` — what the outcome of `run_encode` says about the child

The verdict is read off three things that can each be overtaken: the exit code,
the cancel event, and whether the `finally` block was entered with an exception
pending.  `MainPc.Fits` says what is known of them at every place of the thread;
at the end it is `Settled`:

    returned              the loop finished, the wait did not raise, the code is 0
    HandBrakeCancelled    the same, a code other than 0, and the event is set
    anything else         were the loop finished and the wait not raised, the code would
                          not be 0 and the watcher would not have killed the child

A child the watcher kills was alive when the event was set, and dies of the
signal (`Killed`); so it is never one that exited 0.
-/
import HandBrakeEncoder.Runner.Process

namespace HandBrakeEncoder.Runner

open Jobs Relation

/-- The stdout loop ran to its end and the timed wait did not raise. -/
structure Proc.Clean (s : Proc) : Prop where
  loop : s.loopFinished = true
  wait : s.waitRaised = false

/-- What an outcome of `run_encode` says. -/
inductive Settled (s : Proc) : FnOutcome → Prop
  | returned : s.Clean → s.returncode = some 0 → Settled s .returned
  | cancelled {msg : PyStr} (rc : ℤ) : rc ≠ 0 → s.returncode = some rc → s.cancel = true →
      Settled s (.raised (.handBrakeCancelled msg))
  | failed {e : PyExc} : external e = true →
      (s.Clean → ∃ rc, rc ≠ 0 ∧ s.returncode = some rc ∧ s.watcherKilled = false) →
      Settled s (.raised e)

/-- In the `finally` block: nothing is pending and the loop finished, or it raised. -/
def PendingFits (s : Proc) : Option PyExc → Prop
  | none => s.Clean
  | some e => external e = true ∧ s.loopFinished = false

/-- What is known at each place of the thread. -/
def MainPc.Fits (s : Proc) : MainPc → Prop
  | .newThread | .startThread | .reading => s.loopFinished = false ∧ s.waitRaised = false
  | .abortPoll e | .abortKill e | .abortWait e => external e = true ∧ s.loopFinished = false
  | .poll pending | .timedWait pending | .finalWait pending => PendingFits s pending
  | .timeoutLog | .timeoutKill | .timeoutWait => s.waitRaised = true
  | .join pending rc => PendingFits s pending ∧ s.returncode = some rc
  | .verdict rc => s.Clean ∧ s.returncode = some rc
  | .done outcome => Settled s outcome

/-- The watcher gets past its wait only when the event is set, and kills only a running child. -/
structure Killed (s : Proc) : Prop where
  set : s.watcher = .grace ∨ s.watcher = .again ∨ s.watcher = .killing → s.cancel = true
  dead : s.watcherKilled = true →
    s.cancel = true ∧ (s.child = .dying ∨ s.child = .exited sigkill)

variable {F : Call → Prop} {timeout : PyStr} {s t : Proc}

/-! ## The watcher -/

theorem Killed.init (cancel : Bool) : Killed (.init cancel) where
  set h := by rcases h with h | h | h <;> cases h
  dead h := nomatch h

theorem Poll.same {seen : Bool} (h : Poll s seen t) :
    t.watcher = s.watcher ∧ t.child = s.child ∧ t.cancel = s.cancel ∧
      t.watcherKilled = s.watcherKilled := by
  cases h with
  | silent _ => exact ⟨rfl, rfl, rfl, rfl⟩
  | exited _ => exact ⟨rfl, rfl, rfl, rfl⟩

/-- A dead child stays dead. -/
theorem Child.kill_dead {c : Child} (h : c = .dying ∨ c = .exited sigkill) :
    c.kill = .dying ∨ c.kill = .exited sigkill := by
  rcases h with rfl | rfl
  · exact .inl rfl
  · exact .inr rfl

/-- The thread in `run_encode` starts the watcher, and may send the child a signal of its own. -/
theorem MainStep.frame (h : MainStep F timeout s t) :
    (t.watcher = s.watcher ∨ t.watcher = .polling) ∧
      (t.child = s.child ∨ t.child = s.child.kill) ∧ t.cancel = s.cancel ∧
      t.watcherKilled = s.watcherKilled := by
  cases h with
  | abortPoll _ hp | abortExited _ hp | poll _ hp | pollExited _ hp =>
      obtain ⟨hw, hc, he, hk⟩ := hp.same
      exact ⟨.inl hw, .inl hc, he, hk⟩
  | startThread _ => exact ⟨.inr rfl, .inl rfl, rfl, rfl⟩
  | abortKill _ | timeoutKill _ => exact ⟨.inl rfl, .inr rfl, rfl, rfl⟩
  | newThread _ | newThreadRaises _ _ _ _ | startThreadRaises _ _ _ _ | loopEnds _
  | loopRaises _ _ _ _ | abortWait _ _ | abortWaitRaises _ _ _ _ | timedWait _ _
  | timeoutExpired _ _ | timedWaitRaises _ _ _ _ | timeoutLog _ | timeoutLogRaises _ _ _ _
  | timeoutWait _ _ | timeoutWaitRaises _ _ _ _ | finalWait _ _ | joinRaise _ | join _
  | verdict _ _ => exact ⟨.inl rfl, .inl rfl, rfl, rfl⟩

theorem MainStep.killed (h : MainStep F timeout s t) (hk : Killed s) : Killed t := by
  obtain ⟨hwatcher, hchild, hcancel, hkilled⟩ := h.frame
  constructor
  · intro hset
    rw [hcancel]
    rcases hwatcher with hw | hw
    · exact hk.set (hw ▸ hset)
    · rw [hw] at hset
      rcases hset with hset | hset | hset <;> cases hset
  · intro hdead
    rw [hkilled] at hdead
    obtain ⟨he, hc⟩ := hk.dead hdead
    refine ⟨hcancel.trans he, ?_⟩
    rcases hchild with hsame | hsignal
    · rw [hsame]
      exact hc
    · rw [hsignal]
      exact Child.kill_dead hc

/-- The watcher goes on with a poll: it is past its wait now only if it was before. -/
theorem Killed.of_poll {seen : Bool} {pc : WatchPc} (hk : Killed s) (hp : Poll s seen t)
    (hset : pc = .grace ∨ pc = .again ∨ pc = .killing → s.cancel = true) :
    Killed { t with watcher := pc } := by
  obtain ⟨-, hc, he, hw⟩ := hp.same
  constructor
  · intro h
    exact he.trans (hset h)
  · intro h
    obtain ⟨hevent, hdead⟩ := hk.dead (hw.symm.trans h)
    refine ⟨he.trans hevent, ?_⟩
    show t.child = .dying ∨ t.child = .exited sigkill
    rw [hc]
    exact hdead

theorem WatchStep.killed (h : WatchStep s t) (hk : Killed s) : Killed t := by
  cases h with
  | poll _ hp | pollExited _ hp | againExited _ hp => exact hk.of_poll hp (by simp)
  | again hw hp => exact hk.of_poll hp fun _ => hk.set (.inr (.inl hw))
  | notSet _ _ | raises _ | graceExited _ _ => exact ⟨by simp, hk.dead⟩
  | set _ he => exact ⟨fun _ => he, hk.dead⟩
  | graceExpired hw _ => exact ⟨fun _ => hk.set (.inl hw), hk.dead⟩
  | kill hw =>
      refine ⟨by simp, fun hdead => ⟨hk.set (.inr (.inr hw)), ?_⟩⟩
      rcases Bool.or_eq_true_iff.mp hdead with hold | hnew
      · exact Child.kill_dead (hk.dead hold).2
      · have hrunning : s.child = .running := of_decide_eq_true hnew
        show s.child.kill = .dying ∨ _
        rw [hrunning]
        exact .inl rfl

theorem ChildStep.killed (h : ChildStep s t) (hk : Killed s) : Killed t := by
  cases h with
  | exits rc hc =>
      refine ⟨hk.set, fun hdead => ?_⟩
      -- a child that was killed is not running
      have hkilled := (hk.dead hdead).2
      rw [hc] at hkilled
      rcases hkilled with h | h <;> cases h
  | dies _ => exact ⟨hk.set, fun hdead => ⟨(hk.dead hdead).1, .inr rfl⟩⟩

theorem Killed.step (hk : Killed s) (h : Step F timeout s t) : Killed t := by
  cases h with
  | main h => exact h.killed hk
  | watcher h => exact h.killed hk
  | child h => exact h.killed hk
  | cancel h =>
      subst h
      exact ⟨fun _ => rfl, fun hdead => ⟨rfl, (hk.dead hdead).2⟩⟩

/-! ## The thread in `run_encode` -/

theorem PendingFits.of_same {pending : Option PyExc} (hloop : t.loopFinished = s.loopFinished)
    (hwait : t.waitRaised = s.waitRaised) (h : PendingFits s pending) : PendingFits t pending := by
  cases pending with
  | none => exact ⟨hloop.trans h.loop, hwait.trans h.wait⟩
  | some e => exact ⟨h.1, hloop.trans h.2⟩

theorem Settled.of_unfinished {e : PyExc} (he : external e = true) (h : s.loopFinished = false) :
    Settled s (.raised e) := by
  refine .failed he fun hc => ?_
  rw [hc.loop] at h
  cases h

theorem Settled.of_waitRaised {e : PyExc} (he : external e = true) (h : s.waitRaised = true) :
    Settled s (.raised e) := by
  refine .failed he fun hc => ?_
  rw [hc.wait] at h
  cases h

/-- A child not cancelled was not killed by the watcher. -/
theorem Killed.spared (hk : Killed s) (h : s.cancel = false) : s.watcherKilled = false := by
  refine Bool.eq_false_iff.mpr fun hdead => ?_
  have he := (hk.dead hdead).1
  rw [h] at he
  cases he

/-- The verdict on a known code. -/
theorem Verdict.settled {rc : ℤ} {outcome : FnOutcome} (h : Verdict F s.cancel rc outcome)
    (hk : Killed s) (hc : s.Clean) (hrc : s.returncode = some rc) : Settled s outcome := by
  cases h with
  | finished hzero => exact .returned hc (hzero ▸ hrc)
  | cancelled hne he => exact .cancelled rc hne hrc he
  | failed _ hne he => exact .failed rfl fun _ => ⟨rc, hne, hrc, hk.spared he⟩
  | unread e hne he _ hext => exact .failed hext fun _ => ⟨rc, hne, hrc, hk.spared he⟩

/-- What an outcome says depends on the history alone. -/
theorem Settled.of_same {outcome : FnOutcome} (h : Settled s outcome)
    (hloop : t.loopFinished = s.loopFinished) (hwait : t.waitRaised = s.waitRaised)
    (hcode : ∀ rc, s.returncode = some rc → t.returncode = some rc)
    (hcancel : s.cancel = true → t.cancel = true)
    (hkilled : ∀ rc, s.returncode = some rc → s.watcherKilled = false → t.watcherKilled = false) :
    Settled t outcome := by
  cases h with
  | returned hc hrc => exact .returned ⟨hloop.trans hc.loop, hwait.trans hc.wait⟩ (hcode 0 hrc)
  | cancelled rc hne hrc he => exact .cancelled rc hne (hcode rc hrc) (hcancel he)
  | failed hext hf =>
      refine .failed hext fun hc => ?_
      obtain ⟨rc, hne, hrc, hspared⟩ := hf ⟨hloop.symm.trans hc.loop, hwait.symm.trans hc.wait⟩
      exact ⟨rc, hne, hcode rc hrc, hkilled rc hrc hspared⟩

/-- The thread keeps to what its place says. -/
theorem MainStep.fits (h : MainStep F timeout s t) (hk : Killed s) (hs : s.main.Fits s) :
    t.main.Fits t := by
  cases h with
  | newThread hm | startThread hm =>
      rw [hm] at hs
      exact hs
  | newThreadRaises _ hm _ hext | startThreadRaises _ hm _ hext =>
      rw [hm] at hs
      exact .of_unfinished hext hs.1
  | loopEnds hm =>
      rw [hm] at hs
      exact ⟨rfl, hs.2⟩
  | loopRaises _ hm _ hext =>
      rw [hm] at hs
      exact ⟨hext, hs.1⟩
  | abortPoll hm hp | abortExited hm hp =>
      rw [hm] at hs
      exact ⟨hs.1, hp.sameMain.loopFinished.trans hs.2⟩
  | abortKill hm | abortWait hm _ =>
      rw [hm] at hs
      exact hs
  | abortWaitRaises _ hm _ hext =>
      rw [hm] at hs
      exact .of_unfinished hext hs.2
  | poll hm hp | pollExited hm hp =>
      rw [hm] at hs
      exact hs.of_same hp.sameMain.loopFinished hp.sameMain.waitRaised
  | timedWait hm _ =>
      rw [hm] at hs
      exact PendingFits.of_same (s := s) rfl rfl hs
  | timeoutExpired _ _ => exact rfl
  | timedWaitRaises _ _ _ hext => exact .of_waitRaised hext rfl
  | timeoutLog hm | timeoutKill hm =>
      rw [hm] at hs
      exact hs
  | timeoutLogRaises _ hm _ hext | timeoutWaitRaises _ hm _ hext =>
      rw [hm] at hs
      exact .of_waitRaised hext hs
  | timeoutWait hm _ =>
      rw [hm] at hs
      exact .of_waitRaised rfl hs
  | finalWait hm _ =>
      rw [hm] at hs
      exact ⟨PendingFits.of_same (s := s) rfl rfl hs, rfl⟩
  | joinRaise hm =>
      rw [hm] at hs
      exact .of_unfinished hs.1.1 hs.1.2
  | join hm =>
      rw [hm] at hs
      exact ⟨⟨hs.1.loop, hs.1.wait⟩, hs.2⟩
  | verdict hm hv =>
      rw [hm] at hs
      exact (hv.settled hk hs.1 hs.2).of_same rfl rfl (fun _ h => h) (fun h => h) (fun _ _ h => h)

/-- The other actors cannot unsettle it: a code once recorded stays, and its child is not killed
any more. -/
theorem MainPc.Fits.mono {pc : MainPc} (hrec : Recorded s) (ho : Onward s t) (hsame : SameMain s t)
    (h : pc.Fits s) : pc.Fits t := by
  have hloop := hsame.loopFinished
  have hwait := hsame.waitRaised
  cases pc with
  | newThread | startThread | reading => exact ⟨hloop.trans h.1, hwait.trans h.2⟩
  | abortPoll _ | abortKill _ | abortWait _ => exact ⟨h.1, hloop.trans h.2⟩
  | poll _ | timedWait _ | finalWait _ => exact PendingFits.of_same hloop hwait h
  | timeoutLog | timeoutKill | timeoutWait => exact hwait.trans h
  | join _ rc => exact ⟨h.1.of_same hloop hwait, ho.recorded rc h.2⟩
  | verdict rc => exact ⟨⟨hloop.trans h.1.loop, hwait.trans h.1.wait⟩, ho.recorded rc h.2⟩
  | done _ =>
      refine Settled.of_same h hloop hwait ho.recorded ho.cancel fun rc hrc hspared => ?_
      refine Bool.eq_false_iff.mpr fun hdead => ?_
      rcases ho.killed hdead with hold | ⟨-, hrunning⟩
      · rw [hspared] at hold
        cases hold
      · rw [hrec rc hrc] at hrunning
        cases hrunning

/-! ## Any interleaving -/

/-- What every state of a child and its two threads satisfies. -/
structure Proc.Inv (s : Proc) : Prop where
  recorded : Recorded s
  killed : Killed s
  fits : s.main.Fits s

theorem Proc.Inv.init (cancel : Bool) : (Proc.init cancel).Inv where
  recorded := .init cancel
  killed := .init cancel
  fits := ⟨rfl, rfl⟩

theorem Proc.Inv.step (hi : s.Inv) (h : Step F timeout s t) : t.Inv where
  recorded := hi.recorded.step h
  killed := hi.killed.step h
  fits := by
    rcases h.main_or_same with hmain | hsame
    · exact hmain.fits hi.killed hi.fits
    · rw [hsame.main]
      exact hi.fits.mono hi.recorded (h.onward hi.recorded) hsame

/-- The event may have been set since the last step of the process. -/
theorem Proc.Inv.sees (hi : s.Inv) {cancel : Bool} (h : s.cancel = true → cancel = true) :
    (s.sees cancel).Inv := by
  cases hc : cancel with
  | true =>
      have hstep : Step (fun _ => False) [] s (s.sees true) := .cancel rfl
      exact hi.step hstep
  | false =>
      have hoff : s.cancel = false := Bool.eq_false_iff.mpr fun hon => by
        rw [hc] at h
        exact nomatch h hon
      rw [Proc.sees, ← hoff]
      exact hi

theorem Proc.Inv.settled (hi : s.Inv) {outcome : FnOutcome} (h : s.main = .done outcome) :
    Settled s outcome := by
  have hfits := hi.fits
  rw [h] at hfits
  exact hfits

/-- A child killed by the watcher has no other code than that of the signal. -/
theorem Proc.Inv.killed_code (hi : s.Inv) (h : s.watcherKilled = true) {rc : ℤ}
    (hrc : s.returncode = some rc) : rc = sigkill := by
  have hchild := hi.recorded rc hrc
  rcases (hi.killed.dead h).2 with hdying | hexited
  · rw [hdying] at hchild
    cases hchild
  · rw [hexited] at hchild
    exact (Child.exited.inj hchild).symm

theorem MainStep.not_done (h : MainStep F timeout s t) (outcome : FnOutcome) :
    s.main ≠ .done outcome := by
  intro hd
  cases h with
  | newThread hm | newThreadRaises _ hm _ _ | startThread hm | startThreadRaises _ hm _ _
  | loopEnds hm | loopRaises _ hm _ _ | abortPoll hm _ | abortExited hm _ | abortKill hm
  | abortWait hm _ | abortWaitRaises _ hm _ _ | poll hm _ | pollExited hm _ | timedWait hm _
  | timeoutExpired hm _ | timedWaitRaises _ hm _ _ | timeoutLog hm | timeoutLogRaises _ hm _ _
  | timeoutKill hm | timeoutWait hm _ | timeoutWaitRaises _ hm _ _ | finalWait hm _
  | joinRaise hm | join hm | verdict hm _ =>
      rw [hd] at hm
      cases hm

/-- Once `run_encode` is over, its thread does nothing more. -/
theorem Step.done (h : Step F timeout s t) {outcome : FnOutcome} (hd : s.main = .done outcome) :
    t.main = .done outcome := by
  rcases h.main_or_same with hmain | hsame
  · exact absurd hd (hmain.not_done outcome)
  · exact hsame.main.trans hd

end HandBrakeEncoder.Runner
