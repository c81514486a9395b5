/-
# `Jobs.Retention` — how long a job can be seen, and what is seen of it

A job is in the store from its acceptance on.  It leaves by a `delete`, or by a
`sweep` that finds it over and `ttl` seconds past its `finished_at`, and never
comes back: `Step.store_iff` is the one lemma about a step.

Once its status is terminal nobody works on a job any more, so nothing in it
changes but the cancel event, which no view shows (`frozen_run`).  Its
`finished_at` in particular is set by then (`Dated`) and stays, so the sweep that
removes it is the first whose clock is late enough.
-/
import HandBrakeEncoder.Jobs.Backlog
import HandBrakeEncoder.Jobs.Order
import HandBrakeEncoder.Jobs.Seen
import HandBrakeEncoder.Jobs.View

namespace HandBrakeEncoder.Jobs

open Lib JobStatus

variable {cfg : Config} {s t u : State} {as bs : List Action} {a : Action} {j : JobId}
  {w : WorkerId} {pc pc' : WorkerPc} {job job' : Job}

/-! ## The store -/

/-- The store lists accepted jobs, in the order of their acceptance. -/
def Listed (s : State) : Prop := s.store.Sublist s.accepted

theorem ClientStep.listed (h : ClientStep cfg a s t) (hl : Listed s) : Listed t := by
  cases h with
  | put _ | get => exact hl
  | sweep => exact List.filter_sublist.trans hl
  | @delete _ i =>
      rcases deleteBlock_state s i with heq | ⟨-, heq⟩
      · rw [heq]
        exact List.erase_sublist.trans hl
      · rw [heq]
        exact hl
  | @submit _ created now =>
      rcases submitBlock_state cfg s created now with ⟨-, -, heq⟩ | ⟨jobs, -, heq⟩
      · rw [heq]
        exact hl.append_right _
      · rw [heq]
        exact hl

theorem Reaches.listed (h : Reaches cfg as s) : Listed s := by
  refine Run.invariant (P := Listed) ?_ h (List.Sublist.refl [])
  intro a s t hl hstep
  cases hstep with
  | client h => exact h.listed hl
  | worker w h => cases h <;> exact hl
  | control c h => cases h <;> exact hl

/-- No job is stored twice. -/
theorem Reaches.store_nodup (h : Reaches cfg as s) : s.store.Nodup :=
  h.split.fresh.sublist h.listed

theorem Reaches.accepted_of_stored (h : Reaches cfg as s) (hj : j ∈ s.store) : j ∈ s.accepted :=
  h.listed.subset hj

/-- The step takes the job out of the store, if it is there. -/
def Removes (cfg : Config) (j : JobId) (a : Action) (s : State) : Prop :=
  a = .delete j ∨ ∃ now, a = .sweep now ∧ (s.jobs j).expired cfg now = true

/-- What a step does to the store, as an accepted job sees it. -/
theorem Step.store_iff (h : Step cfg a s t) (hreach : Reaches cfg as s) (hj : j ∈ s.accepted) :
    j ∈ t.store ↔ j ∈ s.store ∧ ¬ Removes cfg j a s := by
  constructor
  · intro hstored
    cases h with
    | worker w h =>
        cases h with
        | takeSentinel _ _ | takeJob _ _ | decrement _ =>
            exact ⟨hstored, by rintro (hd | ⟨now, hs, -⟩) <;> contradiction⟩
        | onJob hjob =>
            refine ⟨hstored, ?_⟩
            rintro (rfl | ⟨now, rfl, -⟩)
            · cases hjob
            · cases hjob
    | control c h =>
        have hctl := h.ctl?_eq
        refine ⟨by cases h <;> exact hstored, ?_⟩
        rintro (rfl | ⟨now, rfl, -⟩)
        · cases hctl
        · cases hctl
    | client h =>
        cases h with
        | put _ | get =>
            exact ⟨hstored, by rintro (hd | ⟨now, hs, -⟩) <;> contradiction⟩
        | @submit _ created now =>
            refine ⟨?_, by rintro (hd | ⟨now, hs, -⟩) <;> contradiction⟩
            rcases submitBlock_state cfg s created now with ⟨-, -, heq⟩ | ⟨jobs, -, heq⟩
            · rw [heq] at hstored
              rcases List.mem_append.mp hstored with hold | hnew
              · exact hold
              · have hlt := hreach.inv.acceptedLt j hj
                exact absurd (List.mem_singleton.mp hnew) (Nat.ne_of_lt hlt)
            · rw [heq] at hstored
              exact hstored
        | @sweep _ now =>
            obtain ⟨hold, hnot⟩ := List.mem_filter.mp hstored
            refine ⟨hold, ?_⟩
            rintro (hd | ⟨now', hs, hexpired⟩)
            · cases hd
            · cases hs
              rw [hexpired] at hnot
              cases hnot
        | @delete _ i =>
            rcases deleteBlock_state s i with heq | ⟨hnot, heq⟩
            · rw [heq] at hstored
              obtain ⟨hne, hold⟩ := hreach.store_nodup.mem_erase_iff.mp hstored
              refine ⟨hold, ?_⟩
              rintro (hd | ⟨now, hs, -⟩)
              · cases hd
                exact hne rfl
              · cases hs
            · rw [heq] at hstored
              refine ⟨hstored, ?_⟩
              rintro (hd | ⟨now, hs, -⟩)
              · cases hd
                exact hnot hstored
              · cases hs
  · rintro ⟨hstored, hstay⟩
    rcases h.leaves hstored with hin | hdelete | hsweep
    · exact hin
    · exact absurd (.inl hdelete) hstay
    · exact absurd (.inr hsweep) hstay

/-! ## A job that is over -/

/-- Nobody holds a job that is over. -/
theorem Inv.terminal_free (hi : Inv s) (hterm : (s.status j).terminal = true) (w : WorkerId) :
    (s.workers w).job? ≠ some j := by
  intro hw
  have hfits := hi.fits w j hw
  generalize s.workers w = pc at hw hfits
  cases pc with
  | notStarted | getting | exited | died => cases hw
  | dequeued _ | claiming _ | claimed _ | executing _ =>
      rw [show s.status j = _ from hfits] at hterm
      cases hterm
  | storing _ _ _ =>
      obtain ⟨st, hedge, -, -⟩ := hfits
      cases hterm.symm.trans hedge.not_terminal

/-- The two jobs show the same. -/
def SameView (job job' : Job) : Prop := job' = job ∨ job' = job.cancel

theorem SameView.trans {job'' : Job} (h : SameView job job') (h' : SameView job' job'') :
    SameView job job'' := by
  rcases h with rfl | rfl
  · exact h'
  · rcases h' with rfl | rfl
    · exact .inr rfl
    · exact .inr rfl

theorem Step.frozen (h : Step cfg a s t) (hi : Inv s) (hj : j ∈ s.accepted)
    (hterm : (s.status j).terminal = true) : SameView (s.jobs j) (t.jobs j) := by
  rcases h.jobs hi hj with hsame | hcancel | ⟨w, pc, hstep⟩
  · exact .inl hsame
  · exact .inr hcancel
  · exact absurd hstep.holds (hi.terminal_free hterm w)

/-- What is over when a run begins is frozen throughout. -/
theorem frozen_run (h : Run (Step cfg) s bs t) (hi : Inv s) (hj : j ∈ s.accepted)
    (hterm : (s.status j).terminal = true) : SameView (s.jobs j) (t.jobs j) := by
  suffices hinv : Inv t ∧ j ∈ t.accepted ∧ (t.status j).terminal = true
      ∧ SameView (s.jobs j) (t.jobs j) from hinv.2.2.2
  refine Run.invariant (P := fun t => Inv t ∧ j ∈ t.accepted ∧ (t.status j).terminal = true
      ∧ SameView (s.jobs j) (t.jobs j)) ?_ h ⟨hi, hj, hterm, .inl rfl⟩
  intro a t u ⟨hi, hj, hterm, hsame⟩ hstep
  have hview := hstep.frozen hi hj hterm
  refine ⟨hi.step hstep, hstep.accepted_mono hi hj, ?_, hsame.trans hview⟩
  rcases hview with heq | heq
  · exact (congrArg (fun job => job.status.terminal) heq).trans hterm
  · exact (congrArg (fun job => job.status.terminal) heq).trans hterm

/-! ## `finished_at` -/

/-- The stores left to make include `finished_at`, or it is set. -/
def DateLeft (stores : List AttrStore) (job : Job) : Prop :=
  .finishedAt ∈ stores ∨ job.finishedAt ≠ none

/-- A job whose worker is past its function, or that is over, has its `finished_at` or will. -/
structure Dated (j : JobId) (s : State) : Prop where
  storing : ∀ w stores kills, s.workers w = .storing j stores kills → DateLeft stores (s.jobs j)
  ended : (s.status j).terminal = true → (s.jobs j).finishedAt ≠ none

theorem DateLeft.store {x : AttrStore} {stores : List AttrStore} (h : DateLeft (x :: stores) job)
    (now : Clock) : DateLeft stores (job.store now x) := by
  rcases h with hmem | hset
  · rcases List.mem_cons.mp hmem with rfl | hmem
    · exact .inr (Option.some_ne_none now)
    · exact .inl hmem
  · exact .inr ((show Attr.finishedAt.Filled job from hset).store now x)

/-- What a worker does to its job keeps the stamp on its way. -/
theorem JobStep.dated (h : JobStep w j a pc job pc' job')
    (hfits : pc.Fits job.status) (hlive : job.status.terminal = false)
    (hleft : ∀ stores kills, pc = .storing j stores kills → DateLeft stores job) :
    (∀ stores kills, pc' = .storing j stores kills → DateLeft stores job') ∧
      (job'.status.terminal = true → job'.finishedAt ≠ none) := by
  have hno : ∀ job₁ : Job, job₁.status = job.status → job₁.status.terminal = true →
      job₁.finishedAt ≠ none := by
    intro job₁ heq hterm
    rw [heq, hlive] at hterm
    cases hterm
  cases h with
  | claimRefused _ =>
      refine ⟨?_, hno job rfl⟩
      rintro stores kills ⟨⟩
      exact .inl List.mem_cons_self
  | claimGranted hclaim =>
      refine ⟨?_, fun hterm => ?_⟩
      · intro stores kills hpc
        cases hpc
      · rw [Job.claim_status hclaim] at hterm
        cases hterm
  | call =>
      refine ⟨?_, hno job rfl⟩
      intro stores kills hpc
      cases hpc
  | fnStore hby =>
      refine ⟨?_, hno _ (Job.store_status_byFunction hby job _)⟩
      intro stores kills hpc
      cases hpc
  | @finish _ outcome =>
      refine ⟨?_, hno job rfl⟩
      rintro stores kills ⟨⟩
      exact .inl (finishedAt_mem outcome)
  | @storeAttr _ x ss kills now =>
      have hrest := (hleft _ _ rfl).store now
      obtain ⟨st, -, -, hends⟩ := hfits
      refine ⟨fun stores kills' hpc => ?_, fun hterm => ?_⟩
      · cases ss with
        | nil => cases kills <;> cases hpc
        | cons y ys =>
            cases hpc
            exact hrest
      · cases hends with
        | last =>
            rcases hrest with hmem | hset
            · cases hmem
            · exact hset
        | more hnot _ =>
            have hsame : (job.store now x).status = job.status := by
              rw [Job.store_status]
              cases x with
              | status st' => exact absurd rfl (hnot st')
              | _ => rfl
            exact hno _ hsame hterm

theorem SameView.finishedAt (h : SameView job job') : job'.finishedAt = job.finishedAt := by
  rcases h with rfl | rfl <;> rfl

theorem SameView.status (h : SameView job job') : job'.status = job.status := by
  rcases h with rfl | rfl <;> rfl

theorem Dated.step (hs : Dated j s) (h : Step cfg a s t) (hi : Inv s) (hj : j ∈ s.accepted) :
    Dated j t := by
  rcases h.seen hi hj with ⟨w, hjob, hothers⟩ | ⟨-, hsame, hworkers⟩
  · have hlive : (s.status j).terminal = false := Bool.eq_false_iff.mpr fun hterm =>
      hi.terminal_free hterm w hjob.holds
    obtain ⟨hstoring, hover⟩ := hjob.dated (hi.fits w j hjob.holds) hlive (hs.storing w)
    refine ⟨fun v stores kills hv => ?_, hover⟩
    rcases eq_or_ne v w with rfl | hvw
    · exact hstoring stores kills hv
    · rw [hothers v hvw] at hv
      exact absurd ((hi.sole hjob.holds).2.2 v (congrArg WorkerPc.job? hv)) hvw
  · have hview : SameView (s.jobs j) (t.jobs j) := hsame
    refine ⟨fun v stores kills hv => ?_, fun hterm => ?_⟩
    · rcases hworkers v (congrArg WorkerPc.job? hv) with hw | hw | hw
      · rcases hs.storing v stores kills (hw.symm.trans hv) with hmem | hset
        · exact .inl hmem
        · refine .inr ?_
          rw [hview.finishedAt]
          exact hset
      · cases hw.symm.trans hv
      · cases hw.symm.trans hv
    · rw [hview.finishedAt]
      refine hs.ended ?_
      rw [State.status, ← hview.status]
      exact hterm

theorem Reaches.dated (h : Reaches cfg as s) (hj : j ∈ s.accepted) : Dated j s := by
  suffices hinv : Inv s ∧ ∀ j ∈ s.accepted, Dated j s from hinv.2 j hj
  refine Run.invariant (P := fun s => Inv s ∧ ∀ j ∈ s.accepted, Dated j s) ?_ h
    ⟨Inv.init, fun _ hj => absurd hj List.not_mem_nil⟩
  intro a s t ⟨hi, hs⟩ hstep
  refine ⟨hi.step hstep, fun j hj => ?_⟩
  by_cases hold : j ∈ s.accepted
  · exact (hs j hold).step hstep hi hold
  · -- a job just accepted is queued and with nobody
    have hqueued := hstep.queued_new hi hj hold
    refine ⟨fun w stores kills hw => ?_, fun hterm => ?_⟩
    · have hfits := (hi.step hstep).fits w j (congrArg WorkerPc.job? hw)
      rw [hw, hqueued] at hfits
      obtain ⟨st, -, -, -⟩ := hfits
      obtain ⟨_, _, created, rfl⟩ := hstep.accepted_new hi hj hold
      exact absurd (hi.placed_worker (w := w) (congrArg WorkerPc.job? hw)) hold
    · rw [hqueued] at hterm
      cases hterm

/-- A job that is over has its `finished_at`. -/
theorem Reaches.finishedAt (h : Reaches cfg as s) (hj : j ∈ s.accepted)
    (hterm : (s.status j).terminal = true) : ∃ at_, (s.jobs j).finishedAt = some at_ :=
  Option.ne_none_iff_exists'.mp ((h.dated hj).ended hterm)

/-! ## When a job goes -/

/-- The test of `sweep` on a job that is over. -/
theorem Job.expired_iff {at_ now : Clock} (hterm : job.status.terminal = true)
    (hat : job.finishedAt = some at_) : job.expired cfg now = true ↔ (cfg.ttl : ℚ) ≤ now - at_ := by
  rw [Job.expired, hterm, hat]
  exact decide_eq_true_iff

/-- A job that stays live through a run leaves the store by a `delete` of it and by nothing else. -/
theorem live_stored_iff (h : Reaches cfg as s) (hj : j ∈ s.store) (hrun : Run (Step cfg) s bs u)
    (hlive : (u.status j).terminal = false) : j ∈ u.store ↔ Action.delete j ∉ bs := by
  suffices hinv : (Reaches cfg (as ++ bs) u ∧ j ∈ u.accepted) ∧
      ((u.status j).terminal = false → (j ∈ u.store ↔ Action.delete j ∉ bs)) from hinv.2 hlive
  refine Run.trace (P := fun bs u => (Reaches cfg (as ++ bs) u ∧ j ∈ u.accepted) ∧
      ((u.status j).terminal = false → (j ∈ u.store ↔ Action.delete j ∉ bs))) ?_ hrun ?_
  · intro bs a t u ⟨⟨hreach, hacc⟩, ih⟩ hstep
    have hi := hreach.inv
    refine ⟨⟨?_, hstep.accepted_mono hi hacc⟩, fun hlive => ?_⟩
    · rw [← List.append_assoc]
      exact hreach.snoc hstep
    have hbefore := hstep.live_from hi hacc hlive
    rw [hstep.store_iff hreach hacc, ih hbefore, List.mem_append, List.mem_singleton, not_or]
    refine and_congr_right fun _ => not_congr ?_
    constructor
    · rintro (hd | ⟨now, -, hexpired⟩)
      · exact hd.symm
      · have hterm : (t.status j).terminal = true := Job.expired_terminal hexpired
        cases hbefore.symm.trans hterm
    · intro hd
      exact .inl hd.symm
  · refine ⟨⟨?_, h.accepted_of_stored hj⟩, fun _ => ⟨fun _ => List.not_mem_nil, fun _ => hj⟩⟩
    rw [List.append_nil]
    exact h

/-- A stored job that is over has a `finished_at` that no step changes, and leaves by a `delete` or
by the first sweep that comes `ttl` seconds after it. -/
theorem finished_stored_iff (h : Reaches cfg as s) (hj : j ∈ s.store)
    (hterm : (s.status j).terminal = true) (hrun : Run (Step cfg) s bs u) :
    ∃ at_, (s.jobs j).finishedAt = some at_ ∧ (u.jobs j).finishedAt = some at_ ∧
      (j ∈ u.store ↔ Action.delete j ∉ bs ∧ ∀ now, Action.sweep now ∈ bs → now - at_ < cfg.ttl) := by
  have hacc := h.accepted_of_stored hj
  obtain ⟨at_, hat⟩ := h.finishedAt hacc hterm
  refine ⟨at_, hat, (frozen_run hrun h.inv hacc hterm).finishedAt.trans hat, ?_⟩
  suffices hinv : (Reaches cfg (as ++ bs) u ∧ j ∈ u.accepted ∧ Run (Step cfg) s bs u) ∧
      (j ∈ u.store ↔ Action.delete j ∉ bs ∧ ∀ now, Action.sweep now ∈ bs → now - at_ < cfg.ttl) from
    hinv.2
  refine Run.trace (P := fun bs u => (Reaches cfg (as ++ bs) u ∧ j ∈ u.accepted ∧
      Run (Step cfg) s bs u) ∧
      (j ∈ u.store ↔ Action.delete j ∉ bs ∧ ∀ now, Action.sweep now ∈ bs → now - at_ < cfg.ttl))
    ?_ hrun ?_
  · intro bs a t u ⟨⟨hreach, hacct, hrun⟩, ih⟩ hstep
    refine ⟨⟨?_, hstep.accepted_mono hreach.inv hacct, hrun.snoc hstep⟩, ?_⟩
    · rw [← List.append_assoc]
      exact hreach.snoc hstep
    have hview := frozen_run hrun h.inv hacc hterm
    have hexpired : ∀ now, (t.jobs j).expired cfg now = true ↔ (cfg.ttl : ℚ) ≤ now - at_ :=
      fun now => Job.expired_iff (hview.status ▸ hterm) (hview.finishedAt.trans hat)
    rw [hstep.store_iff hreach hacct, ih]
    constructor
    · rintro ⟨⟨hdelete, hsweep⟩, hstay⟩
      refine ⟨fun hmem => ?_, fun now hmem => ?_⟩
      · rcases List.mem_append.mp hmem with hold | hnew
        · exact hdelete hold
        · exact hstay (.inl (List.mem_singleton.mp hnew).symm)
      · rcases List.mem_append.mp hmem with hold | hnew
        · exact hsweep now hold
        · refine lt_of_not_ge fun hle => hstay (.inr ⟨now, ?_, (hexpired now).mpr hle⟩)
          exact (List.mem_singleton.mp hnew).symm
    · rintro ⟨hdelete, hsweep⟩
      refine ⟨⟨fun hmem => hdelete (List.mem_append_left _ hmem),
        fun now hmem => hsweep now (List.mem_append_left _ hmem)⟩, ?_⟩
      rintro (rfl | ⟨now, rfl, hold⟩)
      · exact hdelete (by simp)
      · exact absurd ((hexpired now).mp hold) (not_le.mpr (hsweep now (by simp)))
  · refine ⟨⟨?_, hacc, .nil s⟩, fun _ => ?_, fun _ => hj⟩
    · rw [List.append_nil]
      exact h
    · exact ⟨List.not_mem_nil, fun now hmem => absurd hmem List.not_mem_nil⟩

/-- **How long a job can be seen.**  After any run a stored job that is still live is stored exactly
when it was not deleted; one that was over is stored exactly when it was not deleted and every sweep
came before its time to live had passed, counted from a `finished_at` that stayed as it was. -/
theorem stored_until (h : Reaches cfg as s) (hj : j ∈ s.store) (hrun : Run (Step cfg) s bs u) :
    ((u.status j).terminal = false → (j ∈ u.store ↔ Action.delete j ∉ bs)) ∧
      ((s.status j).terminal = true → ∃ at_,
        (s.jobs j).finishedAt = some at_ ∧ (u.jobs j).finishedAt = some at_ ∧
        (j ∈ u.store ↔
          Action.delete j ∉ bs ∧ ∀ now, Action.sweep now ∈ bs → now - at_ < cfg.ttl)) :=
  ⟨live_stored_iff h hj hrun, fun hterm => finished_stored_iff h hj hterm hrun⟩

/-- One job, run and finished at 10. -/
def finishedAtTen : List Action :=
  [.start 0, .setRunning 0, .spawn 0, .append 0, .submit 0 0, .put 0, .takeJob 0 0, .decrement 0,
    .claim 0 0, .call 0 0, .finish 0 .returned, .storeAttr 0 10, .storeAttr 0 11, .storeAttr 0 12]

/-- With a time to live of 60 the sweep at 69 leaves it and the one at 70 takes it. -/
theorem stored_until_sixty : ∃ s t u, Reaches ⟨1, 60, 0⟩ finishedAtTen s ∧
    Run (Step ⟨1, 60, 0⟩) s [.sweep 69] t ∧ Run (Step ⟨1, 60, 0⟩) s [.sweep 69, .sweep 70] u ∧
    0 ∈ t.store ∧ 0 ∉ u.store := by
  obtain ⟨s, hs, hj, hterm, hat⟩ := reaches_of_replay ⟨1, 60, 0⟩ finishedAtTen
    (fun s => 0 ∈ s.store ∧ (s.status 0).terminal = true ∧ (s.jobs 0).finishedAt = some 10)
    (by decide +kernel)
  have hfirst : Run (Step ⟨1, 60, 0⟩) s [.sweep 69] (sweepBlock ⟨1, 60, 0⟩ s 69).2 :=
    .single (.client .sweep)
  have hboth := hfirst.snoc (a := .sweep 70) (.client .sweep)
  refine ⟨s, _, _, hs, hfirst, hboth, ?_, ?_⟩
  · obtain ⟨at_, hsat, -, hiff⟩ := (stored_until hs hj hfirst).2 hterm
    cases hat.symm.trans hsat
    rw [hiff]
    refine ⟨by simp, fun now hmem => ?_⟩
    cases List.mem_singleton.mp hmem
    norm_num
  · obtain ⟨at_, hsat, -, hiff⟩ := (stored_until hs hj hboth).2 hterm
    cases hat.symm.trans hsat
    rw [hiff]
    rintro ⟨-, hsweep⟩
    have hlate := hsweep 70 (by simp)
    norm_num at hlate

/-! ## How many jobs are stored -/

/-- The stored jobs that are not over. -/
def State.liveStored (s : State) : List JobId := s.store.filter fun j => !(s.status j).terminal

/-- The threads that have started and not ended. -/
def State.liveWorkers (s : State) : Nat := countBelow WorkerPc.live s.workers s.nextWorker

/-- The jobs the workers hold. -/
def State.heldJobs (s : State) : List JobId :=
  (List.range s.nextWorker).filterMap fun w => (s.workers w).job?

/-- Over, and its time to live has not passed. -/
def Job.recent (cfg : Config) (now : Clock) (job : Job) : Bool :=
  job.status.terminal && job.finishedAt.any fun at_ => decide (now - at_ < cfg.ttl)

theorem length_heldJobs_le (s : State) : s.heldJobs.length ≤ s.liveWorkers := by
  rw [State.heldJobs, State.liveWorkers, List.length_filterMap_eq_countP, countBelow_eq_countP]
  refine List.countP_mono_left fun w _ hw => ?_
  obtain ⟨j, hj⟩ := Option.isSome_iff_exists.mp hw
  exact WorkerPc.live_of_job? hj

/-- A live job waits for a worker or is with one. -/
theorem Reaches.live_place (h : Reaches cfg as s) (hj : j ∈ s.liveStored) :
    j ∈ s.waiting ++ s.heldJobs := by
  obtain ⟨hstore, hlive⟩ := List.mem_filter.mp hj
  have hplace := h.partition.mem_iff.mp (h.listed.subset hstore)
  rcases List.mem_append.mp hplace with hwaits | htaken
  · refine List.mem_append_left _ ((mem_waiting h.inv).mpr ?_)
    rcases List.mem_append.mp hwaits with hres | hq
    · exact .inl hres
    · exact .inr (.inl (List.reduceOption_mem_iff.mp hq))
  · obtain ⟨w, hw⟩ := h.held_of_taken htaken (by simpa using hlive)
    refine List.mem_append_right _ (List.mem_filterMap.mpr ⟨w, ?_, hw⟩)
    exact List.mem_range.mpr (h.inv.started hw)

theorem Reaches.length_liveStored_le (h : Reaches cfg as s) (hmax : 0 < cfg.maxQueue) :
    (s.liveStored.length : ℤ) ≤ cfg.maxQueue + s.liveWorkers := by
  have hnodup : s.liveStored.Nodup := (h.listed.nodup h.split.fresh).filter _
  have hplaces : s.liveStored.length ≤ (s.waiting ++ s.heldJobs).length :=
    (List.subperm_of_subset hnodup fun j hj => h.live_place hj).length_le
  have hwaiting : s.pending = s.waiting.length := length_waiting h.pending.1
  have hbound := h.pending_le hmax
  have hheld := length_heldJobs_le s
  rw [List.length_append] at hplaces
  omega

/-- What a sweep leaves is live or recent. -/
theorem Reaches.sweep_leaves (h : Reaches cfg as s) (now : Clock)
    (hj : j ∈ (sweepBlock cfg s now).2.store) :
    j ∈ s.liveStored ∨ (s.jobs j).recent cfg now = true := by
  obtain ⟨hstore, hkept⟩ := List.mem_filter.mp hj
  cases hterm : (s.status j).terminal with
  | false => exact .inl (List.mem_filter.mpr ⟨hstore, by rw [hterm]; rfl⟩)
  | true =>
      obtain ⟨at_, hat⟩ :=
        Option.ne_none_iff_exists'.mp ((h.dated (h.listed.subset hstore)).ended hterm)
      refine .inr ?_
      rw [State.status] at hterm
      rw [Job.recent, hterm, hat]
      rw [Job.expired, hterm, hat] at hkept
      simpa using hkept

/-- **The store is bounded.**  With a limit on the queue, the jobs stored and not over are never more
than the limit and the threads that have not ended; and a sweep leaves besides them only jobs that
finished within the time to live. -/
theorem store_bounded (h : Reaches cfg as s) (hmax : 0 < cfg.maxQueue) :
    (s.liveStored.length : ℤ) ≤ cfg.maxQueue + s.liveWorkers ∧
      ∀ now, ((sweepBlock cfg s now).2.store.length : ℤ) ≤ cfg.maxQueue + s.liveWorkers
        + s.store.countP fun j => (s.jobs j).recent cfg now := by
  have hlive := h.length_liveStored_le hmax
  refine ⟨hlive, fun now => ?_⟩
  have hnodup : (sweepBlock cfg s now).2.store.Nodup := (h.listed.nodup h.split.fresh).filter _
  have hsplit : (sweepBlock cfg s now).2.store ⊆
      s.liveStored ++ s.store.filter fun j => (s.jobs j).recent cfg now := by
    intro j hj
    rcases h.sweep_leaves now hj with hl | hr
    · exact List.mem_append_left _ hl
    · exact List.mem_append_right _ (List.mem_filter.mpr ⟨(List.mem_filter.mp hj).1, hr⟩)
  have hle := (List.subperm_of_subset hnodup hsplit).length_le
  rw [List.length_append, ← List.countP_eq_length_filter] at hle
  omega

/-- One job over, one with its worker and one waiting. -/
theorem store_bounded_three : ∃ s, Reaches ⟨1, 60, 2⟩ (finishedAtTen ++
      [.submit 20 20, .put 1, .submit 21 21, .put 2, .takeJob 0 1]) s ∧
    s.store = [0, 1, 2] ∧ (s.liveStored.length : ℤ) ≤ 2 + s.liveWorkers ∧
    ((sweepBlock ⟨1, 60, 2⟩ s 70).2.store.length : ℤ) ≤ 2 + s.liveWorkers
      + s.store.countP fun j => (s.jobs j).recent ⟨1, 60, 2⟩ 70 := by
  obtain ⟨s, hs, hstore⟩ := reaches_of_replay ⟨1, 60, 2⟩
    (finishedAtTen ++ [.submit 20 20, .put 1, .submit 21 21, .put 2, .takeJob 0 1])
    (fun s => s.store = [0, 1, 2]) (by decide +kernel)
  obtain ⟨hlive, hsweep⟩ := store_bounded hs (by decide)
  exact ⟨s, hs, hstore, hlive, hsweep 70⟩

end HandBrakeEncoder.Jobs
