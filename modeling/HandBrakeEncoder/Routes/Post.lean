/-
# `Routes.Post` — `POST /jobs` beside the manager

After its checks the route submits and then looks its own job up: a job that is
not there was never accepted, the route infers, and answers 503.  Between the
two steps every other thread may act, the sweep among them.

    submitting     the lock block of `submit`
    putting j      `put`, outside the lock
    looking j      `manager.get(job.id)`
    answered       the response, with the job `submit` returned, if it returned one

**The id is not known to anyone yet.**  Until the response no other thread
deletes the job or puts it; all else is any interleaving of `Jobs.Step`.
-/
import HandBrakeEncoder.Jobs.Backlog
import HandBrakeEncoder.Routes.Checks

namespace HandBrakeEncoder.Routes

open Lib Jobs Ops

/-- Where a call of `post_job` stands. -/
inductive PostPc
  | submitting
  | putting (j : JobId)
  | looking (j : JobId)
  | answered (job : Option JobId) (answer : Answer)

/-- The job of a call that has not answered. -/
def PostPc.inFlight? : PostPc → Option JobId
  | .putting j | .looking j => some j
  | .submitting | .answered _ _ => none

structure Post where
  mgr : State
  pc : PostPc

/-- The call once its checks are done. -/
def Post.start (raised : Option Answer) : Post where
  mgr := .init
  pc :=
    match raised with
    | some answer => .answered none answer
    | none => .submitting

/-- `except QueueFull`. -/
def queueFullAnswer (e : PyExc) : Answer :=
  .refused 503 (detail "queue_full" e.str) [("Retry-After", "60")]

/-- The answer for a job the lookup does not find. -/
def unavailableAnswer (job : Job) : Answer :=
  .refused 503
    [("code".toList, .str "service_unavailable".toList),
      ("reason".toList, match job.error with | some text => .str text | none => .null)]
    []

def afterSubmit : SubmitResult → PostPc
  | .stored j => .putting j
  | .refused j => .looking j
  | .raised e => .answered none (queueFullAnswer e)

/-- `manager.get(job.id) is None`, and what follows. -/
def lookAnswer (s : State) (j : JobId) : Answer :=
  match getBlock s j with
  | none => unavailableAnswer (s.jobs j)
  | some _ => .accepted j

inductive PostAction
  | other (a : Action)
  | submit (created now : Clock)
  | put (j : JobId)
  | get (j : JobId)

/-- What the manager sees of it. -/
def PostAction.mgr : PostAction → Action
  | .other a => a
  | .submit created now => .submit created now
  | .put j => .put j
  | .get j => .get j

/-- The action leaves the job of the call to the call. -/
def PostPc.Leaves (pc : PostPc) (a : Action) : Prop :=
  ∀ j, pc.inFlight? = some j → a ≠ .put j ∧ a ≠ .delete j

inductive PostStep (cfg : Config) : PostAction → Post → Post → Prop
  | other {p : Post} {a : Action} {m : State} : Step cfg a p.mgr m → p.pc.Leaves a →
      PostStep cfg (.other a) p { p with mgr := m }
  | submit {p : Post} {created now : Clock} {r : SubmitResult} {m : State} :
      p.pc = .submitting → submitBlock cfg p.mgr created now = (r, m) →
      PostStep cfg (.submit created now) p ⟨m, afterSubmit r⟩
  | put {p : Post} {j : JobId} {m : State} : p.pc = .putting j → Step cfg (.put j) p.mgr m →
      PostStep cfg (.put j) p ⟨m, .looking j⟩
  | get {p : Post} {j : JobId} : p.pc = .looking j →
      PostStep cfg (.get j) p ⟨p.mgr, .answered (some j) (lookAnswer p.mgr j)⟩

variable {cfg : Config} {p q : Post} {x : PostAction} {xs : List PostAction} {j : JobId}
  {s t : State} {as : List Action} {a : Action}

/-- Every step of the call is a step of the manager. -/
theorem PostStep.mgr (h : PostStep cfg x p q) : Step cfg x.mgr p.mgr q.mgr := by
  cases h with
  | other hstep _ => exact hstep
  | @submit _ created now r m hpc hblock =>
      have hm : m = (submitBlock cfg p.mgr created now).2 := by rw [hblock]
      rw [hm]
      exact .client .submit
  | put _ hstep => exact hstep
  | get _ => exact .client .get

theorem PostStep.run_mgr (h : Run (PostStep cfg) p xs q) :
    Run (Step cfg) p.mgr (xs.map PostAction.mgr) q.mgr := by
  induction h with
  | nil => exact .nil _
  | snoc _ hstep ih =>
      rw [List.map_append]
      exact ih.snoc hstep.mgr

/-! ## Jobs that were never accepted -/

/-- The action puts the job on the queue or calls its function. -/
def Touches (j : JobId) (a : Action) : Prop := a = .put j ∨ ∃ w, a = .call w j

theorem accepted_of_touches (h : Step cfg a s t) (hi : Inv s) (ha : Touches j a) :
    j ∈ s.accepted := by
  rcases ha with rfl | ⟨w, rfl⟩
  · cases h with
    | client h =>
        cases h with
        | put hj => exact hi.placed_reserved hj
    | worker v h =>
        cases h with
        | onJob h => cases h
    | control c h => cases h
  · obtain ⟨v, hv⟩ := h.call_claimed (j := j) (by simp [Action.isCall])
    exact hi.placed_worker (w := v) (by rw [hv.1]; rfl)

theorem Reaches.touched (h : Reaches cfg as s) : ∀ a ∈ as, Touches j a → j ∈ s.accepted := by
  suffices hinv : Inv s ∧ ∀ a ∈ as, Touches j a → j ∈ s.accepted from hinv.2
  refine Run.trace (P := fun as s => Inv s ∧ ∀ a ∈ as, Touches j a → j ∈ s.accepted) ?_ h
    ⟨Inv.init, fun _ ha => absurd ha List.not_mem_nil⟩
  intro as a s t ⟨hi, hseen⟩ hstep
  refine ⟨hi.step hstep, fun b hb htouch => hstep.accepted_mono hi ?_⟩
  rcases List.mem_append.mp hb with hb | hb
  · exact hseen b hb htouch
  · rw [List.mem_singleton.mp hb] at htouch
    exact accepted_of_touches hstep hi htouch

/-- The manager drew the id and did not accept the job. -/
def Dropped (s : State) (j : JobId) : Prop := j < s.nextJob ∧ j ∉ s.accepted

theorem Dropped.step (hd : Dropped s j) (hi : Inv s) (h : Step cfg a s t) : Dropped t j := by
  refine ⟨Nat.lt_of_lt_of_le hd.1 (h.nextJob_le hi), fun hj => ?_⟩
  obtain ⟨-, rfl, -⟩ := h.accepted_new hi hj hd.2
  exact Nat.lt_irrefl _ hd.1

theorem Dropped.run (hd : Dropped s j) (hi : Inv s) (h : Run (Step cfg) s as t) : Dropped t j := by
  suffices hinv : Inv t ∧ Dropped t j from hinv.2
  refine Run.invariant (P := fun t => Inv t ∧ Dropped t j) ?_ h ⟨hi, hd⟩
  intro a s t ⟨hi, hd⟩ hstep
  exact ⟨hi.step hstep, hd.step hi hstep⟩

/-! ## What the call knows -/

/-- The response has this status code and this `code`. -/
def Answer.Says (statusCode : Nat) (code : String) : Answer → Prop
  | .refused n content _ => n = statusCode ∧ content.get "code" = .str code.toList
  | .accepted _ | .serverError _ => False

/-- The call stands where the store of the manager says. -/
def PostPc.Fits (s : State) : PostPc → Prop
  | .submitting => True
  | .putting j => j ∈ s.accepted ∧ j ∈ s.store
  | .looking j => (j ∈ s.accepted ∧ j ∈ s.store) ∨ Dropped s j
  | .answered none answer =>
      (∀ j, answer ≠ .accepted j) ∧ ¬ answer.Says 503 "service_unavailable"
  | .answered (some j) answer =>
      (j ∈ s.accepted ∧ answer = .accepted j) ∨ (Dropped s j ∧ ∃ job, answer = unavailableAnswer job)

/-- No sweep finds the job of the call expired before the call has looked it up. -/
def Spared (cfg : Config) (x : PostAction) (p : Post) : Prop :=
  ∀ now j, x = .other (.sweep now) → p.pc.inFlight? = some j → j ∈ p.mgr.store →
    (p.mgr.jobs j).expired cfg now = false

theorem fits_start (checks : Checks) (req : EncodeRequest) :
    (Post.start (refusal checks req)).pc.Fits State.init := by
  cases hraised : refusal checks req with
  | none =>
      exact trivial
  | some answer =>
      have hearly := refusal_early hraised
      constructor
      · rintro j rfl
        exact hearly
      · intro hsays
        cases answer with
        | refused statusCode content headers => exact hearly hsays.1
        | accepted j => exact hsays
        | serverError e => exact hsays

/-- A stored job that is not swept is still stored, and the rest of what the call knows holds on. -/
theorem PostPc.Fits.other {pc : PostPc} (hf : pc.Fits s) (hi : Inv s) (h : Step cfg a s t)
    (hleaves : pc.Leaves a)
    (hspare : ∀ now j, a = .sweep now → pc.inFlight? = some j → j ∈ s.store →
      (s.jobs j).expired cfg now = false) : pc.Fits t := by
  have hkept : ∀ j, pc.inFlight? = some j → j ∈ s.store → j ∈ t.store := by
    intro j hj hstore
    rcases h.leaves hstore with hstore' | hdelete | ⟨now, hsweep, hexpired⟩
    · exact hstore'
    · exact absurd hdelete (hleaves j hj).2
    · rw [hspare now j hsweep hj hstore] at hexpired
      cases hexpired
  cases pc with
  | submitting =>
      exact trivial
  | putting j =>
      exact ⟨h.accepted_mono hi hf.1, hkept j rfl hf.2⟩
  | looking j =>
      rcases hf with ⟨hacc, hstore⟩ | hdropped
      · exact .inl ⟨h.accepted_mono hi hacc, hkept j rfl hstore⟩
      · exact .inr (hdropped.step hi h)
  | answered job answer =>
      cases job with
      | none =>
          exact hf
      | some j =>
          rcases hf with ⟨hacc, hans⟩ | ⟨hdropped, hans⟩
          · exact .inl ⟨h.accepted_mono hi hacc, hans⟩
          · exact .inr ⟨hdropped.step hi h, hans⟩

theorem fits_submit {created now : Clock} {r : SubmitResult} {m : State} (hi : Inv s)
    (h : submitBlock cfg s created now = (r, m)) : (afterSubmit r).Fits m := by
  have hnew : s.nextJob ∉ s.accepted := fun hj => Nat.lt_irrefl _ (hi.acceptedLt _ hj)
  rw [submitBlock] at h
  split at h
  · cases h
    exact .inr ⟨Nat.lt_succ_self _, hnew⟩
  · split at h
    · cases h
      constructor
      · intro j h
        cases h
      · rintro ⟨-, hcode⟩
        exact absurd (JVal.str.inj hcode) (by decide)
    · cases h
      exact ⟨List.mem_append_right _ (List.mem_singleton.mpr rfl),
        List.mem_append_right _ (List.mem_singleton.mpr rfl)⟩

theorem fits_look (hs : StoredAccepted s) (hf : (PostPc.looking j).Fits s) :
    (PostPc.answered (some j) (lookAnswer s j)).Fits s := by
  rcases hf with ⟨hacc, hstore⟩ | hdropped
  · left
    refine ⟨hacc, ?_⟩
    rw [lookAnswer, getBlock, if_pos hstore]
  · right
    have hnot : j ∉ s.store := fun hj => hdropped.2 (hs j hj)
    refine ⟨hdropped, s.jobs j, ?_⟩
    rw [lookAnswer, getBlock, if_neg hnot]

/-- The call keeps standing where the store says as long as no sweep takes its job. -/
theorem PostStep.fits (h : PostStep cfg x p q) (hi : Inv p.mgr) (hs : StoredAccepted p.mgr)
    (hspare : Spared cfg x p) (hf : p.pc.Fits p.mgr) : q.pc.Fits q.mgr := by
  cases h with
  | other hstep hleaves =>
      refine hf.other hi hstep hleaves ?_
      rintro now j rfl
      exact hspare now j rfl
  | submit hpc hblock =>
      exact fits_submit hi hblock
  | @put _ j m hpc hstep =>
      rw [hpc] at hf
      refine .inl ⟨hstep.accepted_mono hi hf.1, ?_⟩
      rcases hstep.leaves hf.2 with hstore | hdelete | ⟨now, hsweep, -⟩
      · exact hstore
      · cases hdelete
      · cases hsweep
  | get hpc =>
      rw [hpc] at hf
      exact fits_look hs hf

/-! ## The answer -/

/-- A run of the call beside the manager, from the checks on. -/
def Posts (cfg : Config) (checks : Checks) (req : EncodeRequest) (xs : List PostAction)
    (p : Post) : Prop :=
  Run (PostStep cfg) (Post.start (refusal checks req)) xs p

/-- Neither up to now nor later is the job accepted, put on the queue or called. -/
def Never (cfg : Config) (xs : List PostAction) (p : Post) (j : JobId) : Prop :=
  ∀ ys q, Run (PostStep cfg) p ys q → j ∉ q.mgr.accepted ∧ j ∉ q.mgr.store
    ∧ ∀ a ∈ (xs ++ ys).map PostAction.mgr, ¬ Touches j a

/-- The answer says what became of the job: 202 with its id exactly when it was accepted, and 503
`service_unavailable` only when it never is. -/
def Truthful (cfg : Config) (xs : List PostAction) (p : Post) (job : Option JobId)
    (answer : Answer) : Prop :=
  (∀ j, answer = .accepted j ↔ job = some j ∧ j ∈ p.mgr.accepted)
    ∧ (answer.Says 503 "service_unavailable" → ∃ j, job = some j ∧ Never cfg xs p j)

theorem Dropped.never {raised : Option Answer} (hd : Dropped p.mgr j)
    (h : Run (PostStep cfg) (Post.start raised) xs p) : Never cfg xs p j := by
  intro ys q hrun
  have hreach : Reaches cfg ((xs ++ ys).map PostAction.mgr) q.mgr :=
    PostStep.run_mgr (h.trans hrun)
  have hpast : Reaches cfg (xs.map PostAction.mgr) p.mgr := PostStep.run_mgr h
  have hlater := hd.run hpast.inv (PostStep.run_mgr hrun)
  refine ⟨hlater.2, fun hstore => hlater.2 (hreach.pending.2 j hstore), fun a ha htouch => ?_⟩
  exact hlater.2 (Reaches.touched hreach a ha htouch)

theorem PostPc.Fits.truthful {checks : Checks} {req : EncodeRequest} {job : Option JobId}
    {answer : Answer} (h : Posts cfg checks req xs p) (hp : p.pc = .answered job answer)
    (hf : p.pc.Fits p.mgr) : Truthful cfg xs p job answer := by
  rw [hp] at hf
  cases job with
  | none =>
      refine ⟨fun j => ⟨fun hj => absurd hj (hf.1 j), ?_⟩, fun hsays => absurd hsays hf.2⟩
      rintro ⟨hnone, -⟩
      cases hnone
  | some j =>
      rcases hf with ⟨hacc, rfl⟩ | ⟨hdropped, job, rfl⟩
      · constructor
        · intro i
          constructor
          · rintro ⟨⟩
            exact ⟨rfl, hacc⟩
          · rintro ⟨⟨⟩, -⟩
            rfl
        · exact False.elim
      · constructor
        · intro i
          constructor
          · intro h
            cases h
          · rintro ⟨⟨⟩, hacc⟩
            exact absurd hacc hdropped.2
        · intro _
          exact ⟨j, rfl, hdropped.never h⟩

/-- **The answer is truthful** in every run of the call beside the manager in which no sweep finds
its job expired before the call has looked it up. -/
theorem post_truthful {checks : Checks} {req : EncodeRequest} {job : Option JobId} {answer : Answer}
    (h : Run (fun x p q => PostStep cfg x p q ∧ Spared cfg x p) (Post.start (refusal checks req))
      xs p)
    (hp : p.pc = .answered job answer) : Truthful cfg xs p job answer := by
  have hinv : Posts cfg checks req xs p ∧ p.pc.Fits p.mgr := by
    refine Run.trace (P := fun xs p => Posts cfg checks req xs p ∧ p.pc.Fits p.mgr) ?_ h
      ⟨.nil _, fits_start checks req⟩
    intro xs x p q ⟨hrun, hf⟩ ⟨hstep, hspare⟩
    have hreach : Reaches cfg (xs.map PostAction.mgr) p.mgr := PostStep.run_mgr hrun
    exact ⟨hrun.snoc hstep, hstep.fits hreach.inv hreach.pending.2 hspare hf⟩
  exact hinv.2.truthful hinv.1 hp

/-! ## Replaying a call -/

/-- Decides `PostPc.Leaves`. -/
def PostPc.leaves (pc : PostPc) (a : Action) : Bool :=
  match pc.inFlight? with
  | none => true
  | some j => a ≠ .put j && a ≠ .delete j

theorem PostPc.leaves_sound {pc : PostPc} (h : pc.leaves a = true) : pc.Leaves a := by
  intro j hj
  rw [PostPc.leaves, hj] at h
  obtain ⟨hput, hdelete⟩ := Bool.and_eq_true_iff.mp h
  exact ⟨of_decide_eq_true hput, of_decide_eq_true hdelete⟩

/-- The next state of call and manager, if the action is enabled. -/
def Post.exec (cfg : Config) (p : Post) : PostAction → Option Post
  | .other a =>
      match Jobs.exec cfg p.mgr a with
      | none => none
      | some m => if p.pc.leaves a then some { p with mgr := m } else none
  | .submit created now =>
      match p.pc with
      | .submitting =>
          some ⟨(submitBlock cfg p.mgr created now).2,
            afterSubmit (submitBlock cfg p.mgr created now).1⟩
      | _ => none
  | .put j =>
      match p.pc with
      | .putting i =>
          if i = j then (Jobs.exec cfg p.mgr (.put j)).map (fun m => ⟨m, .looking j⟩) else none
      | _ => none
  | .get j =>
      match p.pc with
      | .looking i =>
          if i = j then some ⟨p.mgr, .answered (some j) (lookAnswer p.mgr j)⟩ else none
      | _ => none

theorem Post.exec_sound (h : p.exec cfg x = some q) : PostStep cfg x p q := by
  cases x with
  | other a =>
      rw [Post.exec] at h
      split at h
      · cases h
      · rename_i m hexec
        split at h
        · rename_i hleaves
          cases h
          exact .other (exec_sound hexec) (PostPc.leaves_sound hleaves)
        · cases h
  | submit created now =>
      rw [Post.exec] at h
      split at h
      · rename_i hpc
        cases h
        exact .submit hpc rfl
      · cases h
  | put j =>
      rw [Post.exec] at h
      split at h
      · rename_i i hpc
        split at h
        · rename_i hij
          subst hij
          obtain ⟨m, hexec, rfl⟩ := Option.map_eq_some_iff.mp h
          exact .put hpc (exec_sound hexec)
        · cases h
      · cases h
  | get j =>
      rw [Post.exec] at h
      split at h
      · rename_i i hpc
        split at h
        · rename_i hij
          subst hij
          cases h
          exact .get hpc
        · cases h
      · cases h

def Post.replay (cfg : Config) : Post → List PostAction → Option Post
  | p, [] => some p
  | p, x :: xs =>
      match p.exec cfg x with
      | none => none
      | some q => Post.replay cfg q xs

theorem Post.replay_run (h : p.replay cfg xs = some q) : Run (PostStep cfg) p xs q := by
  induction xs generalizing p with
  | nil =>
      cases h
      exact .nil _
  | cons x xs ih =>
      rw [Post.replay] at h
      split at h
      · cases h
      · rename_i hexec
        exact Run.cons (Post.exec_sound hexec) (ih h)

/-- A replay that ends in a state with a decidable property reaches such a state. -/
theorem posts_of_replay {checks : Checks} {req : EncodeRequest} (hnone : refusal checks req = none)
    (cfg : Config) (xs : List PostAction) (P : Post → Bool)
    (h : ((Post.start none).replay cfg xs).any P = true) :
    ∃ p, Posts cfg checks req xs p ∧ P p = true := by
  cases hp : (Post.start none).replay cfg xs with
  | none =>
      rw [hp] at h
      cases h
  | some p =>
      rw [hp] at h
      have hrun : Posts cfg checks req xs p := by
        rw [Posts, hnone]
        exact Post.replay_run hp
      exact ⟨p, hrun, h⟩

def PostPc.isAccepted (j : JobId) : PostPc → Bool
  | .answered (some i) (.accepted k) => i = j && k = j
  | _ => false

theorem PostPc.isAccepted_eq {pc : PostPc} (h : pc.isAccepted j = true) :
    pc = .answered (some j) (.accepted j) := by
  unfold PostPc.isAccepted at h
  split at h
  · obtain ⟨hi, hk⟩ := Bool.and_eq_true_iff.mp h
    rw [of_decide_eq_true hi, of_decide_eq_true hk]
  · cases h

def PostPc.isUnavailable (j : JobId) : PostPc → Bool
  | .answered (some i) (.refused statusCode content _) =>
      i = j && statusCode = 503
        && (content.get "code").str? = some "service_unavailable".toList
  | _ => false

theorem PostPc.isUnavailable_eq {pc : PostPc} (h : pc.isUnavailable j = true) :
    ∃ answer, pc = .answered (some j) answer ∧ answer.Says 503 "service_unavailable" := by
  unfold PostPc.isUnavailable at h
  split at h
  · rename_i i statusCode content headers
    obtain ⟨hfirst, hcode⟩ := Bool.and_eq_true_iff.mp h
    obtain ⟨hi, hstatus⟩ := Bool.and_eq_true_iff.mp hfirst
    have hsays : content.get "code" = .str "service_unavailable".toList := by
      have hstr := of_decide_eq_true hcode
      cases hval : content.get "code" with
      | str text =>
          rw [hval] at hstr
          rw [Option.some.inj hstr]
      | _ =>
          rw [hval] at hstr
          cases hstr
    rw [of_decide_eq_true hi]
    exact ⟨.refused statusCode content headers, rfl, of_decide_eq_true hstatus, hsays⟩
  · cases h

/-- A run without sweeps spares the job. -/
theorem Posts.sparing {checks : Checks} {req : EncodeRequest} (h : Posts cfg checks req xs p)
    (hno : ∀ now, PostAction.other (.sweep now) ∉ xs) :
    Run (fun x p q => PostStep cfg x p q ∧ Spared cfg x p) (Post.start (refusal checks req))
      xs p := by
  refine Run.trace (P := fun xs p => (∀ now, PostAction.other (.sweep now) ∉ xs) →
    Run (fun x p q => PostStep cfg x p q ∧ Spared cfg x p) (Post.start (refusal checks req))
      xs p) ?_ h (fun _ => .nil _) hno
  intro xs x p q ih hstep hno
  refine (ih fun now hmem => hno now (List.mem_append_left _ hmem)).snoc ⟨hstep, ?_⟩
  rintro now j rfl
  exact absurd (List.mem_append_right xs (List.mem_singleton.mpr rfl)) (hno now)

/-- The actions of a one-worker manager that starts, and of a call whose job runs and ends before
the lookup. -/
def quickJob : List PostAction :=
  [.other (.start 0), .other (.setRunning 0), .other (.spawn 0), .other (.append 0),
    .submit 0 0, .put 0, .other (.takeJob 0 0), .other (.decrement 0), .other (.claim 0 0),
    .other (.call 0 0), .other (.finish 0 .returned), .other (.storeAttr 0 1),
    .other (.storeAttr 0 1), .other (.storeAttr 0 1)]

/-- A request the checks let pass is then answered 202. -/
theorem quickJob_accepted {checks : Checks} {req : EncodeRequest}
    (hnone : refusal checks req = none) :
    ∃ p, Posts ⟨1, 0, 100⟩ checks req (quickJob ++ [.get 0]) p ∧
      p.pc = .answered (some 0) (.accepted 0) := by
  obtain ⟨p, hrun, hp⟩ := posts_of_replay hnone ⟨1, 0, 100⟩ (quickJob ++ [.get 0])
    (fun p => p.pc.isAccepted 0) (by decide +kernel)
  exact ⟨p, hrun, PostPc.isAccepted_eq hp⟩

theorem post_truthful_finished :
    ∃ p, Posts ⟨1, 0, 100⟩ sampleChecks (speedRequest "fast".toList) (quickJob ++ [.get 0]) p
      ∧ Truthful ⟨1, 0, 100⟩ (quickJob ++ [.get 0]) p (some 0) (.accepted 0) := by
  obtain ⟨p, hrun, hp⟩ := quickJob_accepted fast_checked
  exact ⟨p, hrun, post_truthful (hrun.sparing (by simp [quickJob])) hp⟩

/-- With a TTL of 0 a sweep between the end of the job and the lookup makes the answer 503. -/
theorem post_unavailable_after_sweep :
    ¬ ∀ (cfg : Config) (checks : Checks) (req : EncodeRequest) (xs : List PostAction) (p : Post)
      (job : Option JobId) (answer : Answer), Posts cfg checks req xs p →
      p.pc = .answered job answer → Truthful cfg xs p job answer := by
  intro hall
  obtain ⟨p, hrun, hp⟩ := posts_of_replay fast_checked ⟨1, 0, 100⟩
    (quickJob ++ [.other (.sweep 1), .get 0])
    (fun p => p.pc.isUnavailable 0 && decide (0 ∈ p.mgr.accepted)) (by decide +kernel)
  obtain ⟨hpc, hacc⟩ := Bool.and_eq_true_iff.mp hp
  obtain ⟨answer, hanswer, hsays⟩ := PostPc.isUnavailable_eq hpc
  obtain ⟨j, hj, hnever⟩ := (hall _ _ _ _ p _ _ hrun hanswer).2 hsays
  cases hj
  exact (hnever [] p (.nil p)).1 (of_decide_eq_true hacc)

/-! ## The speed preset of an accepted request -/

/-- An answer is final. -/
theorem PostStep.answered {job : Option JobId} {answer : Answer} (h : PostStep cfg x p q)
    (hp : p.pc = .answered job answer) : q.pc = .answered job answer := by
  cases h with
  | other _ _ =>
      exact hp
  | submit hpc _ =>
      rw [hpc] at hp
      cases hp
  | put hpc _ =>
      rw [hpc] at hp
      cases hp
  | get hpc =>
      rw [hpc] at hp
      cases hp

/-- A request that is accepted was not refused by the checks. -/
theorem Posts.not_refused {checks : Checks} {req : EncodeRequest} {job : Option JobId}
    (h : Posts cfg checks req xs p) (hp : p.pc = .answered job (.accepted j)) :
    refusal checks req = none := by
  cases hraised : refusal checks req with
  | none =>
      rfl
  | some answer =>
      rw [Posts, hraised] at h
      have hsame : p.pc = .answered none answer :=
        Run.invariant (P := fun p => p.pc = .answered none answer)
          (fun _ _ _ hpc hstep => hstep.answered hpc) h rfl
      rw [hp] at hsame
      cases hsame
      exact (refusal_early hraised).elim

/-- **What was checked is what is shipped**, exactly for a speed preset without whitespace at its
ends: of a request answered 202, the job writes the document for HandBrake as it came, and the raw
value in it is one the encoder lists if and only if it is its own strip. -/
theorem shipped_speed_preset_iff {checks : Checks} {req : EncodeRequest} {job : Option JobId}
    {preset : JDict} {encoder raw : PyStr} {validPresets : List PyStr}
    (h : Posts cfg checks req xs p) (hp : p.pc = .answered job (.accepted j))
    (hpreset : Presets.findPreset checks.repr checks.presetFrames req.presetJson req.presetName
      = .ok preset)
    (hencoder : Presets.presetEncoder checks.repr preset = .ok encoder)
    (hvalid : checks.encoderPresets encoder = .ok validPresets) (hne : validPresets ≠ [])
    (hraw : preset.get "VideoPreset" = .str raw) (hblank : ∃ c ∈ raw, Text.isSpace c = false) :
    Ships req req.presetJson ∧ (raw ∈ validPresets ↔ Text.strip raw = raw) :=
  ⟨writePreset_document req,
    refusal_speed_preset (h.not_refused hp) hpreset hencoder hvalid hne hraw hblank⟩

theorem shipped_speed_preset_fast :
    Ships (speedRequest "fast".toList) (speedRequest "fast".toList).presetJson ∧
      "fast".toList ∈ ["veryfast".toList, "fast".toList] := by
  obtain ⟨p, hrun, hp⟩ := quickJob_accepted fast_checked
  obtain ⟨hships, hiff⟩ := shipped_speed_preset_iff hrun hp rfl rfl sampleChecks_presets
    (List.cons_ne_nil _ _) rfl ⟨'f', by decide, by decide⟩
  exact ⟨hships, hiff.mpr (by decide)⟩

/-- A space before the value passes the check and is shipped. -/
theorem shipped_speed_preset_with_space :
    ¬ ∀ (cfg : Config) (checks : Checks) (req : EncodeRequest) (xs : List PostAction) (p : Post)
      (job : Option JobId) (j : JobId) (preset : JDict) (encoder raw : PyStr)
      (validPresets : List PyStr),
      Posts cfg checks req xs p → p.pc = .answered job (.accepted j) →
      Presets.findPreset checks.repr checks.presetFrames req.presetJson req.presetName = .ok preset →
      Presets.presetEncoder checks.repr preset = .ok encoder →
      checks.encoderPresets encoder = .ok validPresets → validPresets ≠ [] →
      preset.get "VideoPreset" = .str raw → (∃ c ∈ raw, Text.isSpace c = false) →
      Ships req req.presetJson → raw ∈ validPresets := by
  intro hall
  obtain ⟨p, hrun, hp⟩ := quickJob_accepted spaced_checked
  have hlisted := hall _ _ _ _ p _ _ _ "x264".toList " fast".toList _ hrun hp rfl rfl
    sampleChecks_presets (List.cons_ne_nil _ _) rfl ⟨'f', by decide, by decide⟩
    (writePreset_document _)
  revert hlisted
  decide

end HandBrakeEncoder.Routes
