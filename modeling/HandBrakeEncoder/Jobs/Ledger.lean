/-
# `Jobs.Ledger` — the manager as its clients know it

To a client the service is a ledger: under each id stands nothing, a status, or that
the job is gone.  Its operations are four, each atomic, and beside them jobs move
along the life cycle by themselves:

    submitted j        enters the fresh id `j`, queued
    looked j found     reads the status under `j`
    deleted j found    strikes `j` out, and says whether it was there
    swept n            strikes out `n` jobs that were over

No queue, worker, thread, cancel event or clock is in it.  `manager_refines_ledger`
says that the manager answers as a ledger does, whatever its threads do, and
`answers_in_order` reads off the ledger what a client may rely on.
-/
import HandBrakeEncoder.Jobs.Retention
import HandBrakeEncoder.Lib.Refinement

namespace HandBrakeEncoder.Jobs

open Lib JobStatus Relation

/-! ## The ledger -/

/-- What stands under an id. -/
inductive Standing
  | unknown
  | shown (st : JobStatus)
  | gone
  deriving DecidableEq

abbrev Ledger := JobId → Standing

/-- What a client is told; `quiet` is a step nobody asked for, or a submission turned away. -/
inductive Reply
  | submitted (j : JobId)
  | looked (j : JobId) (found : Option JobStatus)
  | deleted (j : JobId) (found : Bool)
  | swept (count : Nat)
  | quiet
  deriving DecidableEq

/-- The status that a look at the entry finds. -/
def Standing.status? : Standing → Option JobStatus
  | .shown st => some st
  | .unknown | .gone => none

/-- The entry struck out. -/
def Standing.struck : Standing → Standing
  | .shown _ => .gone
  | e => e

/-- The operations of the ledger. -/
inductive Ledger.Step : Reply → Ledger → Ledger → Prop
  | skip {L : Ledger} : Step .quiet L L
  | move {L : Ledger} {j : JobId} {st st' : JobStatus} : L j = .shown st → Edge st st' →
      Step .quiet L (Function.update L j (.shown st'))
  | submitted {L : Ledger} {j : JobId} : L j = .unknown →
      Step (.submitted j) L (Function.update L j (.shown .queued))
  | looked {L : Ledger} {j : JobId} {found : Option JobStatus} : found = (L j).status? →
      Step (.looked j found) L L
  | deleted {L : Ledger} {j : JobId} {found : Bool} : found = (L j).status?.isSome →
      Step (.deleted j found) L (Function.update L j (L j).struck)
  | swept {L : Ledger} {js : List JobId} {count : Nat} : js.Nodup → count = js.length →
      (∀ j ∈ js, ∃ st, L j = .shown st ∧ st.terminal = true) →
      Step (.swept count) L fun j => if j ∈ js then .gone else L j

/-- What becomes of an entry: it stays, is entered, moves on, or is struck out. -/
inductive Standing.Next : Standing → Standing → Prop
  | stay {e : Standing} : Next e e
  | enter : Next .unknown (.shown .queued)
  | move {st st' : JobStatus} : Edge st st' → Next (.shown st) (.shown st')
  | strike {st : JobStatus} : Next (.shown st) .gone

variable {L L' : Ledger} {e e' : Reply} {es : List Reply} {i j : JobId} {st st' : JobStatus}

theorem Standing.Next.struck (e : Standing) : Standing.Next e e.struck := by
  cases e with
  | unknown => exact .stay
  | shown st => exact .strike
  | gone => exact .stay

/-- An update that moves its entry on moves every entry on. -/
theorem Standing.Next.update {x : Standing} (h : (L i).Next x) (j : JobId) :
    (L j).Next (Function.update L i x j) := by
  rcases eq_or_ne j i with rfl | hne
  · rw [Function.update_self]
    exact h
  · rw [Function.update_of_ne hne]
    exact .stay

theorem Ledger.Step.entry (h : Ledger.Step e L L') (j : JobId) : (L j).Next (L' j) := by
  cases h with
  | skip | looked _ => exact .stay
  | move hi hedge => exact Standing.Next.update (hi ▸ .move hedge) j
  | submitted hi => exact Standing.Next.update (hi ▸ .enter) j
  | deleted _ => exact Standing.Next.update (.struck _) j
  | @swept _ js _ _ _ hover =>
      show (L j).Next (if j ∈ js then .gone else L j)
      split
      · rename_i hj
        obtain ⟨st, hst, -⟩ := hover j hj
        rw [hst]
        exact .strike
      · exact .stay

theorem Standing.Next.known {x y : Standing} (h : x.Next y) (hx : x ≠ .unknown) : y ≠ .unknown := by
  cases h with
  | stay => exact hx
  | enter => exact absurd rfl hx
  | move _ | strike => exact fun hy => by cases hy

theorem Standing.Next.gone {y : Standing} (h : Standing.gone.Next y) : y = .gone := by
  cases h
  rfl

/-- A status shown was shown before, and is one the one before leads to. -/
theorem Standing.Next.shown {x : Standing} (h : x.Next (.shown st')) (hx : x ≠ .unknown) :
    ∃ st, x = .shown st ∧ ReflTransGen Edge st st' := by
  cases h with
  | stay => exact ⟨_, rfl, .refl⟩
  | enter => exact absurd rfl hx
  | move hedge => exact ⟨_, rfl, .single hedge⟩

/-- A known entry that is not shown is gone. -/
theorem Standing.gone_of_status? {x : Standing} (hx : x ≠ .unknown) (hnone : x.status? = none) :
    x = .gone := by
  cases x with
  | unknown => exact absurd rfl hx
  | shown st => cases hnone
  | gone => rfl

/-! ## Answers in order -/

/-- The reply tells that the job is gone, if it was ever there. -/
def Reply.Final (j : JobId) (e : Reply) : Prop := e = .looked j none ∨ ∃ found, e = .deleted j found

/-- What a later reply about a submitted job can be: its id is not given out again, its status is
one the one told before leads to, and once gone it is not found. -/
structure InOrder (j : JobId) (e e' : Reply) : Prop where
  fresh : e' ≠ .submitted j
  path : ∀ st st', e = .looked j (some st) → e' = .looked j (some st') → ReflTransGen Edge st st'
  gone : e.Final j → ∀ st, e' ≠ .looked j (some st) ∧ e' ≠ .deleted j true

/-- The entry is known, and is at or past what the reply told. -/
structure After (j : JobId) (e : Reply) (L : Ledger) : Prop where
  known : L j ≠ .unknown
  path : ∀ st st', e = .looked j (some st) → L j = .shown st' → ReflTransGen Edge st st'
  gone : e.Final j → L j = .gone

theorem Standing.status?_eq {x : Standing} : x.status? = some st ↔ x = .shown st := by
  cases x <;> simp [Standing.status?]

theorem Ledger.Step.after (h : Ledger.Step e L L') (hj : L j ≠ .unknown) : After j e L' where
  known := (h.entry j).known hj
  path := by
    rintro st st' rfl hshown
    cases h with
    | looked hfound =>
        rw [Standing.status?_eq.mp hfound.symm] at hshown
        cases hshown
        exact .refl
  gone := by
    rintro (rfl | ⟨found, rfl⟩)
    · cases h with
      | looked hfound => exact Standing.gone_of_status? hj hfound.symm
    · cases h with
      | deleted hfound =>
          rw [Function.update_self]
          cases hx : L j with
          | unknown => exact absurd hx hj
          | shown st => rfl
          | gone => rfl

theorem After.step (h : After j e L) (hstep : Ledger.Step e' L L') : After j e L' where
  known := (hstep.entry j).known h.known
  path := by
    intro st st' he hshown
    have hnext := hstep.entry j
    rw [hshown] at hnext
    obtain ⟨mid, hmid, hpath⟩ := hnext.shown h.known
    exact (h.path st mid he hmid).trans hpath
  gone := by
    intro hfinal
    have hnext := hstep.entry j
    rw [h.gone hfinal] at hnext
    exact hnext.gone

theorem After.inOrder (h : After j e L) (hstep : Ledger.Step e' L L') : InOrder j e e' where
  fresh := by
    rintro rfl
    cases hstep with
    | submitted hunknown => exact h.known hunknown
  path := by
    rintro st st' he rfl
    cases hstep with
    | looked hfound => exact h.path st st' he (Standing.status?_eq.mp hfound.symm)
  gone := by
    intro hfinal st
    have hgone := h.gone hfinal
    constructor
    · rintro rfl
      cases hstep with
      | looked hfound =>
          rw [hgone] at hfound
          cases hfound
    · rintro rfl
      cases hstep with
      | deleted hfound =>
          rw [hgone] at hfound
          cases hfound

theorem Ledger.Step.after_submitted (h : Ledger.Step (.submitted j) L L') :
    After j (.submitted j) L' where
  known := by
    cases h with
    | submitted _ =>
        rw [Function.update_self]
        exact fun hunknown => by cases hunknown
  path := fun _ _ he => by cases he
  gone := by
    rintro (he | ⟨_, he⟩)
    · cases he
    · cases he

/-- From the entry of a job on, the answers come in order. -/
theorem Ledger.inOrder (hsubmitted : Ledger.Step (.submitted j) L L') {L'' : Ledger}
    (h : Run Ledger.Step L' es L'') : (Reply.submitted j :: es).Pairwise (InOrder j) := by
  have hrest : Run (fun e L L' => Ledger.Step e L L' ∧ (e = .submitted j ∨ L j ≠ .unknown)) L' es L'' :=
    (h.guarded (P := fun L => L j ≠ .unknown)
      (fun e L L' hknown hstep => (hstep.entry j).known hknown)
      hsubmitted.after_submitted.known).mono fun e L L' ⟨hstep, hknown⟩ => ⟨hstep, .inr hknown⟩
  refine Run.pairwise (After j) ?_ ?_ ?_ (Run.cons ⟨hsubmitted, .inl rfl⟩ hrest)
  · rintro e L L' ⟨hstep, rfl | hknown⟩
    · exact hstep.after_submitted
    · exact hstep.after hknown
  · intro e e' L L' hafter ⟨hstep, _⟩
    exact hafter.step hstep
  · intro e e' L L' hafter ⟨hstep, _⟩
    exact hafter.inOrder hstep

/-- Of an id that is not known yet nothing was ever found. -/
theorem Ledger.before (h : Run Ledger.Step L es L') (hj : L' j = .unknown) :
    ∀ st, .looked j (some st) ∉ es ∧ .deleted j true ∉ es := by
  refine Run.trace (P := fun es L' => L' j = .unknown →
    ∀ st, Reply.looked j (some st) ∉ es ∧ Reply.deleted j true ∉ es) ?_ h
    (fun _ _ => ⟨List.not_mem_nil, List.not_mem_nil⟩) hj
  intro es e L L' ih hstep hj st
  have hunknown : L j = .unknown := by
    by_contra hknown
    exact (hstep.entry j).known hknown hj
  obtain ⟨hlooked, hdeleted⟩ := ih hunknown st
  refine ⟨fun hmem => ?_, fun hmem => ?_⟩
  · rcases List.mem_append.mp hmem with hold | hnew
    · exact hlooked hold
    · cases List.mem_singleton.mp hnew
      cases hstep with
      | looked hfound =>
          rw [hunknown] at hfound
          cases hfound
  · rcases List.mem_append.mp hmem with hold | hnew
    · exact hdeleted hold
    · cases List.mem_singleton.mp hnew
      cases hstep with
      | deleted hfound =>
          rw [hunknown] at hfound
          cases hfound

/-! ## The manager's ledger -/

variable {cfg : Config} {s t u : State} {as : List Action} {a : Action}
  {xs : List (Action × Reply)}

/-- What the manager's clients know. -/
def State.ledger (s : State) : Ledger := fun j =>
  if j ∈ s.store then .shown (s.status j) else if j ∈ s.accepted then .gone else .unknown

/-- What the action answers: the results of `submit`, `get`, `delete` and `sweep`. -/
def reply (cfg : Config) (s : State) : Action → Reply
  | .submit created now =>
      match (submitBlock cfg s created now).1 with
      | .stored j => .submitted j
      | .refused _ | .raised _ => .quiet
  | .get j => .looked j ((getBlock s j).map Job.status)
  | .delete j => .deleted j (deleteBlock s j).1
  | .sweep now => .swept (sweepBlock cfg s now).1
  | _ => .quiet

theorem State.ledger_status? (s : State) (j : JobId) :
    (s.ledger j).status? = (getBlock s j).map Job.status := by
  rw [State.ledger, getBlock]
  split
  · rfl
  · split <;> rfl

theorem State.ledger_isSome (s : State) (j : JobId) :
    (s.ledger j).status?.isSome = (deleteBlock s j).1 := by
  rw [State.ledger, deleteBlock]
  split
  · rfl
  · split <;> rfl

theorem State.ledger_congr (hstore : t.store = s.store) (hacc : t.accepted = s.accepted)
    (hstatus : ∀ j ∈ s.store, t.status j = s.status j) : t.ledger = s.ledger := by
  funext j
  rw [State.ledger, State.ledger, hstore, hacc]
  split
  · rename_i hj
    rw [hstatus j hj]
  · rfl

theorem State.ledger_stored (hj : j ∈ s.store) : s.ledger j = .shown (s.status j) := if_pos hj

theorem State.ledger_unknown (hstore : j ∉ s.store) (hacc : j ∉ s.accepted) :
    s.ledger j = .unknown := by
  rw [State.ledger, if_neg hstore, if_neg hacc]

/-- What `submit` returns, with what it leaves: the drawn id is accepted, or no more than drawn. -/
theorem submitBlock_reply (cfg : Config) (s : State) (created now : Clock) :
    (reply cfg s (.submit created now) = .submitted s.nextJob ∧
      (submitBlock cfg s created now).2 = s.accept created) ∨
    (reply cfg s (.submit created now) = .quiet ∧
      ∃ jobs, (∀ j, j ≠ s.nextJob → jobs j = s.jobs j) ∧
        (submitBlock cfg s created now).2 = { s with nextJob := s.nextJob + 1, jobs }) := by
  by_cases hrunning : s.running = true
  · by_cases hfull : 0 < cfg.maxQueue ∧ cfg.maxQueue ≤ s.pending
    · refine .inr ⟨?_, s.jobs, fun _ _ => rfl, ?_⟩
      · simp only [reply, submitBlock, hrunning, hfull, and_self, if_true, Bool.not_true,
          Bool.false_eq_true, if_false]
      · simp only [submitBlock, hrunning, hfull, and_self, if_true, Bool.not_true,
          Bool.false_eq_true, if_false]
    · refine .inl ⟨?_, ?_⟩
      · simp only [reply, submitBlock, hrunning, hfull, Bool.not_true, Bool.false_eq_true, if_false]
      · simp only [submitBlock, State.accept, hrunning, hfull, Bool.not_true, Bool.false_eq_true,
          if_false]
  · rw [Bool.not_eq_true] at hrunning
    refine .inr ⟨?_, Function.update s.jobs s.nextJob (refusedJob created now),
      fun j hj => Function.update_of_ne hj _ _, ?_⟩
    · simp only [reply, submitBlock, hrunning, Bool.not_false, if_true]
    · simp only [submitBlock, hrunning, Bool.not_false, if_true]

theorem accept_ledger (s : State) (created : Clock) :
    (s.accept created).ledger = Function.update s.ledger s.nextJob (.shown .queued) := by
  funext j
  rcases eq_or_ne j s.nextJob with rfl | hne
  · rw [Function.update_self, State.ledger_stored (List.mem_append_right _ (by simp))]
    exact congrArg Standing.shown (s.setJob_status_self s.nextJob { createdAt := created })
  · have hmem : ∀ js : List JobId, j ∈ js ++ [s.nextJob] ↔ j ∈ js := fun js => by simp [hne]
    rw [Function.update_of_ne hne, State.ledger, State.ledger]
    simp only [State.accept, State.status, hmem, Function.update_of_ne hne]

/-- A submission enters the id it draws, or turns the job away and leaves the ledger. -/
theorem submit_ledger (h : Reaches cfg as s) (created now : Clock) :
    Ledger.Step (reply cfg s (.submit created now)) s.ledger
      (submitBlock cfg s created now).2.ledger := by
  have hnew : s.nextJob ∉ s.accepted := fun hmem =>
    Nat.lt_irrefl _ (h.inv.acceptedLt _ hmem)
  have hfresh : s.nextJob ∉ s.store := fun hmem => hnew (h.accepted_of_stored hmem)
  rcases submitBlock_reply cfg s created now with ⟨hreply, heq⟩ | ⟨hreply, jobs, hjobs, heq⟩
  · rw [hreply, heq, accept_ledger]
    exact .submitted (State.ledger_unknown hfresh hnew)
  · have hledger : State.ledger { s with nextJob := s.nextJob + 1, jobs } = s.ledger := by
      refine State.ledger_congr rfl rfl fun j hj => ?_
      have hne : j ≠ s.nextJob := by
        rintro rfl
        exact hfresh hj
      exact congrArg Job.status (hjobs j hne)
    rw [hreply, heq, hledger]
    exact .skip

theorem delete_ledger (h : Reaches cfg as s) (i : JobId) :
    Ledger.Step (reply cfg s (.delete i)) s.ledger (deleteBlock s i).2.ledger := by
  have hledger : (deleteBlock s i).2.ledger = Function.update s.ledger i (s.ledger i).struck := by
    funext j
    rw [deleteBlock]
    split
    · rename_i hi
      rcases eq_or_ne j i with rfl | hne
      · rw [Function.update_self, State.ledger_stored hi, State.ledger]
        rw [if_neg h.store_nodup.not_mem_erase, if_pos (h.accepted_of_stored hi)]
        rfl
      · rw [Function.update_of_ne hne, State.ledger, State.ledger]
        simp only [State.status, List.mem_erase_of_ne hne, Function.update_of_ne hne]
    · rename_i hi
      rcases eq_or_ne j i with rfl | hne
      · rw [Function.update_self, State.ledger, if_neg hi]
        split <;> rfl
      · rw [Function.update_of_ne hne]
  rw [hledger]
  exact .deleted (s.ledger_isSome i).symm

theorem sweep_ledger (h : Reaches cfg as s) (now : Clock) :
    Ledger.Step (reply cfg s (.sweep now)) s.ledger (sweepBlock cfg s now).2.ledger := by
  have hledger : (sweepBlock cfg s now).2.ledger = fun j =>
      if j ∈ s.store.filter (fun j => (s.jobs j).expired cfg now) then .gone else s.ledger j := by
    funext j
    by_cases hj : j ∈ s.store
    · cases hexpired : (s.jobs j).expired cfg now with
      | true =>
          rw [if_pos (List.mem_filter.mpr ⟨hj, hexpired⟩), State.ledger, if_neg]
          · exact if_pos (h.accepted_of_stored hj)
          · intro hmem
            have hstay := (List.mem_filter.mp hmem).2
            rw [hexpired] at hstay
            cases hstay
      | false =>
          rw [if_neg, State.ledger_stored hj, State.ledger_stored]
          · rfl
          · exact List.mem_filter.mpr ⟨hj, by rw [hexpired]; rfl⟩
          · intro hmem
            cases hexpired.symm.trans (List.mem_filter.mp hmem).2
    · have hgone : j ∉ (sweepBlock cfg s now).2.store := fun hmem => hj (List.mem_filter.mp hmem).1
      rw [if_neg fun hmem => hj (List.mem_filter.mp hmem).1, State.ledger, State.ledger, if_neg hj,
        if_neg hgone]
      rfl
  rw [hledger]
  refine .swept (h.store_nodup.filter _) rfl ?_
  intro j hj
  obtain ⟨hstored, hexpired⟩ := List.mem_filter.mp hj
  exact ⟨s.status j, State.ledger_stored hstored, Job.expired_terminal hexpired⟩

/-- What a worker does to its job is a move of the ledger, or not seen there. -/
theorem job_ledger {w : WorkerId} {pc : WorkerPc} {job : Job} (hi : Inv s)
    (h : JobStep w j a (s.workers w) (s.jobs j) pc job) :
    Ledger.Step .quiet s.ledger ((s.setJob j job).setWorker w pc).ledger := by
  have hself : ((s.setJob j job).setWorker w pc).status j = job.status :=
    s.setJob_status_self j job
  have hother : ∀ i, i ≠ j → ((s.setJob j job).setWorker w pc).status i = s.status i :=
    fun i hij => s.setJob_status_ne job hij
  have hsame : j ∉ s.store ∨ job.status = s.status j →
      ((s.setJob j job).setWorker w pc).ledger = s.ledger := by
    intro hcase
    refine State.ledger_congr rfl rfl fun i hi => ?_
    rcases eq_or_ne i j with rfl | hij
    · rcases hcase with hnot | heq
      · exact absurd hi hnot
      · exact hself.trans heq
    · exact hother i hij
  by_cases hj : j ∈ s.store
  · rcases (h.fits (hi.fits w j h.holds)).1 with heq | hedge
    · rw [hsame (.inr heq)]
      exact .skip
    · have hledger : ((s.setJob j job).setWorker w pc).ledger
          = Function.update s.ledger j (.shown job.status) := by
        funext i
        rcases eq_or_ne i j with rfl | hij
        · have hstored := State.ledger_stored (s := (s.setJob i job).setWorker w pc) hj
          rw [Function.update_self, hstored, hself]
        · rw [Function.update_of_ne hij, State.ledger, State.ledger, hother i hij]
          rfl
      rw [hledger]
      exact .move (State.ledger_stored hj) hedge
  · rw [hsame (.inl hj)]
    exact .skip

theorem ControlStep.ledger {c : CtlId} (h : ControlStep cfg c a s t) : t.ledger = s.ledger := by
  cases h with
  | @cancel _ j js _ =>
      refine State.ledger_congr rfl rfl fun i _ => ?_
      rcases eq_or_ne i j with rfl | hij
      · exact s.setJob_status_self i _
      · exact s.setJob_status_ne _ hij
  | _ => rfl

theorem ControlStep.reply {c : CtlId} (h : ControlStep cfg c a s t) : reply cfg s a = .quiet := by
  cases h <;> rfl

theorem JobStep.reply {w : WorkerId} {pc pc' : WorkerPc} {job job' : Job}
    (h : JobStep w j a pc job pc' job') : reply cfg s a = .quiet := by
  cases h <;> rfl

/-- Each step of the manager is one of its ledger, with the same reply. -/
theorem Step.ledger (h : Step cfg a s t) (hreach : Reaches cfg as s) :
    Ledger.Step (reply cfg s a) s.ledger t.ledger := by
  cases h with
  | control c h =>
      rw [h.reply, h.ledger]
      exact .skip
  | worker w h =>
      cases h with
      | takeSentinel _ _ | takeJob _ _ | decrement _ => exact .skip
      | onJob h =>
          rw [h.reply]
          exact job_ledger hreach.inv h
  | client h =>
      cases h with
      | put _ => exact .skip
      | get => exact .looked (s.ledger_status? _).symm
      | submit => exact submit_ledger hreach _ _
      | delete => exact delete_ledger hreach _
      | sweep => exact sweep_ledger hreach _

theorem ledger_refines (cfg : Config) : Refines (Step cfg) (reply cfg) Ledger.Step State.ledger
    (fun s => ∃ as, Reaches cfg as s) where
  keeps := fun a _ _ ⟨as, hs⟩ hstep => ⟨as ++ [a], hs.snoc hstep⟩
  step := fun _ _ _ ⟨_, hs⟩ hstep => hstep.ledger hs

/-! ## Replaying answers -/

/-- The answers of a replay. -/
def told (cfg : Config) : State → List Action → List Reply
  | _, [] => []
  | s, a :: as =>
      match exec cfg s a with
      | none => []
      | some t => reply cfg s a :: told cfg t as

theorem replay_answered (h : replay cfg s as = some t) :
    ∃ xs, Run (Answered (Step cfg) (reply cfg)) s xs t ∧ xs.map Prod.snd = told cfg s as := by
  induction as generalizing s with
  | nil =>
      cases h
      exact ⟨[], .nil _, rfl⟩
  | cons a as ih =>
      rw [replay] at h
      split at h
      · cases h
      · rename_i u hexec
        obtain ⟨xs, hrun, hxs⟩ := ih h
        refine ⟨(a, reply cfg s a) :: xs, Run.cons ⟨exec_sound hexec, rfl⟩ hrun, ?_⟩
        rw [told, hexec, List.map_cons, hxs]

/-- A job submitted, looked up, deleted, and asked for again. -/
def deletedJob : List Action :=
  [.start 0, .setRunning 0, .spawn 0, .append 0, .submit 0 0, .get 0, .delete 0, .get 0, .delete 0]

/-- What is told about it, after a fresh manager has started. -/
def deletedJobTold : List Reply :=
  [.submitted 0, .looked 0 (some .queued), .deleted 0 true, .looked 0 none, .deleted 0 false]

theorem deletedJob_told : ∃ xs s, Run (Answered (Step ⟨1, 60, 0⟩) (reply ⟨1, 60, 0⟩)) .init xs s ∧
    xs.map Prod.snd = [.quiet, .quiet, .quiet, .quiet] ++ deletedJobTold := by
  cases hs : replay ⟨1, 60, 0⟩ .init deletedJob with
  | none => cases hs
  | some s =>
      obtain ⟨xs, hrun, hxs⟩ := replay_answered hs
      exact ⟨xs, s, hrun, hxs.trans (by decide +kernel)⟩

/-! ## The two results -/

/-- **The manager refines its ledger.**  In every interleaving, from any state reached, the answers
to `submit`, `get`, `delete` and `sweep` are those of a run of the ledger. -/
theorem manager_refines_ledger (h : Reaches cfg as s)
    (hrun : Run (Answered (Step cfg) (reply cfg)) s xs t) :
    Run Ledger.Step s.ledger (xs.map Prod.snd) t.ledger :=
  ((ledger_refines cfg).run hrun ⟨as, h⟩).2

theorem manager_refines_ledger_deleted : ∃ L, Run Ledger.Step State.init.ledger
    ([.quiet, .quiet, .quiet, .quiet] ++ deletedJobTold) L := by
  obtain ⟨xs, s, hrun, hxs⟩ := deletedJob_told
  exact ⟨s.ledger, hxs ▸ manager_refines_ledger (.nil _) hrun⟩

/-- **What a client may rely on.**  In every run of a fresh manager, an id is given out once; before
that nothing is found under it; and from then on the answers about it are in order: the statuses
told follow the life cycle, and after an unsuccessful look or a delete it is never found again. -/
theorem answers_in_order (hrun : Run (Answered (Step cfg) (reply cfg)) .init xs s)
    {es fs : List Reply} (hsplit : xs.map Prod.snd = es ++ .submitted j :: fs) :
    (Reply.submitted j :: fs).Pairwise (InOrder j) ∧
      ∀ st, .looked j (some st) ∉ es ∧ .deleted j true ∉ es := by
  have hledger := ((ledger_refines cfg).run hrun ⟨[], .nil _⟩).2
  obtain ⟨L, hbefore, hafter⟩ := hledger.split hsplit
  obtain ⟨L', hsubmitted, hrest⟩ := hafter.uncons
  refine ⟨Ledger.inOrder hsubmitted hrest, Ledger.before hbefore ?_⟩
  cases hsubmitted with
  | submitted hunknown => exact hunknown

theorem answers_in_order_deleted : deletedJobTold.Pairwise (InOrder 0) := by
  obtain ⟨xs, s, hrun, hxs⟩ := deletedJob_told
  exact (answers_in_order hrun hxs).1

end HandBrakeEncoder.Jobs
