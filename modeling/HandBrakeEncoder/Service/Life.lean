/-
# `Service.Life` — a job whose function is `run_encode_job`

The manager, the function of one of its jobs and the child of that function, as
one system.  The manager moves as in `Jobs.Manager`, the child and its two
threads as in `Runner.Process`, and the function in between:

    notCalled   called   encoding   ended       `FnPc`
             └ a worker's call
                      └ Popen
                               └ `run_encode` ended, and with it the job's function

A job ends before `Popen` when it is refused, when one of its own steps raises,
or when `Popen` does.  What the function does to the file system is computed
when it ends (`Setup.run`); `Env` says what other processes did meanwhile.

**One event.**  The child's threads read the cancel event of the job: a step of
theirs is a step from the process with that event in it (`Proc.sees`).

**What is not program state.**  `claimed` says that `_claim` returned true, and
`stored` lists the attributes the function has stored so far.
-/
import HandBrakeEncoder.Jobs.Seen
import HandBrakeEncoder.Ops.Outcome
import HandBrakeEncoder.Runner.Verdict

namespace HandBrakeEncoder.Service

open Jobs Runner Ops Posix Relation

/-- The job and everything that is fixed while it lives. -/
structure Setup where
  cfg : Config
  job : JobId
  host : Host
  env : Env
  jobId : PyStr
  req : EncodeRequest
  world : World
  raises : Runner.Call → Prop
  timeout : PyStr

/-- What the function does when `run_encode` ends the given way. -/
def Setup.run (S : Setup) (outcome : FnOutcome) : JobRun :=
  runEncodeJob S.host (S.env.withOutcome outcome) S.jobId S.req S.world

/-- The function gets as far as calling `run_encode`. -/
def Setup.encodes (S : Setup) : Bool :=
  (runEncodeJob S.host S.env S.jobId S.req S.world).encoded

/-- Where the job's function stands. -/
inductive FnPc
  | notCalled
  | called
  | encoding
  | ended (r : JobRun)

structure Life where
  mgr : State
  fn : FnPc := .notCalled
  proc : Option Proc := none
  claimed : Bool := false
  stored : List AttrStore := []

/-- `_claim` returns true for the job. -/
def granted (j : JobId) (s : State) : Action → Bool
  | .claim _ i => i == j && !(s.jobs j).cancelEvent
  | _ => false

/-- The store the job's function makes, if it is one. -/
def fnStored (j : JobId) (s : State) : Action → List AttrStore
  | .fnStore w st _ => if s.workers w = .executing j then [st] else []
  | _ => []

/-- After a step of the manager. -/
def Life.after (S : Setup) (L : Life) (a : Action) (m : State) : Life where
  mgr := m
  fn := if a.isCall S.job then .called else L.fn
  proc := L.proc
  claimed := L.claimed || granted S.job L.mgr a
  stored := L.stored ++ fnStored S.job L.mgr a

/-- The worker sees the job's function end only when it has, with its outcome and its stores. -/
def Life.Ends (S : Setup) (L : Life) (a : Action) : Prop :=
  ∀ w outcome, a = .finish w outcome → L.mgr.workers w = .executing S.job →
    ∃ r, L.fn = .ended r ∧ outcome = r.result ∧ L.stored = r.stores

/-- The cancel event of the job. -/
def Life.event (S : Setup) (L : Life) : Bool := (L.mgr.jobs S.job).cancelEvent

inductive Life.Step (S : Setup) (L : Life) : Life → Prop
  | manager (a : Action) (m : State) : Jobs.Step S.cfg a L.mgr m → L.Ends S a →
      Life.Step S L (L.after S a m)
  | endsBefore : L.fn = .called → S.encodes = false →
      Life.Step S L { L with fn := .ended (S.run .returned) }
  | popenRaises (e : PyExc) : L.fn = .called → S.encodes = true → external e = true →
      Life.Step S L { L with fn := .ended (S.run (.raised e)) }
  | popen : L.fn = .called → S.encodes = true →
      Life.Step S L { L with fn := .encoding, proc := some (.init (L.event S)) }
  | proc (p p' : Proc) : L.proc = some p →
      Runner.Step S.raises S.timeout (p.sees (L.event S)) p' → p'.cancel = L.event S →
      Life.Step S L { L with proc := some p' }
  | encodeEnds (p : Proc) (outcome : FnOutcome) : L.fn = .encoding → L.proc = some p →
      p.main = .done outcome → Life.Step S L { L with fn := .ended (S.run outcome) }

/-- From a manager just constructed, by any interleaving. -/
def Life.Reaches (S : Setup) : Life → Prop :=
  ReflTransGen (Life.Step S) { mgr := .init }

/-! ## The invariant -/

/-- Why a worker is making the given stores at the end of the job. -/
inductive Cause (S : Setup) (L : Life) : List AttrStore → Prop
  | rejected : L.fn = .notCalled → L.claimed = false → L.event S = true → Cause S L rejectStores
  | ended (r : JobRun) : L.fn = .ended r → L.claimed = true → L.stored = r.stores →
      Cause S L (terminalStores r.result)

/-- Some of these stores are made, `ss` are left. -/
def Left (S : Setup) (L : Life) (ss : List AttrStore) : Prop :=
  ∃ made, Cause S L (made ++ ss) ∧ ∀ x ∈ made, x.Shown (L.mgr.jobs S.job)

/-- What is known while a worker holds the job at this place. -/
def AtPlace (S : Setup) (L : Life) : WorkerPc → Prop
  | .claimed _ => L.claimed = true ∧ L.fn = .notCalled
  | .executing _ => L.claimed = true ∧ L.fn ≠ .notCalled
  | .storing _ ss _ => Left S L ss
  | _ => True

/-- Nothing has been done for the job yet. -/
structure Unstarted (L : Life) : Prop where
  claimed : L.claimed = false
  fn : L.fn = .notCalled
  stored : L.stored = []

/-- How the function came to its end. -/
inductive Over (S : Setup) (L : Life) (r : JobRun) : Prop
  | before : L.proc = none → S.encodes = false → r = S.run .returned → Over S L r
  | noChild (e : PyExc) : L.proc = none → S.encodes = true → external e = true →
      r = S.run (.raised e) → Over S L r
  | child (p : Proc) (outcome : FnOutcome) : L.proc = some p → S.encodes = true →
      p.main = .done outcome → r = S.run outcome → Over S L r

/-- There is a process from `Popen` on. -/
def FnPc.Fits (S : Setup) (L : Life) : FnPc → Prop
  | .notCalled | .called => L.proc = none
  | .encoding => S.encodes = true ∧ ∃ p, L.proc = some p
  | .ended r => Over S L r

/-- The process is in order and knows no more of the cancel event than is true. -/
structure ProcFits (S : Setup) (L : Life) (p : Proc) : Prop where
  inv : p.Inv
  event : p.cancel = true → L.event S = true
  accepted : S.job ∈ L.mgr.accepted

structure Life.Inv (S : Setup) (L : Life) : Prop where
  mgr : Jobs.Inv L.mgr
  unstarted : (S.job ∈ L.mgr.accepted → L.mgr.status S.job = .queued) → Unstarted L
  place : ∀ w, (L.mgr.workers w).job? = some S.job → AtPlace S L (L.mgr.workers w)
  ended : S.job ∈ L.mgr.accepted → (L.mgr.status S.job).terminal = true → Left S L []
  error : S.job ∈ L.mgr.accepted → (L.mgr.jobs S.job).error ≠ none →
    ∃ r text, L.fn = .ended r ∧ .error text ∈ terminalStores r.result
  fn : L.fn.Fits S L
  proc : ∀ p, L.proc = some p → ProcFits S L p

variable {S : Setup} {L : Life} {m : State} {a : Action}

theorem Life.Inv.init (S : Setup) : Life.Inv S { mgr := .init } where
  mgr := .init
  unstarted _ := ⟨rfl, rfl, rfl⟩
  place _ h := nomatch h
  ended h := nomatch h
  error h := nomatch h
  fn := rfl
  proc _ h := nomatch h

/-! ## Steps of the manager -/

theorem Cause.distinct {stores : List AttrStore} (h : Cause S L stores) :
    stores.Pairwise (fun x y => x.attr ≠ y.attr) := by
  cases h with
  | rejected _ _ _ => exact rejectStores_distinct
  | ended r _ _ _ => exact terminalStores_distinct r.result

/-- `L'` differs from `L` in nothing the cause of an ending depends on. -/
structure SameHistory (S : Setup) (L L' : Life) : Prop where
  fn : L'.fn = L.fn
  claimed : L'.claimed = L.claimed
  stored : L'.stored = L.stored
  event : L.event S = true → L'.event S = true

theorem Cause.of_same {L' : Life} {stores : List AttrStore} (hsame : SameHistory S L L')
    (h : Cause S L stores) : Cause S L' stores := by
  cases h with
  | rejected hf hc he =>
      exact .rejected (hsame.fn.trans hf) (hsame.claimed.trans hc) (hsame.event he)
  | ended r hf hc hs =>
      exact .ended r (hsame.fn.trans hf) (hsame.claimed.trans hc) (hsame.stored.trans hs)

theorem Left.of_same {L' : Life} {ss : List AttrStore} (hsame : SameHistory S L L')
    (hjob : ∀ x : AttrStore, x.Shown (L.mgr.jobs S.job) → x.Shown (L'.mgr.jobs S.job))
    (h : Left S L ss) : Left S L' ss := by
  obtain ⟨made, hcause, hshown⟩ := h
  exact ⟨made, hcause.of_same hsame, fun x hx => hjob x (hshown x hx)⟩

/-- None of the stores is made. -/
theorem Left.of_cause {ss : List AttrStore} (h : Cause S L ss) : Left S L ss :=
  ⟨[], h, fun _ hx => absurd hx List.not_mem_nil⟩

theorem Unstarted.of_same {L' : Life} (hsame : SameHistory S L L') (h : Unstarted L) :
    Unstarted L' :=
  ⟨hsame.claimed.trans h.claimed, hsame.fn.trans h.fn, hsame.stored.trans h.stored⟩

theorem AtPlace.of_same {L' : Life} {pc : WorkerPc} (hsame : SameHistory S L L')
    (hjob : ∀ x : AttrStore, x.Shown (L.mgr.jobs S.job) → x.Shown (L'.mgr.jobs S.job))
    (h : AtPlace S L pc) : AtPlace S L' pc := by
  cases pc with
  | claimed _ => exact ⟨hsame.claimed.trans h.1, hsame.fn.trans h.2⟩
  | executing _ => exact ⟨hsame.claimed.trans h.1, hsame.fn ▸ h.2⟩
  | storing _ ss _ => exact Left.of_same hsame hjob h
  | notStarted | getting | dequeued _ | claiming _ | exited | died => trivial

theorem FnPc.Fits.of_proc {L' : Life} {fn : FnPc} (hproc : L'.proc = L.proc) (h : fn.Fits S L) :
    fn.Fits S L' := by
  cases fn with
  | notCalled | called => exact hproc.trans h
  | encoding => exact ⟨h.1, h.2.imp fun p hp => hproc.trans hp⟩
  | ended r =>
      rcases h with ⟨hp, he, hr⟩ | ⟨e, hp, he, hext, hr⟩ | ⟨p, o, hp, he, hdone, hr⟩
      · exact .before (hproc.trans hp) he hr
      · exact .noChild e (hproc.trans hp) he hext hr
      · exact .child p o (hproc.trans hp) he hdone hr

/-- One more of the stores is made. -/
theorem Left.store {L' : Life} {st : AttrStore} {ss : List AttrStore} {now : Clock}
    (hsame : SameHistory S L L')
    (hjob : L'.mgr.jobs S.job = (L.mgr.jobs S.job).store now st) (h : Left S L (st :: ss)) :
    Left S L' ss := by
  obtain ⟨made, hcause, hshown⟩ := h
  refine ⟨made ++ [st], ?_, ?_⟩
  · rw [List.append_assoc]
    exact hcause.of_same hsame
  · intro x hx
    rw [hjob]
    rcases List.mem_append.mp hx with hold | hnew
    · refine (hshown x hold).store ?_ now
      exact (List.pairwise_append.mp hcause.distinct).2.2 x hold st List.mem_cons_self
    · rw [List.mem_singleton.mp hnew]
      exact AttrStore.shown_store _ now st

/-- Setting the cancel event shows in no attribute. -/
theorem shown_of_same {job job' : Job} (h : job' = job ∨ job' = job.cancel) (x : AttrStore)
    (hx : x.Shown job) : x.Shown job' := by
  rcases h with rfl | rfl
  · exact hx
  · cases x <;> exact hx

/-- A step aside from the job leaves the function and its history. -/
theorem after_aside {cfg : Config} (hstep : Jobs.Step cfg a L.mgr m)
    (h : ∀ w pc job, ¬ JobStep w S.job a (L.mgr.workers w) (L.mgr.jobs S.job) pc job) :
    L.after S a m = { L with mgr := m } := by
  have haside : a.isCall S.job = false ∧ granted S.job L.mgr a = false ∧
      fnStored S.job L.mgr a = [] := by
    cases hstep with
    | client h' => cases h' <;> exact ⟨rfl, rfl, rfl⟩
    | control c h' => cases h' <;> exact ⟨rfl, rfl, rfl⟩
    | worker w h' =>
        cases h' with
        | takeSentinel _ _ => exact ⟨rfl, rfl, rfl⟩
        | takeJob _ _ => exact ⟨rfl, rfl, rfl⟩
        | decrement _ => exact ⟨rfl, rfl, rfl⟩
        | @onJob _ _ i pc job hjob =>
            have hne : i ≠ S.job := by
              rintro rfl
              exact h w pc job hjob
            have hbeq : (i == S.job) = false := beq_eq_false_iff_ne.mpr hne
            have hexec : L.mgr.workers w ≠ .executing S.job := by
              intro hw
              have := hjob.holds
              rw [hw] at this
              exact hne (Option.some.inj this).symm
            generalize hpc : L.mgr.workers w = before at hjob
            cases hjob with
            | call => exact ⟨hbeq, rfl, rfl⟩
            | claimRefused _ | claimGranted _ => exact ⟨rfl, by rw [granted, hbeq]; rfl, rfl⟩
            | fnStore _ => exact ⟨rfl, rfl, by rw [fnStored, if_neg hexec]⟩
            | finish | storeAttr => exact ⟨rfl, rfl, rfl⟩
  obtain ⟨hcall, hgrant, hstored⟩ := haside
  rw [Life.after, hcall, hgrant, hstored, Bool.or_false, List.append_nil]
  rfl

theorem sameHistory_mgr (hi : L.Inv S) (hj : S.job ∈ L.mgr.accepted)
    (hstep : Jobs.Step S.cfg a L.mgr m) : SameHistory S L { L with mgr := m } where
  fn := rfl
  claimed := rfl
  stored := rfl
  event := hstep.cancelEvent hi.mgr hj

/-- The process through a step of the manager. -/
theorem ProcFits.manager {p : Proc} (hp : ProcFits S L p) (hi : L.Inv S)
    (hstep : Jobs.Step S.cfg a L.mgr m) : ProcFits S (L.after S a m) p where
  inv := hp.inv
  event he := hstep.cancelEvent hi.mgr hp.accepted (hp.event he)
  accepted := hstep.accepted_mono hi.mgr hp.accepted

/-- A step that does not touch the job. -/
theorem Life.Inv.aside (hi : L.Inv S) (hj : S.job ∈ L.mgr.accepted)
    (hstep : Jobs.Step S.cfg a L.mgr m)
    (h : ∀ w pc job, ¬ JobStep w S.job a (L.mgr.workers w) (L.mgr.jobs S.job) pc job)
    (hjob : m.jobs S.job = L.mgr.jobs S.job ∨ m.jobs S.job = (L.mgr.jobs S.job).cancel)
    (hworkers : ∀ v, (m.workers v).job? = some S.job →
      m.workers v = L.mgr.workers v ∨ m.workers v = .dequeued S.job ∨
        m.workers v = .claiming S.job) : (L.after S a m).Inv S := by
  have hsame := sameHistory_mgr hi hj hstep
  have hshown := shown_of_same hjob
  have hstatus : m.status S.job = L.mgr.status S.job := hshown (.status _) rfl
  rw [after_aside hstep h]
  refine ⟨hi.mgr.step hstep, fun hq => ?_, fun v hv => ?_, fun hacc hterm => ?_,
    fun hacc herr => ?_, FnPc.Fits.of_proc (L := L) rfl hi.fn, fun p hp => ?_⟩
  · have hacc := hstep.accepted_mono hi.mgr hj
    exact (hi.unstarted fun _ => hstatus.symm.trans (hq hacc)).of_same hsame
  · rcases hworkers v hv with hw | hw | hw
    · have hv' : (L.mgr.workers v).job? = some S.job := hw ▸ hv
      show AtPlace S _ (m.workers v)
      rw [hw]
      exact (hi.place v hv').of_same hsame hshown
    · show AtPlace S _ (m.workers v)
      rw [hw]
      trivial
    · show AtPlace S _ (m.workers v)
      rw [hw]
      trivial
  · exact (hi.ended hj (hstatus ▸ hterm)).of_same hsame hshown
  · refine hi.error hj fun hnone => herr ?_
    rcases hjob with hjob | hjob
    · exact (congrArg Job.error hjob).trans hnone
    · exact (congrArg Job.error hjob).trans hnone
  · have hfits := (hi.proc p hp).manager hi hstep
    rw [after_aside hstep h] at hfits
    exact hfits

theorem Job.claim_none {job : Job} (h : job.claim = none) : job.cancelEvent = true := by
  rw [Job.claim] at h
  split at h
  · rename_i he
    exact he
  · cases h

/-- The error of a job is stored at its end. -/
theorem Left.error {text : PyStr} {ss : List AttrStore} (h : Left S L (.error text :: ss)) :
    ∃ r, L.fn = .ended r ∧ .error text ∈ terminalStores r.result := by
  obtain ⟨made, hcause, -⟩ := h
  have hmem : AttrStore.error text ∈ made ++ .error text :: ss := by simp
  generalize made ++ .error text :: ss = stores at hcause hmem
  cases hcause with
  | rejected _ _ _ => simp [rejectStores] at hmem
  | ended r hf _ _ => exact ⟨r, hf, hmem⟩

section JobStep
variable {w : WorkerId} {pc pc' : WorkerPc} {job job' : Job}

/-- An error on the job, after a step of its worker, is one of the stores at its end. -/
theorem Life.Inv.error_jobStep (hi : L.Inv S) (hj : S.job ∈ L.mgr.accepted)
    (h : JobStep w S.job a pc job pc' job') (hw : L.mgr.workers w = pc)
    (hold : L.mgr.jobs S.job = job) (herr : job'.error ≠ none) :
    ∃ r text, (L.after S a m).fn = .ended r ∧ .error text ∈ terminalStores r.result := by
  have hplace := hi.place w (hw ▸ h.holds)
  have hkeep := hi.error hj
  rw [hw] at hplace
  rw [hold] at hkeep
  cases h with
  | claimRefused => exact hkeep herr
  | claimGranted hclaim =>
      rw [(Job.claim_some.mp hclaim).2] at herr
      exact hkeep herr
  | call =>
      obtain ⟨r, _, hover, _⟩ := hkeep herr
      cases hplace.2.symm.trans hover
  | @fnStore _ st _ hby =>
      refine hkeep fun hnone => herr ?_
      cases st <;> first | exact hnone | cases hby
  | finish => exact hkeep herr
  | @storeAttr _ st =>
      by_cases hst : ∃ text, st = .error text
      · obtain ⟨text, rfl⟩ := hst
        obtain ⟨r, hover, hmem⟩ := Left.error hplace
        exact ⟨r, text, hover, hmem⟩
      · refine hkeep fun hnone => herr ?_
        cases st <;> first | exact hnone | exact absurd ⟨_, rfl⟩ hst

/-- A step of the worker makes no child and ends none; at most it calls the function. -/
theorem Life.Inv.fn_jobStep (hi : L.Inv S) (h : JobStep w S.job a pc job pc' job')
    (hw : L.mgr.workers w = pc) : (L.after S a m).fn.Fits S (L.after S a m) := by
  have hplace := hi.place w (hw ▸ h.holds)
  have hfn := hi.fn
  rw [hw] at hplace
  cases h with
  | call =>
      rw [hplace.2] at hfn
      show FnPc.Fits S _ (if S.job == S.job then .called else L.fn)
      rw [beq_self_eq_true]
      exact hfn
  | claimRefused => exact FnPc.Fits.of_proc (L := L) rfl hfn
  | claimGranted => exact FnPc.Fits.of_proc (L := L) rfl hfn
  | fnStore => exact FnPc.Fits.of_proc (L := L) rfl hfn
  | finish => exact FnPc.Fits.of_proc (L := L) rfl hfn
  | storeAttr => exact FnPc.Fits.of_proc (L := L) rfl hfn

/-- What is left to show of a step of the job's worker. -/
theorem Life.Inv.onJob (hi : L.Inv S) (hj : S.job ∈ L.mgr.accepted)
    (hstep : Jobs.Step S.cfg a L.mgr m)
    (hjob : JobStep w S.job a (L.mgr.workers w) (L.mgr.jobs S.job) (m.workers w) (m.jobs S.job))
    (hothers : ∀ v, v ≠ w → m.workers v = L.mgr.workers v)
    (hunstarted : m.status S.job = .queued → Unstarted (L.after S a m))
    (hplace : (m.workers w).job? = some S.job → AtPlace S (L.after S a m) (m.workers w))
    (hended : (m.status S.job).terminal = true → Left S (L.after S a m) []) :
    (L.after S a m).Inv S := by
  have hsole := (hi.mgr.sole hjob.holds).2.2
  refine ⟨hi.mgr.step hstep, fun hq => hunstarted (hq (hstep.accepted_mono hi.mgr hj)),
    fun v hv => ?_, fun _ => hended, fun _ => hi.error_jobStep hj hjob rfl rfl,
    hi.fn_jobStep hjob rfl, fun p hp => (hi.proc p hp).manager hi hstep⟩
  rcases eq_or_ne v w with rfl | hvw
  · exact hplace hv
  · have hv' : (L.mgr.workers v).job? = some S.job := hothers v hvw ▸ hv
    exact absurd (hsole v hv') hvw

/-- The same of a step after which the job is running. -/
theorem Life.Inv.onRunning (hi : L.Inv S) (hj : S.job ∈ L.mgr.accepted)
    (hstep : Jobs.Step S.cfg a L.mgr m)
    (hjob : JobStep w S.job a (L.mgr.workers w) (L.mgr.jobs S.job) (m.workers w) (m.jobs S.job))
    (hothers : ∀ v, v ≠ w → m.workers v = L.mgr.workers v)
    (hr : (m.jobs S.job).status = .running)
    (hplace : (m.workers w).job? = some S.job → AtPlace S (L.after S a m) (m.workers w)) :
    (L.after S a m).Inv S := by
  refine hi.onJob hj hstep hjob hothers ?_ hplace ?_
  · intro hq
    cases hr.symm.trans hq
  · intro hterm
    rw [State.status, hr] at hterm
    cases hterm

/-- A step of the worker that leaves the function alone. -/
theorem sameHistory_after (hi : L.Inv S) (hj : S.job ∈ L.mgr.accepted)
    (hstep : Jobs.Step S.cfg a L.mgr m) (hcall : a.isCall S.job = false)
    (hgrant : granted S.job L.mgr a = false) (hstored : fnStored S.job L.mgr a = []) :
    SameHistory S L (L.after S a m) where
  fn := by rw [Life.after, hcall]; rfl
  claimed := by rw [Life.after, hgrant, Bool.or_false]
  stored := by rw [Life.after, hstored, List.append_nil]
  event := hstep.cancelEvent hi.mgr hj

/-- A step of the worker that holds the job. -/
theorem Life.Inv.jobStep (hi : L.Inv S) (hj : S.job ∈ L.mgr.accepted)
    (hstep : Jobs.Step S.cfg a L.mgr m) (hends : L.Ends S a)
    (h : JobStep w S.job a pc job pc' job') (hw : L.mgr.workers w = pc)
    (hw' : m.workers w = pc') (hold : L.mgr.jobs S.job = job) (hnew : m.jobs S.job = job')
    (hothers : ∀ v, v ≠ w → m.workers v = L.mgr.workers v) : (L.after S a m).Inv S := by
  have hjob : JobStep w S.job a (L.mgr.workers w) (L.mgr.jobs S.job) (m.workers w)
      (m.jobs S.job) := by
    rw [hw, hold, hw', hnew]
    exact h
  have hplace := hi.place w hjob.holds
  have hfits := hi.mgr.fits w S.job hjob.holds
  rw [hw] at hplace hfits
  rw [State.status, hold] at hfits
  cases h with
  | claimRefused hclaim =>
      have hevent : (L.mgr.jobs S.job).cancelEvent = true := hold ▸ Job.claim_none hclaim
      have hu := hi.unstarted fun _ => (congrArg Job.status hold).trans hfits
      have hsame := sameHistory_after hi hj hstep rfl
        (show (S.job == S.job && !(L.mgr.jobs S.job).cancelEvent) = false by rw [hevent]; simp) rfl
      refine hi.onJob hj hstep hjob hothers ?_ ?_ ?_
      · intro _
        exact hu.of_same hsame
      · intro _
        rw [hw']
        have hu' := hu.of_same hsame
        exact .of_cause (.rejected hu'.fn hu'.claimed (hsame.event hevent))
      · intro hterm
        rw [State.status, hnew, hfits] at hterm
        cases hterm
  | claimGranted hclaim =>
      have hr : (m.jobs S.job).status = .running := hnew ▸ Job.claim_status hclaim
      have hu := hi.unstarted fun _ => (congrArg Job.status hold).trans hfits
      have hevent : (L.mgr.jobs S.job).cancelEvent = false := hold ▸ Job.claim_not_cancelled hclaim
      have hgranted : (L.after S (.claim w S.job) m).claimed = true := by
        show (L.claimed || (S.job == S.job && !(L.mgr.jobs S.job).cancelEvent)) = true
        rw [hevent]
        simp
      refine hi.onRunning hj hstep hjob hothers hr ?_
      intro _
      rw [hw']
      exact ⟨hgranted, hu.fn⟩
  | call =>
      have hr : (m.jobs S.job).status = .running := hnew ▸ hfits
      have hcalled : (L.after S (.call w S.job) m).fn = .called := by
        show (if S.job == S.job then FnPc.called else L.fn) = .called
        rw [beq_self_eq_true]
        rfl
      refine hi.onRunning hj hstep hjob hothers hr ?_
      intro _
      rw [hw']
      refine ⟨Bool.or_eq_true_iff.mpr (.inl hplace.1), fun hno => ?_⟩
      cases hcalled.symm.trans hno
  | @fnStore _ st now hby =>
      have hr : (m.jobs S.job).status = .running := by
        rw [hnew]
        exact (Job.store_status_byFunction hby job now).trans hfits
      refine hi.onRunning hj hstep hjob hothers hr ?_
      intro _
      rw [hw']
      exact ⟨Bool.or_eq_true_iff.mpr (.inl hplace.1), hplace.2⟩
  | @finish _ outcome =>
      have hr : (m.jobs S.job).status = .running := hnew ▸ hfits
      obtain ⟨r, hover, rfl, hstored⟩ := hends w outcome rfl hw
      have hsame := sameHistory_after hi hj hstep rfl rfl rfl
      refine hi.onRunning hj hstep hjob hothers hr ?_
      intro _
      rw [hw']
      exact .of_cause (.ended r (hsame.fn.trans hover) (hsame.claimed.trans hplace.1)
        (hsame.stored.trans hstored))
  | @storeAttr _ st ss kills now =>
      have hsame := sameHistory_after hi hj hstep rfl rfl rfl
      have hleft : Left S (L.after S (.storeAttr w now) m) ss :=
        Left.store hsame (hnew.trans (congrArg (Job.store · now st) hold.symm)) hplace
      obtain ⟨st', hedge, hterm', hends'⟩ := hfits
      have hnext := hends'.store job now
      refine hi.onJob hj hstep hjob hothers ?_ ?_ ?_
      · intro hq
        rw [State.status, hnew] at hq
        rcases hnext with ⟨-, hlast⟩ | ⟨hstay, -⟩
        · rw [hlast] at hq
          rw [hq] at hterm'
          cases hterm'
        · refine (hi.unstarted fun _ => ?_).of_same hsame
          exact (congrArg Job.status hold).trans (hstay.symm.trans hq)
      · intro hheld
        rw [hw'] at hheld ⊢
        cases ss with
        | nil => cases kills <;> cases hheld
        | cons y ys => exact hleft
      · intro hterm
        rw [State.status, hnew] at hterm
        rcases hnext with ⟨rfl, -⟩ | ⟨hstay, -⟩
        · exact hleft
        · rw [hstay, hedge.not_terminal] at hterm
          cases hterm

end JobStep

/-- A function that is not called, or called and no further, has no child. -/
theorem Life.Inv.no_proc (hi : L.Inv S) (hfn : L.fn = .notCalled ∨ L.fn = .called) :
    L.proc = none := by
  have hfits := hi.fn
  rcases hfn with hfn | hfn
  · rw [hfn] at hfits
    exact hfits
  · rw [hfn] at hfits
    exact hfits

/-- A step of the manager. -/
theorem Life.Inv.manager (hi : L.Inv S) (hstep : Jobs.Step S.cfg a L.mgr m)
    (hends : L.Ends S a) : (L.after S a m).Inv S := by
  by_cases hj : S.job ∈ L.mgr.accepted
  · rcases hstep.seen hi.mgr hj with ⟨w, hjob, hothers⟩ | ⟨h, hjob, hworkers⟩
    · exact hi.jobStep hj hstep hends hjob rfl rfl rfl rfl hothers
    · exact hi.aside hj hstep h hjob hworkers
  · -- nobody holds the job yet, so nothing has been done for it, and now it can be queued at most
    have hu := hi.unstarted fun hacc => absurd hacc hj
    have hnone : L.proc = none := hi.no_proc (.inl hu.fn)
    have hi' := hi.mgr.step hstep
    have hqueued := fun hacc => hstep.queued_new hi.mgr hacc hj
    have hfresh : ∀ hacc : S.job ∈ m.accepted, (m.jobs S.job).error = none := by
      intro hacc
      obtain ⟨_, hjob, created, rfl⟩ := hstep.accepted_new hi.mgr hacc hj
      rw [hjob]
      show (Function.update L.mgr.jobs L.mgr.nextJob { createdAt := created } _).error = none
      rw [Function.update_self]
    rw [after_aside hstep fun w pc job h => hj (hi.mgr.placed_worker h.holds)]
    refine ⟨hi', fun _ => ⟨hu.claimed, hu.fn, hu.stored⟩, fun v hv => ?_, fun hacc hterm => ?_,
      fun hacc herr => absurd (hfresh hacc) herr, FnPc.Fits.of_proc (L := L) rfl hi.fn,
      fun p hp => ?_⟩
    · obtain ⟨_, _, created, rfl⟩ := hstep.accepted_new hi.mgr (hi'.placed_worker hv) hj
      exact absurd (hi.mgr.placed_worker (s := L.mgr) hv) hj
    · rw [hqueued hacc] at hterm
      cases hterm
    · exact nomatch hnone.symm.trans hp

/-! ## Steps of the function and of its child -/

/-- The function moves on; it was called and is not over. -/
theorem Life.Inv.fnStep (hi : L.Inv S) {fn : FnPc} {proc : Option Proc}
    (hfn : L.fn = .called ∨ L.fn = .encoding) (hfn' : fn ≠ .notCalled)
    (hfits : fn.Fits S { L with fn, proc })
    (hproc : ∀ p, proc = some p → ProcFits S L p) : Life.Inv S { L with fn, proc } := by
  have hnot : L.fn ≠ .notCalled := by
    rcases hfn with hfn | hfn
    · rw [hfn]
      exact nofun
    · rw [hfn]
      exact nofun
  have hover : ∀ r, L.fn ≠ .ended r := by
    intro r
    rcases hfn with hfn | hfn
    · rw [hfn]
      exact nofun
    · rw [hfn]
      exact nofun
  have hcause : ∀ stores, ¬ Cause S L stores := by
    rintro stores (⟨h, -, -⟩ | ⟨r, h, -, -⟩)
    · exact hnot h
    · exact hover r h
  refine ⟨hi.mgr, fun hq => absurd (hi.unstarted hq).fn hnot, fun w hw => ?_, fun hacc hterm => ?_,
    fun hacc herr => ?_, hfits, fun p hp => ⟨(hproc p hp).inv, (hproc p hp).event,
      (hproc p hp).accepted⟩⟩
  · have hplace := hi.place w hw
    show AtPlace S _ (L.mgr.workers w)
    generalize L.mgr.workers w = pc at hplace
    cases pc with
    | claimed _ => exact absurd hplace.2 hnot
    | executing _ => exact ⟨hplace.1, hfn'⟩
    | storing _ _ _ =>
        obtain ⟨_, h, -⟩ := hplace
        exact absurd h (hcause _)
    | notStarted | getting | dequeued _ | claiming _ | exited | died => trivial
  · obtain ⟨_, h, -⟩ := hi.ended hacc hterm
    exact absurd h (hcause _)
  · obtain ⟨r, _, h, -⟩ := hi.error hacc herr
    exact absurd h (hover r)

/-- A job whose function was called is accepted. -/
theorem Life.Inv.accepted (hi : L.Inv S) (h : L.fn ≠ .notCalled) : S.job ∈ L.mgr.accepted := by
  by_contra hj
  exact h (hi.unstarted fun hacc => absurd hacc hj).fn

theorem Life.Inv.procStep (hi : L.Inv S) {p p' : Proc} (hp : L.proc = some p)
    (hstep : Runner.Step S.raises S.timeout (p.sees (L.event S)) p')
    (hevent : p'.cancel = L.event S) : Life.Inv S { L with proc := some p' } := by
  have hfits := hi.proc p hp
  have hp' : ProcFits S L p' := ⟨(hfits.inv.sees hfits.event).step hstep, fun h => hevent ▸ h,
    hfits.accepted⟩
  have hfn : L.fn.Fits S { L with proc := some p' } := by
    have hfn := hi.fn
    generalize L.fn = fn at hfn ⊢
    cases fn with
    | notCalled | called => exact nomatch (hp.symm.trans hfn)
    | encoding => exact ⟨hfn.1, p', rfl⟩
    | ended r =>
        rcases hfn with ⟨h, -, -⟩ | ⟨_, h, -, -, -⟩ | ⟨q, outcome, hq, he, hdone, hr⟩
        · exact nomatch (hp.symm.trans h)
        · exact nomatch (hp.symm.trans h)
        · obtain rfl : p = q := Option.some.inj (hp.symm.trans hq)
          exact .child p' outcome rfl he (hstep.done hdone) hr
  have hsame : SameHistory S L { L with proc := some p' } := ⟨rfl, rfl, rfl, id⟩
  refine ⟨hi.mgr, fun hq => (hi.unstarted hq).of_same hsame,
    fun w hw => (hi.place w hw).of_same hsame fun _ => id,
    fun hacc hterm => (hi.ended hacc hterm).of_same hsame fun _ => id, hi.error, hfn,
    fun q hq => ?_⟩
  obtain rfl : p' = q := Option.some.inj hq
  exact ⟨hp'.inv, hp'.event, hp'.accepted⟩

/-- Every step keeps the invariant. -/
theorem Life.Inv.step {L' : Life} (hi : L.Inv S) (h : Life.Step S L L') : L'.Inv S := by
  cases h with
  | manager a m hstep hends => exact hi.manager hstep hends
  | endsBefore hfn he =>
      exact hi.fnStep (.inl hfn) nofun (.before (hi.no_proc (.inr hfn)) he rfl) hi.proc
  | popenRaises e hfn he hext =>
      exact hi.fnStep (.inl hfn) nofun (.noChild e (hi.no_proc (.inr hfn)) he hext rfl) hi.proc
  | popen hfn he =>
      refine hi.fnStep (.inl hfn) nofun ⟨he, _, rfl⟩ fun p hp => ?_
      obtain rfl := Option.some.inj hp
      exact ⟨.init _, id, hi.accepted (by rw [hfn]; exact nofun)⟩
  | proc p p' hp hstep hevent => exact hi.procStep hp hstep hevent
  | encodeEnds p outcome hfn hp hdone =>
      have he : S.encodes = true := by
        have := hi.fn
        rw [hfn] at this
        exact this.1
      exact hi.fnStep (.inr hfn) nofun (.child p outcome hp he hdone rfl) hi.proc

theorem Life.Reaches.inv (h : Life.Reaches S L) : L.Inv S := by
  induction h with
  | refl => exact .init S
  | tail _ hstep ih => exact ih.step hstep

end HandBrakeEncoder.Service
