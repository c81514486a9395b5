/-
# `Service.Views` — what a terminal status promises its reader

`_worker` stores the status of a job last, and nothing is stored after it.  So a
reader that takes no lock, and reads the status first, finds everything that
goes with it: the argument is one invariant of single states
(`Life.Inv.complete`) and that a terminal status is never left.

    COMPLETED   finished, progress 100, no error, the output path and the encoder
    FAILED      finished, with an error
    CANCELLED   finished, no error

The output path and the encoder are stored long before the end, by the job's
function: `Noted` carries them from there.
-/
import HandBrakeEncoder.Jobs.View
import HandBrakeEncoder.Service.Outcome

namespace HandBrakeEncoder.Service

open Jobs Runner Ops Posix Relation

/-- A view with everything its status promises. -/
structure Complete (v : View) : Prop where
  finished : v.status.terminal = true → v.finishedAt ≠ none
  completed : v.status = .completed → v.progress = .finite 100 ∧ v.error = none ∧
    v.outputPath ≠ none ∧ v.encoderUsed ≠ none
  failed : v.status = .failed → v.error ≠ none
  cancelled : v.status = .cancelled → v.error = none

/-- Reads of the job, each at its own moment of one run, in order. -/
structure Reading (S : Setup) {ι : Type} (index : ι → Nat) (moment : ι → Life) : Prop where
  reached : ∀ r, Life.Reaches S (moment r)
  accepted : ∀ r, S.job ∈ (moment r).mgr.accepted
  ordered : ∀ r r', index r ≤ index r' → ReflTransGen (Life.Step S) (moment r) (moment r')

/-- The job at each of the moments. -/
def jobAt (S : Setup) {ι : Type} (moment : ι → Life) (r : ι) : Job := (moment r).mgr.jobs S.job

variable {S : Setup} {L L' : Life} {m : State} {a : Action}

/-! ## What the function stored stays -/

/-- The attributes the function has stored are in the job. -/
def Noted (S : Setup) (L : Life) : Prop :=
  ∀ x ∈ L.stored, x.attr.Filled (L.mgr.jobs S.job)

theorem Noted.aside (h : Noted S L)
    (hjob : m.jobs S.job = L.mgr.jobs S.job ∨ m.jobs S.job = (L.mgr.jobs S.job).cancel) :
    Noted S { L with mgr := m } := by
  intro x hx
  show x.attr.Filled (m.jobs S.job)
  rcases hjob with hjob | hjob
  · rw [hjob]
    exact h x hx
  · rw [hjob]
    exact (h x hx).cancel

/-- A store of the function is in the job the step leaves. -/
theorem filled_of_fnStored {w : WorkerId} {pc pc' : WorkerPc} {job job' : Job}
    (h : JobStep w S.job a pc job pc' job') {x : AttrStore} (hx : x ∈ fnStored S.job L.mgr a) :
    x.attr.Filled job' := by
  cases h with
  | @fnStore _ st now _ =>
      rw [fnStored] at hx
      split at hx
      · rw [List.mem_singleton.mp hx]
        exact AttrStore.filled_store job now st
      · cases hx
  | claimRefused _ | claimGranted _ | call | finish | storeAttr => cases hx

theorem Noted.manager (h : Noted S L) (hi : L.Inv S) (hstep : Jobs.Step S.cfg a L.mgr m) :
    Noted S (L.after S a m) := by
  by_cases hj : S.job ∈ L.mgr.accepted
  · rcases hstep.seen hi.mgr hj with ⟨w, hjob, -⟩ | ⟨haside, hjob, -⟩
    · intro x hx
      rcases List.mem_append.mp hx with hold | hnew
      · exact (h x hold).jobStep hjob
      · exact filled_of_fnStored hjob hnew
    · rw [after_aside hstep haside]
      exact h.aside hjob
  · -- nobody holds the job yet, so its function has stored nothing
    rw [after_aside hstep fun w pc job h => hj (hi.mgr.placed_worker h.holds)]
    intro x hx
    have hnone := (hi.unstarted fun hacc => absurd hacc hj).stored
    rw [show ({ L with mgr := m } : Life).stored = [] from hnone] at hx
    cases hx

theorem Noted.step (h : Noted S L) (hi : L.Inv S) (hstep : Life.Step S L L') : Noted S L' := by
  cases hstep with
  | manager a m hstep _ => exact h.manager hi hstep
  | endsBefore | popenRaises | popen | proc | encodeEnds => exact h

theorem Life.Reaches.noted (h : Life.Reaches S L) : Noted S L := by
  induction h with
  | refl => exact fun _ hx => nomatch hx
  | tail hreach hstep ih => exact ih.step (Life.Reaches.inv hreach) hstep

/-! ## One state -/

/-- The error of a job that is over is its function's. -/
theorem Life.Inv.error_none (hi : L.Inv S) (hj : S.job ∈ L.mgr.accepted) {r : JobRun}
    (hfn : L.fn = .ended r) (h : ∀ text, AttrStore.error text ∉ terminalStores r.result) :
    (L.mgr.jobs S.job).error = none := by
  by_contra herror
  obtain ⟨r', text, hfn', hmem⟩ := hi.error hj herror
  cases hfn.symm.trans hfn'
  exact h text hmem

/-- What the job holds once its status is terminal. -/
structure Settled (job : Job) : Prop where
  finished : job.finishedAt ≠ none
  completed : job.status = .completed → job.progress = .finite 100 ∧ job.error = none ∧
    job.outputPath ≠ none ∧ job.encoderUsed ≠ none
  failed : job.status = .failed → job.error ≠ none
  cancelled : job.status = .cancelled → job.error = none

/-- A refused claim: finished, and no function to store an error. -/
theorem Life.Inv.settled_rejected (hi : L.Inv S) (hj : S.job ∈ L.mgr.accepted)
    (hfn : L.fn = .notCalled) (hshown : ∀ x ∈ rejectStores, x.Shown (L.mgr.jobs S.job)) :
    Settled (L.mgr.jobs S.job) := by
  have hstatus : (L.mgr.jobs S.job).status = .cancelled :=
    hshown (.status .cancelled) (by simp [rejectStores])
  refine ⟨hshown .finishedAt (by simp [rejectStores]), fun h => ?_, fun h => ?_, fun _ => ?_⟩
  · cases hstatus.symm.trans h
  · cases hstatus.symm.trans h
  · by_contra herror
    obtain ⟨r, _, hended, -⟩ := hi.error hj herror
    cases hfn.symm.trans hended

/-- The arms of the worker, one by one. -/
theorem Life.Inv.settled_ended (hi : L.Inv S) (hj : S.job ∈ L.mgr.accepted) (hnoted : Noted S L)
    {r : JobRun} (hfn : L.fn = .ended r) (hstored : L.stored = r.stores) (hover : Over S L r)
    (hshown : ∀ x ∈ terminalStores r.result, x.Shown (L.mgr.jobs S.job)) :
    Settled (L.mgr.jobs S.job) := by
  have hstatus : (L.mgr.jobs S.job).status = endStatus r.result :=
    hshown _ (endStatus_mem r.result)
  have hfinished : (L.mgr.jobs S.job).finishedAt ≠ none := hshown _ (finishedAt_mem r.result)
  have hno := hi.error_none hj hfn
  generalize hresult : r.result = result at hshown hstatus hno
  cases result with
  | returned =>
      obtain ⟨p, hclaims⟩ : ∃ p, ∀ x ∈ claimStores p, x ∈ r.stores := by
        obtain ⟨outcome, rfl⟩ := hover.eq_run
        exact runEncodeJob_claimStores hresult
      have hfilled : ∀ x ∈ claimStores p, x.attr.Filled (L.mgr.jobs S.job) :=
        fun x hx => hnoted x (hstored ▸ hclaims x hx)
      refine ⟨hfinished, fun _ => ?_, fun h => ?_, fun h => ?_⟩
      · exact ⟨hshown (.progress (.finite 100)) (by simp [terminalStores]),
          hno (by simp [terminalStores]), hfilled (.outputPath p.dst) (by simp [claimStores]),
          hfilled (.encoderUsed p.encoder) (by simp [claimStores])⟩
      · cases hstatus.symm.trans h
      · cases hstatus.symm.trans h
  | raised e =>
      rcases external_or_cancelled e with he | ⟨msg, rfl⟩
      · obtain ⟨hmem, hfailed⟩ := error_mem he
        have herror : (L.mgr.jobs S.job).error = some e.str := hshown _ hmem
        rw [hfailed] at hstatus
        refine ⟨hfinished, fun h => ?_, fun _ hnone => ?_, fun h => ?_⟩
        · cases hstatus.symm.trans h
        · cases herror.symm.trans hnone
        · cases hstatus.symm.trans h
      · refine ⟨hfinished, fun h => ?_, fun h => ?_, fun _ => ?_⟩
        · cases hstatus.symm.trans h
        · cases hstatus.symm.trans h
        · exact hno (by simp [terminalStores])

/-- A job with a terminal status holds what the status promises. -/
theorem Life.Reaches.settled (h : Life.Reaches S L) (hj : S.job ∈ L.mgr.accepted)
    (hterm : (L.mgr.status S.job).terminal = true) : Settled (L.mgr.jobs S.job) := by
  have hi := h.inv
  obtain ⟨made, hcause, hshown⟩ := hi.ended hj hterm
  rw [List.append_nil] at hcause
  cases hcause with
  | rejected hfn _ _ => exact hi.settled_rejected hj hfn hshown
  | ended r hfn _ hstored =>
      have hover := hi.fn
      rw [hfn] at hover
      exact hi.settled_ended hj h.noted hfn hstored hover hshown

/-! ## From read to read -/

theorem Life.Step.terminal_stable (h : Life.Step S L L') (hi : L.Inv S)
    (hj : S.job ∈ L.mgr.accepted) (hterm : (L.mgr.status S.job).terminal = true) :
    L'.mgr.status S.job = L.mgr.status S.job := by
  cases h with
  | manager a m hstep _ =>
      rcases hstep.status hi.mgr hj with hsame | hedge
      · exact hsame
      · exact nomatch hterm.symm.trans hedge.not_terminal
  | endsBefore | popenRaises | popen | proc | encodeEnds => rfl

/-- A terminal status that was read is the status at every later read. -/
theorem Reading.terminal_stable {ι : Type} {index : ι → Nat} {moment : ι → Life}
    (hreads : Reading S index moment) {r : ι} (r' : ι) (hle : index r ≤ index r')
    (hterm : (jobAt S moment r).status.terminal = true) :
    (jobAt S moment r').status = (jobAt S moment r).status := by
  suffices h : ∀ L, ReflTransGen (Life.Step S) (moment r) L →
      Life.Reaches S L ∧ S.job ∈ L.mgr.accepted ∧
        L.mgr.status S.job = (moment r).mgr.status S.job from
    (h _ (hreads.ordered r r' hle)).2.2
  intro L hL
  induction hL with
  | refl => exact ⟨hreads.reached r, hreads.accepted r, rfl⟩
  | @tail L L' _ hstep ih =>
      obtain ⟨hreach, hj, hsame⟩ := ih
      have hi := hreach.inv
      refine ⟨hreach.tail hstep, ?_, ?_⟩
      · cases hstep with
        | manager a m hstep _ => exact hstep.accepted_mono hi.mgr hj
        | endsBefore | popenRaises | popen | proc | encodeEnds => exact hj
      · rw [hstep.terminal_stable hi hj (hsame ▸ hterm), hsame]

/-- What is read at or after a terminal status. -/
theorem Reading.settled {ι : Type} {index : ι → Nat} {moment : ι → Life}
    (hreads : Reading S index moment) {r : ι} (r' : ι) (hle : index r ≤ index r')
    (hterm : (jobAt S moment r).status.terminal = true) :
    Settled (jobAt S moment r') ∧ (jobAt S moment r').status = (jobAt S moment r).status := by
  have hsame := hreads.terminal_stable r' hle hterm
  have hterm' : (jobAt S moment r').status.terminal = true :=
    (congrArg JobStatus.terminal hsame).trans hterm
  exact ⟨(hreads.reached r').settled (hreads.accepted r') hterm', hsame⟩

/-- The progress of a completed job is shown as it is. -/
theorem round1_hundred : round1 (.finite 100) = .finite 100 := by
  have h := round1_tenths 1000
  have hround := Binary64.round_int (n := 100) (by norm_num)
  norm_num at h hround
  rw [h, hround]

theorem Reading.complete {moment : Read → Life} (hreads : Reading S Read.index moment) {id : PyStr}
    {now : Clock} {v : View} (h : toDict id (jobAt S moment) now = .ok v) : Complete v := by
  obtain ⟨-, hv⟩ := toDict_ok h
  have hstatus : v.status = (jobAt S moment .statusValue).status := congrArg View.status hv
  have hlater : ∀ r, Read.index .statusValue ≤ r.index → v.status.terminal = true →
      Settled (jobAt S moment r) ∧ (jobAt S moment r).status = v.status := by
    intro r hle hterm
    rw [hstatus] at hterm ⊢
    exact hreads.settled r hle hterm
  have hat : ∀ r, Read.index .statusValue ≤ r.index → ∀ st : JobStatus, st.terminal = true →
      v.status = st → Settled (jobAt S moment r) ∧ (jobAt S moment r).status = st := by
    intro r hle st hst heq
    obtain ⟨hsettled, hsame⟩ := hlater r hle ((congrArg JobStatus.terminal heq).trans hst)
    exact ⟨hsettled, hsame.trans heq⟩
  refine ⟨fun hterm => ?_, fun hc => ?_, fun hf => ?_, fun hc => ?_⟩
  · rw [hv]
    exact (hlater .finishedAt (by decide) hterm).1.finished
  · obtain ⟨hp, hps⟩ := hat .progress (by decide) .completed rfl hc
    obtain ⟨he, hes⟩ := hat .error (by decide) .completed rfl hc
    obtain ⟨ho, hos⟩ := hat .outputPath (by decide) .completed rfl hc
    obtain ⟨hu, hus⟩ := hat .encoderUsed (by decide) .completed rfl hc
    rw [hv]
    refine ⟨?_, (he.completed hes).2.1, (ho.completed hos).2.2.1, (hu.completed hus).2.2.2⟩
    show round1 (jobAt S moment .progress).progress = .finite 100
    rw [(hp.completed hps).1, round1_hundred]
  · obtain ⟨he, hes⟩ := hat .error (by decide) .failed rfl hf
    rw [hv]
    exact he.failed hes
  · obtain ⟨he, hes⟩ := hat .error (by decide) .cancelled rfl hc
    rw [hv]
    exact he.cancelled hes

/-- **Terminal views are complete.**  Whatever the worker stores between the reads: a returned
view holds what its status promises; and `sweep`, reading the same way, finds `finished_at` in
every job it reads as terminal, raises nothing, and pops no job that is queued or running. -/
theorem terminal_views_complete (S : Setup) :
    (∀ moment, Reading S Read.index moment → ∀ id now v,
      toDict id (jobAt S moment) now = .ok v → Complete v) ∧
    (∀ moment, Reading S SweepRead.index moment → ∀ now,
      ((jobAt S moment .status).status.terminal = true →
        (jobAt S moment .finishedAt).finishedAt ≠ none ∧
          (jobAt S moment .finishedAtAgain).finishedAt ≠ none) ∧
      ∃ evict, sweepLook S.cfg now (jobAt S moment) = .ok evict ∧
        (evict = true → (jobAt S moment .popped).status.terminal = true)) := by
  refine ⟨fun moment hreads id now v => hreads.complete, fun moment hreads now => ?_⟩
  have hfinished : (jobAt S moment .status).status.terminal = true →
      (jobAt S moment .finishedAt).finishedAt ≠ none ∧
        (jobAt S moment .finishedAtAgain).finishedAt ≠ none := fun hterm =>
    ⟨(hreads.settled .finishedAt (by decide) hterm).1.finished,
      (hreads.settled .finishedAtAgain (by decide) hterm).1.finished⟩
  refine ⟨hfinished, ?_⟩
  cases hlook : sweepLook S.cfg now (jobAt S moment) with
  | ok evict =>
      refine ⟨evict, rfl, ?_⟩
      rintro rfl
      have hterm := sweepLook_expired hlook
      rw [hreads.terminal_stable .popped (by decide) hterm]
      exact hterm
  | error e =>
      rw [sweepLook] at hlook
      split at hlook
      · cases hlook
      rename_i hterm
      split at hlook
      · cases hlook
      obtain ⟨-, hagain⟩ := hfinished (Bool.not_eq_false _ ▸ hterm)
      split at hlook
      · rename_i hnone
        exact absurd hnone hagain
      · cases hlook

/-- The moments of a read begun while the job runs and gone on with once it is over. -/
def astride (L L' : Life) (r : Read) : Life := if r.index < Read.index .statusValue then L else L'

/-- The sample job is found running, and completes before its status is read for the view. -/
theorem terminal_views_complete_astride : ∃ moment v, Reading sampleSetup Read.index moment ∧
    (jobAt sampleSetup moment .status).status = .running ∧
    toDict "J".toList (jobAt sampleSetup moment) 0 = .ok v ∧ v.status = .completed ∧
    v.finishedAt ≠ none ∧ v.progress = .finite 100 ∧ v.error = none ∧ v.outputPath ≠ none ∧
    v.encoderUsed ≠ none := by
  obtain ⟨L, L', hL, ⟨hj, hrunning, hstamp⟩, hrun, hfn, hstatus⟩ := sampleSetup_completes
  have hL' : Life.Reaches sampleSetup L' := hL.trans hrun
  have hj' : sampleSetup.job ∈ L'.mgr.accepted := hL'.inv.accepted (by rw [hfn]; exact nofun)
  have hreads : Reading sampleSetup Read.index (astride L L') := by
    refine ⟨fun r => ?_, fun r => ?_, fun r r' hle => ?_⟩
    · rw [astride]
      split
      · exact hL
      · exact hL'
    · rw [astride]
      split
      · exact hj
      · exact hj'
    · rw [astride, astride]
      split
      · split
        · exact .refl
        · exact hrun
      · rw [if_neg (by omega)]
  have heta : shownEta (jobAt sampleSetup (astride L L')) 0 = .ok none := by
    have hnone : (jobAt sampleSetup (astride L L') .etaUpdatedAt).etaUpdatedAt = none := hstamp
    rw [shownEta, if_pos hnone, ite_self]
  obtain ⟨v, hv, -, hvstatus⟩ := toDict_of_eta "J".toList heta
  have hdone : v.status = .completed := hvstatus.trans hstatus
  have hcomplete := (terminal_views_complete sampleSetup).1 _ hreads _ _ v hv
  exact ⟨_, v, hreads, hrunning, hv, hdone,
    hcomplete.finished ((congrArg JobStatus.terminal hdone).trans rfl), hcomplete.completed hdone⟩

end HandBrakeEncoder.Service
