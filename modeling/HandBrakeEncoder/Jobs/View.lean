/-
# `Jobs.View` — what other threads read of a job

`Job.to_dict` and the loop of `sweep` read a job's attributes one at a time,
with no lock its worker takes.  Each read is a moment of its own, so what they
return is a function of the job as it was at each of them: `toDict` and
`sweepLook` take the job per read (`Read`, `SweepRead`).

    to_dict   eta_seconds, status, [eta_updated_at, the clock, eta_updated_at again],
              status.value, progress, message, error, output_path, encoder_used,
              created_at, finished_at
    sweep     status, [finished_at, finished_at again], then the `pop`

The reads in brackets are made only when the ones before let the test go on.
Where nothing is stored in between, `sweepLook` is the test the atomic
`sweepBlock` makes (`sweepLook_atomic`).
-/
import HandBrakeEncoder.Jobs.Manager

namespace HandBrakeEncoder.Jobs

/-! ## `round(x, 1)` -/

/-- `round(x, 1)`: the double nearest to the nearest tenth; an infinity and a NaN stay. -/
def round1 : PyFloat → PyFloat
  | .finite q => .finite (Binary64.round (Binary64.roundHalfEven (q * 10) / 10))
  | x => x

/-- A number of tenths is the double nearest to it. -/
theorem round1_tenths (n : ℤ) : round1 (.finite (n / 10)) = .finite (Binary64.round (n / 10)) := by
  have hexact : (n / 10 * 10 : ℚ) = n := by ring
  rw [round1, hexact, Binary64.roundHalfEven_int]

/-! ## `to_dict` -/

/-- The reads of one `to_dict`, the clock's among them. -/
inductive Read
  | etaSeconds
  | status
  | etaUpdatedAt
  | monotonic
  | etaUpdatedAtAgain
  | statusValue
  | progress
  | message
  | error
  | outputPath
  | encoderUsed
  | createdAt
  | finishedAt
  deriving DecidableEq

/-- The place of a read in the order of evaluation. -/
def Read.index : Read → Nat
  | .etaSeconds => 0
  | .status => 1
  | .etaUpdatedAt => 2
  | .monotonic => 3
  | .etaUpdatedAtAgain => 4
  | .statusValue => 5
  | .progress => 6
  | .message => 7
  | .error => 8
  | .outputPath => 9
  | .encoderUsed => 10
  | .createdAt => 11
  | .finishedAt => 12

/-- What a client gets. -/
structure View where
  jobId : PyStr
  status : JobStatus
  progress : PyFloat
  etaSeconds : Option ℤ
  message : PyStr
  error : Option PyStr
  outputPath : Option PyStr
  encoderUsed : Option PyStr
  createdAt : Clock
  finishedAt : Option Clock

/-- `_ETA_MAX_AGE_SECONDS`. -/
def etaMaxAge : Clock := 30

/-- `None - x` and `x - None`. -/
def noneArithmetic : PyExc :=
  .other "unsupported operand type(s) for -: 'float' and 'NoneType'".toList

/-- The `eta` of the view.  `eta_updated_at` is read for the test and again for its age. -/
def shownEta (at_ : Read → Job) (now : Clock) : Except PyExc (Option ℤ) :=
  if (at_ .status).status ≠ .running then .ok none
  else if (at_ .etaUpdatedAt).etaUpdatedAt = none then .ok none
  else
    match (at_ .etaUpdatedAtAgain).etaUpdatedAt with
    | none => .error noneArithmetic
    | some t => .ok (if etaMaxAge < now - t then none else (at_ .etaSeconds).etaSeconds)

/-- `Job.to_dict`, at the given moments and reading of the clock. -/
def toDict (id : PyStr) (at_ : Read → Job) (now : Clock) : Except PyExc View := do
  let eta ← shownEta at_ now
  return {
    jobId := id
    status := (at_ .statusValue).status
    progress := round1 (at_ .progress).progress
    etaSeconds := eta
    message := (at_ .message).message
    error := (at_ .error).error
    outputPath := (at_ .outputPath).outputPath
    encoderUsed := (at_ .encoderUsed).encoderUsed
    createdAt := (at_ .createdAt).createdAt
    finishedAt := (at_ .finishedAt).finishedAt }

variable {at_ : Read → Job} {now : Clock}

/-- An estimate is shown when the status was read as running and its stamp is young. -/
theorem shownEta_some {n : ℤ} : shownEta at_ now = .ok (some n) ↔
    (at_ .status).status = .running ∧ (at_ .etaUpdatedAt).etaUpdatedAt ≠ none ∧
      (∃ t, (at_ .etaUpdatedAtAgain).etaUpdatedAt = some t ∧ now - t ≤ etaMaxAge) ∧
      (at_ .etaSeconds).etaSeconds = some n := by
  rw [shownEta]
  split
  · rename_i hnot
    exact ⟨nofun, fun h => absurd h.1 hnot⟩
  rename_i hrunning
  split
  · rename_i hnone
    exact ⟨nofun, fun h => absurd hnone h.2.1⟩
  rename_i hsome
  cases hagain : (at_ .etaUpdatedAtAgain).etaUpdatedAt with
  | none => exact ⟨nofun, fun ⟨_, _, ⟨_, h, _⟩, _⟩ => nomatch h⟩
  | some t =>
      simp only [Except.ok.injEq, Option.some.injEq, exists_eq_left']
      split
      · rename_i hold
        exact ⟨nofun, fun ⟨_, _, hyoung, _⟩ => absurd hyoung (not_le.mpr hold)⟩
      · rename_i hyoung
        exact ⟨fun h => ⟨not_not.mp hrunning, hsome, not_lt.mp hyoung, h⟩, fun h => h.2.2.2⟩

/-- A view is the view of its reads. -/
theorem toDict_ok {id : PyStr} {v : View} (h : toDict id at_ now = .ok v) :
    shownEta at_ now = .ok v.etaSeconds ∧ v = {
      jobId := id
      status := (at_ .statusValue).status
      progress := round1 (at_ .progress).progress
      etaSeconds := v.etaSeconds
      message := (at_ .message).message
      error := (at_ .error).error
      outputPath := (at_ .outputPath).outputPath
      encoderUsed := (at_ .encoderUsed).encoderUsed
      createdAt := (at_ .createdAt).createdAt
      finishedAt := (at_ .finishedAt).finishedAt } := by
  rw [toDict] at h
  obtain ⟨eta, heta, h⟩ := except_bind_ok.mp h
  cases h
  exact ⟨heta, rfl⟩

/-- The view, once its estimate is known. -/
theorem toDict_of_eta {eta : Option ℤ} (id : PyStr) (h : shownEta at_ now = .ok eta) :
    ∃ v, toDict id at_ now = .ok v ∧ v.etaSeconds = eta ∧
      v.status = (at_ .statusValue).status := by
  rw [toDict, h]
  exact ⟨_, rfl, rfl, rfl⟩

/-- The reads of `sweep` on one job; `popped` is when it leaves the store. -/
inductive SweepRead
  | status
  | finishedAt
  | finishedAtAgain
  | popped
  deriving DecidableEq

def SweepRead.index : SweepRead → Nat
  | .status => 0
  | .finishedAt => 1
  | .finishedAtAgain => 2
  | .popped => 3

/-- The test of `sweep`, read by read: is the job put on the list to evict? -/
def sweepLook (cfg : Config) (now : Clock) (at_ : SweepRead → Job) : Except PyExc Bool :=
  if (at_ .status).status.terminal = false then .ok false
  else if (at_ .finishedAt).finishedAt = none then .ok false
  else
    match (at_ .finishedAtAgain).finishedAt with
    | none => .error noneArithmetic
    | some t => .ok (decide ((cfg.ttl : ℚ) ≤ now - t))

/-- Nothing stored in between: the test of the lock block. -/
theorem sweepLook_atomic (cfg : Config) (now : Clock) (job : Job) :
    sweepLook cfg now (fun _ => job) = .ok (job.expired cfg now) := by
  rw [sweepLook, Job.expired]
  cases job.status.terminal with
  | false => rfl
  | true => cases job.finishedAt <;> rfl

/-- Only a job read as terminal is evicted. -/
theorem sweepLook_expired {cfg : Config} {at_ : SweepRead → Job}
    (h : sweepLook cfg now at_ = .ok true) : (at_ .status).status.terminal = true := by
  rw [sweepLook] at h
  split at h
  · cases h
  · rename_i hterm
    exact Bool.not_eq_false _ ▸ hterm

/-! ## What stays in a job -/

/-- The attribute is not `None`. -/
def Attr.Filled (job : Job) : Attr → Prop
  | .error => job.error ≠ none
  | .outputPath => job.outputPath ≠ none
  | .encoderUsed => job.encoderUsed ≠ none
  | .finishedAt => job.finishedAt ≠ none
  | .status | .progress | .etaSeconds | .etaUpdatedAt | .message => True

theorem AttrStore.filled_store (job : Job) (now : Clock) (x : AttrStore) :
    x.attr.Filled (job.store now x) := by
  cases x <;> first | exact trivial | exact Option.some_ne_none _

/-- No store sets such an attribute back to `None`. -/
theorem Attr.Filled.store {job : Job} {a : Attr} (h : a.Filled job) (now : Clock)
    (x : AttrStore) : a.Filled (job.store now x) := by
  cases a <;> cases x <;> first | exact h | exact Option.some_ne_none _

theorem Attr.Filled.cancel {job : Job} {a : Attr} (h : a.Filled job) : a.Filled job.cancel := by
  cases a <;> exact h

theorem Attr.Filled.claim {job job' : Job} {a : Attr} (h : a.Filled job)
    (hclaim : job.claim = some job') : a.Filled job' := by
  rw [(Job.claim_some.mp hclaim).2]
  cases a <;> exact h

theorem Attr.Filled.jobStep {w : WorkerId} {j : JobId} {act : Action} {pc pc' : WorkerPc}
    {job job' : Job} {a : Attr} (h : a.Filled job) (hstep : JobStep w j act pc job pc' job') :
    a.Filled job' := by
  cases hstep with
  | claimRefused _ | call | finish => exact h
  | claimGranted hclaim => exact h.claim hclaim
  | fnStore _ => exact h.store _ _
  | storeAttr => exact h.store _ _

end HandBrakeEncoder.Jobs
