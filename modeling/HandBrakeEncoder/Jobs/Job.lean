/-
# `Jobs.Job` — a job and the stores its worker makes

A `Job` is an object shared between threads and locked by nobody: its worker
writes its attributes one at a time and any thread may read them in between.
So the unit of change is one attribute store, and what `_worker` does at the
end of a job is a list of stores in program order (`terminalStores`).
-/
import HandBrakeEncoder.Py

namespace HandBrakeEncoder.Jobs

/-- A reading of `time.time()` or `time.monotonic()`, in seconds. -/
abbrev Clock := ℚ

inductive JobStatus
  | queued
  | running
  | completed
  | failed
  | cancelled
  deriving DecidableEq, Repr

/-- Membership of `_TERMINAL`. -/
def JobStatus.terminal : JobStatus → Bool
  | .completed | .failed | .cancelled => true
  | .queued | .running => false

/-- The life cycle: the only changes of status there are. -/
inductive JobStatus.Edge : JobStatus → JobStatus → Prop
  | claim : Edge .queued .running
  | reject : Edge .queued .cancelled
  | complete : Edge .running .completed
  | fail : Edge .running .failed
  | cancel : Edge .running .cancelled

theorem JobStatus.Edge.terminal_of_running {b : JobStatus} (h : Edge .running b) :
    b.terminal = true := by
  cases h <;> rfl

theorem JobStatus.Edge.of_unstarted {a b : JobStatus} (h : Edge a b)
    (ha : a = .queued ∨ a = .cancelled) : b = .running ∨ b = .cancelled := by
  cases h with
  | claim => exact .inl rfl
  | reject => exact .inr rfl
  | complete => rcases ha with ha | ha <;> cases ha
  | fail => rcases ha with ha | ha <;> cases ha
  | cancel => exact .inr rfl

theorem JobStatus.Edge.ne_queued {a b : JobStatus} (h : Edge a b) : b ≠ .queued := by
  cases h <;> exact fun hb => nomatch hb

/-- Nothing leaves a terminal status. -/
theorem JobStatus.Edge.not_terminal {a b : JobStatus} (h : Edge a b) : a.terminal = false := by
  cases h <;> rfl

/-- The attributes of a job; its id is the name it is stored under. -/
structure Job where
  status : JobStatus := .queued
  progress : PyFloat := .finite 0
  etaSeconds : Option ℤ := none
  etaUpdatedAt : Option Clock := none
  message : PyStr := []
  error : Option PyStr := none
  outputPath : Option PyStr := none
  encoderUsed : Option PyStr := none
  createdAt : Clock
  finishedAt : Option Clock := none
  cancelEvent : Bool := false

/-- One attribute store; `finishedAt` takes the clock when it is made. -/
inductive AttrStore
  | status (st : JobStatus)
  | progress (x : PyFloat)
  | etaSeconds (seconds : Option ℤ)
  | etaUpdatedAt (at_ : Option Clock)
  | message (text : PyStr)
  | error (text : PyStr)
  | outputPath (path : PyStr)
  | encoderUsed (encoder : PyStr)
  | finishedAt
  deriving DecidableEq

def Job.store (job : Job) (now : Clock) : AttrStore → Job
  | .status st => { job with status := st }
  | .progress x => { job with progress := x }
  | .etaSeconds seconds => { job with etaSeconds := seconds }
  | .etaUpdatedAt at_ => { job with etaUpdatedAt := at_ }
  | .message text => { job with message := text }
  | .error text => { job with error := some text }
  | .outputPath path => { job with outputPath := some path }
  | .encoderUsed encoder => { job with encoderUsed := some encoder }
  | .finishedAt => { job with finishedAt := some now }

/-- The stores a submitted function makes itself: never `status`, `error` or `finished_at`. -/
def AttrStore.byFunction : AttrStore → Bool
  | .status _ | .error _ | .finishedAt => false
  | _ => true

@[simp] theorem Job.store_cancelEvent (job : Job) (now : Clock) (s : AttrStore) :
    (job.store now s).cancelEvent = job.cancelEvent := by cases s <;> rfl

/-- Only a store to `status` changes the status. -/
theorem Job.store_status (job : Job) (now : Clock) (s : AttrStore) :
    (job.store now s).status = match s with | .status st => st | _ => job.status := by
  cases s <;> rfl

theorem Job.store_status_byFunction {s : AttrStore} (h : s.byFunction = true) (job : Job)
    (now : Clock) : (job.store now s).status = job.status := by
  cases s <;> simp_all [AttrStore.byFunction, Job.store]

/-! ## How a job ends -/

/-- How a submitted function ends. -/
inductive FnOutcome
  | returned
  | raised (e : PyExc)
  deriving DecidableEq

/-- The stores of a worker whose `_claim` was refused. -/
def rejectStores : List AttrStore := [.finishedAt, .status .cancelled]

/-- The stores of the four arms around `fn(job)`, in program order. -/
def terminalStores : FnOutcome → List AttrStore
  | .returned => [.finishedAt, .progress (.finite 100), .status .completed]
  | .raised (.handBrakeCancelled _) => [.finishedAt, .status .cancelled]
  | .raised e => [.finishedAt, .error e.str, .status .failed]

/-- The arm re-raises: the worker thread ends with the job. -/
def FnOutcome.kills : FnOutcome → Bool
  | .returned => false
  | .raised e => !e.isException

/-- The stores still to make end in the given status and make no other. -/
inductive EndsIn (st : JobStatus) : List AttrStore → Prop
  | last : EndsIn st [.status st]
  | more {s : AttrStore} {ss : List AttrStore} :
      (∀ x, s ≠ .status x) → EndsIn st ss → EndsIn st (s :: ss)

theorem rejectStores_endsIn : EndsIn .cancelled rejectStores :=
  .more (fun _ h => by cases h) .last

/-- The status an outcome of the function leads to. -/
def endStatus : FnOutcome → JobStatus
  | .returned => .completed
  | .raised (.handBrakeCancelled _) => .cancelled
  | .raised _ => .failed

theorem endStatus_mem (outcome : FnOutcome) :
    .status (endStatus outcome) ∈ terminalStores outcome := by
  cases outcome with
  | returned => simp [terminalStores, endStatus]
  | raised e => cases e <;> simp [terminalStores, endStatus]

theorem finishedAt_mem (outcome : FnOutcome) : .finishedAt ∈ terminalStores outcome := by
  cases outcome with
  | returned => simp [terminalStores]
  | raised e => cases e <;> simp [terminalStores]

theorem endStatus_endsIn (outcome : FnOutcome) :
    EndsIn (endStatus outcome) (terminalStores outcome) := by
  cases outcome with
  | returned => exact .more nofun (.more nofun .last)
  | raised e => cases e <;> first | exact .more nofun .last | exact .more nofun (.more nofun .last)

theorem endStatus_edge (outcome : FnOutcome) : JobStatus.Edge .running (endStatus outcome) := by
  cases outcome with
  | returned => exact .complete
  | raised e => cases e <;> first | exact .cancel | exact .fail

/-- Each arm ends in a status a running job may move to. -/
theorem terminalStores_endsIn (outcome : FnOutcome) :
    ∃ st, JobStatus.Edge .running st ∧ EndsIn st (terminalStores outcome) :=
  ⟨endStatus outcome, endStatus_edge outcome, endStatus_endsIn outcome⟩

/-! ## What a store leaves in the job -/

/-- The attribute a store is to. -/
inductive Attr
  | status | progress | etaSeconds | etaUpdatedAt | message | error | outputPath | encoderUsed
  | finishedAt
  deriving DecidableEq

def AttrStore.attr : AttrStore → Attr
  | .status _ => .status
  | .progress _ => .progress
  | .etaSeconds _ => .etaSeconds
  | .etaUpdatedAt _ => .etaUpdatedAt
  | .message _ => .message
  | .error _ => .error
  | .outputPath _ => .outputPath
  | .encoderUsed _ => .encoderUsed
  | .finishedAt => .finishedAt

/-- The job has the value of the store. -/
def AttrStore.Shown (job : Job) : AttrStore → Prop
  | .status st => job.status = st
  | .progress x => job.progress = x
  | .etaSeconds seconds => job.etaSeconds = seconds
  | .etaUpdatedAt at_ => job.etaUpdatedAt = at_
  | .message text => job.message = text
  | .error text => job.error = some text
  | .outputPath path => job.outputPath = some path
  | .encoderUsed encoder => job.encoderUsed = some encoder
  | .finishedAt => job.finishedAt ≠ none

theorem AttrStore.shown_store (job : Job) (now : Clock) (x : AttrStore) :
    x.Shown (job.store now x) := by
  cases x with
  | finishedAt => exact Option.some_ne_none now
  | status _ | progress _ | etaSeconds _ | etaUpdatedAt _ | message _ | error _ | outputPath _
  | encoderUsed _ => exact rfl

/-- A store to another attribute leaves it. -/
theorem AttrStore.Shown.store {job : Job} {x y : AttrStore} (h : x.Shown job)
    (hne : x.attr ≠ y.attr) (now : Clock) : x.Shown (job.store now y) := by
  cases x <;> cases y <;> first | exact h | exact absurd rfl hne

/-- No attribute is stored twice at the end of a job. -/
theorem terminalStores_distinct (outcome : FnOutcome) :
    (terminalStores outcome).Pairwise (fun x y => x.attr ≠ y.attr) := by
  unfold terminalStores
  split <;> simp [AttrStore.attr]

theorem rejectStores_distinct : rejectStores.Pairwise (fun x y => x.attr ≠ y.attr) := by
  simp [rejectStores, AttrStore.attr]

end HandBrakeEncoder.Jobs
