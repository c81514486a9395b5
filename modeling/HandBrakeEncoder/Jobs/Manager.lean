/-
# `Jobs.Manager` — the job manager as a step relation

Three kinds of thread share a `JobManager`: callers of `submit`, `get`,
`delete` and `sweep`; controllers calling `start` and `shutdown`; and the
workers those start.  Each `with self._lock` block, each queue `put` or `get`
and each attribute store is one step, and a run is any interleaving.

    submit      lock block (`submitBlock`), then `put`
    worker      `get`, decrement, then on its job: `_claim`, call, the function's own stores,
                the terminal stores
    start       check `_running`, set it, then per worker: start the thread, append it
    shutdown    lock block (`snapshot`), then one cancel per job, one sentinel per thread,
                one join per thread, clear

**What is not program state.**  `accepted` lists the jobs `submit` has stored
since the manager was made; no step reads it.  A job object is its index in
`jobs`, drawn fresh as `uuid4().hex` is, and `reserved` holds the jobs of the
`submit` calls that have released the lock and not yet put.

The function of a job is not a value here: what it does is the choice of its
stores (`fnStore`) and of how it ends (`finish`).  A `join` either sees the
thread end or gives up after its timeout, so it may always return.
-/
import HandBrakeEncoder.Jobs.Job
import HandBrakeEncoder.Lib.Run
import HandBrakeEncoder.Lib.Counting

namespace HandBrakeEncoder.Jobs

open Lib

abbrev JobId := Nat
abbrev WorkerId := Nat
abbrev CtlId := Nat

/-- The constructor arguments of `JobManager`. -/
structure Config where
  workers : ℤ
  ttl : ℤ
  maxQueue : ℤ

/-- `max(1, self._workers)`. -/
def Config.numWorkers (cfg : Config) : Nat := (max 1 cfg.workers).toNat

theorem Config.numWorkers_pos (cfg : Config) : 0 < cfg.numWorkers := by
  rw [Config.numWorkers]
  omega

/-- Where a worker thread stands in `_worker`; it ends by returning or by raising. -/
inductive WorkerPc
  | notStarted
  | getting
  | dequeued (j : JobId)
  | claiming (j : JobId)
  | claimed (j : JobId)
  | executing (j : JobId)
  | storing (j : JobId) (stores : List AttrStore) (kills : Bool)
  | exited
  | died
  deriving DecidableEq

/-- The job the worker holds. -/
def WorkerPc.job? : WorkerPc → Option JobId
  | .dequeued j | .claiming j | .claimed j | .executing j | .storing j _ _ => some j
  | .notStarted | .getting | .exited | .died => none

/-- The thread has started and not ended. -/
def WorkerPc.live : WorkerPc → Bool
  | .notStarted | .exited | .died => false
  | _ => true

/-- After a store: the rest of the stores, then the loop again or the end of the thread. -/
def WorkerPc.afterStore (j : JobId) (kills : Bool) : List AttrStore → WorkerPc
  | [] => if kills then .died else .getting
  | s :: ss => .storing j (s :: ss) kills

/-- Where a controlling thread stands in `start` or `shutdown`. -/
inductive CtlPc
  | idle
  | starting
  | spawning (i : Nat)
  | appending (i : Nat) (w : WorkerId)
  | cancelling (pending : List JobId)
  | sentinels (k : Nat)
  | joining (k : Nat)
  | clearing
  deriving DecidableEq

structure State where
  store : List JobId
  queue : List (Option JobId)
  pending : ℤ
  threads : List WorkerId
  running : Bool
  jobs : JobId → Job
  nextJob : JobId
  accepted : List JobId
  reserved : List JobId
  workers : WorkerId → WorkerPc
  nextWorker : WorkerId
  ctl : CtlId → CtlPc

/-- A manager just constructed. -/
def State.init : State where
  store := []
  queue := []
  pending := 0
  threads := []
  running := false
  jobs := fun _ => { createdAt := 0 }
  nextJob := 0
  accepted := []
  reserved := []
  workers := fun _ => .notStarted
  nextWorker := 0
  ctl := fun _ => .idle

/-! ## The lock blocks -/

/-- What `submit` does: return a stored job, return a refused one, or raise. -/
inductive SubmitResult
  | stored (j : JobId)
  | refused (j : JobId)
  | raised (e : PyExc)

/-- The job `submit` returns when the manager is not running. -/
def refusedJob (created now : Clock) : Job :=
  { createdAt := created
    finishedAt := some now
    error := some "Service is shutting down; job not accepted".toList
    status := .failed }

def queueFull (pending maxQueue : ℤ) : PyExc :=
  .queueFull ((toString pending).toList ++ " job(s) already waiting for a worker (limit ".toList
    ++ (toString maxQueue).toList ++ ")".toList)

/-- `submit` up to the end of its lock block. -/
def submitBlock (cfg : Config) (s : State) (created now : Clock) : SubmitResult × State :=
  let j := s.nextJob
  if !s.running then
    (.refused j,
      { s with
        nextJob := j + 1
        jobs := Function.update s.jobs j (refusedJob created now) })
  else if 0 < cfg.maxQueue ∧ cfg.maxQueue ≤ s.pending then
    (.raised (queueFull s.pending cfg.maxQueue), { s with nextJob := j + 1 })
  else
    (.stored j,
      { s with
        nextJob := j + 1
        jobs := Function.update s.jobs j { createdAt := created }
        pending := s.pending + 1
        store := s.store ++ [j]
        accepted := s.accepted ++ [j]
        reserved := j :: s.reserved })

/-- `get`. -/
def getBlock (s : State) (j : JobId) : Option Job := if j ∈ s.store then some (s.jobs j) else none

def Job.cancel (job : Job) : Job := { job with cancelEvent := true }

/-- `delete`. -/
def deleteBlock (s : State) (j : JobId) : Bool × State :=
  if j ∈ s.store then
    (true,
      { s with
        store := s.store.erase j
        jobs := Function.update s.jobs j (s.jobs j).cancel })
  else (false, s)

/-- The test of `sweep`: terminal, finished, and past the TTL. -/
def Job.expired (cfg : Config) (now : Clock) (job : Job) : Bool :=
  job.status.terminal &&
    match job.finishedAt with
    | none => false
    | some t => decide ((cfg.ttl : ℚ) ≤ now - t)

/-- `sweep`. -/
def sweepBlock (cfg : Config) (s : State) (now : Clock) : Nat × State :=
  let expired := s.store.filter (fun j => (s.jobs j).expired cfg now)
  (expired.length,
    { s with store := s.store.filter (fun j => !(s.jobs j).expired cfg now) })

/-- `_claim`: refused once the cancel event is set, else the job is running. -/
def Job.claim (job : Job) : Option Job :=
  if job.cancelEvent then none else some { job with status := .running }

/-- A claim is granted to a job not cancelled, and sets its status. -/
theorem Job.claim_some {job job' : Job} : job.claim = some job' ↔
    job.cancelEvent = false ∧ job' = { job with status := .running } := by
  rw [Job.claim]
  cases job.cancelEvent with
  | true => exact ⟨nofun, fun h => nomatch h.1⟩
  | false => exact ⟨fun h => ⟨rfl, (Option.some.inj h).symm⟩, fun h => congrArg some h.2.symm⟩

/-- The snapshot `shutdown` takes: every stored job not yet terminal. -/
def snapshot (s : State) : List JobId := s.store.filter (fun j => !(s.jobs j).status.terminal)

/-! ## The step relation -/

inductive Action
  | submit (created now : Clock)
  | put (j : JobId)
  | get (j : JobId)
  | delete (j : JobId)
  | sweep (now : Clock)
  | takeSentinel (w : WorkerId)
  | takeJob (w : WorkerId) (j : JobId)
  | decrement (w : WorkerId)
  | claim (w : WorkerId) (j : JobId)
  | call (w : WorkerId) (j : JobId)
  | fnStore (w : WorkerId) (st : AttrStore) (now : Clock)
  | finish (w : WorkerId) (outcome : FnOutcome)
  | storeAttr (w : WorkerId) (now : Clock)
  | start (c : CtlId)
  | setRunning (c : CtlId)
  | spawn (c : CtlId)
  | append (c : CtlId)
  | shutdown (c : CtlId)
  | cancel (c : CtlId)
  | cancelled (c : CtlId)
  | sentinel (c : CtlId)
  | sentinelsDone (c : CtlId)
  | join (c : CtlId)
  | joined (c : CtlId)
  | clear (c : CtlId)
  deriving DecidableEq

/-- The controlling thread that acts, if one does. -/
def Action.ctl? : Action → Option CtlId
  | .start c | .setRunning c | .spawn c | .append c | .shutdown c | .cancel c | .cancelled c
  | .sentinel c | .sentinelsDone c | .join c | .joined c | .clear c => some c
  | _ => none

namespace State

def setWorker (s : State) (w : WorkerId) (pc : WorkerPc) : State :=
  { s with workers := Function.update s.workers w pc }

def setCtl (s : State) (c : CtlId) (pc : CtlPc) : State :=
  { s with ctl := Function.update s.ctl c pc }

def setJob (s : State) (j : JobId) (job : Job) : State :=
  { s with jobs := Function.update s.jobs j job }

end State

/-- A step of a thread calling `submit`, `get`, `delete` or `sweep`. -/
inductive ClientStep (cfg : Config) : Action → State → State → Prop
  | submit {s : State} {created now : Clock} :
      ClientStep cfg (.submit created now) s (submitBlock cfg s created now).2
  | put {s : State} {j : JobId} : j ∈ s.reserved →
      ClientStep cfg (.put j) s
        { s with reserved := s.reserved.erase j, queue := s.queue ++ [some j] }
  | get {s : State} {j : JobId} : ClientStep cfg (.get j) s s
  | delete {s : State} {j : JobId} : ClientStep cfg (.delete j) s (deleteBlock s j).2
  | sweep {s : State} {now : Clock} : ClientStep cfg (.sweep now) s (sweepBlock cfg s now).2

/-- What worker `w` does to the job `j` it has dequeued: its place in `_worker` and the job,
before and after. -/
inductive JobStep (w : WorkerId) (j : JobId) : Action → WorkerPc → Job → WorkerPc → Job → Prop
  | claimRefused {job : Job} : job.claim = none →
      JobStep w j (.claim w j) (.claiming j) job (.storing j rejectStores false) job
  | claimGranted {job job' : Job} : job.claim = some job' →
      JobStep w j (.claim w j) (.claiming j) job (.claimed j) job'
  | call {job : Job} : JobStep w j (.call w j) (.claimed j) job (.executing j) job
  | fnStore {job : Job} {st : AttrStore} {now : Clock} : st.byFunction = true →
      JobStep w j (.fnStore w st now) (.executing j) job (.executing j) (job.store now st)
  | finish {job : Job} {outcome : FnOutcome} :
      JobStep w j (.finish w outcome) (.executing j) job
        (.storing j (terminalStores outcome) outcome.kills) job
  | storeAttr {job : Job} {st : AttrStore} {ss : List AttrStore} {kills : Bool} {now : Clock} :
      JobStep w j (.storeAttr w now) (.storing j (st :: ss) kills) job
        (.afterStore j kills ss) (job.store now st)

theorem JobStep.holds {w : WorkerId} {j : JobId} {a : Action} {pc pc' : WorkerPc} {job job' : Job}
    (h : JobStep w j a pc job pc' job') : pc.job? = some j := by
  cases h <;> rfl

/-- A step of worker thread `w`. -/
inductive WorkerStep (w : WorkerId) : Action → State → State → Prop
  | takeSentinel {s : State} {rest : List (Option JobId)} :
      s.workers w = .getting → s.queue = none :: rest →
      WorkerStep w (.takeSentinel w) s ({ s with queue := rest }.setWorker w .exited)
  | takeJob {s : State} {j : JobId} {rest : List (Option JobId)} :
      s.workers w = .getting → s.queue = some j :: rest →
      WorkerStep w (.takeJob w j) s ({ s with queue := rest }.setWorker w (.dequeued j))
  | decrement {s : State} {j : JobId} : s.workers w = .dequeued j →
      WorkerStep w (.decrement w) s ({ s with pending := s.pending - 1 }.setWorker w (.claiming j))
  | onJob {s : State} {a : Action} {j : JobId} {pc : WorkerPc} {job : Job} :
      JobStep w j a (s.workers w) (s.jobs j) pc job →
      WorkerStep w a s ((s.setJob j job).setWorker w pc)

/-- A step of controlling thread `c`. -/
inductive ControlStep (cfg : Config) (c : CtlId) : Action → State → State → Prop
  | startRunning {s : State} : s.ctl c = .idle → s.running = true →
      ControlStep cfg c (.start c) s s
  | start {s : State} : s.ctl c = .idle → s.running = false →
      ControlStep cfg c (.start c) s (s.setCtl c .starting)
  | setRunning {s : State} : s.ctl c = .starting →
      ControlStep cfg c (.setRunning c) s ({ s with running := true }.setCtl c (.spawning 0))
  | spawn {s : State} {i : Nat} : s.ctl c = .spawning i →
      ControlStep cfg c (.spawn c) s
        (({ s with nextWorker := s.nextWorker + 1 }.setWorker s.nextWorker .getting).setCtl c
          (.appending i s.nextWorker))
  | append {s : State} {i : Nat} {w : WorkerId} : s.ctl c = .appending i w →
      ControlStep cfg c (.append c) s
        ({ s with threads := s.threads ++ [w] }.setCtl c
          (if i + 1 < cfg.numWorkers then .spawning (i + 1) else .idle))
  | shutdown {s : State} : s.ctl c = .idle →
      ControlStep cfg c (.shutdown c) s
        ({ s with running := false }.setCtl c (.cancelling (snapshot s)))
  | cancel {s : State} {j : JobId} {js : List JobId} : s.ctl c = .cancelling (j :: js) →
      ControlStep cfg c (.cancel c) s ((s.setJob j (s.jobs j).cancel).setCtl c (.cancelling js))
  | cancelled {s : State} : s.ctl c = .cancelling [] →
      ControlStep cfg c (.cancelled c) s (s.setCtl c (.sentinels 0))
  | sentinel {s : State} {k : Nat} : s.ctl c = .sentinels k → k < s.threads.length →
      ControlStep cfg c (.sentinel c) s
        ({ s with queue := s.queue ++ [none] }.setCtl c (.sentinels (k + 1)))
  | sentinelsDone {s : State} {k : Nat} : s.ctl c = .sentinels k → ¬ k < s.threads.length →
      ControlStep cfg c (.sentinelsDone c) s (s.setCtl c (.joining 0))
  | join {s : State} {k : Nat} : s.ctl c = .joining k → k < s.threads.length →
      ControlStep cfg c (.join c) s (s.setCtl c (.joining (k + 1)))
  | joined {s : State} {k : Nat} : s.ctl c = .joining k → ¬ k < s.threads.length →
      ControlStep cfg c (.joined c) s (s.setCtl c .clearing)
  | clear {s : State} : s.ctl c = .clearing →
      ControlStep cfg c (.clear c) s ({ s with threads := [] }.setCtl c .idle)

/-- One atomic step of one thread. -/
inductive Step (cfg : Config) (a : Action) (s t : State) : Prop
  | client (h : ClientStep cfg a s t)
  | worker (w : WorkerId) (h : WorkerStep w a s t)
  | control (c : CtlId) (h : ControlStep cfg c a s t)

/-- Any interleaving of any number of threads, from a fresh manager. -/
def Reaches (cfg : Config) (as : List Action) (s : State) : Prop := Run (Step cfg) .init as s

end HandBrakeEncoder.Jobs
