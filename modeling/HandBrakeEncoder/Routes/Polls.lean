/-
# `Routes.Polls` — `GET /jobs/{job_id}` and `DELETE /jobs/{job_id}`

A `GET` looks the job up under the lock and then reads it attribute by attribute,
with no lock, while workers store to it and other requests come and go.  So a
request is a number of moments in the history of the manager (`Poll`), and two
requests of two clients may overlap.

What the answers of two polls have to do with each other is decided by the moments
at which each reads the status (`polls_agree`): an earlier status leads to a later
one, and a view of a job that is over is the job as it is for good.
-/
import HandBrakeEncoder.Jobs.History
import HandBrakeEncoder.Jobs.Ledger
import HandBrakeEncoder.Routes.Checks

namespace HandBrakeEncoder.Routes

open Lib Jobs JobStatus Relation

/-! ## The two routes -/

/-- The response of a route with a body of the given kind. -/
inductive Response (α : Type)
  | ok (statusCode : Nat) (body : α)
  | refused (statusCode : Nat) (content : JDict)
  | serverError (e : PyExc)

/-- `HTTPException(status_code=404, detail={"code": "job_not_found"})`. -/
def jobNotFound {α : Type} : Response α :=
  .refused 404 [("code".toList, .str "job_not_found".toList)]

/-- The moments of one `GET`, and the reading of the clock among them. -/
structure Poll where
  lookup : Nat
  read : Read → Nat
  clock : Clock
  after : ∀ r, lookup ≤ read r
  ordered : ∀ r r', r.index ≤ r'.index → read r ≤ read r'

/-- `get_job`: `_require_job`, then `to_dict`. -/
def getJob {cfg : Config} (H : History cfg) (j : JobId) (id : PyStr) (p : Poll) : Response View :=
  match getBlock (H.state p.lookup) j with
  | none => jobNotFound
  | some _ =>
      match toDict id (fun r => (H.state (p.read r)).jobs j) p.clock with
      | .error e => .serverError e
      | .ok v => .ok 200 v

variable {cfg : Config} {H : History cfg} {s : State} {j : JobId} {id id' : PyStr} {p q : Poll}
  {v v' : View} {statusCode statusCode' : Nat} {job job' : Job}

theorem getJob_ok (h : getJob H j id p = .ok statusCode v) :
    j ∈ (H.state p.lookup).store ∧
      toDict id (fun r => (H.state (p.read r)).jobs j) p.clock = .ok v := by
  rw [getJob, getBlock] at h
  split at h
  · cases h
  · rename_i hfound
    split at hfound
    · rename_i hj
      split at h
      · cases h
      · rename_i hview
        cases h
        exact ⟨hj, hview⟩
    · cases hfound

theorem getJob_accepted (h : getJob H j id p = .ok statusCode v) (r : Read) :
    j ∈ (H.state (p.read r)).accepted := by
  obtain ⟨as, hreach⟩ := H.reached p.lookup
  exact H.accepted_later (p.after r) (Reaches.accepted_of_stored hreach (getJob_ok h).1)

/-! ## Two polls -/

/-- The view of a job that is over. -/
def overView (id : PyStr) (job : Job) : View where
  jobId := id
  status := job.status
  progress := round1 job.progress
  etaSeconds := none
  message := job.message
  error := job.error
  outputPath := job.outputPath
  encoderUsed := job.encoderUsed
  createdAt := job.createdAt
  finishedAt := job.finishedAt

theorem overView_same (h : SameView job job') (id : PyStr) : overView id job' = overView id job := by
  rcases h with rfl | rfl <;> rfl

/-- What a poll answers, but for the estimate, once it reads a terminal status: the job at that
moment. -/
theorem getJob_over (h : getJob H j id p = .ok statusCode v) (hterm : v.status.terminal = true) :
    { v with etaSeconds := none } = overView id ((H.state (p.read .statusValue)).jobs j) := by
  obtain ⟨-, hv⟩ := toDict_ok (getJob_ok h).2
  have hstatus : v.status = (H.state (p.read .statusValue)).status j := congrArg View.status hv
  have hsame : ∀ r, Read.index .statusValue ≤ r.index →
      SameView ((H.state (p.read .statusValue)).jobs j) ((H.state (p.read r)).jobs j) := fun r hr =>
    H.settled_later (p.ordered _ _ hr) (getJob_accepted h _) (hstatus ▸ hterm)
  have hfield : ∀ r, Read.index .statusValue ≤ r.index →
      overView id ((H.state (p.read r)).jobs j)
        = overView id ((H.state (p.read .statusValue)).jobs j) := fun r hr =>
    overView_same (hsame r hr) id
  have hshown := congrArg (fun v => ({ v with etaSeconds := none } : View)) hv
  dsimp only at hshown
  rw [hshown, overView]
  congr 1
  · exact congrArg View.progress (hfield .progress (by decide))
  · exact congrArg View.message (hfield .message (by decide))
  · exact congrArg View.error (hfield .error (by decide))
  · exact congrArg View.outputPath (hfield .outputPath (by decide))
  · exact congrArg View.encoderUsed (hfield .encoderUsed (by decide))
  · exact congrArg View.createdAt (hfield .createdAt (by decide))
  · exact congrArg View.finishedAt (hfield .finishedAt (by decide))

/-- **Two polls of one job agree.**  Whoever makes them and however they overlap, the status read
first leads along the life cycle to the one read second; and once a view is terminal, every view
whose status is read later is the same but for the estimate, which it shows no more if it was asked
for after that. -/
theorem polls_agree (hp : getJob H j id p = .ok statusCode v)
    (hq : getJob H j id q = .ok statusCode' v')
    (hle : p.read .statusValue ≤ q.read .statusValue) :
    ReflTransGen Edge v.status v'.status ∧
      (v.status.terminal = true →
        { v' with etaSeconds := none } = { v with etaSeconds := none } ∧
        (p.read .statusValue ≤ q.read .status → v'.etaSeconds = none)) := by
  obtain ⟨-, hv⟩ := toDict_ok (getJob_ok hp).2
  obtain ⟨heta, hv'⟩ := toDict_ok (getJob_ok hq).2
  have hstatus : v.status = (H.state (p.read .statusValue)).status j := congrArg View.status hv
  have hstatus' : v'.status = (H.state (q.read .statusValue)).status j := congrArg View.status hv'
  have hacc := getJob_accepted hp .statusValue
  have hpath := H.status_later hle hacc
  refine ⟨?_, fun hterm => ?_⟩
  · rw [hstatus, hstatus']
    exact hpath
  have hover : ((H.state (p.read .statusValue)).status j).terminal = true := hstatus ▸ hterm
  have hsame := H.settled_later hle hacc hover
  have hterm' : v'.status.terminal = true := by
    rw [hstatus']
    exact (congrArg JobStatus.terminal hsame.status).trans hover
  refine ⟨?_, fun hfirst => ?_⟩
  · rw [getJob_over hp hterm, getJob_over hq hterm']
    exact overView_same hsame id
  · -- the estimate is shown only if its own read of the status finds the job running
    have hlater := H.settled_later hfirst hacc hover
    have hnot : ((H.state (q.read .status)).jobs j).status ≠ .running := by
      intro hrunning
      have hlive := congrArg JobStatus.terminal (hlater.status.symm.trans hrunning)
      cases hlive.symm.trans hover
    rw [shownEta, if_pos hnot] at heta
    exact (Except.ok.inj heta).symm

/-- The moments of a poll that reads everything at once. -/
def Poll.instant (n : Nat) (clock : Clock) : Poll where
  lookup := n
  read _ := n
  clock := clock
  after _ := Nat.le_refl n
  ordered _ _ _ := Nat.le_refl n

theorem getJob_instant (id : PyStr) {n : Nat} (hj : j ∈ (H.state n).store)
    (heta : ((H.state n).jobs j).etaUpdatedAt = none) (clock : Clock) :
    ∃ v, getJob H j id (.instant n clock) = .ok 200 v ∧ v.status = (H.state n).status j := by
  have hnone : shownEta (fun _ => (H.state n).jobs j) clock = .ok none := by
    rw [shownEta, heta]
    split <;> rfl
  obtain ⟨v, hview, -, hstatus⟩ := toDict_of_eta id hnone
  refine ⟨v, ?_, hstatus⟩
  have hblock : getBlock (H.state n) j = some ((H.state n).jobs j) := if_pos hj
  rw [getJob, show (Poll.instant n clock).lookup = n from rfl, hblock]
  show (match toDict id (fun _ => (H.state n).jobs j) clock with
    | .error e => Response.serverError e
    | .ok v => Response.ok 200 v) = _
  rw [hview]

/-- A job polled while it runs and again when it has completed. -/
theorem polls_agree_completed : ∃ (H : History ⟨1, 60, 0⟩) (p q : Poll) (v v' : View),
    getJob H 0 "J".toList p = .ok 200 v ∧ getJob H 0 "J".toList q = .ok 200 v' ∧
      v.status = .running ∧ v'.status = .completed ∧ ReflTransGen Edge v.status v'.status := by
  obtain ⟨s, t, hs, ht, ⟨hsj, hseta, hsrun⟩, htj, hteta, htdone⟩ := runs_of_replay ⟨1, 60, 0⟩
    (finishedAtTen.take 10) (finishedAtTen.drop 10)
    (fun s t => (0 ∈ s.store ∧ (s.jobs 0).etaUpdatedAt = none ∧ s.status 0 = .running) ∧
      0 ∈ t.store ∧ (t.jobs 0).etaUpdatedAt = none ∧ t.status 0 = .completed) (by decide +kernel)
  obtain ⟨H, hmid, hafter⟩ := Timeline.through hs ht
  have hHs : H.state 10 = s := hmid
  have hHt : H.state 14 = t := hafter 14 (Nat.le_refl 14)
  obtain ⟨v, hv, hvs⟩ := getJob_instant "J".toList (H := H) (n := 10) (j := 0)
    (hHs ▸ hsj) (hHs ▸ hseta) 0
  obtain ⟨v', hv', hvs'⟩ := getJob_instant "J".toList (H := H) (n := 14) (j := 0)
    (hHt ▸ htj) (hHt ▸ hteta) 0
  refine ⟨H, _, _, v, v', hv, hv', ?_, ?_, (polls_agree hv hv' (by decide)).1⟩
  · rw [hvs, hHs, hsrun]
  · rw [hvs', hHt, htdone]

end HandBrakeEncoder.Routes
