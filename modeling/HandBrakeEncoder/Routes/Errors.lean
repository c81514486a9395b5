/-
# `Routes.Errors` — every error says what it is

Clients branch on `code`, so each error body must carry one at its top level.  A
route raises an `HTTPException` with a `dict` for its detail; the framework raises
its own, with a text, and another exception for a body it cannot read.  Two
handlers give all of them one shape:

    detail a dict      that dict
    any other detail   {"code": "error", "reason": ...}
    validation error   {"code": "invalid_request", "reason": ...}

What no handler takes is a bare 500, with no code.  `GET` comes to it when the
stamp of an estimate goes between two reads (`LosesStamp`), `POST` when a call it
makes raises what it does not expect (`Unhandled`), `DELETE` never.
-/
import HandBrakeEncoder.Presets.Paths
import HandBrakeEncoder.Routes.Polls
import HandBrakeEncoder.Routes.Post

namespace HandBrakeEncoder.Routes

open Lib Jobs Ops Paths Presets

/-! ## The handlers -/

abbrev Headers := List (String × String)

/-- The detail of an `HTTPException`: a dict, or what `str` makes of anything else. -/
inductive Detail
  | dict (content : JDict)
  | text (text : PyStr)

structure HttpException where
  statusCode : Nat
  detail : Detail
  headers : Headers := []

structure JsonResponse where
  statusCode : Nat
  content : JDict
  headers : Headers := []

/-- `_flatten_detail`. -/
def flattenDetail (exc : HttpException) : JsonResponse :=
  match exc.detail with
  | .dict content => ⟨exc.statusCode, content, exc.headers⟩
  | .text text => ⟨exc.statusCode, detail "error" text, exc.headers⟩

/-- What a client gets for an error: a body, or the bare 500 of an exception nobody took. -/
inductive ErrorReply
  | json (r : JsonResponse)
  | bare (e : PyExc)

def ErrorReply.statusCode : ErrorReply → Nat
  | .json r => r.statusCode
  | .bare _ => 500

/-- The error in an answer, if it is one. -/
def Answer.error? : Answer → Option ErrorReply
  | .accepted _ => none
  | .refused statusCode content headers =>
      some (.json (flattenDetail ⟨statusCode, .dict content, headers⟩))
  | .serverError e => some (.bare e)

/-- The error in a response, if it is one. -/
def Response.error? {α : Type} : Response α → Option ErrorReply
  | .ok _ _ => none
  | .refused statusCode content => some (.json (flattenDetail ⟨statusCode, .dict content, []⟩))
  | .serverError e => some (.bare e)

/-- The codes of the routes and of the validation handler, with their status codes. -/
def routeCodes : List (Nat × String) :=
  [(403, "path_not_allowed"), (404, "source_not_found_on_encoder"), (400, "preset_not_found"),
    (409, "encoder_unavailable"), (400, "invalid_video_preset"), (503, "queue_full"),
    (503, "service_unavailable"), (404, "job_not_found"), (422, "invalid_request")]

/-- The headers that go with a code. -/
def codeHeaders (code : String) : Headers :=
  if code = "queue_full" then [("Retry-After", "60")] else []

/-- The response bears one of the codes, with its status code and its headers. -/
def JsonResponse.Coded (r : JsonResponse) : Prop :=
  ∃ code, (r.statusCode, code) ∈ routeCodes ∧ r.content.get "code" = .str code.toList
    ∧ r.headers = codeHeaders code

/-- The error has a body with a code; the framework's own is `error`. -/
def ErrorReply.Coded : ErrorReply → Prop
  | .json r => r.Coded ∨ r.content.get "code" = .str "error".toList
  | .bare _ => False

/-- If the answer is a refusal, it is such a response. -/
def Answer.Coded : Answer → Prop
  | .refused statusCode content headers => JsonResponse.Coded ⟨statusCode, content, headers⟩
  | .accepted _ | .serverError _ => True

variable {cfg : Config} {checks : Checks} {req : EncodeRequest} {xs : List PostAction}
  {p q : Post} {x : PostAction} {job : Option JobId} {answer : Answer} {e : PyExc}

theorem coded_of_detail {statusCode : Nat} {code : String} {headers : Headers}
    (h : (statusCode, code) ∈ routeCodes) (hheaders : headers = codeHeaders code) (reason : PyStr)
    (more : JDict) : JsonResponse.Coded ⟨statusCode, detail code reason ++ more, headers⟩ :=
  ⟨code, h, rfl, hheaders⟩

theorem queueFullAnswer_coded (e : PyExc) : (queueFullAnswer e).Coded :=
  coded_of_detail (by decide) rfl _ []

theorem unavailableAnswer_coded (job : Job) : (unavailableAnswer job).Coded :=
  ⟨"service_unavailable", show (503, _) ∈ routeCodes by decide, rfl, rfl⟩

/-- The exceptions that `POST /jobs` lets through, and where they come from. -/
inductive Unhandled (checks : Checks) (req : EncodeRequest) : PyExc → Prop
  | path {e : PyExc} : checks.calls.realpath req.sourcePath = .error e → e.isValueError = false →
      Unhandled checks req e
  | root {root : PyStr} {e : PyExc} : root ∈ checks.allowedRoots →
      checks.calls.realpath root = .error e → Unhandled checks req e
  | nesting : checks.presetFrames < depth req.presetJson → Unhandled checks req .recursionError
  | encoders {e : PyExc} : checks.available = .error e → Unhandled checks req e
  | presets {encoder : PyStr} {e : PyExc} : checks.probe encoder = .error e →
      Unhandled checks req e

/-- The call has not answered, or its answer is in order. -/
def PostPc.Coded (checks : Checks) (req : EncodeRequest) : PostPc → Prop
  | .answered _ answer => answer.Coded ∧ ∀ e, answer = .serverError e → Unhandled checks req e
  | .submitting | .putting _ | .looking _ => True

theorem PostPc.Coded.step (h : p.pc.Coded checks req) (hstep : PostStep cfg x p q) :
    q.pc.Coded checks req := by
  cases hstep with
  | other _ _ => exact h
  | put _ _ => exact trivial
  | @submit _ created now result m hpc hblock =>
      cases result with
      | stored j | refused j => exact trivial
      | raised e =>
          refine ⟨queueFullAnswer_coded e, fun e' he' => ?_⟩
          cases he'
  | @get _ j hpc =>
      show (lookAnswer p.mgr j).Coded ∧ _
      rw [lookAnswer]
      cases getBlock p.mgr j with
      | none =>
          refine ⟨unavailableAnswer_coded _, fun e he => ?_⟩
          cases he
      | some _ =>
          refine ⟨trivial, fun e he => ?_⟩
          cases he

/-- What an error of `POST /jobs` says is in order. -/
theorem Answer.Coded.reply {r : ErrorReply} (h : answer.Coded) (hr : answer.error? = some r) :
    r.Coded ∨ ∃ e, r = .bare e := by
  cases answer with
  | accepted j => cases hr
  | refused statusCode content headers =>
      cases hr
      exact .inl (.inl h)
  | serverError e =>
      cases hr
      exact .inr ⟨e, rfl⟩

end HandBrakeEncoder.Routes
