/-
# `Ops.Encode` — `run_encode_job`

The job claims a staging file next to the source, writes the preset to a
temporary file, runs HandBrake on the staging path, checks that the path still
leads to the file it claimed, and renames it into place.

    prepare            validate, find the preset, derive the paths, refuse a collision
    claimStaging       os.open with O_CREAT | O_EXCL | O_NOFOLLOW
    ── from here the staging descriptor is open ──
    makeTemp           NamedTemporaryFile
    writePreset        json.dump, then handle.close in any case
    publish            run_encode, the samestat check, os.close, os.replace
    dropClaim          the `except` arm: close the descriptor, remove the staging file
    removeTemp         the `finally` arm: unlink the temporary file

**What is outside.**  `Env` is everything the operating system decides: which
call raises, which inode and descriptor numbers are given out, what HandBrake
writes and how it ends, and what other processes do at the points between the
calls.  `os.close`, `os.remove` and `os.unlink` raise nothing of their own
here: the clean-up is assumed to work where the path still leads to a file.
-/
import HandBrakeEncoder.Jobs.Job
import HandBrakeEncoder.Paths.Admission
import HandBrakeEncoder.Presets
import HandBrakeEncoder.Lib.RealPath
import HandBrakeEncoder.Lib.Descriptors

namespace HandBrakeEncoder.Ops

open Posix Jobs Paths Presets

structure EncodeRequest where
  sourcePath : PyStr
  presetJson : JDict
  presetName : PyStr

/-- The settings, and what the interpreter was started with; of the stack, what is left where
`realpath` and where `iter_presets` begins. -/
structure Host where
  allowedRoots : List PyStr
  handbrakeBin : PyStr
  cwd : PyStr
  tempDir : PyStr
  frames : Nat
  presetFrames : Nat
  repr : PyRepr
  dumps : JDict → Data

/-- The calls that may raise. -/
inductive Call
  | osOpen
  | namedTemporaryFile
  | jsonDump
  | handleClose
  | fstat
  | stat
  | replace
  deriving DecidableEq

/-- Where other processes may act: after the claim and before the check. -/
inductive Point
  | claimed
  | tempMade
  | dumped
  | encoding
  | encoded
  | fstated

/-- What one `run_encode` does: the job's attributes it stores, what HandBrake leaves in the
file its `-o` path resolves to (nothing when it never writes), and how it ends. -/
structure EncodeRun where
  stores : List AttrStore
  data : Option Data
  outcome : FnOutcome

/-- The random part of a temporary file's name. -/
structure RandomName where
  text : PyStr
  noSlash : '/' ∉ text

structure Env where
  token : PyStr
  stagingFd : Fd
  stagingIno : Ino
  tempNames : List RandomName
  tempFd : Fd
  tempIno : Ino
  fails : Call → Option PyExc
  encode : List PyStr → EncodeRun
  others : Point → World → Fs

/-- The other processes act. -/
def Env.act (env : Env) (pt : Point) (w : World) : World := { w with fs := env.others pt w }

/-- No other process touches the file system. -/
def Env.Quiet (env : Env) : Prop := ∀ pt w, env.others pt w = w.fs

theorem Env.Quiet.act {env : Env} (h : env.Quiet) (pt : Point) (w : World) :
    env.act pt w = w := by
  rw [Env.act]
  rw [h]

/-! ## Before the disk is touched -/

def realpathCall (host : Host) (fs : Fs) (path : PyStr) : Except PyExc PyStr :=
  match realpath fs host.frames host.cwd path with
  | .ok real => .ok real
  | .error .embeddedNull => .error (.valueError "lstat: embedded null character in path".toList)
  | .error .tooDeep => .error .recursionError

def pathCalls (host : Host) (fs : Fs) : PathCalls where
  realpath := realpathCall host fs
  isfile := fs.isfile

/-- The local variables of `run_encode_job` once the paths are derived. -/
structure Plan where
  src : PyStr
  encoder : PyStr
  dst : PyStr
  staging : PyStr
  deriving DecidableEq

def collides : PyExc := .pathNotAllowed "Derived output collides with the source".toList

/-- `run_encode_job` up to the derivation of the staging path. -/
def prepare (host : Host) (env : Env) (fs : Fs) (jobId : PyStr) (req : EncodeRequest) :
    Except PyExc Plan := do
  let src ← validateSourcePath host.repr (pathCalls host fs) host.allowedRoots req.sourcePath
  let preset ← findPreset host.repr host.presetFrames req.presetJson req.presetName
  let encoder ← presetEncoder host.repr preset
  let extension ← presetExtension host.repr preset
  let dst ← deriveOutputPath host.repr src jobId extension
  let real ← realpathCall host fs dst
  if real = src then throw collides
  let staging ← deriveStagingPath host.repr src jobId extension env.token
  return { src, encoder, dst, staging }

/-! ## The steps -/

/-- An `OSError` of the claim is reported as `PathNotAllowed`. -/
def claimError : PyExc → PyExc
  | .osError strerror =>
      .pathNotAllowed ("Could not claim the staging output path: ".toList ++ strerror)
  | e => e

def claimStaging (env : Env) (w : World) (staging : PyStr) : Except PyExc World :=
  match env.fails .osOpen with
  | some e => .error (claimError e)
  | none =>
      match w.openExcl staging env.stagingFd env.stagingIno with
      | .ok w' => .ok w'
      | .error e => .error (claimError (.osError e.strerror))

def tempName (name : RandomName) : PyStr := "tmp".toList ++ name.text ++ ".json".toList

def tempPath (host : Host) (name : RandomName) : PyStr := join host.tempDir (tempName name)

/-- `mkstemp`: the first of the random names that is free. -/
def mkstemp (host : Host) (env : Env) (w : World) :
    List RandomName → Except PyExc (World × RandomName)
  | [] => .error (.osError "No usable temporary file name found".toList)
  | name :: names =>
      match w.openExcl (tempPath host name) env.tempFd env.tempIno with
      | .ok w' => .ok (w', name)
      | .error .exist => mkstemp host env w names
      | .error e => .error (.osError e.strerror)

/-- `NamedTemporaryFile`. -/
def makeTemp (host : Host) (env : Env) (w : World) : Except PyExc (World × RandomName) :=
  match env.fails .namedTemporaryFile with
  | some e => .error e
  | none => mkstemp host env w env.tempNames

/-- `json.dump`, with `handle.close` in its `finally`: the exception of the latter wins. -/
def writePreset (host : Host) (env : Env) (req : EncodeRequest) (w : World) :
    World × Option PyExc :=
  match env.fails .jsonDump with
  | some e => (w.close env.tempFd, some ((env.fails .handleClose).getD e))
  | none =>
      let written := { w with fs := w.fs.setNode env.tempIno (.file (host.dumps req.presetJson)) }
      (written.close env.tempFd, env.fails .handleClose)

/-- `build_encode_command`. -/
def buildEncodeCommand (host : Host) (src dst presetFile presetName : PyStr) : List PyStr :=
  [host.handbrakeBin, "--json".toList, "--preset-import-file".toList, presetFile,
    "--preset".toList, presetName, "-i".toList, src, "-o".toList, dst]

def replaced : PyExc :=
  .pathNotAllowed "Staging output was replaced during the encode; refusing to publish".toList

/-- `os.path.samestat(os.fstat(fd), os.stat(staging))`, raising when it is false. -/
def checkStaging (env : Env) (w : World) (staging : PyStr) : World × Option PyExc :=
  match env.fails .fstat with
  | some e => (w, some e)
  | none =>
      let claimed := w.fstat env.stagingFd
      let w := env.act .fstated w
      match env.fails .stat with
      | some e => (w, some e)
      | none =>
          match w.fs.stat staging with
          | .error e => (w, some (.osError e.strerror))
          | .ok i => (w, if claimed = some i then none else some replaced)

/-- Where the inner `try` block ends.  `fdOpen` is `fd != _CLOSED`; `checked` says that the check
passed, and `atReplace` is the state `os.replace` found, when it succeeded. -/
structure Inner where
  world : World
  fdOpen : Bool
  outcome : FnOutcome
  checked : Bool := false
  atReplace : Option World := none

/-- After the check: release the descriptor and rename. -/
def swapIn (env : Env) (p : Plan) (w : World) : Inner :=
  let w := w.close env.stagingFd
  match env.fails .replace with
  | some e => { world := w, fdOpen := false, outcome := .raised e, checked := true }
  | none =>
      match w.fs.rename p.staging p.dst with
      | .error e =>
          { world := w, fdOpen := false, outcome := .raised (.osError e.strerror), checked := true }
      | .ok fs =>
          { world := { w with fs }
            fdOpen := false
            outcome := .returned
            checked := true
            atReplace := some w }

/-- HandBrake runs: it writes through its `-o` path. -/
def encodeInto (env : Env) (staging : PyStr) (data : Option Data) (w : World) : World :=
  let w := env.act .encoding w
  env.act .encoded
    (match data with
    | some data => { w with fs := w.fs.writeThrough staging data }
    | none => w)

/-- The inner `try` block. -/
def publish (env : Env) (p : Plan) (run : EncodeRun) (w : World) : Inner :=
  let w := encodeInto env p.staging run.data w
  match run.outcome with
  | .raised e => { world := w, fdOpen := true, outcome := .raised e }
  | .returned =>
      match checkStaging env w p.staging with
      | (w, some e) => { world := w, fdOpen := true, outcome := .raised e }
      | (w, none) => swapIn env p w

/-- `_remove_partial`. -/
def removePartial (w : World) (path : PyStr) : World :=
  if w.fs.lexists path then
    match w.fs.unlink path with
    | .ok fs => { w with fs }
    | .error _ => w
  else w

/-- The `except` arm. -/
def dropClaim (env : Env) (p : Plan) (i : Inner) : World :=
  removePartial (if i.fdOpen then i.world.close env.stagingFd else i.world) p.staging

/-- The inner `try` block with its `except` arm. -/
def afterTry (env : Env) (p : Plan) (i : Inner) : World :=
  match i.outcome with
  | .returned => i.world
  | .raised _ => dropClaim env p i

/-- `os.unlink(handle.name)`, an `OSError` logged. -/
def removeTemp (w : World) (path : PyStr) : World :=
  match w.fs.unlink path with
  | .ok fs => { w with fs }
  | .error _ => w

/-! ## The job -/

/-- The world the job leaves, the attributes it stored in order, and how it ended.  `encoded` says
that `run_encode` was called; `checked` and `atReplace` are as in `Inner`. -/
structure JobRun where
  world : World
  stores : List AttrStore
  result : FnOutcome
  encoded : Bool := false
  checked : Bool := false
  atReplace : Option World := none

def claimStores (p : Plan) : List AttrStore :=
  [.encoderUsed p.encoder, .outputPath p.dst, .message "Encoding".toList]

/-- From the open temporary file to the end. -/
def encodeWithTemp (host : Host) (env : Env) (req : EncodeRequest) (p : Plan) (w : World)
    (name : RandomName) : JobRun :=
  match writePreset host env req w with
  | (w, some e) =>
      { world := removeTemp (w.close env.stagingFd) (tempPath host name)
        stores := claimStores p
        result := .raised e }
  | (w, none) =>
      let run := env.encode
        (buildEncodeCommand host p.src p.staging (tempPath host name) req.presetName)
      let inner := publish env p run (env.act .dumped w)
      { world := removeTemp (afterTry env p inner) (tempPath host name)
        stores := claimStores p ++ run.stores
        result := inner.outcome
        encoded := true
        checked := inner.checked
        atReplace := inner.atReplace }

/-- From the claimed staging file to the end. -/
def encodeClaimed (host : Host) (env : Env) (req : EncodeRequest) (p : Plan) (w : World) :
    JobRun :=
  match makeTemp host env (env.act .claimed w) with
  | .error e => { world := env.act .claimed w, stores := claimStores p, result := .raised e }
  | .ok (w, name) => encodeWithTemp host env req p (env.act .tempMade w) name

/-- `run_encode_job`. -/
def runEncodeJob (host : Host) (env : Env) (jobId : PyStr) (req : EncodeRequest) (w : World) :
    JobRun :=
  match prepare host env w.fs jobId req with
  | .error e => { world := w, stores := [], result := .raised e }
  | .ok p =>
      match claimStaging env w p.staging with
      | .error e => { world := w, stores := [], result := .raised e }
      | .ok w => encodeClaimed host env req p w

/-- How far a run comes: refused before the claim, at the claim, at the temporary file, or past
it. -/
inductive Course (host : Host) (env : Env) (jobId : PyStr) (req : EncodeRequest) (w : World)
    (r : JobRun) : Prop
  | refused (e : PyExc) : prepare host env w.fs jobId req = .error e →
      r = { world := w, stores := [], result := .raised e } → Course host env jobId req w r
  | unclaimed (p : Plan) (e : PyExc) : prepare host env w.fs jobId req = .ok p →
      claimStaging env w p.staging = .error e →
      r = { world := w, stores := [], result := .raised e } → Course host env jobId req w r
  | noTemp (p : Plan) (w₁ : World) (e : PyExc) : prepare host env w.fs jobId req = .ok p →
      claimStaging env w p.staging = .ok w₁ → makeTemp host env (env.act .claimed w₁) = .error e →
      r = { world := env.act .claimed w₁, stores := claimStores p, result := .raised e } →
      Course host env jobId req w r
  | withTemp (p : Plan) (w₁ w₂ : World) (name : RandomName) :
      prepare host env w.fs jobId req = .ok p → claimStaging env w p.staging = .ok w₁ →
      makeTemp host env (env.act .claimed w₁) = .ok (w₂, name) →
      r = encodeWithTemp host env req p (env.act .tempMade w₂) name → Course host env jobId req w r

theorem runEncodeJob_course (host : Host) (env : Env) (jobId : PyStr) (req : EncodeRequest)
    (w : World) : Course host env jobId req w (runEncodeJob host env jobId req w) := by
  rw [runEncodeJob]
  cases hprepare : prepare host env w.fs jobId req with
  | error e => exact .refused e hprepare rfl
  | ok p =>
      dsimp only
      cases hclaim : claimStaging env w p.staging with
      | error e => exact .unclaimed p e hprepare hclaim rfl
      | ok w₁ =>
          dsimp only
          rw [encodeClaimed]
          cases htemp : makeTemp host env (env.act .claimed w₁) with
          | error e => exact .noTemp p w₁ e hprepare hclaim htemp rfl
          | ok made => exact .withTemp p w₁ made.1 made.2 hprepare hclaim htemp rfl

/-! ## What the plan fixes -/

/-- The three paths are entries of one directory, the source's. -/
structure Layout (p : Plan) where
  dir : AbsPath
  srcName : Name
  dstName : Name
  stagingName : Name
  srcIsName : IsName srcName
  dstIsName : IsName dstName
  stagingIsName : IsName stagingName
  src : p.src = (dir.child srcName srcIsName).str
  dst : p.dst = (dir.child dstName dstIsName).str
  staging : p.staging = (dir.child stagingName stagingIsName).str
  prefixed : outputPrefix <+: dstName
  distinct : stagingName ≠ dstName

theorem realpathCall_ok {host : Host} {fs : Fs} {path real : PyStr}
    (h : realpathCall host fs path = .ok real) : ∃ q : AbsPath, real = q.str := by
  rw [realpathCall] at h
  split at h
  · rename_i hreal
    cases h
    exact realpath_abs hreal
  · cases h
  · cases h

theorem pathCalls_normalised (host : Host) (fs : Fs) : (pathCalls host fs).Normalised :=
  fun _ _ h => realpathCall_ok h

/-- A regular file is not the root. -/
theorem isfile_child {fs : Fs} {q : AbsPath} (h : fs.isfile q.str = true) :
    ∃ (dir : AbsPath) (n : Name) (hn : IsName n), q = dir.child n hn := by
  rcases q.eq_child with hroot | hchild
  · have hstat : fs.stat q.str = .ok rootIno :=
      Fs.stat_ok.mpr ⟨[], by rw [AbsPath.components_str, hroot]; exact .done, rfl⟩
    rw [Fs.isfile, hstat] at h
    simp at h
  · exact hchild

/-- A plan has the source the validation returned, and the two paths derived from it. -/
theorem prepare_derives {host : Host} {env : Env} {fs : Fs} {jobId : PyStr} {req : EncodeRequest}
    {p : Plan} (h : prepare host env fs jobId req = .ok p) :
    validateSourcePath host.repr (pathCalls host fs) host.allowedRoots req.sourcePath = .ok p.src ∧
      ∃ extension, deriveOutputPath host.repr p.src jobId extension = .ok p.dst ∧
        deriveStagingPath host.repr p.src jobId extension env.token = .ok p.staging := by
  rw [prepare] at h
  obtain ⟨src, hsrc, h⟩ := except_bind_ok.mp h
  obtain ⟨preset, -, h⟩ := except_bind_ok.mp h
  obtain ⟨encoder, -, h⟩ := except_bind_ok.mp h
  obtain ⟨extension, -, h⟩ := except_bind_ok.mp h
  obtain ⟨dst, hdst, h⟩ := except_bind_ok.mp h
  obtain ⟨real, -, h⟩ := except_bind_ok.mp h
  split at h
  · cases h
  obtain ⟨staging, hstaging, h⟩ := except_bind_ok.mp h
  cases h
  exact ⟨hsrc, extension, hdst, hstaging⟩

theorem prepare_ok {host : Host} {env : Env} {fs : Fs} {jobId : PyStr} {req : EncodeRequest}
    {p : Plan} (h : prepare host env fs jobId req = .ok p) :
    fs.isfile p.src = true ∧ Nonempty (Layout p) := by
  obtain ⟨hsrc, extension, hdst, hstaging⟩ := prepare_derives h
  obtain ⟨hreal, hfile⟩ := validateSourcePath_ok hsrc
  obtain ⟨q, hq⟩ := realpathCall_ok hreal
  rw [hq] at hfile hdst hstaging ⊢
  obtain ⟨dir, n, hn, rfl⟩ := isfile_child hfile
  obtain ⟨hd, hdstEq⟩ := deriveOutputPath_ok hdst
  obtain ⟨hg, hstagingEq⟩ := deriveStagingPath_ok hstaging
  have hjoin : ∀ {m : Name} (hm : IsName m), join (dirname (dir.child n hn).str) m
      = (dir.child m hm).str := fun hm => by rw [AbsPath.dirname_child, AbsPath.join_child]
  exact ⟨hfile, ⟨{
    dir, srcName := n, dstName := _, stagingName := _
    srcIsName := hn, dstIsName := hd, stagingIsName := hg
    src := hq, dst := hdstEq.trans (hjoin hd), staging := hstagingEq.trans (hjoin hg)
    prefixed := ⟨jobId ++ '.' :: extension, by simp [outputName]⟩
    distinct := stagingName_ne_outputName jobId env.token extension }⟩⟩

/-- Once it is written, the file `--preset-import-file` names holds the document. -/
def Ships (req : EncodeRequest) (document : JDict) : Prop :=
  ∀ (host : Host) (env : Env) (w : World), env.fails .jsonDump = none →
    (writePreset host env req w).1.fs
      = w.fs.setNode env.tempIno (.file (host.dumps document))

/-- HandBrake imports the preset from the document of the request. -/
theorem writePreset_document (req : EncodeRequest) : Ships req req.presetJson := by
  intro host env w h
  simp only [writePreset, h]
  rfl

/-- The job's two paths lie beneath the root that admitted the source, unless the source is that
root: a regular file is not `/`. -/
theorem prepare_beneath {host : Host} {env : Env} {fs : Fs} {jobId : PyStr} {req : EncodeRequest}
    {p : Plan} (h : prepare host env fs jobId req = .ok p) :
    ∃ top, admittedBy (pathCalls host fs) p.src host.allowedRoots = some top
      ∧ ((Beneath p.dst top ∧ Beneath p.staging top) ↔ components p.src ≠ components top) := by
  obtain ⟨-, ⟨L⟩⟩ := prepare_ok h
  obtain ⟨top, htop⟩ := admittedBy_of_inRoots (inRoots_of_validateSourcePath (prepare_derives h).1)
  have hin := isWithin_of_admittedBy htop
  have hbeneath : ∀ {n : Name} (hn : IsName n), Beneath (L.dir.child n hn).str top
      ↔ components p.src ≠ components top := by
    intro n hn
    have hiff := sibling_beneath_iff hn (L.src ▸ hin)
    rw [AbsPath.dirname_child, AbsPath.join_child _ hn, ← L.src] at hiff
    rw [hiff, or_iff_left_of_imp]
    intro hroot heq
    rw [hroot, L.src, AbsPath.components_str] at heq
    exact absurd heq (List.concat_ne_nil _ _)
  refine ⟨top, htop, ?_⟩
  rw [L.dst, L.staging, hbeneath L.dstIsName, hbeneath L.stagingIsName]
  exact and_self_iff

end HandBrakeEncoder.Ops
