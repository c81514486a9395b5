/-
# `Paths` — source paths admitted, output paths derived

Every requested path is resolved and must lie in an allowed root; the paths
written to are derived from the resolved source, the job id and the preset's
container, never taken from the request.

What asks the file system (`realpath`, `isfile`) is a parameter, `PathCalls`.
-/
import HandBrakeEncoder.Py
import HandBrakeEncoder.Lib.PosixPath

namespace HandBrakeEncoder.Paths

open Posix

/-- `OUTPUT_PREFIX`. -/
def outputPrefix : PyStr := ".hbenc-".toList

/-- A character of `[A-Za-z0-9_-]`. -/
def isTokenChar (c : Char) : Bool :=
  (('a' ≤ c && c ≤ 'z') || ('A' ≤ c && c ≤ 'Z') || ('0' ≤ c && c ≤ '9')) || c = '_' || c = '-'

/-- `_SAFE_TOKEN.match(token)`. -/
def safeToken (token : PyStr) : Bool := !token.isEmpty && token.all isTokenChar

def commonPrefix : List Name → List Name → List Name
  | a :: as, b :: bs => if a = b then a :: commonPrefix as bs else []
  | _, _ => []

/-- `os.path.commonpath` of two paths; `ValueError` when only one is absolute. -/
def commonpath (a b : PyStr) : Option PyStr :=
  if isAbs a ≠ isAbs b then none
  else some ((if isAbs a then ['/'] else [])
    ++ List.intercalate ['/'] (commonPrefix (components a) (components b)))

/-- `_is_within`. -/
def isWithin (candidate root : PyStr) : Bool := commonpath candidate root = some root

/-- What the validation asks the operating system. -/
structure PathCalls where
  realpath : PyStr → Except PyExc PyStr
  isfile : PyStr → Bool

/-- What `realpath` answers is an absolute path in normal form. -/
def PathCalls.Normalised (calls : PathCalls) : Prop :=
  ∀ path real, calls.realpath path = .ok real → ∃ p : AbsPath, real = p.str

/-- The loop over the roots. -/
def inRoots (calls : PathCalls) (real : PyStr) : List PyStr → Except PyExc Bool
  | [] => .ok false
  | root :: roots =>
      match calls.realpath root with
      | .error e => .error e
      | .ok resolved => if isWithin real resolved then .ok true else inRoots calls real roots

def notConfigured : PyExc :=
  .pathNotAllowed "No allowed roots are configured; set ENCODER_ALLOWED_ROOTS.".toList

def outsideRoots (R : PyRepr) (allowed : List PyStr) (path : PyStr) : PyExc :=
  .pathNotAllowed ("Path is outside the allowed roots ".toList ++ R.strs allowed ++ ": ".toList
    ++ path)

def sourceNotFound (path : PyStr) : PyExc :=
  .sourceNotFound ("Source not found on encoder: ".toList ++ path
    ++ ". Both machines must mount the media share at identical in-container paths.".toList)

/-- `validate_source_path`. -/
def validateSourcePath (R : PyRepr) (calls : PathCalls) (allowed : List PyStr) (path : PyStr) :
    Except PyExc PyStr :=
  if allowed.isEmpty then .error notConfigured
  else
    match calls.realpath path with
    | .error e =>
        .error (if e.isValueError then .pathNotAllowed ("Invalid source path: ".toList ++ R.str path)
          else e)
    | .ok real =>
        match inRoots calls real allowed with
        | .error e => .error e
        | .ok false => .error (outsideRoots R allowed path)
        | .ok true => if calls.isfile real then .ok real else .error (sourceNotFound path)

/-- The loop over labelled tokens: the first that is not safe is refused. -/
def checkTokens (R : PyRepr) : List (String × PyStr) → Except PyExc Unit
  | [] => .ok ()
  | (label, token) :: rest =>
      if safeToken token then checkTokens R rest
      else .error (.pathNotAllowed ("Invalid ".toList ++ label.toList ++ ": ".toList ++ R.str token))

def outputName (jobId extension : PyStr) : PyStr := outputPrefix ++ jobId ++ '.' :: extension

def stagingName (jobId token extension : PyStr) : PyStr :=
  outputPrefix ++ jobId ++ '-' :: token ++ '.' :: extension

/-- `derive_output_path`. -/
def deriveOutputPath (R : PyRepr) (source jobId extension : PyStr) : Except PyExc PyStr :=
  match checkTokens R [("job id", jobId), ("extension", extension)] with
  | .error e => .error e
  | .ok () => .ok (join (dirname source) (outputName jobId extension))

/-- `derive_staging_path`. -/
def deriveStagingPath (R : PyRepr) (source jobId extension token : PyStr) : Except PyExc PyStr :=
  match checkTokens R [("job id", jobId), ("extension", extension), ("token", token)] with
  | .error e => .error e
  | .ok () => .ok (join (dirname source) (stagingName jobId token extension))

/-! ## What an accepted path is -/

/-- An accepted source is a resolved path and names an existing regular file. -/
theorem validateSourcePath_ok {R : PyRepr} {calls : PathCalls} {allowed : List PyStr}
    {path real : PyStr} (h : validateSourcePath R calls allowed path = .ok real) :
    calls.realpath path = .ok real ∧ calls.isfile real = true := by
  rw [validateSourcePath] at h
  split at h
  · cases h
  split at h
  · cases h
  rename_i r hr
  split at h
  · cases h
  · cases h
  split at h
  · rename_i hfile
    cases h
    exact ⟨hr, hfile⟩
  · cases h

theorem checkTokens_ok {R : PyRepr} {tokens : List (String × PyStr)}
    (h : checkTokens R tokens = .ok ()) : ∀ lt ∈ tokens, safeToken lt.2 = true := by
  induction tokens with
  | nil => exact fun _ hlt => absurd hlt List.not_mem_nil
  | cons lt rest ih =>
      rw [checkTokens] at h
      split at h
      · rename_i hsafe
        intro lt' hlt'
        rcases List.mem_cons.mp hlt' with rfl | hlt'
        · exact hsafe
        · exact ih h lt' hlt'
      · cases h

theorem safeToken_noSlash {token : PyStr} (h : safeToken token = true) : '/' ∉ token := by
  obtain ⟨-, hall⟩ := Bool.and_eq_true_iff.mp h
  exact fun hslash => absurd (List.all_eq_true.mp hall '/' hslash) (by decide)

/-- A name that starts with the prefix and has no slash is the name of an entry. -/
theorem isName_of_prefix {rest : PyStr} (h : '/' ∉ rest) : IsName (outputPrefix ++ rest) where
  nonempty := nofun
  notDot := nofun
  notDotdot := nofun
  noSlash := by
    intro hslash
    rcases List.mem_append.mp hslash with hprefix | hrest
    · exact absurd hprefix (by decide)
    · exact h hrest

theorem outputName_isName {jobId extension : PyStr} (hj : safeToken jobId = true)
    (he : safeToken extension = true) : IsName (outputName jobId extension) := by
  have hslash : '/' ∉ jobId ++ '.' :: extension := by
    simp [safeToken_noSlash hj, safeToken_noSlash he]
  simpa [outputName] using isName_of_prefix hslash

theorem stagingName_isName {jobId token extension : PyStr} (hj : safeToken jobId = true)
    (ht : safeToken token = true) (he : safeToken extension = true) :
    IsName (stagingName jobId token extension) := by
  have hslash : '/' ∉ jobId ++ '-' :: token ++ '.' :: extension := by
    simp [safeToken_noSlash hj, safeToken_noSlash ht, safeToken_noSlash he]
  simpa [stagingName] using isName_of_prefix hslash

/-- With the same job id and extension, the two names differ by the token. -/
theorem stagingName_ne_outputName (jobId token extension : PyStr) :
    stagingName jobId token extension ≠ outputName jobId extension := by
  intro h
  have hlen := congrArg List.length h
  simp only [stagingName, outputName, List.length_append, List.length_cons] at hlen
  omega

theorem deriveOutputPath_ok {R : PyRepr} {source jobId extension dst : PyStr}
    (h : deriveOutputPath R source jobId extension = .ok dst) :
    IsName (outputName jobId extension)
      ∧ dst = join (dirname source) (outputName jobId extension) := by
  rw [deriveOutputPath] at h
  split at h
  · cases h
  · rename_i hok
    have hsafe := checkTokens_ok hok
    cases h
    exact ⟨outputName_isName (hsafe ("job id", jobId) (by simp))
      (hsafe ("extension", extension) (by simp)), rfl⟩

theorem deriveStagingPath_ok {R : PyRepr} {source jobId extension token staging : PyStr}
    (h : deriveStagingPath R source jobId extension token = .ok staging) :
    IsName (stagingName jobId token extension)
      ∧ staging = join (dirname source) (stagingName jobId token extension) := by
  rw [deriveStagingPath] at h
  split at h
  · cases h
  · rename_i hok
    have hsafe := checkTokens_ok hok
    cases h
    exact ⟨stagingName_isName (hsafe ("job id", jobId) (by simp)) (hsafe ("token", token) (by simp))
      (hsafe ("extension", extension) (by simp)), rfl⟩

end HandBrakeEncoder.Paths
