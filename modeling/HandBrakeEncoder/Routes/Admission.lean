/-
# `Routes.Admission` — the route and the job check alike

`POST /jobs` makes the checks of `run_encode_job` before it queues the job, so that
a mistake of the client is an answer and not a failed job.  On one disk the two
agree: what the route refuses as a mistake the job refuses too, and what the
route lets through gets as far as the claim of the staging file
(`admitted_iff_prepares`).  Only the encoder is the route's own affair: whether this
machine has it, and whether it takes the speed preset.
-/
import HandBrakeEncoder.Ops.Inside
import HandBrakeEncoder.Paths.Names
import HandBrakeEncoder.Routes.Checks

namespace HandBrakeEncoder.Routes

open Posix Paths Presets Ops Encoders

/-- The route looks at the settings and the disk that the job runs with. -/
structure SameWorld (checks : Checks) (host : Host) (fs : Fs) : Prop where
  repr : checks.repr = host.repr
  calls : checks.calls = pathCalls host fs
  allowedRoots : checks.allowedRoots = host.allowedRoots
  presetFrames : checks.presetFrames = host.presetFrames

/-- The probes raise nothing. -/
structure Probed (checks : Checks) : Prop where
  available : ∃ available, checks.available = .ok available
  presets : ∀ encoder, ∃ run, checks.probe encoder = .ok run

/-- The answer is about the encoder, not about the path or the preset document. -/
def Answer.AboutEncoder : Answer → Prop
  | .refused _ content _ =>
      content.get "code" = .str "encoder_unavailable".toList ∨
        content.get "code" = .str "invalid_video_preset".toList
  | .accepted _ | .serverError _ => False

variable {checks : Checks} {host : Host} {env : Env} {fs : Fs} {jobId path real extension : PyStr}
  {req : EncodeRequest} {p : Plan} {i d : Ino} {R : PyRepr} {frames : Nat} {preset : JDict}
  {encoder : PyStr}

theorem detail_code (code : String) (reason : PyStr) (more : JDict) :
    JDict.get (detail code reason ++ more) "code" = .str code.toList := rfl

theorem pathAnswer_not_aboutEncoder (e : PyExc) : ¬ (pathAnswer e).AboutEncoder := by
  cases e with
  | pathNotAllowed msg => exact fun h => h.elim (fun h => by cases h) (fun h => by cases h)
  | sourceNotFound msg => exact fun h => h.elim (fun h => by cases h) (fun h => by cases h)
  | _ => exact id

theorem presetAnswer_not_aboutEncoder (e : PyExc) : ¬ (presetAnswer e).AboutEncoder := by
  cases e with
  | presetError msg => exact fun h => h.elim (fun h => by cases h) (fun h => by cases h)
  | _ => exact id

theorem speedPresetAnswer_aboutEncoder {answer : Answer} (hprobed : Probed checks)
    (h : speedPresetAnswer checks req preset encoder = some answer) : answer.AboutEncoder := by
  obtain ⟨run, hrun⟩ := hprobed.presets encoder
  have hvalid : checks.encoderPresets encoder = .ok (probedPresets run encoder) := by
    rw [Checks.encoderPresets, hrun]
    rfl
  rw [speedPresetAnswer, hvalid] at h
  dsimp only at h
  split at h
  · cases h
    exact .inr (detail_code _ _ _)
  · cases h

/-- The extension of a preset is a safe token. -/
theorem presetExtension_safe (h : presetExtension R preset = .ok extension) :
    safeToken extension = true := by
  have hall : ∀ x ∈ formatToExtension, safeToken x.2 = true := by decide
  rw [presetExtension] at h
  split at h
  · rename_i hlookup
    cases h
    obtain ⟨before, after, hsplit, -⟩ := List.lookup_eq_some_iff.mp hlookup
    refine hall (R.toStr (preset.get "FileFormat"), extension) ?_
    rw [hsplit]
    exact List.mem_append_right _ List.mem_cons_self
  · cases h

theorem safeToken_noNul {token : PyStr} (h : safeToken token = true) : '\x00' ∉ token := by
  obtain ⟨-, hall⟩ := Bool.and_eq_true_iff.mp h
  exact fun hnul => absurd (List.all_eq_true.mp hall '\x00' hnul) (by decide)

theorem outputName_noNul (hid : safeToken jobId = true) (hext : safeToken extension = true) :
    '\x00' ∉ outputName jobId extension := by
  intro hmem
  rcases List.mem_append.mp hmem with hmem | hmem
  · rcases List.mem_append.mp hmem with hmem | hmem
    · exact absurd hmem (by decide)
    · exact safeToken_noNul hid hmem
  · rcases List.mem_cons.mp hmem with hdot | hmem
    · exact absurd hdot (by decide)
    · exact safeToken_noNul hext hmem

/-- The route has nothing against the path and the document exactly when both checks go through. -/
theorem refusal_aboutEncoder_iff (hprobed : Probed checks) :
    (∀ answer, refusal checks req = some answer → answer.AboutEncoder) ↔
      ∃ src preset encoder,
        validateSourcePath checks.repr checks.calls checks.allowedRoots req.sourcePath = .ok src ∧
          selectPreset checks.repr checks.presetFrames req = .ok (preset, encoder) := by
  obtain ⟨available, havailable⟩ := hprobed.available
  rw [refusal]
  cases hsrc : validateSourcePath checks.repr checks.calls checks.allowedRoots req.sourcePath with
  | error e =>
      refine ⟨fun h => absurd (h _ rfl) (pathAnswer_not_aboutEncoder e), ?_⟩
      rintro ⟨src, preset, encoder, hok, -⟩
      cases hok
  | ok src =>
      dsimp only
      cases hselect : selectPreset checks.repr checks.presetFrames req with
      | error e =>
          refine ⟨fun h => absurd (h _ rfl) (presetAnswer_not_aboutEncoder e), ?_⟩
          rintro ⟨src, preset, encoder, -, hok⟩
          cases hok
      | ok found =>
          refine ⟨fun _ => ⟨src, found.1, found.2, rfl, rfl⟩, fun _ answer h => ?_⟩
          rw [havailable] at h
          dsimp only at h
          split at h
          · cases h
            exact .inl (detail_code _ _ _)
          · exact speedPresetAnswer_aboutEncoder hprobed h

theorem selectPreset_iff : selectPreset R frames req = .ok (preset, encoder) ↔
    findPreset R frames req.presetJson req.presetName = .ok preset ∧
      presetEncoder R preset = .ok encoder ∧ ∃ extension, presetExtension R preset = .ok extension := by
  rw [selectPreset]
  constructor
  · intro h
    obtain ⟨found, hfound, h⟩ := except_bind_ok.mp h
    obtain ⟨named, hnamed, h⟩ := except_bind_ok.mp h
    obtain ⟨extension, hextension, h⟩ := except_bind_ok.mp h
    cases h
    exact ⟨hfound, hnamed, extension, hextension⟩
  · rintro ⟨hfound, hnamed, extension, hextension⟩
    refine except_bind_ok.mpr ⟨preset, hfound, ?_⟩
    refine except_bind_ok.mpr ⟨encoder, hnamed, ?_⟩
    exact except_bind_ok.mpr ⟨extension, hextension, rfl⟩

/-- The output path of a fresh id is free, and is not the source. -/
theorem realpath_output (hcwd : isAbs host.cwd = true)
    (hid : safeToken jobId = true) (hext : safeToken extension = true)
    (hfresh : ∀ d, fs.look (d, outputName jobId extension) = none)
    (hsrc : validateSourcePath host.repr (pathCalls host fs) host.allowedRoots path = .ok real)
    (hstat : fs.stat (join host.cwd path) = .ok i) :
    realpathCall host fs (join (dirname real) (outputName jobId extension))
        = .ok (join (dirname real) (outputName jobId extension)) ∧
      join (dirname real) (outputName jobId extension) ≠ real := by
  obtain ⟨hreal, hisfile⟩ := validateSourcePath_ok hsrc
  obtain ⟨trail, hat, rfl⟩ := realpathCall_at hcwd hreal hstat
  obtain ⟨data, hfile⟩ := file_of_isfile hisfile hat.stat
  obtain ⟨up, n, hn, hcomponents, hup, hupdir, hlook⟩ := file_parent hat hfile
  have hname : IsName (outputName jobId extension) := outputName_isName hid hext
  constructor
  · cases hframes : host.frames with
    | zero =>
        have hdeep : realpathCall host fs path = .error .recursionError := by
          rw [realpathCall, hframes]
          rfl
        cases hdeep.symm.trans hreal
    | succ depth =>
        rw [realpathCall, hframes,
          realpath_free host.cwd hup hname (outputName_noNul hid hext) hupdir (hfresh _)]
  · intro heq
    have hlast := hup.components_child hname
    rw [heq, hcomponents] at hlast
    obtain ⟨-, hsingle⟩ := List.append_inj' hlast rfl
    cases hsingle
    rw [hfresh] at hlook
    cases hlook

/-- **The route and the job check alike.**  For a fresh id, a requested path that the kernel
resolves on this disk, and probes that raise nothing: the job gets as far as the claim of its
staging file if and only if the route has nothing against the request but, perhaps, its encoder. -/
theorem admitted_iff_prepares (hsame : SameWorld checks host fs) (hprobed : Probed checks)
    (hcwd : isAbs host.cwd = true)
    (hid : safeToken jobId = true) (htoken : safeToken env.token = true)
    (hfresh : ∀ d extension, fs.look (d, outputName jobId extension) = none)
    (hstat : fs.stat (join host.cwd req.sourcePath) = .ok i) :
    (∃ p, prepare host env fs jobId req = .ok p) ↔
      ∀ answer, refusal checks req = some answer → answer.AboutEncoder := by
  rw [refusal_aboutEncoder_iff hprobed, hsame.repr, hsame.calls, hsame.allowedRoots,
    hsame.presetFrames]
  constructor
  · rintro ⟨p, h⟩
    rw [prepare] at h
    obtain ⟨src, hsrc, h⟩ := except_bind_ok.mp h
    obtain ⟨preset, hpreset, h⟩ := except_bind_ok.mp h
    obtain ⟨encoder, hencoder, h⟩ := except_bind_ok.mp h
    obtain ⟨extension, hextension, -⟩ := except_bind_ok.mp h
    refine ⟨src, preset, encoder, hsrc, selectPreset_iff.mpr ?_⟩
    exact ⟨hpreset, hencoder, extension, hextension⟩
  · rintro ⟨src, preset, encoder, hsrc, hselect⟩
    obtain ⟨hpreset, hencoder, extension, hextension⟩ := selectPreset_iff.mp hselect
    have hext := presetExtension_safe hextension
    obtain ⟨hreal, hne⟩ := realpath_output hcwd hid hext (fun d => hfresh d extension) hsrc hstat
    have hdst := deriveOutputPath_eq host.repr src ⟨jobId, hid⟩ ⟨extension, hext⟩
    have hstaging := deriveStagingPath_eq host.repr src ⟨jobId, hid⟩ ⟨extension, hext⟩
      ⟨env.token, htoken⟩
    refine ⟨⟨src, encoder, join (dirname src) (outputName jobId extension),
      join (dirname src) (stagingName jobId env.token extension)⟩, ?_⟩
    rw [prepare]
    refine except_bind_ok.mpr ⟨src, hsrc, ?_⟩
    refine except_bind_ok.mpr ⟨preset, hpreset, ?_⟩
    refine except_bind_ok.mpr ⟨encoder, hencoder, ?_⟩
    refine except_bind_ok.mpr ⟨extension, hextension, ?_⟩
    refine except_bind_ok.mpr ⟨_, hdst, ?_⟩
    refine except_bind_ok.mpr ⟨_, hreal, ?_⟩
    rw [if_neg hne]
    exact except_bind_ok.mpr ⟨_, hstaging, rfl⟩

/-- The route on the disk of the sample job, with x264 and no speed presets known. -/
def mediaChecks : Checks where
  repr := sampleHost.repr
  calls := pathCalls sampleHost mediaFs
  allowedRoots := sampleHost.allowedRoots
  presetFrames := sampleHost.presetFrames
  available := .ok ["x264".toList]
  probe _ := .ok (.completed 1 [] [])

theorem mediaFs_fresh (d : Ino) (extension : PyStr) :
    mediaFs.look (d, outputName "J".toList extension) = none := by
  have hnames : ∀ x ∈ mediaFs.entries, x.1.2.head? ≠ some '.' := by decide
  refine List.lookup_eq_none_iff.mpr fun x hx => ?_
  refine bne_iff_ne.mpr fun heq => hnames x hx ?_
  rw [← heq]
  rfl

/-- A film requested through a link into the root is admitted, and its job prepares. -/
theorem admitted_iff_prepares_linked :
    ∃ p, prepare sampleHost sampleEnv mediaFs "J".toList (sampleRequest "/in/movie.mkv".toList)
      = .ok p := by
  have hnone : refusal mediaChecks (sampleRequest "/in/movie.mkv".toList) = none := by
    decide +kernel
  have hsame : SameWorld mediaChecks sampleHost mediaFs := ⟨rfl, rfl, rfl, rfl⟩
  have hprobed : Probed mediaChecks := ⟨⟨_, rfl⟩, fun _ => ⟨_, rfl⟩⟩
  refine (admitted_iff_prepares hsame hprobed rfl (by decide) (by decide) mediaFs_fresh (i := 2)
    (by decide +kernel)).mpr ?_
  intro answer h
  cases hnone.symm.trans h

end HandBrakeEncoder.Routes
