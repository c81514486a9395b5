/-
# `Routes.Checks` — what `POST /jobs` decides before it submits

The route validates the path, selects the preset and reads its encoder,
extension and speed preset, and asks the probes whether this build has the
encoder and the encoder the speed preset.  Each refusal is an `Answer` with its
status code and content.

    403 path_not_allowed              404 source_not_found_on_encoder
    400 preset_not_found              409 encoder_unavailable
    400 invalid_video_preset

**Two readings of one field.**  The speed preset is compared after `strip`; the
document goes to HandBrake as it came.
-/
import HandBrakeEncoder.Jobs.Manager
import HandBrakeEncoder.Ops.Encode
import HandBrakeEncoder.Encoders.Parse

namespace HandBrakeEncoder.Routes

open Jobs Ops Paths Presets Encoders

/-- The response of `POST /jobs`; `serverError` is an exception no handler of the route takes. -/
inductive Answer
  | accepted (jobId : JobId)
  | refused (statusCode : Nat) (content : JDict) (headers : List (String × String))
  | serverError (e : PyExc)

/-- `{"code": code, "reason": reason}`. -/
def detail (code : String) (reason : PyStr) : JDict :=
  [("code".toList, .str code.toList), ("reason".toList, .str reason)]

/-- The settings and the environment the route reads, and the frames left for `iter_presets`.  A
probe answers, or raises what `available_encoders` and `encoder_presets` let through: output that
does not decode, a name that cannot be an argument. -/
structure Checks where
  repr : PyRepr
  calls : PathCalls
  allowedRoots : List PyStr
  presetFrames : Nat
  available : Except PyExc (List PyStr)
  probe : PyStr → Except PyExc ProbeRun

/-- `encoder_presets`. -/
def Checks.encoderPresets (checks : Checks) (encoder : PyStr) : Except PyExc (List PyStr) := do
  let run ← checks.probe encoder
  return probedPresets run encoder

/-- `except PathNotAllowed` and `except SourceNotFound`. -/
def pathAnswer : PyExc → Answer
  | .pathNotAllowed msg => .refused 403 (detail "path_not_allowed" msg) []
  | .sourceNotFound msg => .refused 404 (detail "source_not_found_on_encoder" msg) []
  | e => .serverError e

/-- `except PresetError`. -/
def presetAnswer : PyExc → Answer
  | .presetError msg => .refused 400 (detail "preset_not_found" msg) []
  | e => .serverError e

/-- The `try` block around `find_preset`: the preset and its encoder. -/
def selectPreset (R : PyRepr) (frames : Nat) (req : EncodeRequest) :
    Except PyExc (JDict × PyStr) := do
  let preset ← findPreset R frames req.presetJson req.presetName
  let encoder ← presetEncoder R preset
  let _ ← presetExtension R preset
  return (preset, encoder)

def encoderUnavailable (checks : Checks) (req : EncodeRequest) (encoder : PyStr)
    (available : List PyStr) : Answer :=
  .refused 409
    (detail "encoder_unavailable"
      ("Preset ".toList ++ checks.repr.str req.presetName ++ " needs encoder ".toList
        ++ checks.repr.str encoder ++ ", which this build does not provide. Available: ".toList
        ++ checks.repr.strs available)
      ++ [("encoder".toList, .str encoder)])
    []

def invalidVideoPreset (checks : Checks) (req : EncodeRequest) (encoder videoPreset : PyStr)
    (validPresets : List PyStr) : Answer :=
  .refused 400
    (detail "invalid_video_preset"
      ("Preset ".toList ++ checks.repr.str req.presetName ++ " asks for speed preset ".toList
        ++ checks.repr.str videoPreset ++ ", which encoder ".toList ++ checks.repr.str encoder
        ++ " does not accept. Valid: ".toList ++ checks.repr.strs validPresets)
      ++ [("encoder".toList, .str encoder), ("video_preset".toList, .str videoPreset),
        ("valid_presets".toList, .arr (validPresets.map .str))])
    []

/-- The test of the speed preset; an empty list of valid ones means that nothing is known. -/
def speedPresetAnswer (checks : Checks) (req : EncodeRequest) (preset : JDict) (encoder : PyStr) :
    Option Answer :=
  let videoPreset := presetVideoPreset preset
  match checks.encoderPresets encoder with
  | .error e => some (.serverError e)
  | .ok validPresets =>
      if videoPreset ≠ [] ∧ validPresets ≠ [] ∧ videoPreset ∉ validPresets then
        some (invalidVideoPreset checks req encoder videoPreset validPresets)
      else none

/-- `post_job` up to the submission: the answer it raises, if it raises one. -/
def refusal (checks : Checks) (req : EncodeRequest) : Option Answer :=
  match validateSourcePath checks.repr checks.calls checks.allowedRoots req.sourcePath with
  | .error e => some (pathAnswer e)
  | .ok _ =>
      match selectPreset checks.repr checks.presetFrames req with
      | .error e => some (presetAnswer e)
      | .ok (preset, encoder) =>
          match checks.available with
          | .error e => some (.serverError e)
          | .ok available =>
              if encoder ∉ available then some (encoderUnavailable checks req encoder available)
              else speedPresetAnswer checks req preset encoder

/-! ## What a refusal is not -/

/-- Neither an acceptance nor a 503. -/
def Answer.Early : Answer → Prop
  | .refused statusCode _ _ => statusCode ≠ 503
  | .serverError _ => True
  | .accepted _ => False

theorem pathAnswer_early (e : PyExc) : (pathAnswer e).Early := by
  cases e with
  | pathNotAllowed msg => exact fun h => by cases h
  | sourceNotFound msg => exact fun h => by cases h
  | _ => exact trivial

theorem presetAnswer_early (e : PyExc) : (presetAnswer e).Early := by
  cases e with
  | presetError msg => exact fun h => by cases h
  | _ => exact trivial

theorem speedPresetAnswer_early {checks : Checks} {req : EncodeRequest} {preset : JDict}
    {encoder : PyStr} {answer : Answer}
    (h : speedPresetAnswer checks req preset encoder = some answer) : answer.Early := by
  simp only [speedPresetAnswer] at h
  split at h
  · cases h
    trivial
  · split at h
    · cases h
      exact fun h => by cases h
    · cases h

/-- The checks raise no 503. -/
theorem refusal_early {checks : Checks} {req : EncodeRequest} {answer : Answer}
    (h : refusal checks req = some answer) : answer.Early := by
  rw [refusal] at h
  split at h
  · cases h
    exact pathAnswer_early _
  · split at h
    · cases h
      exact presetAnswer_early _
    · split at h
      · cases h
        trivial
      · split at h
        · cases h
          exact fun h => by cases h
        · exact speedPresetAnswer_early h

/-! ## The speed preset -/

theorem speedPresetAnswer_none {checks : Checks} {req : EncodeRequest} {preset : JDict}
    {encoder : PyStr} (h : speedPresetAnswer checks req preset encoder = none) :
    ∃ validPresets, checks.encoderPresets encoder = .ok validPresets ∧
      (presetVideoPreset preset ≠ [] → validPresets ≠ [] → presetVideoPreset preset ∈ validPresets) := by
  simp only [speedPresetAnswer] at h
  split at h
  · cases h
  · rename_i validPresets hvalid
    refine ⟨validPresets, hvalid, fun hne hvalidne => ?_⟩
    by_contra hnot
    rw [if_pos ⟨hne, hvalidne, hnot⟩] at h
    cases h

/-- An admitted request has a preset, and its speed preset is empty, unchecked or listed. -/
theorem refusal_none {checks : Checks} {req : EncodeRequest} (h : refusal checks req = none) :
    ∃ preset encoder available validPresets,
      selectPreset checks.repr checks.presetFrames req = .ok (preset, encoder)
      ∧ checks.available = .ok available ∧ encoder ∈ available
      ∧ checks.encoderPresets encoder = .ok validPresets
      ∧ (presetVideoPreset preset ≠ [] → validPresets ≠ [] →
        presetVideoPreset preset ∈ validPresets) := by
  rw [refusal] at h
  split at h
  · cases h
  · split at h
    · cases h
    · rename_i preset encoder hselect
      split at h
      · cases h
      · rename_i available havailable
        split at h
        · cases h
        · rename_i hmem
          obtain ⟨validPresets, hvalid, hlisted⟩ := speedPresetAnswer_none h
          exact ⟨preset, encoder, available, validPresets, hselect, havailable, not_not.mp hmem,
            hvalid, hlisted⟩

theorem selectPreset_ok {R : PyRepr} {frames : Nat} {req : EncodeRequest} {preset : JDict}
    {encoder : PyStr} (h : selectPreset R frames req = .ok (preset, encoder)) :
    findPreset R frames req.presetJson req.presetName = .ok preset
      ∧ presetEncoder R preset = .ok encoder := by
  rw [selectPreset] at h
  obtain ⟨found, hfound, h⟩ := except_bind_ok.mp h
  obtain ⟨named, hnamed, h⟩ := except_bind_ok.mp h
  obtain ⟨extension, -, h⟩ := except_bind_ok.mp h
  cases h
  exact ⟨hfound, hnamed⟩

/-- Of an admitted request whose speed preset was checked, the raw value is one the encoder lists
exactly when it is its own strip. -/
theorem refusal_speed_preset {checks : Checks} {req : EncodeRequest} {preset : JDict}
    {encoder raw : PyStr} {validPresets : List PyStr} (hnone : refusal checks req = none)
    (hpreset : findPreset checks.repr checks.presetFrames req.presetJson req.presetName = .ok preset)
    (hencoder : presetEncoder checks.repr preset = .ok encoder)
    (hvalid : checks.encoderPresets encoder = .ok validPresets) (hne : validPresets ≠ [])
    (hraw : preset.get "VideoPreset" = .str raw) (hblank : ∃ c ∈ raw, Text.isSpace c = false) :
    raw ∈ validPresets ↔ Text.strip raw = raw := by
  obtain ⟨preset', encoder', _, validPresets', hselect, -, -, hvalid', hlisted⟩ := refusal_none hnone
  obtain ⟨hfound, hnamed⟩ := selectPreset_ok hselect
  rw [hpreset] at hfound
  cases hfound
  rw [hencoder] at hnamed
  cases hnamed
  rw [hvalid] at hvalid'
  cases hvalid'
  have hvideo : presetVideoPreset preset = Text.strip raw := by
    rw [presetVideoPreset, hraw]
  rw [hvideo] at hlisted
  obtain ⟨c, hmem, hc⟩ := hblank
  constructor
  · intro hin
    rw [Checks.encoderPresets] at hvalid
    obtain ⟨run, -, hrun⟩ := except_bind_ok.mp hvalid
    cases hrun
    exact Text.strip_of_no_space (probedPresets_no_space hin)
  · intro hstrip
    have hin := hlisted (Text.strip_ne_nil hmem hc) hne
    rw [hstrip] at hin
    exact hin

/-- A request whose one preset asks for x264 at the given speed. -/
def speedRequest (speed : PyStr) : EncodeRequest where
  sourcePath := "/media1/movie.mkv".toList
  presetJson := [("PresetList".toList, .arr [.obj [("PresetName".toList, .str "P1".toList),
    ("VideoEncoder".toList, .str "x264".toList), ("FileFormat".toList, .str "av_mkv".toList),
    ("VideoPreset".toList, .str speed)]])]
  presetName := "P1".toList

/-- The list of x264 as HandBrake prints it. -/
def presetsRun : ProbeRun :=
  .completed 0 []
    "Available --encoder-preset values for 'x264' encoder:\n    veryfast\n    fast\n".toList

theorem probedPresets_presetsRun :
    probedPresets presetsRun "x264".toList = ["veryfast".toList, "fast".toList] := by
  decide +kernel

def sampleChecks : Checks where
  repr := sampleRepr
  calls := linkless ["/media1/movie.mkv".toList]
  allowedRoots := ["/media1".toList]
  presetFrames := 900
  available := .ok ["x264".toList]
  probe _ := .ok presetsRun

theorem sampleChecks_presets :
    sampleChecks.encoderPresets "x264".toList = .ok ["veryfast".toList, "fast".toList] :=
  congrArg Except.ok probedPresets_presetsRun

theorem fast_checked : refusal sampleChecks (speedRequest "fast".toList) = none := by
  decide +kernel

theorem spaced_checked : refusal sampleChecks (speedRequest " fast".toList) = none := by
  decide +kernel

example : (refusal sampleChecks (speedRequest "balanced".toList)).isSome = true := by
  decide +kernel

end HandBrakeEncoder.Routes
