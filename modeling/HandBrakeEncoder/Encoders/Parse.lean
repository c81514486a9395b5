/-
# `Encoders.Parse` — the encoders and speed presets HandBrake prints

`HandBrakeCLI --help` lists the encoders below the flag `-e, --encoder`, and
`--encoder-preset-list` prints a header that names the encoder and below it the
presets; either way each value is alone on an indented line.  The patterns of the
module are functions on one line; a value is a run of non-space characters.

    Available --encoder-preset values for 'x264' encoder:
        ultrafast
        superfast

Which characters `\b` takes for letters is a table of the `re` module, here the
parameter `isWord`.
-/
import HandBrakeEncoder.Py
import HandBrakeEncoder.Lib.Text

namespace HandBrakeEncoder.Encoders

open Text

/-- `_INDENTED_VALUE.match(line)`, with its group: `^\s{4,}(\S+)\s*$`. -/
def indentedValue (line : PyStr) : Option PyStr :=
  let rest := line.dropWhile isSpace
  let value := rest.takeWhile (fun c => !isSpace c)
  if 4 ≤ (line.takeWhile isSpace).length && value ≠ []
      && (rest.dropWhile (fun c => !isSpace c)).all isSpace then
    some value
  else none

/-- `_ENCODER_FLAG.match(line)`: `^\s*-e,\s*--encoder\b`. -/
def encoderFlag (isWord : Char → Bool) (line : PyStr) : Bool :=
  match (line.dropWhile isSpace).dropPrefix? "-e,".toList with
  | none => false
  | some rest =>
      match (rest.dropWhile isSpace).dropPrefix? "--encoder".toList with
      | none => false
      | some rest => !rest.head?.any isWord

/-- `_ANY_FLAG.match(line)`: `^\s*-`. -/
def anyFlag (line : PyStr) : Bool := (line.dropWhile isSpace).head? == some '-'

/-- The loop of `parse_encoder_list` once it is collecting: up to the next flag. -/
def collectEncoders : List PyStr → List PyStr
  | [] => []
  | line :: lines =>
      if anyFlag line then []
      else
        match indentedValue line with
        | some value => value :: collectEncoders lines
        | none => collectEncoders lines

/-- The loop of `parse_encoder_list` before it is collecting. -/
def afterFlag (isWord : Char → Bool) : List PyStr → List PyStr
  | [] => []
  | line :: lines =>
      if encoderFlag isWord line then collectEncoders lines else afterFlag isWord lines

/-- `parse_encoder_list`. -/
def parseEncoderList (isWord : Char → Bool) (output : PyStr) : List PyStr :=
  afterFlag isWord (splitlines output)

/-- `_PRESET_HEADER.match(line)`, with its group: the text up to the next quote. -/
def presetHeader (line : PyStr) : Option PyStr :=
  match line.dropPrefix? "Available --encoder-preset values for '".toList with
  | none => none
  | some rest =>
      let encoder := rest.takeWhile (· ≠ '\'')
      match (rest.dropWhile (· ≠ '\'')).dropPrefix? "' encoder:".toList with
      | none => none
      | some _ => some encoder

/-- The loop of `parse_preset_list` once it is collecting: up to the first line not indented. -/
def collectPresets : List PyStr → List PyStr
  | [] => []
  | line :: lines =>
      if strip line = [] then collectPresets lines
      else if line.head? ≠ some ' ' then []
      else
        match indentedValue line with
        | some value => value :: collectPresets lines
        | none => collectPresets lines

/-- The loop of `parse_preset_list` before it is collecting. -/
def afterHeader (encoder : PyStr) : List PyStr → List PyStr
  | [] => []
  | line :: lines =>
      match presetHeader line with
      | some named => if named ≠ encoder then [] else collectPresets lines
      | none => afterHeader encoder lines

/-- `parse_preset_list`. -/
def parsePresetList (output encoder : PyStr) : List PyStr := afterHeader encoder (splitlines output)

/-- How the `subprocess.run` of a probe ended. -/
inductive ProbeRun
  | failed
  | completed (returncode : ℤ) (stdout stderr : PyStr)

/-- The list a probe for the encoders gives, which `available_encoders` returns and caches. -/
def probedEncoders (isWord : Char → Bool) (run : ProbeRun) : List PyStr :=
  match run with
  | .failed => []
  | .completed returncode stdout stderr =>
      if returncode = 0 then parseEncoderList isWord (stdout ++ stderr) else []

/-- The list a probe for an encoder gives, which `encoder_presets` returns and caches. -/
def probedPresets (run : ProbeRun) (encoder : PyStr) : List PyStr :=
  match run with
  | .failed => []
  | .completed returncode stdout stderr =>
      if returncode = 0 then parsePresetList (stdout ++ stderr) encoder else []

/-! ## A listed preset has no whitespace -/

theorem indentedValue_no_space {line value : PyStr} (h : indentedValue line = some value) :
    ∀ c ∈ value, isSpace c = false := by
  intro c hc
  simp only [indentedValue] at h
  split at h
  · cases h
    simpa using List.mem_takeWhile_imp hc
  · cases h

theorem collectPresets_no_space {lines : List PyStr} {value : PyStr}
    (h : value ∈ collectPresets lines) : ∀ c ∈ value, isSpace c = false := by
  induction lines with
  | nil =>
      cases h
  | cons line lines ih =>
      rw [collectPresets] at h
      split at h
      · exact ih h
      · split at h
        · cases h
        · split at h
          · rename_i found hfound
            rcases List.mem_cons.mp h with rfl | hrest
            · exact indentedValue_no_space hfound
            · exact ih hrest
          · exact ih h

theorem afterHeader_no_space {encoder value : PyStr} {lines : List PyStr}
    (h : value ∈ afterHeader encoder lines) : ∀ c ∈ value, isSpace c = false := by
  induction lines with
  | nil =>
      cases h
  | cons line lines ih =>
      rw [afterHeader] at h
      split at h
      · split at h
        · cases h
        · exact collectPresets_no_space h
      · exact ih h

theorem probedPresets_no_space {run : ProbeRun} {encoder value : PyStr}
    (h : value ∈ probedPresets run encoder) : ∀ c ∈ value, isSpace c = false := by
  cases run with
  | failed =>
      cases h
  | completed returncode stdout stderr =>
      by_cases hcode : returncode = 0
      · rw [probedPresets, if_pos hcode] at h
        exact afterHeader_no_space h
      · rw [probedPresets, if_neg hcode] at h
        cases h

end HandBrakeEncoder.Encoders
