/-
# `Presets` — reading a preset document

A preset document is a tree: a node with a truthy `Folder` holds its children
under `ChildrenArray`, every other node is a leaf and can be selected.  What is
not a list where a list is expected, or not a `dict` inside one, is passed over.

**The stack.**  `walk` calls itself for every folder, and each call takes a frame.
How many are left depends on the caller, so their number is a parameter; a call
that finds none raises `RecursionError`, and no preset of the document is found.
-/
import HandBrakeEncoder.Py
import HandBrakeEncoder.Lib.Text

namespace HandBrakeEncoder.Presets

/-- `_FORMAT_TO_EXTENSION`. -/
def formatToExtension : List (PyStr × PyStr) :=
  [("av_mkv".toList, "mkv".toList), ("av_mp4".toList, "mp4".toList),
    ("av_webm".toList, "webm".toList)]

mutual
/-- `walk(nodes)`, called with `frames` frames left on the stack: nothing unless `nodes` is a list. -/
def walk : ℕ → JVal → Except PyExc (List JDict)
  | 0, _ => .error .recursionError
  | frames + 1, .arr nodes => walkNodes frames nodes
  | _ + 1, .null | _ + 1, .bool _ | _ + 1, .num _ | _ + 1, .str _ | _ + 1, .obj _ => .ok []
/-- The loop of `walk`. -/
def walkNodes : ℕ → List JVal → Except PyExc (List JDict)
  | _, [] => .ok []
  | frames, .obj node :: nodes => do
      if (JDict.get node "Folder").truthy then
        let below ← walkChildren frames node
        return below ++ (← walkNodes frames nodes)
      else return node :: (← walkNodes frames nodes)
  | frames, .null :: nodes | frames, .bool _ :: nodes | frames, .num _ :: nodes
  | frames, .str _ :: nodes | frames, .arr _ :: nodes => walkNodes frames nodes
/-- `walk(node.get("ChildrenArray"))`; without the key it is `walk(None)`. -/
def walkChildren : ℕ → List (PyStr × JVal) → Except PyExc (List JDict)
  | 0, [] => .error .recursionError
  | _ + 1, [] => .ok []
  | frames, kv :: kvs =>
      if "ChildrenArray".toList == kv.1 then walk frames kv.2 else walkChildren frames kvs
end

/-- `iter_presets`; `frames` are left once it runs. -/
def iterPresets (frames : ℕ) (doc : JDict) : Except PyExc (List JDict) :=
  walk frames (doc.get "PresetList")

/-- `preset.get("PresetName") == name`. -/
def isNamed (name : PyStr) (preset : JDict) : Bool := (preset.get "PresetName").str? = some name

/-- `find_preset`. -/
def findPreset (R : PyRepr) (frames : ℕ) (doc : JDict) (name : PyStr) : Except PyExc JDict := do
  let presets ← iterPresets frames doc
  match presets.find? (isNamed name) with
  | some preset => return preset
  | none => throw (.presetError ("Preset not found in document: ".toList ++ R.str name))

/-- `preset_encoder`. -/
def presetEncoder (R : PyRepr) (preset : JDict) : Except PyExc PyStr :=
  match preset.get "VideoEncoder" with
  | .str (c :: encoder) => .ok (c :: encoder)
  | _ => .error (.presetError ("Preset ".toList ++ R.val (preset.get "PresetName")
      ++ " has no VideoEncoder field".toList))

/-- `preset_video_preset`: the stripped string, empty for anything else. -/
def presetVideoPreset (preset : JDict) : PyStr :=
  match preset.get "VideoPreset" with
  | .str value => Text.strip value
  | _ => []

/-- `preset_extension`. -/
def presetExtension (R : PyRepr) (preset : JDict) : Except PyExc PyStr :=
  let fileFormat := preset.get "FileFormat"
  match formatToExtension.lookup (R.toStr fileFormat) with
  | some extension => .ok extension
  | none => .error (.presetError ("Preset ".toList ++ R.val (preset.get "PresetName")
      ++ " has an unsupported or missing FileFormat: ".toList ++ R.val fileFormat
      ++ ". Known: ".toList ++ R.strs (formatToExtension.map Prod.fst)))

end HandBrakeEncoder.Presets
