/-
# `Presets.Paths` — where the presets of a document stand

A node is addressed by the indices that lead to it, first into `PresetList` and
then into one `ChildrenArray` after another.  A path is a leaf path when every
node passed on the way is a folder with children and the node it ends at is none.
`iter_presets` lists the nodes at the leaf paths in the lexicographic order of the
paths, so `find_preset` takes the first in that order.

Each folder takes a frame of the stack, whether it holds a preset or not: all of
this is so exactly when the stack is as deep as the folders are nested.
-/
import HandBrakeEncoder.Presets
import HandBrakeEncoder.Lib.Listing

namespace HandBrakeEncoder.Presets

open Lib

/-- The nodes of a list node; of anything else, none. -/
def nodesOf : JVal → List JVal
  | .arr nodes => nodes
  | .null | .bool _ | .num _ | .str _ | .obj _ => []

/-- The node a path of indices leads to. -/
def nodeAt (nodes : List JVal) : List ℕ → Option JVal
  | [] => none
  | [i] => nodes[i]?
  | i :: path =>
      match nodes[i]? with
      | some (.obj node) => nodeAt (nodesOf (JDict.get node "ChildrenArray")) path
      | _ => none

/-- `bool(node.get("Folder"))`. -/
def isFolder (node : JDict) : Bool := (node.get "Folder").truthy

/-- `path` ends at the leaf `preset`, and every node passed is a folder with children. -/
structure LeafPath (nodes : List JVal) (path : List ℕ) (preset : JDict) : Prop where
  ends : nodeAt nodes path = some (.obj preset)
  leaf : isFolder preset = false
  passed : ∀ front, front ≠ [] → front <+: path → front ≠ path →
    ∃ (folder : JDict) (children : List JVal), nodeAt nodes front = some (.obj folder) ∧
      isFolder folder = true ∧ folder.get "ChildrenArray" = .arr children

/-! ## A path, one index at a time -/

theorem nodeAt_cons {nodes : List JVal} {i : ℕ} {node : JDict} {path : List ℕ}
    (hi : nodes[i]? = some (.obj node)) (hpath : path ≠ []) :
    nodeAt nodes (i :: path) = nodeAt (nodesOf (node.get "ChildrenArray")) path := by
  cases path with
  | nil =>
      exact absurd rfl hpath
  | cons k path =>
      rw [nodeAt, hi]
      intro h
      cases h

theorem eq_arr_of_nodeAt {v : JVal} {path : List ℕ} {node : JVal}
    (h : nodeAt (nodesOf v) path = some node) : ∃ nodes, v = .arr nodes := by
  cases v with
  | arr nodes =>
      exact ⟨nodes, rfl⟩
  | null | bool _ | num _ | str _ | obj _ =>
      rcases path with _ | ⟨i, _ | ⟨k, path⟩⟩
      · cases h
      · cases h
      · cases h

theorem not_leafPath_nil {nodes : List JVal} {preset : JDict} : ¬ LeafPath nodes [] preset := by
  intro h
  cases h.ends

theorem leafPath_singleton {nodes : List JVal} {i : ℕ} {preset : JDict} :
    LeafPath nodes [i] preset ↔ nodes[i]? = some (.obj preset) ∧ isFolder preset = false := by
  constructor
  · intro h
    exact ⟨h.ends, h.leaf⟩
  · rintro ⟨hi, hleaf⟩
    refine ⟨hi, hleaf, ?_⟩
    intro front hne hfront hproper
    rcases List.prefix_cons_iff.mp hfront with rfl | ⟨rest, rfl, hrest⟩
    · exact absurd rfl hne
    · rw [List.prefix_nil.mp hrest] at hproper
      exact absurd rfl hproper

/-- A longer path goes through a folder, and on from its children. -/
theorem leafPath_cons {nodes : List JVal} {i : ℕ} {path : List ℕ} {preset : JDict}
    (hpath : path ≠ []) :
    LeafPath nodes (i :: path) preset ↔
      ∃ folder : JDict, nodes[i]? = some (.obj folder) ∧ isFolder folder = true ∧
        LeafPath (nodesOf (folder.get "ChildrenArray")) path preset := by
  constructor
  · intro h
    obtain ⟨folder, children, hi, hfolder, hchildren⟩ :=
      h.passed [i] (List.cons_ne_nil _ _) (List.prefix_append [i] path) (by simpa using hpath.symm)
    have hgo : ∀ {front : List ℕ}, front ≠ [] → nodeAt nodes (i :: front) = _ := nodeAt_cons hi
    refine ⟨folder, hi, hfolder, ⟨?_, h.leaf, ?_⟩⟩
    · rw [← hgo hpath]
      exact h.ends
    · intro front hne hfront hproper
      rw [← hgo hne]
      exact h.passed (i :: front) (List.cons_ne_nil _ _) (List.cons_prefix_cons.mpr ⟨rfl, hfront⟩)
        (by simpa using hproper)
  · rintro ⟨folder, hi, hfolder, h⟩
    have hgo : ∀ {front : List ℕ}, front ≠ [] → nodeAt nodes (i :: front) = _ := nodeAt_cons hi
    refine ⟨?_, h.leaf, ?_⟩
    · rw [hgo hpath]
      exact h.ends
    · intro front hne hfront hproper
      rcases List.prefix_cons_iff.mp hfront with rfl | ⟨rest, rfl, hrest⟩
      · exact absurd rfl hne
      · rcases eq_or_ne rest [] with rfl | hrestne
        · obtain ⟨children, hchildren⟩ := eq_arr_of_nodeAt h.ends
          exact ⟨folder, children, hi, hfolder, hchildren⟩
        · rw [hgo hrestne]
          exact h.passed rest hrestne hrest (by simpa using hproper)

/-- The path to a node that is no folder ends there. -/
theorem leafPath_of_leaf {nodes : List JVal} {i : ℕ} {path : List ℕ} {node preset : JDict}
    (hi : nodes[i]? = some (.obj node)) (hleaf : isFolder node = false) :
    LeafPath nodes (i :: path) preset ↔ path = [] ∧ preset = node := by
  rcases eq_or_ne path [] with rfl | hpath
  · rw [leafPath_singleton, hi]
    constructor
    · rintro ⟨heq, _⟩
      cases heq
      exact ⟨rfl, rfl⟩
    · rintro ⟨_, rfl⟩
      exact ⟨rfl, hleaf⟩
  · rw [leafPath_cons hpath]
    constructor
    · rintro ⟨folder, hfolder, htrue, _⟩
      rw [hi] at hfolder
      cases hfolder
      rw [hleaf] at htrue
      cases htrue
    · rintro ⟨hnil, _⟩
      exact absurd hnil hpath

/-- The path to a folder goes on among its children. -/
theorem leafPath_of_folder {nodes : List JVal} {i : ℕ} {path : List ℕ} {node preset : JDict}
    (hi : nodes[i]? = some (.obj node)) (hfolder : isFolder node = true) :
    LeafPath nodes (i :: path) preset ↔
      LeafPath (nodesOf (node.get "ChildrenArray")) path preset := by
  rcases eq_or_ne path [] with rfl | hpath
  · rw [leafPath_singleton, hi]
    constructor
    · rintro ⟨heq, hleaf⟩
      cases heq
      rw [hfolder] at hleaf
      cases hleaf
    · intro h
      exact absurd h not_leafPath_nil
  · rw [leafPath_cons hpath, hi]
    constructor
    · rintro ⟨folder, heq, _, h⟩
      cases heq
      exact h
    · intro h
      exact ⟨node, rfl, hfolder, h⟩

/-- No leaf path touches what is not a `dict`. -/
theorem not_leafPath_of_malformed {nodes : List JVal} {i : ℕ} {path : List ℕ} {preset : JDict}
    (hi : ∀ node : JDict, nodes[i]? ≠ some (.obj node)) : ¬ LeafPath nodes (i :: path) preset := by
  intro h
  rcases eq_or_ne path [] with rfl | hpath
  · exact hi preset (leafPath_singleton.mp h).1
  · obtain ⟨folder, hfolder, _⟩ := (leafPath_cons hpath).mp h
    exact hi folder hfolder

theorem leafPath_succ {x : JVal} {nodes : List JVal} {i : ℕ} {path : List ℕ} {preset : JDict} :
    LeafPath (x :: nodes) ((i + 1) :: path) preset ↔ LeafPath nodes (i :: path) preset := by
  rcases eq_or_ne path [] with rfl | hpath
  · rw [leafPath_singleton, leafPath_singleton, List.getElem?_cons_succ]
  · rw [leafPath_cons hpath, leafPath_cons hpath, List.getElem?_cons_succ]

/-! ## The walk lists the leaf paths -/

/-- The path of a node in a list, once another node stands before it. -/
def later : List ℕ → List ℕ
  | [] => []
  | i :: path => (i + 1) :: path

theorem strictMono_later : StrictMono later := by
  intro p q h
  cases p with
  | nil =>
      cases q with
      | nil =>
          exact absurd h (lt_irrefl _)
      | cons j q =>
          exact List.nil_lt_cons _ _
  | cons i p =>
      cases q with
      | nil =>
          exact absurd h (List.not_lt_nil _)
      | cons j q =>
          rw [List.cons_lt_cons_iff] at h
          rw [later, later, List.cons_lt_cons_iff]
          rcases h with hlt | ⟨rfl, hlt⟩
          · exact Or.inl (Nat.succ_lt_succ hlt)
          · exact Or.inr ⟨rfl, hlt⟩

theorem strictMono_cons (i : ℕ) : StrictMono (List.cons i) := by
  intro p q h
  exact List.cons_lt_cons_iff.mpr (Or.inr ⟨rfl, h⟩)

/-- The leaves at and below a first node, followed by those of the nodes after it. -/
theorem listing_cons {x : JVal} {nodes : List JVal} {front rest : List JDict}
    {At : List ℕ → JDict → Prop} (hfront : Listing At front)
    (hAt : ∀ path preset, LeafPath (x :: nodes) (0 :: path) preset ↔ At path preset)
    (hrest : Listing (LeafPath nodes) rest) :
    Listing (LeafPath (x :: nodes)) (front ++ rest) := by
  refine ((hfront.map (strictMono_cons 0)).append (hrest.map strictMono_later) ?_).congr ?_
  · rintro _ preset _ preset' ⟨path, rfl, _⟩ ⟨path', rfl, h'⟩
    cases path' with
    | nil =>
        exact absurd h' not_leafPath_nil
    | cons i path' =>
        exact List.cons_lt_cons_iff.mpr (Or.inl (Nat.succ_pos i))
  · intro path preset
    constructor
    · rintro (⟨path, rfl, h⟩ | ⟨path, rfl, h⟩)
      · exact (hAt path preset).mpr h
      · cases path with
        | nil =>
            exact absurd h not_leafPath_nil
        | cons i path =>
            exact leafPath_succ.mpr h
    · intro h
      rcases path with _ | ⟨_ | i, path⟩
      · exact absurd h not_leafPath_nil
      · exact Or.inl ⟨path, rfl, (hAt path preset).mp h⟩
      · exact Or.inr ⟨i :: path, rfl, leafPath_succ.mp h⟩

/-- A first node that is not a `dict` adds nothing. -/
theorem listing_cons_malformed {x : JVal} {nodes : List JVal} {rest : List JDict}
    (hx : ∀ node : JDict, x ≠ .obj node) (hrest : Listing (LeafPath nodes) rest) :
    Listing (LeafPath (x :: nodes)) rest := by
  have hnone : ∀ path preset, ¬ LeafPath (x :: nodes) (0 :: path) preset := by
    intro path preset
    refine not_leafPath_of_malformed ?_
    intro node hnode
    exact hx node (Option.some.inj hnode)
  exact listing_cons (Listing.nil hnone) (fun _ _ => Iff.rfl) hrest

mutual
theorem listing_walk : ∀ (v : JVal) {frames : ℕ} {presets : List JDict},
    walk frames v = .ok presets → Listing (LeafPath (nodesOf v)) presets
  | v, 0, presets, h => by
      rw [walk] at h
      cases h
  | .arr nodes, frames + 1, presets, h => by
      rw [walk] at h
      exact listing_walkNodes nodes h
  | .null, frames + 1, presets, h | .bool _, frames + 1, presets, h | .num _, frames + 1, presets, h
  | .str _, frames + 1, presets, h | .obj _, frames + 1, presets, h => by
      rw [walk] at h
      cases h
      refine Listing.nil ?_
      intro path preset hpath
      obtain ⟨nodes, hnodes⟩ := eq_arr_of_nodeAt hpath.ends
      cases hnodes
theorem listing_walkNodes : ∀ (nodes : List JVal) {frames : ℕ} {presets : List JDict},
    walkNodes frames nodes = .ok presets → Listing (LeafPath nodes) presets
  | [], frames, presets, h => by
      rw [walkNodes] at h
      cases h
      refine Listing.nil ?_
      intro path preset hpath
      rcases path with _ | ⟨i, path⟩
      · exact not_leafPath_nil hpath
      · exact not_leafPath_of_malformed (fun _ hnode => by cases hnode) hpath
  | .obj node :: nodes, frames, presets, h => by
      rw [walkNodes] at h
      cases hfolder : (JDict.get node "Folder").truthy with
      | true =>
          rw [hfolder, if_pos rfl] at h
          obtain ⟨below, hbelow, h⟩ := except_bind_ok.mp h
          obtain ⟨rest, hrest, h⟩ := except_bind_ok.mp h
          cases h
          refine listing_cons ?_ (fun _ _ => Iff.rfl) (listing_walkNodes nodes hrest)
          exact (listing_walkChildren node hbelow).congr
            (fun _ _ => (leafPath_of_folder rfl hfolder).symm)
      | false =>
          rw [hfolder, if_neg Bool.false_ne_true] at h
          obtain ⟨rest, hrest, h⟩ := except_bind_ok.mp h
          cases h
          have hnode : Listing (fun path preset => LeafPath (.obj node :: nodes) (0 :: path) preset)
              [node] :=
            (Listing.singleton [] node).congr (fun _ _ => (leafPath_of_leaf rfl hfolder).symm)
          exact listing_cons hnode (fun _ _ => Iff.rfl) (listing_walkNodes nodes hrest)
  | .null :: nodes, frames, presets, h | .bool _ :: nodes, frames, presets, h
  | .num _ :: nodes, frames, presets, h | .str _ :: nodes, frames, presets, h
  | .arr _ :: nodes, frames, presets, h => by
      rw [walkNodes] at h
      exact listing_cons_malformed (fun _ hx => by cases hx) (listing_walkNodes nodes h)
theorem listing_walkChildren : ∀ (node : List (PyStr × JVal)) {frames : ℕ} {presets : List JDict},
    walkChildren frames node = .ok presets →
      Listing (LeafPath (nodesOf (JDict.get node "ChildrenArray"))) presets
  | [], 0, presets, h => by
      rw [walkChildren] at h
      cases h
  | [], frames + 1, presets, h => by
      rw [walkChildren] at h
      cases h
      refine Listing.nil ?_
      intro path preset hpath
      obtain ⟨nodes, hnodes⟩ := eq_arr_of_nodeAt hpath.ends
      cases hnodes
  | kv :: kvs, frames, presets, h => by
      rw [walkChildren] at h
      rw [JDict.get, List.lookup_cons]
      cases hkey : "ChildrenArray".toList == kv.1 with
      | true =>
          rw [hkey, if_pos rfl] at h
          exact listing_walk kv.2 h
      | false =>
          rw [hkey, if_neg Bool.false_ne_true] at h
          exact listing_walkChildren kvs h
end

/-! ## How deep the walk goes -/

mutual
/-- How many calls of `walk` stand on one another at most, `walk(nodes)` the first of them: every
folder adds one, with children or without. -/
def nesting : JVal → ℕ
  | .arr nodes => nestingNodes nodes + 1
  | .null | .bool _ | .num _ | .str _ | .obj _ => 1
def nestingNodes : List JVal → ℕ
  | [] => 0
  | .obj node :: nodes =>
      max (if (JDict.get node "Folder").truthy then nestingChildren node else 0) (nestingNodes nodes)
  | .null :: nodes | .bool _ :: nodes | .num _ :: nodes | .str _ :: nodes | .arr _ :: nodes =>
      nestingNodes nodes
def nestingChildren : List (PyStr × JVal) → ℕ
  | [] => 1
  | kv :: kvs => if "ChildrenArray".toList == kv.1 then nesting kv.2 else nestingChildren kvs
end

/-- The result of a walk that gets through exactly when it `fits` on the stack. -/
def ThroughIf (fits : Prop) : Except PyExc (List JDict) → Prop
  | .ok _ => fits
  | .error e => ¬ fits ∧ e = .recursionError

theorem ThroughIf.map {fits : Prop} {x : Except PyExc (List JDict)} (h : ThroughIf fits x)
    (f : List JDict → List JDict) : ThroughIf fits (x >>= fun rest => pure (f rest)) := by
  cases x with
  | ok rest =>
      exact h
  | error e =>
      exact h

/-- Of two walks the second is made when the first got through. -/
theorem ThroughIf.append {fits fits' : Prop} {x y : Except PyExc (List JDict)}
    (hx : ThroughIf fits x) (hy : ThroughIf fits' y) :
    ThroughIf (fits ∧ fits') (x >>= fun below => y >>= fun rest => pure (below ++ rest)) := by
  cases x with
  | error e =>
      exact ⟨fun hboth => hx.1 hboth.1, hx.2⟩
  | ok below =>
      cases y with
      | error e =>
          exact ⟨fun hboth => hy.1 hboth.2, hy.2⟩
      | ok rest =>
          exact ⟨hx, hy⟩

mutual
theorem walk_throughIf : ∀ (v : JVal) (frames : ℕ), ThroughIf (nesting v ≤ frames) (walk frames v)
  | .arr nodes, 0 | .null, 0 | .bool _, 0 | .num _, 0 | .str _, 0 | .obj _, 0 => by
      rw [walk, nesting]
      exact ⟨by omega, rfl⟩
  | .arr nodes, frames + 1 => by
      rw [walk, nesting, Nat.add_le_add_iff_right]
      exact walkNodes_throughIf nodes frames
  | .null, frames + 1 | .bool _, frames + 1 | .num _, frames + 1 | .str _, frames + 1
  | .obj _, frames + 1 => by
      rw [walk, nesting]
      exact Nat.le_add_left 1 frames
theorem walkNodes_throughIf : ∀ (nodes : List JVal) (frames : ℕ),
    ThroughIf (nestingNodes nodes ≤ frames) (walkNodes frames nodes)
  | [], frames => by
      rw [walkNodes, nestingNodes]
      exact Nat.zero_le frames
  | .obj node :: nodes, frames => by
      rw [walkNodes, nestingNodes]
      cases (JDict.get node "Folder").truthy with
      | true =>
          rw [if_pos rfl, if_pos rfl, max_le_iff]
          exact (walkChildren_throughIf node frames).append (walkNodes_throughIf nodes frames)
      | false =>
          rw [if_neg Bool.false_ne_true, if_neg Bool.false_ne_true, Nat.zero_max]
          exact (walkNodes_throughIf nodes frames).map (node :: ·)
  | .null :: nodes, frames | .bool _ :: nodes, frames | .num _ :: nodes, frames
  | .str _ :: nodes, frames | .arr _ :: nodes, frames => by
      rw [walkNodes, nestingNodes]
      exact walkNodes_throughIf nodes frames
theorem walkChildren_throughIf : ∀ (node : List (PyStr × JVal)) (frames : ℕ),
    ThroughIf (nestingChildren node ≤ frames) (walkChildren frames node)
  | [], 0 => by
      rw [walkChildren, nestingChildren]
      exact ⟨by omega, rfl⟩
  | [], frames + 1 => by
      rw [walkChildren, nestingChildren]
      exact Nat.le_add_left 1 frames
  | kv :: kvs, frames => by
      rw [walkChildren, nestingChildren]
      cases "ChildrenArray".toList == kv.1 with
      | true =>
          exact walk_throughIf kv.2 frames
      | false =>
          exact walkChildren_throughIf kvs frames
end

/-! ## The presets of a document -/

/-- The nodes paths start from: those of `PresetList`. -/
def presetList (doc : JDict) : List JVal := nodesOf (doc.get "PresetList")

/-- How deep the folders of a document are nested. -/
def depth (doc : JDict) : ℕ := nesting (doc.get "PresetList")

/-- What `find_preset` raises for a name no preset has. -/
def notFound (R : PyRepr) (name : PyStr) : PyExc :=
  .presetError ("Preset not found in document: ".toList ++ R.str name)

variable {R : PyRepr} {frames : ℕ} {doc : JDict} {name : PyStr} {e : PyExc} {presets : List JDict}

theorem iterPresets_ok_iff : (∃ presets, iterPresets frames doc = .ok presets) ↔
    depth doc ≤ frames := by
  have hthrough := walk_throughIf (doc.get "PresetList") frames
  rw [iterPresets, depth]
  cases hwalk : walk frames (doc.get "PresetList") with
  | ok presets =>
      rw [hwalk] at hthrough
      exact ⟨fun _ => hthrough, fun _ => ⟨presets, rfl⟩⟩
  | error e =>
      rw [hwalk] at hthrough
      refine ⟨?_, fun hle => absurd hle hthrough.1⟩
      rintro ⟨presets, hok⟩
      cases hok

theorem iterPresets_error (h : iterPresets frames doc = .error e) :
    frames < depth doc ∧ e = .recursionError := by
  have hthrough := walk_throughIf (doc.get "PresetList") frames
  rw [iterPresets] at h
  rw [h] at hthrough
  exact ⟨not_le.mp hthrough.1, hthrough.2⟩

/-- `iter_presets` lists the nodes at the leaf paths, each path once and in the order of
the paths. -/
theorem iterPresets_listing (h : iterPresets frames doc = .ok presets) :
    Listing (LeafPath (presetList doc)) presets :=
  listing_walk (doc.get "PresetList") h

theorem findPreset_of_presets (h : iterPresets frames doc = .ok presets) :
    findPreset R frames doc name =
      match presets.find? (isNamed name) with
      | some preset => .ok preset
      | none => .error (notFound R name) := by
  rw [findPreset, h]
  rfl

/-- A document too deep for the stack has no preset. -/
theorem findPreset_deep (R : PyRepr) (name : PyStr) (h : frames < depth doc) :
    findPreset R frames doc name = .error .recursionError := by
  cases hpresets : iterPresets frames doc with
  | ok presets =>
      exact absurd (iterPresets_ok_iff.mp ⟨presets, hpresets⟩) (not_le.mpr h)
  | error e =>
      rw [findPreset, hpresets, (iterPresets_error hpresets).2]
      rfl

/-- `find_preset` returns the preset of that name whose leaf path is least. -/
theorem findPreset_ok_iff (h : iterPresets frames doc = .ok presets) (preset : JDict) :
    findPreset R frames doc name = .ok preset ↔
      ∃ path, LeafPath (presetList doc) path preset ∧ isNamed name preset = true ∧
        ∀ path' preset', LeafPath (presetList doc) path' preset' →
          isNamed name preset' = true → path ≤ path' := by
  rw [← (iterPresets_listing h).find?_eq_some_iff, findPreset_of_presets h]
  cases presets.find? (isNamed name) with
  | none =>
      constructor
      · intro h
        cases h
      · intro h
        cases h
  | some found =>
      rw [Except.ok.injEq, Option.some.injEq]

/-- `find_preset` raises iff no leaf path ends at a preset of that name. -/
theorem findPreset_error_iff (h : iterPresets frames doc = .ok presets) (e : PyExc) :
    findPreset R frames doc name = .error e ↔
      e = notFound R name ∧
        ∀ path preset, LeafPath (presetList doc) path preset → isNamed name preset = false := by
  rw [← (iterPresets_listing h).find?_eq_none_iff, findPreset_of_presets h]
  cases presets.find? (isNamed name) with
  | none =>
      rw [Except.error.injEq, eq_comm]
      exact ⟨fun h => ⟨h, rfl⟩, fun h => h.1⟩
  | some found =>
      constructor
      · intro h
        cases h
      · rintro ⟨_, h⟩
        cases h

/-- What `find_preset` raises is one of two exceptions. -/
theorem findPreset_error (h : findPreset R frames doc name = .error e) :
    (frames < depth doc ∧ e = .recursionError) ∨ e = notFound R name := by
  cases hpresets : iterPresets frames doc with
  | ok presets =>
      exact Or.inr ((findPreset_error_iff hpresets e).mp h).1
  | error e' =>
      obtain ⟨hdeep, rfl⟩ := iterPresets_error hpresets
      rw [findPreset_deep R name hdeep] at h
      cases h
      exact Or.inl ⟨hdeep, rfl⟩

/-- The presets of a document are its leaf paths in order, and the lookup goes by them. -/
structure GoesByPath (R : PyRepr) (frames : ℕ) (doc : JDict) (name : PyStr) : Prop where
  listed : ∃ presets, iterPresets frames doc = .ok presets ∧
    Listing (LeafPath (presetList doc)) presets
  found : ∀ preset, findPreset R frames doc name = .ok preset ↔
    ∃ path, LeafPath (presetList doc) path preset ∧ isNamed name preset = true ∧
      ∀ path' preset', LeafPath (presetList doc) path' preset' →
        isNamed name preset' = true → path ≤ path'
  raises : (∃ e, findPreset R frames doc name = .error e) ↔
    ∀ path preset, LeafPath (presetList doc) path preset → isNamed name preset = false
  presetError : ∀ e, findPreset R frames doc name = .error e → e = notFound R name

/-- The lookup goes by the leaf paths exactly when the walk fits on the stack. -/
theorem presets_by_path_iff (R : PyRepr) (frames : ℕ) (doc : JDict) (name : PyStr) :
    GoesByPath R frames doc name ↔ depth doc ≤ frames := by
  constructor
  · intro h
    obtain ⟨presets, hpresets, -⟩ := h.listed
    exact iterPresets_ok_iff.mp ⟨presets, hpresets⟩
  · intro hdepth
    obtain ⟨presets, hpresets⟩ := iterPresets_ok_iff.mpr hdepth
    refine ⟨⟨presets, hpresets, iterPresets_listing hpresets⟩, findPreset_ok_iff hpresets, ?_, ?_⟩
    · constructor
      · rintro ⟨e, he⟩
        exact ((findPreset_error_iff hpresets e).mp he).2
      · intro hnone
        exact ⟨_, (findPreset_error_iff hpresets _).mpr ⟨rfl, hnone⟩⟩
    · intro e he
      exact ((findPreset_error_iff hpresets e).mp he).1

/-- A preset inside `n` folders, each the only child of the one around it. -/
def folders : ℕ → JVal
  | 0 => .obj [("PresetName".toList, .str "P1".toList)]
  | n + 1 =>
      .obj [("Folder".toList, .bool true), ("ChildrenArray".toList, .arr [folders n])]

def foldersDoc (n : ℕ) : JDict := [("PresetList".toList, .arr [folders n])]

theorem nestingNodes_folders (n : ℕ) : nestingNodes [folders n] = n := by
  induction n with
  | zero => rfl
  | succ n ih =>
      show max (nestingNodes [folders n] + 1) 0 = n + 1
      rw [ih, Nat.max_zero]

theorem depth_foldersDoc (n : ℕ) : depth (foldersDoc n) = n + 1 :=
  congrArg (· + 1) (nestingNodes_folders n)

/-- With 990 frames left a preset inside a thousand folders is not found. -/
theorem deep_preset_not_found :
    findPreset sampleRepr 990 (foldersDoc 1000) "P1".toList = .error .recursionError ∧
      ¬ GoesByPath sampleRepr 990 (foldersDoc 1000) "P1".toList := by
  have hdeep : 990 < depth (foldersDoc 1000) := by
    rw [depth_foldersDoc]
    norm_num
  have herror := findPreset_deep sampleRepr "P1".toList hdeep
  refine ⟨herror, fun h => ?_⟩
  cases h.presetError _ herror

end HandBrakeEncoder.Presets
