/-
# `Config` — the allowed roots the environment names

`parse_roots` cuts `ENCODER_ALLOWED_ROOTS` at the commas, strips each part, leaves out
what is empty then and normalises the rest:

    "/media1, /media2/"    /media1 and /media2

**What a root means.**  The normal form is made as text.  Without a `..` it stands
for the directory the part names, so the validation admits by the parsed roots
what it would admit by the parts (`parsed_roots_mean`).  A `..` after a symbolic
link is another matter: there the text leads elsewhere (`parsed_root_elsewhere`).

**What comes back.**  The roots joined with commas are read as the same roots, unless
one of them begins or ends with whitespace (`parsed_roots_settled`): a part is
stripped before it is normalised and not after.
-/
import HandBrakeEncoder.Lib.NormPath
import HandBrakeEncoder.Ops.Inside

namespace HandBrakeEncoder.Config

open Posix Text Paths Ops

/-- The parts of the list that are not blank, stripped. -/
def rootParts (raw : PyStr) : List PyStr := ((raw.splitOn ',').map strip).filter (· ≠ [])

/-- `parse_roots`. -/
def parseRoots (raw : PyStr) : List PyStr := (rootParts raw).map normpathAny

/-- `",".join(roots)`. -/
def joinRoots (roots : List PyStr) : PyStr := List.intercalate [','] roots

variable {raw part root : PyStr} {roots : List PyStr}

/-! ## The parts -/

theorem mem_rootParts (h : part ∈ rootParts raw) : part ≠ [] ∧ ',' ∉ part := by
  obtain ⟨hmem, hne⟩ := List.mem_filter.mp h
  obtain ⟨piece, hpiece, rfl⟩ := List.mem_map.mp hmem
  refine ⟨of_decide_eq_true hne, fun hcomma => ?_⟩
  exact not_mem_of_mem_splitOn hpiece ((strip_within piece).subset hcomma)

/-- A root is in normal form, not empty, and without a comma. -/
theorem mem_parseRoots (h : root ∈ parseRoots raw) :
    root ≠ [] ∧ ',' ∉ root ∧ normpathAny root = root := by
  obtain ⟨part, hpart, rfl⟩ := List.mem_map.mp h
  refine ⟨normpathAny_ne_nil part, fun hcomma => ?_, normpathAny_idem part⟩
  rcases mem_normpathAny hcomma with hcomma | hcomma | hcomma
  · exact (mem_rootParts hpart).2 hcomma
  · cases hcomma
  · cases hcomma

/-! ## Reading the roots back -/

/-- The parts of roots joined with commas are the roots, stripped. -/
theorem rootParts_joinRoots (h : ∀ root ∈ roots, ',' ∉ root) :
    rootParts (joinRoots roots) = (roots.map strip).filter (· ≠ []) := by
  rcases eq_or_ne roots [] with rfl | hne
  · rfl
  · rw [rootParts, joinRoots, List.splitOn_intercalate ',' h hne]

/-- Normalising cannot put back what stripping took away. -/
theorem strip_of_normpathAny_strip (hne : strip root ≠ [])
    (h : normpathAny (strip root) = root) : strip root = root := by
  refine (strip_within root).eq_of_length_le ?_
  calc root.length = (normpathAny (strip root)).length := by rw [h]
    _ ≤ (strip root).length := length_normpathAny_le hne

theorem parseRoots_joinRoots
    (h : ∀ root ∈ roots, root ≠ [] ∧ ',' ∉ root ∧ normpathAny root = root) :
    parseRoots (joinRoots roots) = roots ↔ ∀ root ∈ roots, strip root = root := by
  rw [parseRoots, rootParts_joinRoots fun root hroot => (h root hroot).2.1]
  constructor
  · intro heq root hroot
    have hlength : ((roots.map strip).filter (· ≠ [])).length = (roots.map strip).length := by
      rw [List.length_map, ← List.length_map normpathAny, heq]
    have hall := List.length_filter_eq_length_iff.mp hlength
    have hfilter : (roots.map strip).filter (· ≠ []) = roots.map strip :=
      List.filter_eq_self.mpr hall
    rw [hfilter, List.map_map] at heq
    have hsame : normpathAny (strip root) = root :=
      List.map_inj_left.mp (heq.trans (List.map_id roots).symm) root hroot
    refine strip_of_normpathAny_strip ?_ hsame
    exact of_decide_eq_true (hall (strip root) (List.mem_map_of_mem hroot))
  · intro hstrip
    have hmap : roots.map strip = roots := by
      conv_rhs => rw [← List.map_id roots]
      exact List.map_inj_left.mpr hstrip
    have hfilter : roots.filter (· ≠ []) = roots :=
      List.filter_eq_self.mpr fun root hroot => decide_eq_true (h root hroot).1
    rw [hmap, hfilter]
    conv_rhs => rw [← List.map_id roots]
    exact List.map_inj_left.mpr fun root hroot => (h root hroot).2.2

/-- **The roots are settled.**  Each is in normal form, not empty and without a comma; and joined
with commas they are read as the same roots exactly if none begins or ends with whitespace. -/
theorem parsed_roots_settled (raw : PyStr) :
    (∀ root ∈ parseRoots raw, root ≠ [] ∧ ',' ∉ root ∧ normpathAny root = root) ∧
      (parseRoots (joinRoots (parseRoots raw)) = parseRoots raw ↔
        ∀ root ∈ parseRoots raw, (∀ c, root.head? = some c → isSpace c = false) ∧
          ∀ c, root.getLast? = some c → isSpace c = false) := by
  refine ⟨fun root hroot => mem_parseRoots hroot, ?_⟩
  rw [parseRoots_joinRoots fun root hroot => mem_parseRoots hroot]
  exact forall₂_congr fun root _ => strip_eq_self_iff

/-- A part that ends with a blank directory name. -/
example : parseRoots "/media /,/media2/".toList = ["/media ".toList, "/media2".toList] := by
  decide +kernel

/-! ## What the roots admit -/

variable {host : Host} {fs : Fs}

theorem inRoots_congr {calls : PathCalls} {real : PyStr} {f : PyStr → PyStr}
    (h : ∀ root ∈ roots, calls.realpath (f root) = calls.realpath root) :
    inRoots calls real (roots.map f) = inRoots calls real roots := by
  induction roots with
  | nil => rfl
  | cons root roots ih =>
      rw [List.map_cons, inRoots, inRoots, h root List.mem_cons_self,
        ih fun root hroot => h root (List.mem_cons_of_mem _ hroot)]

/-- **The normal form admits what the part admits.**  If no part has a `..` or leads into a loop of
links, the validation accepts by the roots as parsed what it accepts by the parts as written, with
the same result. -/
theorem parsed_roots_mean (hcwd : isAbs host.cwd = true)
    (hparts : ∀ part ∈ rootParts raw,
      dotdot ∉ components part ∧ ¬ Loops fs host.frames host.cwd part) (path real : PyStr) :
    validateSourcePath host.repr (pathCalls host fs) (parseRoots raw) path = .ok real ↔
      validateSourcePath host.repr (pathCalls host fs) (rootParts raw) path = .ok real := by
  have hin : ∀ real, inRoots (pathCalls host fs) real (parseRoots raw)
      = inRoots (pathCalls host fs) real (rootParts raw) := by
    refine fun real => inRoots_congr fun part hpart => ?_
    obtain ⟨hup, hloop⟩ := hparts part hpart
    show realpathCall host fs (normpathAny part) = realpathCall host fs part
    rw [realpathCall, realpathCall, realpath_normpathAny hcwd hup hloop]
  have hempty : (parseRoots raw).isEmpty = (rootParts raw).isEmpty := List.isEmpty_map
  rw [validateSourcePath, validateSourcePath, hempty]
  split
  · exact Iff.rfl
  · split
    · exact Iff.rfl
    · rename_i resolved _
      rw [hin resolved]
      split
      · exact Iff.rfl
      · -- the refusals differ in the roots they list
        exact iff_of_false (fun h => by cases h) (fun h => by cases h)
      · exact Iff.rfl

/-- A root written with stray slashes and a dot, of the sample disk. -/
theorem parsed_roots_mean_stray :
    validateSourcePath sampleHost.repr (pathCalls sampleHost mediaFs)
        (parseRoots " //data/./ ,/in//".toList) "/in/movie.mkv".toList
      = .ok "/data/movie.mkv".toList := by
  refine (parsed_roots_mean rfl (fun part hpart => ?_) _ _).mpr (by decide +kernel)
  have hmem : part = "//data/./".toList ∨ part = "/in//".toList := by
    have hparts : rootParts " //data/./ ,/in//".toList = ["//data/./".toList, "/in//".toList] := by
      decide +kernel
    rw [hparts] at hpart
    simpa using hpart
  rcases hmem with rfl | rfl
  · exact ⟨by decide +kernel, not_loops_of_stat (i := 1) rfl (by decide +kernel)⟩
  · exact ⟨by decide +kernel, not_loops_of_stat (i := 1) rfl (by decide +kernel)⟩

/-- A `..` after a link: the part is the directory above `/secret`, the root is `/data`. -/
theorem parsed_root_elsewhere : parseRoots "/data/out/..".toList = ["/data".toList] ∧
    realpathCall sampleHost mediaFs "/data/out/..".toList = .ok "/".toList ∧
    realpathCall sampleHost mediaFs "/data".toList = .ok "/data".toList := by
  decide +kernel

end HandBrakeEncoder.Config
