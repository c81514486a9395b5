/-
# `Ops.Admitted` — what the validation admits on a disk

The validation compares components of resolved paths, and by them it answers as it
should, whatever the disk holds.  The answer is about the files only if the path it
compares is resolved: if no symbolic link is left on it.

`realpath` leaves none unless it meets a loop of links.  Then it returns the rest of
the path as it is spelled, and the comparison is of a text.  So there is one kind of
path that is admitted wrongly (`admission_iff`):

    the path meets a loop        /data/loop/../out/f
    the text left is in a root   /data/out/f, in /data
    it names a regular file      /secret/f
    and a link is on it          /data/out, to /secret
-/
import HandBrakeEncoder.Lib.LinkFree
import HandBrakeEncoder.Ops.Inside

namespace HandBrakeEncoder.Ops

open Posix Paths

/-- The path leads through the tree, by no link, to a place under an allowed root. -/
def Inside (host : Host) (fs : Fs) (roots : List PyStr) (real : PyStr) : Prop :=
  ∃ root ∈ roots, ∃ top d trail, realpathCall host fs root = .ok top ∧ fs.stat top = .ok d ∧
    fs.Walks 0 [] (components real) trail ∧ Under fs d (Fs.top trail)

/-- The validation answers by the components, and what it admits is inside. -/
structure AdmittedRightly (host : Host) (fs : Fs) (roots : List PyStr) (path : PyStr) : Prop where
  answers : ByComponents host.repr (pathCalls host fs) roots path
  inside : ∀ real, validateSourcePath host.repr (pathCalls host fs) roots path = .ok real →
    Inside host fs roots real

/-- The text a loop leaves of the path is admitted with a link on it. -/
def LinkAdmitted (host : Host) (fs : Fs) (roots : List PyStr) (path : PyStr) : Prop :=
  ∃ text, LoopText fs host.frames host.cwd path text ∧ Contained (pathCalls host fs) roots text ∧
    fs.isfile text = true ∧ ¬ LinkFree fs text

variable {host : Host} {fs : Fs} {roots : List PyStr} {path real text top : PyStr}

theorem realpathCall_of_loopText (h : LoopText fs host.frames host.cwd path text) :
    realpathCall host fs path = .ok text := by
  obtain ⟨r, hr, -, rfl⟩ := h
  rw [realpathCall, realpath, hr]

theorem linkFree_or_loopText (hcwd : isAbs host.cwd = true)
    (h : realpathCall host fs path = .ok real) :
    LinkFree fs real ∨ LoopText fs host.frames host.cwd path real := by
  rw [realpathCall] at h
  split at h
  · rename_i hreal
    cases h
    exact realpath_linkFree hcwd hreal
  · cases h
  · cases h

/-- A file without links on its path is in the tree of the root that admits it. -/
theorem inside_of_linkFree
    (hvalid : validateSourcePath host.repr (pathCalls host fs) roots path = .ok real)
    (hfree : LinkFree fs real) : Inside host fs roots real := by
  obtain ⟨hreal, hisfile⟩ := validateSourcePath_ok hvalid
  obtain ⟨p, rfl⟩ := realpathCall_ok hreal
  obtain ⟨top, htop⟩ := admittedBy_of_inRoots (inRoots_of_validateSourcePath hvalid)
  obtain ⟨root, hmem, hroot⟩ := admittedBy_mem htop
  obtain ⟨ns, rfl, rest, hnames⟩ := isWithin_iff.mp (isWithin_of_admittedBy htop)
  have hall : ∀ n ∈ components p.str, IsName n := by
    rw [AbsPath.components_str]
    exact p.isName
  obtain ⟨i, hstat⟩ : ∃ i, fs.stat p.str = .ok i := by
    cases hstat : fs.stat p.str with
    | ok i => exact ⟨i, rfl⟩
    | error e =>
        have hnone : fs.isfile p.str = true := hisfile
        rw [Fs.isfile, hstat] at hnone
        cases hnone
  obtain ⟨trail, hwalk, -⟩ := hfree.walks hall hstat
  have hsplit : components p.str = ns ++ rest := by rw [AbsPath.components_str, hnames]
  obtain ⟨mid, hfirst, hlast⟩ := hwalk.append hsplit
  have hns : ∀ n ∈ ns, IsName n := by
    intro n hn
    exact hall n (hsplit ▸ List.mem_append_left _ hn)
  have hrest : ∀ n ∈ rest, IsName n := by
    intro n hn
    exact hall n (hsplit ▸ List.mem_append_right _ hn)
  refine ⟨root, hmem, render ns, Fs.top mid, trail, hroot, ?_, hwalk, hlast.under hrest⟩
  refine Fs.stat_ok.mpr ⟨mid, ?_, rfl⟩
  rw [components_render hns]
  exact hfirst.mono (Nat.zero_le _)

/-- **A path is admitted rightly**, unless it meets a loop of links and the text this leaves of it
is in an allowed root, names a regular file, and has a symbolic link on it. -/
theorem admission_iff (hcwd : isAbs host.cwd = true)
    (hroots : ∀ root ∈ roots, ∃ top, realpathCall host fs root = .ok top ∧ Normal top)
    (hpath : realpathCall host fs path ≠ .error .recursionError) :
    AdmittedRightly host fs roots path ↔ ¬ LinkAdmitted host fs roots path := by
  have hresolved : (∃ p : AbsPath, realpathCall host fs path = .ok p.str)
      ∨ ∃ e, realpathCall host fs path = .error e ∧ e.isValueError = true := by
    cases hreal : realpathCall host fs path with
    | ok real =>
        obtain ⟨p, rfl⟩ := realpathCall_ok hreal
        exact .inl ⟨p, rfl⟩
    | error e =>
        refine .inr ⟨e, rfl, ?_⟩
        rw [realpathCall] at hreal hpath
        split at hreal
        · cases hreal
        · cases hreal
          rfl
        · rename_i hdeep
          rw [hdeep] at hpath
          exact absurd rfl hpath
  have hanswers : ByComponents host.repr (pathCalls host fs) roots path :=
    validateSourcePath_exact _ _ _ _ hroots hresolved
  constructor
  · rintro h ⟨text, hloop, hcontained, hfile, hlink⟩
    have hne : roots ≠ [] := by
      obtain ⟨root, hmem, -⟩ := hcontained
      exact List.ne_nil_of_mem hmem
    have hreal := realpathCall_of_loopText hloop
    have hvalid := (h.answers.accepted text).mpr ⟨hne, hreal, hcontained, hfile⟩
    obtain ⟨-, -, -, -, trail, -, -, hwalk, -⟩ := h.inside text hvalid
    obtain ⟨p, rfl⟩ := realpathCall_ok hreal
    refine hlink (linkFree_of_walks (fun n hn => ?_) hwalk)
    rw [AbsPath.components_str] at hn
    exact p.isName n hn
  · intro h
    refine ⟨hanswers, fun real hvalid => inside_of_linkFree hvalid ?_⟩
    obtain ⟨-, hreal, hcontained, hfile⟩ := (hanswers.accepted real).mp hvalid
    rcases linkFree_or_loopText hcwd hreal with hfree | hloop
    · exact hfree
    · by_contra hlink
      exact h ⟨real, hloop, hcontained, hfile, hlink⟩

/-- A root of the sample disk resolves to itself. -/
theorem mediaFs_roots : ∀ root ∈ ["/data".toList], ∃ top,
    realpathCall sampleHost mediaFs root = .ok top ∧ Normal top := by
  intro root hmem
  rw [List.mem_singleton.mp hmem]
  refine ⟨"/data".toList, by decide +kernel, ["data".toList], fun n hn => ?_, rfl⟩
  rw [List.mem_singleton.mp hn]
  exact ⟨by decide, by decide, by decide, by decide⟩

/-- A path through a link into the root. -/
theorem admission_iff_linked : Inside sampleHost mediaFs ["/data".toList] "/data/movie.mkv".toList := by
  have hvalid : validateSourcePath sampleHost.repr (pathCalls sampleHost mediaFs)
      ["/data".toList] "/in/movie.mkv".toList = .ok "/data/movie.mkv".toList := by decide +kernel
  refine ((admission_iff rfl mediaFs_roots (by decide +kernel)).mpr ?_).inside _ hvalid
  rintro ⟨text, ⟨r, hr, hfalse, -⟩, -⟩
  exact not_loops_of_stat (i := 2) rfl (by decide +kernel) ⟨r, hr, hfalse⟩

/-- A path through a loop of links out of the root. -/
theorem link_admitted : ¬ ∀ (host : Host) (fs : Fs) (roots : List PyStr) (path : PyStr),
    isAbs host.cwd = true →
    (∀ root ∈ roots, ∃ top, realpathCall host fs root = .ok top ∧ Normal top) →
    realpathCall host fs path ≠ .error .recursionError → AdmittedRightly host fs roots path := by
  intro h
  have hrightly := h sampleHost mediaFs ["/data".toList] "/data/loop/../out/f".toList rfl
    mediaFs_roots (by decide +kernel)
  obtain ⟨real, hvalid, hfile, hroot, hunder⟩ := loop_leaves_root
  obtain ⟨root, hmem, top, d, trail, htop, hd, hwalk, hinside⟩ := hrightly.inside real hvalid
  have hplace : Fs.top trail = 8 := by
    have hstat : mediaFs.stat real = .ok (Fs.top trail) :=
      Fs.stat_ok.mpr ⟨trail, hwalk.mono (Nat.zero_le _), rfl⟩
    exact Except.ok.inj (hstat.symm.trans hfile)
  have hdata : realpathCall sampleHost mediaFs "/data".toList = .ok "/data".toList := by
    decide +kernel
  rw [List.mem_singleton.mp hmem] at htop
  cases hdata.symm.trans htop
  cases hroot.symm.trans hd
  rw [hplace] at hinside
  exact hunder hinside

end HandBrakeEncoder.Ops
