/-
# `Ops.Inside` — where the files of a job really are

The validation compares texts.  What it is for is a statement about the tree: the
file that is read, and the directory that is written to, are reached from an
allowed root by directory entries, none of them a symbolic link.

That holds for every path the kernel resolves (`job_stays_inside`): on those
`realpath` agrees with the kernel (`realpath_correct`), so the text is that of the
place.  On a path that passes through a loop of links `realpath` gives up and
collapses the rest as text, and there the comparison can be passed by a path
whose file is anywhere (`loop_leaves_root`).
-/
import HandBrakeEncoder.Ops.Stages
import HandBrakeEncoder.Lib.Resolution

namespace HandBrakeEncoder.Ops

open Posix Paths

variable {host : Host} {env : Env} {fs : Fs} {jobId path real root top : PyStr}
  {req : EncodeRequest} {p : Plan} {i d : Ino} {trail : List Ino}

theorem realpathCall_at (hcwd : isAbs host.cwd = true) (h : realpathCall host fs path = .ok real)
    (hstat : fs.stat (join host.cwd path) = .ok i) :
    ∃ trail, At fs real trail ∧ Fs.top trail = i := by
  obtain ⟨trail, hwalk, rfl⟩ := Fs.stat_ok.mp hstat
  rw [realpathCall] at h
  split at h
  · rename_i hreal
    cases h
    exact ⟨trail, realpath_correct hcwd hreal hwalk, rfl⟩
  · cases h
  · cases h

theorem admittedBy_mem {calls : PathCalls} {roots : List PyStr}
    (h : admittedBy calls real roots = some top) :
    ∃ root ∈ roots, calls.realpath root = .ok top := by
  induction roots with
  | nil => cases h
  | cons root roots ih =>
      rw [admittedBy] at h
      split at h
      · cases h
      · rename_i resolved hroot
        split at h
        · cases h
          exact ⟨root, List.mem_cons_self, hroot⟩
        · obtain ⟨root', hmem, hroot'⟩ := ih h
          exact ⟨root', List.mem_cons_of_mem _ hmem, hroot'⟩

/-- The place is in the tree of the resolved root at which the loop of the validation breaks. -/
theorem at_within (hat : At fs real trail) (hwithin : isWithin real top = true) :
    ∃ ns mid, top = render ns ∧ ns <+: components real ∧ At fs top mid ∧
      Under fs (Fs.top mid) (Fs.top trail) := by
  obtain ⟨-, ms, hms, rfl, -⟩ := id hat
  obtain ⟨ns, rfl, hpre⟩ := isWithin_iff (p := ⟨false, ms, hms⟩) |>.mp hwithin
  have hcomponents : ns <+: components (render ms) := by
    rw [components_render hms]
    exact hpre
  obtain ⟨mid, hmid, hunder⟩ := hat.above hcomponents
  exact ⟨ns, mid, rfl, hcomponents, hmid, hunder⟩

/-- A file's place is an entry of its directory's. -/
theorem file_parent {data : Data} (hat : At fs real trail)
    (hfile : fs.node (Fs.top trail) = .file data) :
    ∃ mid n, IsName n ∧ components real = components (dirname real) ++ [n] ∧
      At fs (dirname real) mid ∧ fs.node (Fs.top mid) = .dir ∧
      fs.look (Fs.top mid, n) = some (Fs.top trail) := by
  obtain ⟨-, ms, hms, rfl, hwalk⟩ := id hat
  rcases List.eq_nil_or_concat ms with rfl | ⟨ns, n, rfl⟩
  · cases hwalk
    cases hfile.symm.trans (Fs.node_root fs)
  · rw [List.concat_eq_append] at hms hwalk hat ⊢
    have hns : ∀ m ∈ ns, IsName m := fun m hm => hms m (List.mem_append_left _ hm)
    have hn : IsName n := hms n (List.mem_append_right _ (List.mem_singleton.mpr rfl))
    obtain ⟨mid, i, -, hdir, hi, rfl⟩ := hwalk.last hn.notDotdot
    refine ⟨mid, n, hn, ?_, hat.up, hdir, hi⟩
    rw [dirname_render hns hn, components_render hms, components_render hns]

theorem file_of_isfile (h : fs.isfile real = true) (hstat : fs.stat real = .ok i) :
    ∃ data, fs.node i = .file data := by
  rw [Fs.isfile, hstat] at h
  dsimp only at h
  split at h
  · rename_i data hdata
    exact ⟨data, hdata⟩
  · cases h
  · cases h

/-- **A job stays inside the allowed roots.**  If the kernel resolves the requested path, the source
of the job is the file it resolves to, and is in the tree of an allowed root; and unless that root
is itself the file, the staging file and the published file are entries of one directory there. -/
theorem job_stays_inside (hcwd : isAbs host.cwd = true)
    (h : prepare host env fs jobId req = .ok p)
    (hstat : fs.stat (join host.cwd req.sourcePath) = .ok i) :
    fs.stat p.src = .ok i ∧ ∃ root ∈ host.allowedRoots, ∃ top d,
      realpathCall host fs root = .ok top ∧ fs.stat top = .ok d ∧ Under fs d i ∧
      (fs.node d = .dir → ∃ e n m, Under fs d e ∧
        fs.locate p.dst = .ok (e, n) ∧ fs.locate p.staging = .ok (e, m)) := by
  obtain ⟨hsrc, extension, hdst, hstaging⟩ := prepare_derives h
  obtain ⟨hreal, hisfile⟩ := validateSourcePath_ok hsrc
  obtain ⟨trail, hat, rfl⟩ := realpathCall_at hcwd hreal hstat
  obtain ⟨top, htop⟩ := admittedBy_of_inRoots (inRoots_of_validateSourcePath hsrc)
  obtain ⟨root, hmem, hroot⟩ := admittedBy_mem htop
  obtain ⟨ns, mid, rfl, hpre, hmid, hunder⟩ := at_within hat (isWithin_of_admittedBy htop)
  refine ⟨hat.stat, root, hmem, render ns, Fs.top mid, hroot, hmid.stat, hunder, fun hdir => ?_⟩
  obtain ⟨data, hfile⟩ := file_of_isfile hisfile hat.stat
  obtain ⟨up, n, hn, hcomponents, hup, hupdir, -⟩ := file_parent hat hfile
  have hne : ns ≠ components (dirname p.src) ++ [n] := by
    -- a root that is the file is no directory
    rintro rfl
    have hsame : p.src = render (components (dirname p.src) ++ [n]) := by
      rw [← hcomponents]
      exact hat.eq_render
    rw [hmid.unique (hsame ▸ hat), hfile] at hdir
    cases hdir
  rw [hcomponents] at hpre
  obtain ⟨mid', hmid', hunder'⟩ := hup.above ((List.prefix_concat_iff.mp hpre).resolve_left hne)
  obtain rfl := hmid.unique hmid'
  obtain ⟨hdstName, hdstEq⟩ := deriveOutputPath_ok hdst
  obtain ⟨hstagingName, hstagingEq⟩ := deriveStagingPath_ok hstaging
  refine ⟨Fs.top up, outputName jobId extension, stagingName jobId env.token extension, hunder',
    ?_, ?_⟩
  · rw [hdstEq]
    exact hup.locate hdstName hupdir
  · rw [hstagingEq]
    exact hup.locate hstagingName hupdir

/-- `/data/movie.mkv`, the links `/in` to `/data`, `/data/loop` to itself and `/data/out` to
`/secret`, and `/secret/f`. -/
def mediaFs : Fs where
  entries := [((0, "data".toList), 1), ((1, "movie.mkv".toList), 2), ((0, "tmp".toList), 3),
    ((0, "in".toList), 4), ((1, "loop".toList), 5), ((1, "out".toList), 6),
    ((0, "secret".toList), 7), ((7, "f".toList), 8)]
  nodes i :=
    if i = 2 ∨ i = 8 then .file [7]
    else if i = 4 then .link "/data".toList
    else if i = 5 then .link "loop".toList
    else if i = 6 then .link "/secret".toList
    else .dir
  gen _ := 0

/-- A source requested through a link into the root. -/
theorem job_stays_inside_linked :
    mediaFs.stat samplePlan.src = .ok 2 ∧ ∃ root ∈ sampleHost.allowedRoots, ∃ top d,
      realpathCall sampleHost mediaFs root = .ok top ∧ mediaFs.stat top = .ok d ∧
      Under mediaFs d 2 ∧ (mediaFs.node d = .dir → ∃ e n m, Under mediaFs d e ∧
        mediaFs.locate samplePlan.dst = .ok (e, n) ∧
        mediaFs.locate samplePlan.staging = .ok (e, m)) := by
  have hplan : prepare sampleHost sampleEnv mediaFs "J".toList
      (sampleRequest "/in/movie.mkv".toList) = .ok samplePlan := by decide +kernel
  exact job_stays_inside rfl hplan (by decide +kernel)

/-- Nothing but `/data` and its film is under `/data`. -/
theorem mediaFs_under (h : Under mediaFs 1 i) : i = 1 ∨ i = 2 := by
  have hentries : ∀ x ∈ mediaFs.entries, x.1.1 = 1 →
      x.2 = 2 ∨ (mediaFs.node x.2).direct = false := by decide
  have hlook : ∀ n b, mediaFs.look (1, n) = some b → b = 2 ∨ (mediaFs.node b).direct = false := by
    intro n b hb
    obtain ⟨before, after, hsplit, -⟩ := List.lookup_eq_some_iff.mp hb
    refine hentries ((1, n), b) ?_ rfl
    rw [hsplit]
    exact List.mem_append_right _ List.mem_cons_self
  induction h with
  | here => exact .inl rfl
  | @child a b n _ hdir hb hd ih =>
      rcases ih with rfl | rfl
      · rcases hlook n b hb with rfl | hlink
        · exact .inr rfl
        · cases hlink.symm.trans hd
      · cases hdir

/-- **A loop of links leaves the root.**  The kernel refuses `/data/loop/../out/f`; the validation
takes it for `/data/out/f`, which is in the root as a text and leads to `/secret/f`. -/
theorem loop_leaves_root :
    ∃ real, validateSourcePath sampleHost.repr (pathCalls sampleHost mediaFs)
        sampleHost.allowedRoots "/data/loop/../out/f".toList = .ok real ∧
      mediaFs.stat real = .ok 8 ∧ mediaFs.stat "/data".toList = .ok 1 ∧ ¬ Under mediaFs 1 8 := by
  refine ⟨"/data/out/f".toList, by decide +kernel, by decide +kernel, by decide +kernel, ?_⟩
  intro h
  rcases mediaFs_under h with h | h
  · cases h
  · cases h

end HandBrakeEncoder.Ops
