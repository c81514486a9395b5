/-
# `Paths.Admission` — admission is containment by components

`_is_within` compares strings: it takes the common path of candidate and root
and asks whether that is the root again.  Here the comparison is read off the
components: a resolved root admits a resolved path exactly when its components
are a prefix of the path's.

**Beneath a root.**  The derived paths are put in the directory of the source.
That directory is beneath the root whenever the source is; when the source *is*
the resolved root, it is the directory around the root.

What `realpath` answers is assumed normalised, `PathCalls.Normalised`.
-/
import HandBrakeEncoder.Paths
import Mathlib.Tactic.MkIffOfInductiveProp

namespace HandBrakeEncoder.Paths

open Posix

/-! ## The common path -/

theorem commonPrefix_prefix_left (as bs : List Name) : commonPrefix as bs <+: as := by
  induction as generalizing bs with
  | nil =>
      exact List.prefix_refl []
  | cons a as ih =>
      cases bs with
      | nil =>
          exact List.nil_prefix
      | cons b bs =>
          rw [commonPrefix]
          split
          · exact (List.prefix_cons_inj a).mpr (ih bs)
          · exact List.nil_prefix

theorem commonPrefix_of_prefix {as bs : List Name} (h : bs <+: as) : commonPrefix as bs = bs := by
  induction bs generalizing as with
  | nil =>
      cases as with
      | nil => rfl
      | cons a as => rfl
  | cons b bs ih =>
      cases as with
      | nil =>
          exact absurd h (by simp)
      | cons a as =>
          obtain ⟨rfl, htail⟩ := List.cons_prefix_cons.mp h
          rw [commonPrefix, if_pos rfl, ih htail]

theorem commonpath_abs {p : AbsPath} {root : PyStr} (hroot : isAbs root = true) :
    commonpath p.str root = some (render (commonPrefix p.names (components root))) := by
  rw [commonpath, AbsPath.isAbs_str, hroot, if_neg (fun h => h rfl), if_pos rfl,
    AbsPath.components_str]
  exact congrArg some (slash_intercalate _)

theorem isAbs_of_isWithin {p : AbsPath} {root : PyStr} (h : isWithin p.str root = true) :
    isAbs root = true := by
  by_contra hrel
  have hnone : commonpath p.str root = none := by
    rw [commonpath, AbsPath.isAbs_str, if_pos (fun h => hrel h.symm)]
  rw [isWithin, hnone] at h
  exact absurd h (by simp)

/-- A root is the path itself or a directory above it, written with single slashes. -/
theorem isWithin_iff {p : AbsPath} {root : PyStr} :
    isWithin p.str root = true ↔ ∃ ns, root = render ns ∧ ns <+: p.names := by
  constructor
  · intro h
    have hcommon := commonpath_abs (p := p) (isAbs_of_isWithin h)
    rw [isWithin, hcommon] at h
    exact ⟨_, (Option.some.inj (of_decide_eq_true h)).symm, commonPrefix_prefix_left _ _⟩
  · rintro ⟨ns, rfl, hpre⟩
    have hnames : ∀ n ∈ ns, IsName n := fun n hn => p.isName n (hpre.subset hn)
    have habs : isAbs (render ns) = true := AbsPath.isAbs_str ⟨false, ns, hnames⟩
    rw [isWithin, commonpath_abs habs, components_render hnames, commonPrefix_of_prefix hpre]
    exact decide_eq_true rfl

theorem isWithin_normal {p : AbsPath} {root : PyStr} (hroot : Normal root) :
    isWithin p.str root = true ↔ components root <+: p.names := by
  obtain ⟨ns, hns, rfl⟩ := hroot
  rw [isWithin_iff, components_render hns]
  constructor
  · rintro ⟨ms, hms, hpre⟩
    have hnames : ∀ m ∈ ms, IsName m := fun m hm => p.isName m (hpre.subset hm)
    have heq := congrArg components hms
    rw [components_render hns, components_render hnames] at heq
    rw [heq]
    exact hpre
  · intro hpre
    exact ⟨ns, rfl, hpre⟩

/-! ## The loop over the roots -/

/-- Some root, resolved, is the path or a directory above it. -/
def Contained (calls : PathCalls) (roots : List PyStr) (real : PyStr) : Prop :=
  ∃ root ∈ roots, ∃ top, calls.realpath root = .ok top ∧ components top <+: components real

/-- Where every root resolves, the loop ends and says whether the path is contained. -/
theorem inRoots_exact {calls : PathCalls} {roots : List PyStr} {p : AbsPath}
    (hroots : ∀ root ∈ roots, ∃ top, calls.realpath root = .ok top ∧ Normal top) :
    (inRoots calls p.str roots = .ok true ∧ Contained calls roots p.str)
      ∨ (inRoots calls p.str roots = .ok false ∧ ¬ Contained calls roots p.str) := by
  induction roots with
  | nil =>
      right
      exact ⟨rfl, fun ⟨_, hmem, _⟩ => absurd hmem List.not_mem_nil⟩
  | cons root roots ih =>
      obtain ⟨top, htop, hnormal⟩ := hroots root List.mem_cons_self
      rw [inRoots, htop]
      by_cases hin : isWithin p.str top = true
      · left
        refine ⟨if_pos hin, root, List.mem_cons_self, top, htop, ?_⟩
        rw [AbsPath.components_str]
        exact (isWithin_normal hnormal).mp hin
      · have hskip : Contained calls (root :: roots) p.str ↔ Contained calls roots p.str := by
          constructor
          · rintro ⟨root', hmem, top', htop', hpre⟩
            rcases List.mem_cons.mp hmem with rfl | hmem
            · rw [htop] at htop'
              cases htop'
              rw [AbsPath.components_str] at hpre
              exact absurd ((isWithin_normal hnormal).mpr hpre) hin
            · exact ⟨root', hmem, top', htop', hpre⟩
          · rintro ⟨root', hmem, rest⟩
            exact ⟨root', List.mem_cons_of_mem _ hmem, rest⟩
        rw [hskip]
        simp only [if_neg hin]
        exact ih fun root' hmem => hroots root' (List.mem_cons_of_mem _ hmem)

/-! ## Admission -/

/-- What validation answers once the path is resolved and the loop over the roots has ended. -/
theorem validateSourcePath_resolved {R : PyRepr} {calls : PathCalls} {roots : List PyStr}
    {path real : PyStr} {inside : Bool} (hne : roots ≠ []) (hreal : calls.realpath path = .ok real)
    (hin : inRoots calls real roots = .ok inside) :
    validateSourcePath R calls roots path =
      if inside then
        if calls.isfile real then .ok real else .error (sourceNotFound path)
      else .error (outsideRoots R roots path) := by
  have hempty : ¬ roots.isEmpty = true := fun h => hne (List.isEmpty_iff.mp h)
  simp only [validateSourcePath, if_neg hempty, hreal, hin]
  cases inside with
  | true => rfl
  | false => rfl

theorem validateSourcePath_of_valueError {R : PyRepr} {calls : PathCalls} {roots : List PyStr}
    {path : PyStr} {e : PyExc} (hreal : calls.realpath path = .error e)
    (he : e.isValueError = true) :
    ∃ msg, validateSourcePath R calls roots path = .error (.pathNotAllowed msg) := by
  cases roots with
  | nil =>
      exact ⟨_, rfl⟩
  | cons root roots =>
      have hempty : ¬ (root :: roots).isEmpty = true := Bool.false_ne_true
      simp only [validateSourcePath, if_neg hempty, hreal, if_pos he]
      exact ⟨_, rfl⟩

/-- The three answers, each with what the path is. -/
theorem validateSourcePath_cases (R : PyRepr) {calls : PathCalls} {roots : List PyStr}
    {path : PyStr}
    (hroots : ∀ root ∈ roots, ∃ top, calls.realpath root = .ok top ∧ Normal top)
    (hpath : (∃ p : AbsPath, calls.realpath path = .ok p.str)
      ∨ ∃ e, calls.realpath path = .error e ∧ e.isValueError = true) :
    (∃ real, calls.realpath path = .ok real ∧ Contained calls roots real
        ∧ validateSourcePath R calls roots path
          = if calls.isfile real then .ok real else .error (sourceNotFound path))
      ∨ ((∀ real, calls.realpath path = .ok real → ¬ Contained calls roots real)
        ∧ ∃ msg, validateSourcePath R calls roots path = .error (.pathNotAllowed msg)) := by
  rcases hpath with ⟨p, hreal⟩ | ⟨e, hreal, he⟩
  · rcases inRoots_exact (p := p) hroots with ⟨hin, hcontained⟩ | ⟨hout, hnot⟩
    · left
      have hne : roots ≠ [] := by
        obtain ⟨root, hmem, -⟩ := hcontained
        exact List.ne_nil_of_mem hmem
      exact ⟨p.str, hreal, hcontained, validateSourcePath_resolved hne hreal hin⟩
    · right
      constructor
      · intro real hreal'
        rw [hreal] at hreal'
        cases hreal'
        exact hnot
      · by_cases hne : roots = []
        · subst hne
          exact ⟨_, rfl⟩
        · exact ⟨_, validateSourcePath_resolved hne hreal hout⟩
  · right
    constructor
    · intro real hreal'
      rw [hreal] at hreal'
      cases hreal'
    · exact validateSourcePath_of_valueError hreal he

/-- The three answers, by the components of the resolved paths, and what `/` admits. -/
@[mk_iff]
structure ByComponents (R : PyRepr) (calls : PathCalls) (roots : List PyStr) (path : PyStr) :
    Prop where
  accepted : ∀ r, validateSourcePath R calls roots path = .ok r ↔
    roots ≠ [] ∧ calls.realpath path = .ok r ∧ Contained calls roots r ∧ calls.isfile r = true
  missing : (∃ msg, validateSourcePath R calls roots path = .error (.sourceNotFound msg)) ↔
    ∃ r, calls.realpath path = .ok r ∧ Contained calls roots r ∧ calls.isfile r = false
  refused : (∃ msg, validateSourcePath R calls roots path = .error (.pathNotAllowed msg)) ↔
    ¬ ∃ r, calls.realpath path = .ok r ∧ Contained calls roots r
  slash : ∀ root ∈ roots, calls.realpath root = .ok ['/'] → ∀ r, calls.realpath path = .ok r →
    calls.isfile r = true → validateSourcePath R calls roots path = .ok r

/-- **Admission is containment by components.**  A path is accepted, missing or refused as its
resolved path lies under some resolved root and is a regular file; `/` admits every file. -/
theorem validateSourcePath_exact (R : PyRepr) (calls : PathCalls) (roots : List PyStr)
    (path : PyStr)
    (hroots : ∀ root ∈ roots, ∃ top, calls.realpath root = .ok top ∧ Normal top)
    (hpath : (∃ p : AbsPath, calls.realpath path = .ok p.str)
      ∨ ∃ e, calls.realpath path = .error e ∧ e.isValueError = true) :
    ByComponents R calls roots path := by
  have hslash : ∀ root ∈ roots, calls.realpath root = .ok ['/'] → ∀ r, Contained calls roots r :=
    fun root hmem hroot r => ⟨root, hmem, ['/'], hroot, List.nil_prefix⟩
  rcases validateSourcePath_cases R hroots hpath with ⟨real, hreal, hin, hval⟩ | ⟨hout, msg, hval⟩
  · have honly : ∀ r, calls.realpath path = .ok r → r = real :=
      fun r hr => (Except.ok.inj (hreal.symm.trans hr)).symm
    have hne : roots ≠ [] := by
      obtain ⟨root, hmem, -⟩ := hin
      exact List.ne_nil_of_mem hmem
    cases hfile : calls.isfile real with
    | true =>
        rw [hfile, if_pos rfl] at hval
        rw [byComponents_iff, hval]
        refine ⟨fun r => ⟨?_, ?_⟩, ⟨?_, ?_⟩, ⟨?_, ?_⟩, ?_⟩
        · rintro ⟨⟩
          exact ⟨hne, hreal, hin, hfile⟩
        · rintro ⟨-, hr, -, -⟩
          rw [honly r hr]
        · rintro ⟨msg, h⟩
          cases h
        · rintro ⟨r, hr, -, hnot⟩
          rw [honly r hr, hfile] at hnot
          cases hnot
        · rintro ⟨msg, h⟩
          cases h
        · intro h
          exact absurd ⟨real, hreal, hin⟩ h
        · intro root hmem hroot r hr _
          rw [honly r hr]
    | false =>
        rw [hfile, if_neg Bool.false_ne_true] at hval
        rw [byComponents_iff, hval]
        refine ⟨fun r => ⟨?_, ?_⟩, ⟨?_, ?_⟩, ⟨?_, ?_⟩, ?_⟩
        · intro h
          cases h
        · rintro ⟨-, hr, -, hyes⟩
          rw [honly r hr, hfile] at hyes
          cases hyes
        · intro _
          exact ⟨real, hreal, hin, hfile⟩
        · intro _
          exact ⟨_, rfl⟩
        · rintro ⟨msg, h⟩
          cases h
        · intro h
          exact absurd ⟨real, hreal, hin⟩ h
        · intro root hmem hroot r hr hyes
          rw [honly r hr, hfile] at hyes
          cases hyes
  · rw [byComponents_iff, hval]
    refine ⟨fun r => ⟨?_, ?_⟩, ⟨?_, ?_⟩, ⟨?_, ?_⟩, ?_⟩
    · intro h
      cases h
    · rintro ⟨-, hr, hin, -⟩
      exact absurd hin (hout r hr)
    · rintro ⟨msg, h⟩
      cases h
    · rintro ⟨r, hr, hin, -⟩
      exact absurd hin (hout r hr)
    · rintro _ ⟨r, hr, hin⟩
      exact hout r hr hin
    · intro _
      exact ⟨_, rfl⟩
    · intro root hmem hroot r hr _
      exact absurd (hslash root hmem hroot r) (hout r hr)

/-- A file system without symbolic links, seen from `/`: its regular files. -/
def linkless (files : List PyStr) : PathCalls where
  realpath path :=
    if '\x00' ∈ path then .error (.valueError "lstat: embedded null character in path".toList)
    else .ok (render (normalize (components path)))
  isfile real := files.contains real

/-- A root with stray slashes admits the file, and the path with `..` names it. -/
example : validateSourcePath sampleRepr (linkless ["/media1/movie.mkv".toList])
    ["/srv".toList, "//media1//".toList] "/media1/../media1//movie.mkv".toList
      = .ok "/media1/movie.mkv".toList := by
  decide

/-! ## Where the derived paths lie -/

/-- The resolved root at which the loop of the validation breaks. -/
def admittedBy (calls : PathCalls) (real : PyStr) : List PyStr → Option PyStr
  | [] => none
  | root :: roots =>
      match calls.realpath root with
      | .error _ => none
      | .ok resolved =>
          if isWithin real resolved then some resolved else admittedBy calls real roots

theorem admittedBy_of_inRoots {calls : PathCalls} {real : PyStr} {roots : List PyStr}
    (h : inRoots calls real roots = .ok true) :
    ∃ top, admittedBy calls real roots = some top := by
  induction roots with
  | nil =>
      cases h
  | cons root roots ih =>
      rw [inRoots] at h
      rw [admittedBy]
      cases hroot : calls.realpath root with
      | error e =>
          rw [hroot] at h
          cases h
      | ok resolved =>
          rw [hroot] at h
          by_cases hin : isWithin real resolved = true
          · exact ⟨resolved, if_pos hin⟩
          · simp only [if_neg hin] at h ⊢
            exact ih h

theorem isWithin_of_admittedBy {calls : PathCalls} {real top : PyStr} {roots : List PyStr}
    (h : admittedBy calls real roots = some top) : isWithin real top = true := by
  induction roots with
  | nil =>
      cases h
  | cons root roots ih =>
      rw [admittedBy] at h
      cases hroot : calls.realpath root with
      | error e =>
          rw [hroot] at h
          cases h
      | ok resolved =>
          rw [hroot] at h
          by_cases hin : isWithin real resolved = true
          · simp only [if_pos hin] at h
            cases h
            exact hin
          · simp only [if_neg hin] at h
            exact ih h

/-- The components of `path` are those of `top` and at least one more. -/
def Beneath (path top : PyStr) : Prop := ∃ rest, rest ≠ [] ∧ components path = components top ++ rest

/-- A name put in the directory of the source is beneath the root unless the source is the root. -/
theorem sibling_beneath_iff {p : AbsPath} {top : PyStr} {n : Name} (hn : IsName n)
    (hin : isWithin p.str top = true) :
    Beneath (join (dirname p.str) n) top
      ↔ components p.str ≠ components top ∨ components top = [] := by
  obtain ⟨ns, rfl, hpre⟩ := isWithin_iff.mp hin
  have hnames : ∀ m ∈ ns, IsName m := fun m hm => p.isName m (List.IsPrefix.subset hpre hm)
  obtain ⟨tail, htail⟩ := hpre
  rw [Beneath, components_join _ hn, AbsPath.components_dirname, AbsPath.components_str,
    components_render hnames, ← htail]
  rcases List.eq_nil_or_concat tail with rfl | ⟨init, last, rfl⟩
  · rw [List.append_nil]
    constructor
    · rintro ⟨rest, hrest, heq⟩
      right
      by_contra hne
      have hlen := congrArg List.length heq
      have hpos := List.length_pos_of_ne_nil hne
      have hmore := List.length_pos_of_ne_nil hrest
      simp only [List.length_append, List.length_dropLast, List.length_singleton] at hlen
      omega
    · rintro (hne | rfl)
      · exact absurd rfl hne
      · exact ⟨[n], List.cons_ne_nil _ _, rfl⟩
  · rw [List.concat_eq_append, ← List.append_assoc, List.dropLast_concat]
    constructor
    · intro _
      left
      intro heq
      have hlen := congrArg List.length heq
      simp only [List.length_append, List.length_singleton] at hlen
      omega
    · intro _
      exact ⟨init ++ [n], by simp, List.append_assoc _ _ _⟩

theorem inRoots_of_validateSourcePath {R : PyRepr} {calls : PathCalls} {roots : List PyStr}
    {path real : PyStr} (h : validateSourcePath R calls roots path = .ok real) :
    inRoots calls real roots = .ok true := by
  have hreal := (validateSourcePath_ok h).1
  have hne : roots ≠ [] := by
    rintro rfl
    cases h
  cases hin : inRoots calls real roots with
  | error e =>
      have hempty : ¬ roots.isEmpty = true := fun hnil => hne (List.isEmpty_iff.mp hnil)
      simp only [validateSourcePath, if_neg hempty, hreal, hin] at h
      cases h
  | ok inside =>
      rw [validateSourcePath_resolved hne hreal hin] at h
      cases inside with
      | true => rfl
      | false => cases h

/-- **Both derived paths lie beneath the root that admitted the source** exactly when the source
is not that root itself. -/
theorem derived_beneath_iff {R : PyRepr} {calls : PathCalls} {roots : List PyStr}
    {path src jobId extension token dst staging : PyStr} (hcalls : calls.Normalised)
    (hsrc : validateSourcePath R calls roots path = .ok src)
    (hdst : deriveOutputPath R src jobId extension = .ok dst)
    (hstaging : deriveStagingPath R src jobId extension token = .ok staging) :
    ∃ top, admittedBy calls src roots = some top
      ∧ ((Beneath dst top ∧ Beneath staging top)
        ↔ (components src ≠ components top ∨ components top = [])) := by
  obtain ⟨p, rfl⟩ := hcalls path src (validateSourcePath_ok hsrc).1
  obtain ⟨top, htop⟩ := admittedBy_of_inRoots (inRoots_of_validateSourcePath hsrc)
  have hin := isWithin_of_admittedBy htop
  obtain ⟨houtput, rfl⟩ := deriveOutputPath_ok hdst
  obtain ⟨hstage, rfl⟩ := deriveStagingPath_ok hstaging
  refine ⟨top, htop, ?_⟩
  rw [sibling_beneath_iff houtput hin, sibling_beneath_iff hstage hin]
  exact and_self_iff

theorem linkless_normalised (files : List PyStr) : (linkless files).Normalised := by
  intro path real h
  have hpath : (linkless files).realpath path
      = if '\x00' ∈ path then .error (.valueError "lstat: embedded null character in path".toList)
        else .ok (render (normalize (components path))) := rfl
  rw [hpath] at h
  split at h
  · cases h
  · cases h
    exact ⟨⟨false, _, normalize_isName fun _ hn => mem_components hn⟩, rfl⟩

theorem derived_beneath_iff_directory :
    Beneath "/media1/.hbenc-J.mkv".toList "/media1".toList
      ∧ Beneath "/media1/.hbenc-J-T.mkv".toList "/media1".toList := by
  have hsrc : validateSourcePath sampleRepr (linkless ["/media1/movie.mkv".toList])
      ["/media1".toList] "/media1/movie.mkv".toList = .ok "/media1/movie.mkv".toList := by
    decide
  have hdst : deriveOutputPath sampleRepr "/media1/movie.mkv".toList "J".toList "mkv".toList
      = .ok "/media1/.hbenc-J.mkv".toList := by
    decide
  have hstaging : deriveStagingPath sampleRepr "/media1/movie.mkv".toList "J".toList "mkv".toList
      "T".toList = .ok "/media1/.hbenc-J-T.mkv".toList := by
    decide
  obtain ⟨top, htop, hiff⟩ := derived_beneath_iff (linkless_normalised _) hsrc hdst hstaging
  have heq : admittedBy (linkless ["/media1/movie.mkv".toList]) "/media1/movie.mkv".toList
      ["/media1".toList] = some "/media1".toList := by
    decide
  rw [heq] at htop
  cases htop
  exact hiff.mpr (.inl (by decide))

/-- With the source itself as the root, what is written lies beside it. -/
theorem derived_beside_file_root :
    ¬ ∀ (R : PyRepr) (calls : PathCalls) (roots : List PyStr)
      (path src jobId extension token dst staging : PyStr), calls.Normalised →
      validateSourcePath R calls roots path = .ok src →
      deriveOutputPath R src jobId extension = .ok dst →
      deriveStagingPath R src jobId extension token = .ok staging →
      ∃ top, admittedBy calls src roots = some top ∧ Beneath dst top ∧ Beneath staging top := by
  intro h
  obtain ⟨top, htop, ⟨rest, hrest, heq⟩, -⟩ := h sampleRepr (linkless ["/media1/movie.mkv".toList])
    ["/media1/movie.mkv".toList] "/media1/movie.mkv".toList "/media1/movie.mkv".toList "J".toList
    "mkv".toList "T".toList "/media1/.hbenc-J.mkv".toList "/media1/.hbenc-J-T.mkv".toList
    (linkless_normalised _) (by decide) (by decide) (by decide)
  have hfound : admittedBy (linkless ["/media1/movie.mkv".toList]) "/media1/movie.mkv".toList
      ["/media1/movie.mkv".toList] = some "/media1/movie.mkv".toList := by
    decide
  rw [hfound] at htop
  cases htop
  have hlen := congrArg List.length heq
  have hdst : (components "/media1/.hbenc-J.mkv".toList).length = 2 := by decide
  have hroot : (components "/media1/movie.mkv".toList).length = 2 := by decide
  rw [List.length_append, hdst, hroot] at hlen
  have hpos := List.length_pos_of_ne_nil hrest
  omega

end HandBrakeEncoder.Paths
