/-
# `Paths.Names` — the derived names tell every file apart

A published file is `.hbenc-<job id>.<extension>`, the file encoded into is
`.hbenc-<job id>-<token>.<extension>`.  No token holds a dot, so the last dot of a
name is the separator; a job id as `uuid4().hex` writes it holds no hyphen either,
so the first hyphen is, although a token may hold more.
-/
import HandBrakeEncoder.Paths

namespace HandBrakeEncoder.Paths

open Posix

/-- A text `_SAFE_TOKEN` accepts. -/
abbrev SafeToken := { token : PyStr // safeToken token = true }

/-- An accepted job id without a hyphen. -/
abbrev PlainId := { jobId : PyStr // safeToken jobId = true ∧ '-' ∉ jobId }

/-- `path` lies in the directory of `source` under a single name with the prefix. -/
structure Beside (source path : PyStr) : Prop where
  dirname_eq : dirname path = dirname source
  isName : IsName (basename path)
  prefixed : outputPrefix <+: basename path

/-! ## Taking a name apart -/

theorem safeToken_noDot {token : PyStr} (h : safeToken token = true) : '.' ∉ token := by
  obtain ⟨-, hall⟩ := Bool.and_eq_true_iff.mp h
  intro hdot
  exact absurd (List.all_eq_true.mp hall '.' hdot) (by decide)

/-- A text is refused as a token iff it is empty or holds another character. -/
theorem safeToken_eq_false_iff {token : PyStr} :
    safeToken token = false ↔ token = [] ∨ ∃ c ∈ token, isTokenChar c = false := by
  rw [safeToken, Bool.and_eq_false_iff, Bool.not_eq_false', List.isEmpty_iff, List.all_eq_false]
  simp only [Bool.not_eq_true]

/-- Two texts cut at their first occurrence of a character. -/
theorem append_cons_inj_of_front {c : Char} {x y z w : PyStr} (hx : c ∉ x) (hy : c ∉ y) :
    x ++ c :: z = y ++ c :: w ↔ x = y ∧ z = w := by
  constructor
  · intro h
    induction x generalizing y with
    | nil =>
        cases y with
        | nil =>
            exact ⟨rfl, (List.cons.inj h).2⟩
        | cons d y =>
            obtain ⟨rfl, _⟩ := List.cons.inj h
            exact absurd List.mem_cons_self hy
    | cons b x ih =>
        cases y with
        | nil =>
            obtain ⟨rfl, _⟩ := List.cons.inj h
            exact absurd List.mem_cons_self hx
        | cons d y =>
            obtain ⟨rfl, hrest⟩ := List.cons.inj h
            obtain ⟨rfl, rfl⟩ := ih (fun hc => hx (List.mem_cons_of_mem _ hc))
              (fun hc => hy (List.mem_cons_of_mem _ hc)) hrest
            exact ⟨rfl, rfl⟩
  · rintro ⟨rfl, rfl⟩
    rfl

/-- The name between the prefix and the extension, and the extension. -/
theorem stem_inj {x y extension extension' : PyStr} (hx : '.' ∉ x) (he : '.' ∉ extension) :
    outputPrefix ++ (x ++ '.' :: extension) = outputPrefix ++ (y ++ '.' :: extension') ↔
      x = y ∧ extension = extension' := by
  rw [List.append_cancel_left_eq, List.append_cons_inj_of_notMem hx he]
  exact ⟨fun h => ⟨h.1, h.2.2⟩, fun h => ⟨h.1, rfl, h.2⟩⟩

/-- What stands before the dot in the name of a staging file. -/
theorem stagingStem_noDot (jobId token : SafeToken) : '.' ∉ jobId.1 ++ '-' :: token.1 := by
  intro hdot
  rcases List.mem_append.mp hdot with hjob | hrest
  · exact safeToken_noDot jobId.2 hjob
  · rcases List.mem_cons.mp hrest with hhyphen | htoken
    · exact absurd hhyphen (by decide)
    · exact safeToken_noDot token.2 htoken

theorem outputName_eq (jobId extension : PyStr) :
    outputName jobId extension = outputPrefix ++ (jobId ++ '.' :: extension) := by
  rw [outputName, List.append_assoc]

theorem stagingName_eq (jobId token extension : PyStr) :
    stagingName jobId token extension =
      outputPrefix ++ (jobId ++ '-' :: token ++ '.' :: extension) := by
  rw [stagingName, List.append_assoc, List.append_assoc, List.append_assoc]

theorem outputName_inj (jobId jobId' extension extension' : SafeToken) :
    outputName jobId extension = outputName jobId' extension' ↔
      jobId = jobId' ∧ extension = extension' := by
  rw [outputName_eq, outputName_eq, stem_inj (safeToken_noDot jobId.2) (safeToken_noDot extension.2),
    Subtype.ext_iff, Subtype.ext_iff]

/-- The first hyphen ends the job id, as long as neither id holds one. -/
theorem stagingName_inj (jobId jobId' : PlainId) (token token' extension extension' : SafeToken) :
    stagingName jobId token extension = stagingName jobId' token' extension' ↔
      jobId = jobId' ∧ token = token' ∧ extension = extension' := by
  have hdot := stagingStem_noDot ⟨jobId.1, jobId.2.1⟩ token
  rw [stagingName_eq, stagingName_eq, stem_inj hdot (safeToken_noDot extension.2),
    append_cons_inj_of_front jobId.2.2 jobId'.2.2, Subtype.ext_iff, Subtype.ext_iff,
    Subtype.ext_iff, and_assoc]

theorem stagingName_ne (jobId token extension : SafeToken) (jobId' : PlainId)
    (extension' : SafeToken) :
    stagingName jobId token extension ≠ outputName jobId' extension' := by
  intro h
  rw [stagingName_eq, outputName_eq,
    stem_inj (stagingStem_noDot jobId token) (safeToken_noDot extension.2)] at h
  refine jobId'.2.2 ?_
  rw [← h.1]
  exact List.mem_append_right _ List.mem_cons_self

/-! ## The paths -/

theorem checkTokens_of_safe {R : PyRepr} {tokens : List (String × PyStr)}
    (h : ∀ lt ∈ tokens, safeToken lt.2 = true) : checkTokens R tokens = .ok () := by
  induction tokens with
  | nil =>
      rfl
  | cons lt rest ih =>
      rw [checkTokens, if_pos (h lt List.mem_cons_self)]
      exact ih (fun lt' hlt' => h lt' (List.mem_cons_of_mem _ hlt'))

theorem checkTokens_of_refused {R : PyRepr} {tokens : List (String × PyStr)} {lt : String × PyStr}
    (hmem : lt ∈ tokens) (h : safeToken lt.2 = false) :
    ∃ msg, checkTokens R tokens = .error (.pathNotAllowed msg) := by
  induction tokens with
  | nil =>
      exact absurd hmem List.not_mem_nil
  | cons lt' rest ih =>
      rw [checkTokens]
      split
      · rename_i hsafe
        rcases List.mem_cons.mp hmem with rfl | hrest
        · rw [h] at hsafe
          cases hsafe
        · exact ih hrest
      · exact ⟨_, rfl⟩

theorem deriveOutputPath_eq (R : PyRepr) (source : PyStr) (jobId extension : SafeToken) :
    deriveOutputPath R source jobId extension =
      .ok (join (dirname source) (outputName jobId extension)) := by
  rw [deriveOutputPath, checkTokens_of_safe]
  simp [jobId.2, extension.2]

theorem deriveStagingPath_eq (R : PyRepr) (source : PyStr) (jobId extension token : SafeToken) :
    deriveStagingPath R source jobId extension token =
      .ok (join (dirname source) (stagingName jobId token extension)) := by
  rw [deriveStagingPath, checkTokens_of_safe]
  simp [jobId.2, extension.2, token.2]

theorem beside_join (source : PyStr) {name : PyStr} (hname : IsName name)
    (hpre : outputPrefix <+: name) : Beside source (join (dirname source) name) where
  dirname_eq := dirname_join source hname
  isName := by
    rw [basename_join _ hname]
    exact hname
  prefixed := by
    rw [basename_join _ hname]
    exact hpre

/-- Two derived paths agree iff the directories and the names do. -/
theorem join_dirname_inj {source source' name name' : PyStr} (h : IsName name) (h' : IsName name') :
    join (dirname source) name = join (dirname source') name' ↔
      dirname source = dirname source' ∧ name = name' := by
  constructor
  · intro heq
    have hdir := congrArg dirname heq
    have hbase := congrArg basename heq
    rw [dirname_join source h, dirname_join source' h'] at hdir
    rw [basename_join _ h, basename_join _ h'] at hbase
    exact ⟨hdir, hbase⟩
  · rintro ⟨hdir, rfl⟩
    rw [hdir]

theorem beside_output (source : PyStr) (jobId extension : SafeToken) :
    Beside source (join (dirname source) (outputName jobId extension)) := by
  refine beside_join source (outputName_isName jobId.2 extension.2) ?_
  rw [outputName_eq]
  exact List.prefix_append _ _

theorem beside_staging (source : PyStr) (jobId token extension : SafeToken) :
    Beside source (join (dirname source) (stagingName jobId token extension)) := by
  refine beside_join source (stagingName_isName jobId.2 token.2 extension.2) ?_
  rw [stagingName_eq]
  exact List.prefix_append _ _

theorem deriveOutputPath_inj (R : PyRepr) (source source' : PyStr)
    (jobId jobId' extension extension' : SafeToken) :
    deriveOutputPath R source jobId extension = deriveOutputPath R source' jobId' extension' ↔
      dirname source = dirname source' ∧ jobId = jobId' ∧ extension = extension' := by
  rw [deriveOutputPath_eq, deriveOutputPath_eq, Except.ok.injEq,
    join_dirname_inj (outputName_isName jobId.2 extension.2)
      (outputName_isName jobId'.2 extension'.2), outputName_inj]

theorem deriveStagingPath_inj (R : PyRepr) (source source' : PyStr) (jobId jobId' : PlainId)
    (extension extension' token token' : SafeToken) :
    deriveStagingPath R source jobId extension token =
        deriveStagingPath R source' jobId' extension' token' ↔
      dirname source = dirname source' ∧
        jobId = jobId' ∧ token = token' ∧ extension = extension' := by
  have hpath := deriveStagingPath_eq R source ⟨jobId.1, jobId.2.1⟩ extension token
  have hpath' := deriveStagingPath_eq R source' ⟨jobId'.1, jobId'.2.1⟩ extension' token'
  rw [hpath, hpath', Except.ok.injEq,
    join_dirname_inj (stagingName_isName jobId.2.1 token.2 extension.2)
      (stagingName_isName jobId'.2.1 token'.2 extension'.2), stagingName_inj]

theorem deriveStagingPath_ne (R : PyRepr) (source source' : PyStr) (jobId token extension : SafeToken)
    (jobId' : PlainId) (extension' : SafeToken) :
    deriveStagingPath R source jobId extension token ≠
      deriveOutputPath R source' jobId' extension' := by
  have hpath' := deriveOutputPath_eq R source' ⟨jobId'.1, jobId'.2.1⟩ extension'
  rw [deriveStagingPath_eq, hpath', Ne, Except.ok.injEq,
    join_dirname_inj (stagingName_isName jobId.2 token.2 extension.2)
      (outputName_isName jobId'.2.1 extension'.2)]
  rintro ⟨_, hname⟩
  exact stagingName_ne jobId token extension jobId' extension' hname

theorem deriveOutputPath_refused (R : PyRepr) (source : PyStr) {jobId extension : PyStr}
    (h : safeToken jobId = false ∨ safeToken extension = false) :
    ∃ msg, deriveOutputPath R source jobId extension = .error (.pathNotAllowed msg) := by
  have hcheck : ∃ msg, checkTokens R [("job id", jobId), ("extension", extension)]
      = .error (.pathNotAllowed msg) := by
    rcases h with h | h
    · exact @checkTokens_of_refused R _ ("job id", jobId) (by simp) h
    · exact @checkTokens_of_refused R _ ("extension", extension) (by simp) h
  obtain ⟨msg, hmsg⟩ := hcheck
  rw [deriveOutputPath, hmsg]
  exact ⟨msg, rfl⟩

theorem deriveStagingPath_refused (R : PyRepr) (source : PyStr) {jobId extension token : PyStr}
    (h : safeToken jobId = false ∨ safeToken extension = false ∨ safeToken token = false) :
    ∃ msg, deriveStagingPath R source jobId extension token = .error (.pathNotAllowed msg) := by
  have hcheck : ∃ msg, checkTokens R [("job id", jobId), ("extension", extension), ("token", token)]
      = .error (.pathNotAllowed msg) := by
    rcases h with h | h | h
    · exact @checkTokens_of_refused R _ ("job id", jobId) (by simp) h
    · exact @checkTokens_of_refused R _ ("extension", extension) (by simp) h
    · exact @checkTokens_of_refused R _ ("token", token) (by simp) h
  obtain ⟨msg, hmsg⟩ := hcheck
  rw [deriveStagingPath, hmsg]
  exact ⟨msg, rfl⟩

/-- The derived paths stay beside their source, differ wherever their parts do, and exist for
accepted parts only. -/
theorem derived_paths_distinct (R : PyRepr) :
    (∀ (source : PyStr) (jobId extension token : SafeToken),
      (∃ dst, deriveOutputPath R source jobId extension = .ok dst ∧ Beside source dst) ∧
        ∃ staging, deriveStagingPath R source jobId extension token = .ok staging ∧
          Beside source staging) ∧
    (∀ (source source' : PyStr) (jobId jobId' : PlainId) (extension extension' : SafeToken),
      deriveOutputPath R source jobId extension = deriveOutputPath R source' jobId' extension' ↔
        dirname source = dirname source' ∧ jobId = jobId' ∧ extension = extension') ∧
    (∀ (source source' : PyStr) (jobId jobId' : PlainId)
        (extension extension' token token' : SafeToken),
      deriveStagingPath R source jobId extension token =
          deriveStagingPath R source' jobId' extension' token' ↔
        dirname source = dirname source' ∧
          jobId = jobId' ∧ token = token' ∧ extension = extension') ∧
    (∀ (source source' : PyStr) (jobId jobId' : PlainId) (extension extension' token : SafeToken),
      deriveStagingPath R source jobId extension token ≠
        deriveOutputPath R source' jobId' extension') ∧
    (∀ text : PyStr, text = [] ∨ (∃ c ∈ text, isTokenChar c = false) →
      ∀ source a b : PyStr,
        (∃ msg, deriveOutputPath R source text a = .error (.pathNotAllowed msg)) ∧
        (∃ msg, deriveOutputPath R source a text = .error (.pathNotAllowed msg)) ∧
        (∃ msg, deriveStagingPath R source text a b = .error (.pathNotAllowed msg)) ∧
        (∃ msg, deriveStagingPath R source a text b = .error (.pathNotAllowed msg)) ∧
        ∃ msg, deriveStagingPath R source a b text = .error (.pathNotAllowed msg)) := by
  refine ⟨?_, ?_, deriveStagingPath_inj R, ?_, ?_⟩
  · intro source jobId extension token
    exact ⟨⟨_, deriveOutputPath_eq R source jobId extension, beside_output source jobId extension⟩,
      ⟨_, deriveStagingPath_eq R source jobId extension token,
        beside_staging source jobId token extension⟩⟩
  · intro source source' jobId jobId' extension extension'
    have h := deriveOutputPath_inj R source source' ⟨jobId.1, jobId.2.1⟩ ⟨jobId'.1, jobId'.2.1⟩
      extension extension'
    rw [Subtype.mk.injEq, ← Subtype.ext_iff] at h
    exact h
  · intro source source' jobId jobId' extension extension' token
    exact deriveStagingPath_ne R source source' ⟨jobId.1, jobId.2.1⟩ token extension jobId' extension'
  · intro text htext source a b
    have hunsafe := safeToken_eq_false_iff.mpr htext
    exact ⟨deriveOutputPath_refused R source (Or.inl hunsafe),
      deriveOutputPath_refused R source (Or.inr hunsafe),
      deriveStagingPath_refused R source (Or.inl hunsafe),
      deriveStagingPath_refused R source (Or.inr (Or.inl hunsafe)),
      deriveStagingPath_refused R source (Or.inr (Or.inr hunsafe))⟩

end HandBrakeEncoder.Paths
