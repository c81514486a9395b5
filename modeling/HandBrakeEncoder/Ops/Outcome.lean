/-
# `Ops.Outcome` — how `run_encode_job` ends, by how `run_encode` does

Whatever other processes do, the job has one of four ends (`Outcome`): it raises
before `run_encode` is called, it raises what `run_encode` raised, it raises
after `run_encode` returned, or it publishes.  Only `run_encode` may raise
`HandBrakeCancelled`; every exception of the job's own steps is another one.
-/
import HandBrakeEncoder.Ops.Encode
import HandBrakeEncoder.Presets.Paths

namespace HandBrakeEncoder.Ops

open Posix Jobs Paths Presets

/-- The environment in which `run_encode` ends the given way. -/
def Env.withOutcome (env : Env) (outcome : FnOutcome) : Env :=
  { env with encode := fun cmd => { env.encode cmd with outcome } }

/-- No call the job makes raises `HandBrakeCancelled`. -/
def Env.External (env : Env) : Prop := ∀ call e, env.fails call = some e → external e = true

/-- The ends of a job in which `run_encode`, when it is called, ends the given way. -/
inductive Outcome (outcome : FnOutcome) (r : JobRun) : Prop
  | before (e : PyExc) : r.encoded = false → external e = true → r.result = .raised e →
      r.atReplace = none → Outcome outcome r
  | encode (e : PyExc) : r.encoded = true → outcome = .raised e → r.result = .raised e →
      r.atReplace = none → Outcome outcome r
  | after (e : PyExc) : r.encoded = true → outcome = .returned → external e = true →
      r.result = .raised e → r.atReplace = none → Outcome outcome r
  | published (w : World) : r.encoded = true → outcome = .returned → r.checked = true →
      r.result = .returned → r.atReplace = some w → Outcome outcome r

/-! ## Before the encode -/

/-- A block raises no `HandBrakeCancelled`. -/
def Outside {α : Type} (x : Except PyExc α) : Prop := ∀ e, x = .error e → external e = true

theorem Outside.bind {α β : Type} {x : Except PyExc α} {f : α → Except PyExc β} (hx : Outside x)
    (hf : ∀ a, Outside (f a)) : Outside (x >>= f) := by
  intro e h
  cases x with
  | error e' =>
      cases h
      exact hx _ rfl
  | ok a => exact hf a e h

theorem Outside.ok {α : Type} (a : α) : Outside (.ok a : Except PyExc α) := nofun

theorem Outside.error {α : Type} {e : PyExc} (he : external e = true) :
    Outside (.error e : Except PyExc α) := by
  intro e' h
  cases h
  exact he

theorem realpathCall_outside (host : Host) (fs : Fs) (path : PyStr) :
    Outside (realpathCall host fs path) := by
  rw [realpathCall]
  split
  · exact .ok _
  · exact .error rfl
  · exact .error rfl

theorem inRoots_outside {calls : PathCalls} (hcalls : ∀ path, Outside (calls.realpath path))
    (real : PyStr) (roots : List PyStr) : Outside (inRoots calls real roots) := by
  induction roots with
  | nil => exact .ok _
  | cons root roots ih =>
      intro e h
      rw [inRoots] at h
      split at h
      · rename_i hroot
        cases h
        exact hcalls root e hroot
      · split at h
        · cases h
        · exact ih e h

theorem validateSourcePath_outside {R : PyRepr} {calls : PathCalls} {allowed : List PyStr}
    {path : PyStr} (hcalls : ∀ path, Outside (calls.realpath path)) :
    Outside (validateSourcePath R calls allowed path) := by
  rw [validateSourcePath]
  split
  · exact .error rfl
  split
  · rename_i e hreal
    refine .error ?_
    split
    · rfl
    · exact hcalls path e hreal
  split
  · rename_i e hroots
    exact .error (inRoots_outside hcalls _ _ e hroots)
  · exact .error rfl
  · split
    · exact .ok _
    · exact .error rfl

theorem findPreset_outside (R : PyRepr) (frames : Nat) (doc : JDict) (name : PyStr) :
    Outside (findPreset R frames doc name) := by
  intro e h
  rcases findPreset_error h with ⟨-, rfl⟩ | rfl
  · rfl
  · rfl

theorem presetEncoder_outside (R : PyRepr) (preset : JDict) : Outside (presetEncoder R preset) := by
  rw [presetEncoder]
  split
  · exact .ok _
  · exact .error rfl

theorem presetExtension_outside (R : PyRepr) (preset : JDict) :
    Outside (presetExtension R preset) := by
  intro e h
  rw [presetExtension] at h
  split at h
  · cases h
  · cases h
    rfl

theorem checkTokens_outside (R : PyRepr) (tokens : List (String × PyStr)) :
    Outside (checkTokens R tokens) := by
  induction tokens with
  | nil => exact .ok _
  | cons lt rest ih =>
      rw [checkTokens]
      split
      · exact ih
      · exact .error rfl

theorem deriveOutputPath_outside (R : PyRepr) (source jobId extension : PyStr) :
    Outside (deriveOutputPath R source jobId extension) := by
  rw [deriveOutputPath]
  split
  · rename_i e h
    exact .error (checkTokens_outside _ _ e h)
  · exact .ok _

theorem deriveStagingPath_outside (R : PyRepr) (source jobId extension token : PyStr) :
    Outside (deriveStagingPath R source jobId extension token) := by
  rw [deriveStagingPath]
  split
  · rename_i e h
    exact .error (checkTokens_outside _ _ e h)
  · exact .ok _

section Env

variable {host : Host} {env : Env} {jobId : PyStr} {req : EncodeRequest} {p : Plan} {w : World}

theorem prepare_outside (fs : Fs) : Outside (prepare host env fs jobId req) := by
  rw [prepare]
  refine (validateSourcePath_outside (realpathCall_outside host fs)).bind fun src => ?_
  refine (findPreset_outside _ _ _ _).bind fun preset => ?_
  refine (presetEncoder_outside _ _).bind fun encoder => ?_
  refine (presetExtension_outside _ _).bind fun extension => ?_
  refine (deriveOutputPath_outside _ _ _ _).bind fun dst => ?_
  refine (realpathCall_outside host fs dst).bind fun real => ?_
  split
  · exact .error rfl
  · exact (deriveStagingPath_outside _ _ _ _ _).bind fun staging => .ok _

theorem claimError_external {e : PyExc} (h : external e = true) : external (claimError e) = true := by
  cases e with
  | osError _ => rfl
  | handBrakeCancelled _ => cases h
  | jsonDecodeError _ | recursionError | valueError _ | overflowError | timeoutExpired
  | handBrakeError _ | pathNotAllowed _ | sourceNotFound _ | presetError _ | queueFull _ | other _
  | baseException _ => rfl

theorem claimStaging_outside (henv : env.External) (path : PyStr) :
    Outside (claimStaging env w path) := by
  rw [claimStaging]
  split
  · rename_i e hfails
    exact .error (claimError_external (henv _ e hfails))
  · split
    · exact .ok _
    · exact .error rfl

theorem mkstemp_outside (names : List RandomName) : Outside (mkstemp host env w names) := by
  induction names with
  | nil => exact .error rfl
  | cons name names ih =>
      rw [mkstemp]
      split
      · exact .ok _
      · exact ih
      · exact .error rfl

theorem makeTemp_outside (henv : env.External) : Outside (makeTemp host env w) := by
  rw [makeTemp]
  split
  · rename_i e hfails
    exact .error (henv _ e hfails)
  · exact mkstemp_outside _

theorem writePreset_external (henv : env.External) {w' : World} {e : PyExc}
    (h : writePreset host env req w = (w', some e)) : external e = true := by
  rw [writePreset] at h
  cases hdump : env.fails .jsonDump with
  | none =>
      rw [hdump] at h
      exact henv .handleClose e (Prod.ext_iff.mp h).2
  | some e' =>
      rw [hdump] at h
      have he := Option.some.inj (Prod.ext_iff.mp h).2
      cases hclose : env.fails .handleClose with
      | none =>
          rw [hclose] at he
          exact henv .jsonDump e (hdump.trans (congrArg some he))
      | some e'' =>
          rw [hclose] at he
          exact henv .handleClose e (hclose.trans (congrArg some he))

/-! ## After the encode -/

theorem checkStaging_external (henv : env.External) {path : PyStr} {w' : World} {e : PyExc}
    (h : checkStaging env w path = (w', some e)) : external e = true := by
  rw [checkStaging] at h
  split at h
  · rename_i e' hfails
    cases h
    exact henv _ e hfails
  dsimp only at h
  split at h
  · rename_i e' hfails
    cases h
    exact henv _ e hfails
  split at h
  · cases h
    rfl
  · have he := (Prod.ext_iff.mp h).2
    dsimp only at he
    split at he
    · cases he
    · cases he
      rfl

theorem swapIn_outcome (henv : env.External) :
    (∃ e, external e = true ∧ (swapIn env p w).outcome = .raised e ∧
      (swapIn env p w).atReplace = none) ∨
    ((swapIn env p w).checked = true ∧ (swapIn env p w).outcome = .returned ∧
      ∃ w', (swapIn env p w).atReplace = some w') := by
  rw [swapIn]
  cases hfails : env.fails .replace with
  | some e => exact .inl ⟨e, henv _ e hfails, rfl, rfl⟩
  | none =>
      dsimp only
      cases (w.close env.stagingFd).fs.rename p.staging p.dst with
      | error e => exact .inl ⟨_, rfl, rfl, rfl⟩
      | ok fs => exact .inr ⟨rfl, rfl, _, rfl⟩

/-- The end of the inner `try` block. -/
theorem publish_outcome (henv : env.External) (run : EncodeRun) :
    (∃ e, run.outcome = .raised e ∧ (publish env p run w).outcome = .raised e ∧
      (publish env p run w).atReplace = none) ∨
    (∃ e, run.outcome = .returned ∧ external e = true ∧
      (publish env p run w).outcome = .raised e ∧ (publish env p run w).atReplace = none) ∨
    (run.outcome = .returned ∧ (publish env p run w).checked = true ∧
      (publish env p run w).outcome = .returned ∧
      ∃ w', (publish env p run w).atReplace = some w') := by
  rw [publish]
  cases hrun : run.outcome with
  | raised e => exact .inl ⟨e, rfl, rfl, rfl⟩
  | returned =>
      refine .inr ?_
      dsimp only
      cases hcheck : checkStaging env (encodeInto env p.staging run.data w) p.staging with
      | mk w' exc =>
          cases exc with
          | some e => exact .inl ⟨e, rfl, checkStaging_external henv hcheck, rfl, rfl⟩
          | none =>
              rcases swapIn_outcome (p := p) (w := w') henv with ⟨e, he, hraised, hnone⟩ | hdone
              · exact .inl ⟨e, rfl, he, hraised, hnone⟩
              · exact .inr ⟨rfl, hdone⟩

/-! ## The job -/

theorem Env.External.withOutcome (henv : env.External) (outcome : FnOutcome) :
    (env.withOutcome outcome).External := henv

theorem encodeWithTemp_outcome (henv : env.External) (outcome : FnOutcome) (name : RandomName) :
    Outcome outcome (encodeWithTemp host (env.withOutcome outcome) req p w name) := by
  rw [encodeWithTemp]
  cases hwrite : writePreset host (env.withOutcome outcome) req w with
  | mk w' exc =>
      cases exc with
      | some e =>
          exact .before e rfl (writePreset_external (henv.withOutcome outcome) hwrite) rfl rfl
      | none =>
          dsimp only
          rcases publish_outcome (p := p) (w := (env.withOutcome outcome).act .dumped w')
            (henv.withOutcome outcome)
            ((env.withOutcome outcome).encode
              (buildEncodeCommand host p.src p.staging (tempPath host name) req.presetName))
            with ⟨e, hout, hresult, hnone⟩ | ⟨e, hout, he, hresult, hnone⟩ |
              ⟨hout, hchecked, hresult, w'', hsome⟩
          · exact .encode e rfl hout hresult hnone
          · exact .after e rfl hout he hresult hnone
          · exact .published w'' rfl hout hchecked hresult hsome

/-- **The four ends of the job.** -/
theorem runEncodeJob_outcome (host : Host) (henv : env.External) (outcome : FnOutcome)
    (jobId : PyStr) (req : EncodeRequest) (w : World) :
    Outcome outcome (runEncodeJob host (env.withOutcome outcome) jobId req w) := by
  have hext := henv.withOutcome outcome
  rcases runEncodeJob_course host (env.withOutcome outcome) jobId req w with
    ⟨e, hprepare, hrun⟩ | ⟨p, e, -, hclaim, hrun⟩ | ⟨p, w₁, e, -, -, htemp, hrun⟩ |
      ⟨p, w₁, w₂, name, -, -, -, hrun⟩
  · rw [hrun]
    exact .before e rfl (prepare_outside w.fs e hprepare) rfl rfl
  · rw [hrun]
    exact .before e rfl (claimStaging_outside hext _ e hclaim) rfl rfl
  · rw [hrun]
    exact .before e rfl (makeTemp_outside hext e htemp) rfl rfl
  · rw [hrun]
    exact encodeWithTemp_outcome henv outcome name

theorem mkstemp_withOutcome (host : Host) (env : Env) (outcome : FnOutcome) (w : World)
    (names : List RandomName) :
    mkstemp host (env.withOutcome outcome) w names = mkstemp host env w names := by
  induction names with
  | nil => rfl
  | cons name names ih =>
      rw [mkstemp, mkstemp, ih]
      rfl

theorem makeTemp_withOutcome (host : Host) (env : Env) (outcome : FnOutcome) (w : World) :
    makeTemp host (env.withOutcome outcome) w = makeTemp host env w := by
  rw [makeTemp, makeTemp, mkstemp_withOutcome]
  rfl

/-- Whether `run_encode` is called does not depend on how it ends. -/
theorem encoded_withOutcome (host : Host) (env : Env) (outcome : FnOutcome) (jobId : PyStr)
    (req : EncodeRequest) (w : World) :
    (runEncodeJob host (env.withOutcome outcome) jobId req w).encoded
      = (runEncodeJob host env jobId req w).encoded := by
  rw [runEncodeJob, runEncodeJob]
  have hprepare : prepare host (env.withOutcome outcome) w.fs jobId req
      = prepare host env w.fs jobId req := rfl
  have hclaim : ∀ p, claimStaging (env.withOutcome outcome) w p = claimStaging env w p :=
    fun _ => rfl
  rw [hprepare]
  cases prepare host env w.fs jobId req with
  | error e => rfl
  | ok p =>
      dsimp only
      rw [hclaim]
      cases claimStaging env w p.staging with
      | error e => rfl
      | ok w' =>
          have hact : (env.withOutcome outcome).act .claimed w' = env.act .claimed w' := rfl
          dsimp only
          rw [encodeClaimed, encodeClaimed, hact, makeTemp_withOutcome]
          cases makeTemp host env (env.act .claimed w') with
          | error e => rfl
          | ok made =>
              obtain ⟨w'', name⟩ := made
              have hwrite : ∀ w, writePreset host (env.withOutcome outcome) req w
                  = writePreset host env req w := fun _ => rfl
              have hact' : (env.withOutcome outcome).act .tempMade w'' = env.act .tempMade w'' :=
                rfl
              dsimp only
              rw [encodeWithTemp, encodeWithTemp, hact', hwrite]
              cases writePreset host env req (env.act .tempMade w'') with
              | mk w₃ exc => cases exc <;> rfl

/-- A job that returns has stored its encoder and its output path on the way. -/
theorem runEncodeJob_claimStores {host : Host} {env : Env} {jobId : PyStr} {req : EncodeRequest}
    {w : World} (h : (runEncodeJob host env jobId req w).result = .returned) :
    ∃ p, ∀ x ∈ claimStores p, x ∈ (runEncodeJob host env jobId req w).stores := by
  rcases runEncodeJob_course host env jobId req w with ⟨e, -, hrun⟩ | ⟨p, e, -, -, hrun⟩ |
    ⟨p, w₁, e, -, -, -, hrun⟩ | ⟨p, w₁, w₂, name, -, -, -, hrun⟩
  · rw [hrun] at h
    cases h
  · rw [hrun] at h
    cases h
  · rw [hrun] at h
    cases h
  · refine ⟨p, fun x hx => ?_⟩
    rw [hrun, encodeWithTemp]
    cases writePreset host env req (env.act .tempMade w₂) with
    | mk w₃ exc =>
        cases exc with
        | some e => exact hx
        | none => exact List.mem_append_left _ hx

end Env

end HandBrakeEncoder.Ops
