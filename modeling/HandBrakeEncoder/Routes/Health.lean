/-
# `Routes.Health` — the client can decide by the health response

A client has nothing but `GET /health` to tell which presets this machine takes, and
`POST /jobs` decides by the same two probes.  What the client makes of the response
for an encoder and a speed preset is the `verdict`:

    an encoder that is not listed              409 encoder_unavailable
    a speed preset its encoder does not list   400 invalid_video_preset
    else                                       nothing against it

**Where the route agrees.**  Both sides call `available_encoders` and
`encoder_presets`, whose lists are cached.  While no probe stores over a list that
differs, every call for one query returns one list (`Agreed`), so the response
holds for each request, whether it was made before or after.
-/
import HandBrakeEncoder.Encoders.Fresh
import HandBrakeEncoder.Gpu
import HandBrakeEncoder.Routes.Post

namespace HandBrakeEncoder.Routes

open Lib Text Jobs Ops Paths Presets Encoders Encoders.Cache

/-! ## The binary -/

/-- `\d+`, and as many times more a dot and `\d+`. -/
def dotted (isDigit : Char → Bool) : Nat → PyStr → Option PyStr
  | 0, text => if text.takeWhile isDigit = [] then none else some (text.takeWhile isDigit)
  | more + 1, text =>
      if text.takeWhile isDigit = [] then none
      else
        match text.dropWhile isDigit with
        | '.' :: rest => (dotted isDigit more rest).map (text.takeWhile isDigit ++ '.' :: ·)
        | _ => none

/-- `_VERSION_RE.search(banner)`, with its group. -/
def searchVersion (isDigit : Char → Bool) (banner : PyStr) : Option PyStr :=
  banner.tails.findSome? (dotted isDigit 2)

structure HandbrakeInfo where
  available : Bool
  version : PyStr
  path : PyStr

/-- `handbrake_info`, given what `shutil.which` found and how `--version` ran. -/
def handbrakeInfo (isDigit : Char → Bool) (which : Option PyStr) (run : ProbeRun) : HandbrakeInfo :=
  match which with
  | none => ⟨false, [], []⟩
  | some path =>
      match run with
      | .failed => ⟨false, [], path⟩
      | .completed returncode stdout stderr =>
          if returncode ≠ 0 then ⟨false, [], path⟩
          else
            let banner := if stdout ≠ [] then stdout else stderr
            ⟨true, (searchVersion isDigit banner).getD [], path⟩

/-! ## The response -/

/-- `d[key] = value`. -/
def dictSet (d : List (PyStr × List PyStr)) (key : PyStr) (value : List PyStr) :
    List (PyStr × List PyStr) :=
  match d with
  | [] => [(key, value)]
  | kv :: d => if kv.1 = key then (key, value) :: d else kv :: dictSet d key value

/-- `{key: value for ...}`. -/
def dictOf (pairs : List (PyStr × List PyStr)) : List (PyStr × List PyStr) :=
  pairs.foldl (fun d kv => dictSet d kv.1 kv.2) []

structure Health where
  status : String
  reasons : List String
  handbrakeAvailable : Bool
  handbrakeVersion : PyStr
  encoders : List PyStr
  encoderPresets : List (PyStr × List PyStr)
  gpuName : Option PyStr
  allowedRoots : List PyStr
  workers : ℤ

/-- `health`, given what its calls return: the list of the encoders, and of each of these the list
of its presets. -/
def health (info : HandbrakeInfo) (available : List PyStr) (presets : List (List PyStr))
    (allowedRoots : List PyStr) (gpu : Except PyExc (Option PyStr)) (workers : ℤ) : Health :=
  let reasons :=
    (if info.available then [] else ["HandBrakeCLI is not available or not runnable on PATH"])
      ++ (if available = [] then ["HandBrakeCLI reported no usable encoders"] else [])
      ++ if allowedRoots = [] then
          ["ENCODER_ALLOWED_ROOTS is empty; every request will be rejected"]
        else []
  { status := if reasons = [] then "ok" else "degraded"
    reasons
    handbrakeAvailable := info.available
    handbrakeVersion := info.version
    encoders := available
    encoderPresets := dictOf (available.zip presets)
    gpuName :=
      match gpu with
      | .ok name => name
      | .error _ => none
    allowedRoots
    workers }

/-! ## What a client makes of it -/

/-- The presets listed for the encoder. -/
def Health.presetsOf (h : Health) (encoder : PyStr) : List PyStr :=
  (h.encoderPresets.lookup encoder).getD []

/-- The status code and the code to expect for an encoder and a speed preset, if it is refused. -/
def Health.verdict (h : Health) (encoder speed : PyStr) : Option (Nat × String) :=
  if h.encoders.contains encoder = false then some (409, "encoder_unavailable")
  else if speed ≠ [] ∧ h.presetsOf encoder ≠ [] ∧ (h.presetsOf encoder).contains speed = false then
    some (400, "invalid_video_preset")
  else none

/-- The tests are those of the route. -/
theorem Health.verdict_eq (h : Health) (encoder speed : PyStr) : h.verdict encoder speed =
    if encoder ∉ h.encoders then some (409, "encoder_unavailable")
    else if speed ≠ [] ∧ h.presetsOf encoder ≠ [] ∧ speed ∉ h.presetsOf encoder then
      some (400, "invalid_video_preset")
    else none := by
  simp only [Health.verdict, List.contains_eq_mem, decide_eq_false_iff_not]

/-! ## The calls agree -/

/-- A call for the query has returned the list. -/
def Returned (s : Cache.State) (query : Query) (names : List PyStr) : Prop :=
  ∃ id, s.calls id = .returned query names

/-- What a call returned is cached, and one between its sections read the present generation. -/
def Settled (g : Globals) : Pc → Prop
  | .returned query names => g.cached query = some names
  | .probing _ gen | .probed _ gen _ => gen = g.generation
  | .idle | .raised _ => True

def Agreed (s : Cache.State) : Prop := ∀ id, Settled s.globals (s.calls id)

variable {isWord : Char → Bool} {trace : List Event} {e : Event} {s t : Cache.State} {pc : Pc}
  {id : ℕ} {query : Query} {names available : List PyStr} {presets : List (List PyStr)}
  {checks : Checks} {req : EncodeRequest}

/-- A step of another call leaves it settled. -/
theorem Settled.step (h : Settled s.globals pc) (hstep : Cache.Step isWord e s t) (he : e ≠ .reset)
    (hover : NoOverwrite s e) : Settled t.globals pc := by
  cases pc with
  | idle => trivial
  | raised query => trivial
  | returned query names => exact hstep.cached_eq he hover h
  | probing query gen => exact h.trans (hstep.generation_eq he).symm
  | probed query gen names => exact h.trans (hstep.generation_eq he).symm

/-- One call goes on; the others are as they were. -/
theorem Agreed.goto (h : Agreed s) (hpc : Settled s.globals pc) : Agreed (s.goto id pc) := by
  intro id'
  rw [State.goto_calls]
  split
  · exact hpc
  · exact h id'

/-- The step lemma. -/
theorem Agreed.step (h : Agreed s) (hstep : Cache.Step isWord e s t) (he : e ≠ .reset)
    (hover : NoOverwrite s e) : Agreed t := by
  have hkeep : ∀ pc, Settled s.globals pc → Settled t.globals pc :=
    fun pc hpc => hpc.step hstep he hover
  cases hstep with
  | reset => exact absurd rfl he
  | hit _ hc => exact h.goto hc
  | miss _ _ => exact h.goto rfl
  | @probe _ id query gen run hpc =>
      have hgen := h id
      rw [hpc] at hgen
      exact h.goto hgen
  | uncaught _ => exact h.goto trivial
  | @store _ id query gen names hpc =>
      have hgen := h id
      rw [hpc] at hgen
      intro id'
      have hold := hkeep _ (h id')
      dsimp only at hold ⊢
      rw [State.goto_calls]
      split
      · show (s.globals.store query gen names).cached query = some names
        rw [Globals.store, if_pos hgen.symm, Globals.cached_put, if_pos rfl]
      · exact hold

/-- On a run without a reset or an overwrite the calls agree. -/
theorem Agreed.run (h : Run (fun e s t => Cache.Step isWord e s t ∧ NoOverwrite s e) .init trace s)
    (hreset : .reset ∉ trace) : Agreed s := by
  induction h with
  | nil => exact fun _ => trivial
  | @snoc t u trace e hrun hstep ih =>
      rw [List.mem_append, List.mem_singleton, not_or] at hreset
      exact (ih hreset.1).step hstep.1 (Ne.symm hreset.2) hstep.2

/-- Two calls for one query that returned, returned one list. -/
theorem Agreed.unique (h : Agreed s) {names' : List PyStr} (hr : Returned s query names)
    (hr' : Returned s query names') : names = names' := by
  obtain ⟨id, hid⟩ := hr
  obtain ⟨id', hid'⟩ := hr'
  have hc := h id
  have hc' := h id'
  rw [hid] at hc
  rw [hid'] at hc'
  exact Option.some.inj (hc.symm.trans hc')

/-! ## What the response was made of -/

/-- The lists of a response are what calls have returned. -/
structure Reported (s : Cache.State) (available : List PyStr) (presets : List (List PyStr)) : Prop where
  encoders : Returned s .encoders available
  presets : List.Forall₂ (fun encoder names => Returned s (.presets encoder) names) available presets

/-- So are those a request was decided by: the route asks for the presets of an encoder it has. -/
structure Consulted (s : Cache.State) (checks : Checks) (req : EncodeRequest) : Prop where
  encoders : ∃ available, checks.available = .ok available ∧ Returned s .encoders available
  presets : ∀ preset encoder available,
    selectPreset checks.repr checks.presetFrames req = .ok (preset, encoder) →
    checks.available = .ok available → encoder ∈ available →
    ∃ names, checks.encoderPresets encoder = .ok names ∧ Returned s (.presets encoder) names

theorem lookup_cons_if (d : List (PyStr × List PyStr)) (kv : PyStr × List PyStr) (key : PyStr) :
    (kv :: d).lookup key = if key = kv.1 then some kv.2 else d.lookup key := by
  rw [List.lookup_cons]
  by_cases h : key = kv.1
  · rw [if_pos h, beq_iff_eq.mpr h]
  · rw [if_neg h, beq_false_of_ne h]

theorem lookup_dictSet (d : List (PyStr × List PyStr)) (key key' : PyStr) (value : List PyStr) :
    (dictSet d key value).lookup key' = if key' = key then some value else d.lookup key' := by
  induction d with
  | nil =>
      rw [dictSet, lookup_cons_if]
  | cons kv d ih =>
      rw [dictSet]
      split
      · rename_i hk
        rw [lookup_cons_if, lookup_cons_if, hk]
        split
        · rfl
        · rfl
      · rename_i hk
        rw [lookup_cons_if, lookup_cons_if, ih]
        by_cases h : key' = kv.1
        · rw [if_pos h, if_neg (h.symm ▸ hk), if_pos h]
        · rw [if_neg h, if_neg h]

/-- Where the values go by the keys, a key has its value, whatever was there before. -/
theorem lookup_foldl {f : PyStr → List PyStr} {pairs : List (PyStr × List PyStr)}
    (h : ∀ kv ∈ pairs, kv.2 = f kv.1) (d : List (PyStr × List PyStr)) (key : PyStr) :
    (pairs.foldl (fun d kv => dictSet d kv.1 kv.2) d).lookup key =
      if key ∈ pairs.map Prod.fst then some (f key) else d.lookup key := by
  induction pairs generalizing d with
  | nil => rfl
  | cons kv pairs ih =>
      rw [List.foldl_cons, ih (fun kv' hkv => h kv' (List.mem_cons_of_mem _ hkv)), lookup_dictSet,
        h kv List.mem_cons_self, List.map_cons]
      by_cases hmem : key ∈ pairs.map Prod.fst
      · rw [if_pos hmem, if_pos (List.mem_cons_of_mem _ hmem)]
      · rw [if_neg hmem]
        by_cases hkey : key = kv.1
        · rw [if_pos hkey, if_pos (List.mem_cons.mpr (.inl hkey)), hkey]
        · rw [if_neg hkey, if_neg (List.mem_cons.not.mpr (not_or.mpr ⟨hkey, hmem⟩))]

variable {info : HandbrakeInfo} {roots : List PyStr} {gpu : Except PyExc (Option PyStr)} {workers : ℤ}

/-- The presets a response lists for one of its encoders are those the route checks against. -/
theorem presetsOf_eq (hs : Agreed s) (hreported : Reported s available presets) {encoder : PyStr}
    (hmem : encoder ∈ available) (hr : Returned s (.presets encoder) names) :
    (health info available presets roots gpu workers).presetsOf encoder = names := by
  have hpairs : ∀ kv ∈ available.zip presets,
      kv.2 = (s.globals.cached (.presets kv.1)).getD [] := by
    intro kv hkv
    obtain ⟨id, hid⟩ := List.forall₂_zip hreported.presets hkv
    have hc := hs id
    rw [hid] at hc
    exact (congrArg (Option.getD · []) hc).symm
  have hkeys : (available.zip presets).map Prod.fst = available :=
    List.map_fst_zip hreported.presets.length_eq.le
  obtain ⟨id, hid⟩ := hr
  have hc := hs id
  rw [hid] at hc
  show ((dictOf (available.zip presets)).lookup encoder).getD [] = names
  rw [dictOf, lookup_foldl (f := fun encoder => (s.globals.cached (.presets encoder)).getD []) hpairs,
    hkeys, if_pos hmem]
  exact congrArg (Option.getD · []) hc

/-- Two responses list the same. -/
theorem Reported.unique (hs : Agreed s) (h : Reported s available presets) {available' : List PyStr}
    {presets' : List (List PyStr)} (h' : Reported s available' presets') :
    available' = available ∧ presets' = presets := by
  cases hs.unique h.encoders h'.encoders
  refine ⟨rfl, ?_⟩
  have hforall := h.presets
  have hforall' := h'.presets
  clear h h'
  induction hforall generalizing presets' with
  | nil =>
      cases hforall'
      rfl
  | cons hr _ ih =>
      cases hforall' with
      | cons hr' hrest' =>
          rw [ih hrest', hs.unique hr' hr]

/-! ## The route by the response -/

/-- The status is "ok" exactly when the binary runs and lists and roots are not empty. -/
theorem health_status : (health info available presets roots gpu workers).status = "ok" ↔
    info.available = true ∧ available ≠ [] ∧ roots ≠ [] := by
  simp only [health]
  cases info.available with
  | false => simp
  | true =>
      by_cases havailable : available = []
      · simp [havailable]
      · by_cases hroots : roots = []
        · simp [havailable, hroots]
        · simp [havailable, hroots]

/-- Without roots every request is refused. -/
theorem refusal_no_roots (h : checks.allowedRoots = []) : refusal checks req ≠ none := by
  have hsrc : validateSourcePath checks.repr checks.calls checks.allowedRoots req.sourcePath
      = .error notConfigured := by
    rw [validateSourcePath, h]
    rfl
  rw [refusal, hsrc]
  exact Option.some_ne_none _

/-- Once the path and the document are through, the route refuses by the encoder and the speed preset
alone. -/
theorem refusal_verdict {h : Health} {src encoder : PyStr} {preset : JDict}
    (hsrc : validateSourcePath checks.repr checks.calls checks.allowedRoots req.sourcePath = .ok src)
    (hselect : selectPreset checks.repr checks.presetFrames req = .ok (preset, encoder))
    (hencoders : checks.available = .ok h.encoders)
    (hpresets : encoder ∈ h.encoders → checks.encoderPresets encoder = .ok (h.presetsOf encoder)) :
    (refusal checks req = none ↔ h.verdict encoder (presetVideoPreset preset) = none) ∧
      ∀ answer, refusal checks req = some answer → ∃ statusCode code,
        h.verdict encoder (presetVideoPreset preset) = some (statusCode, code) ∧
          answer.Says statusCode code := by
  rw [refusal, hsrc, Health.verdict_eq]
  dsimp only
  rw [hselect]
  dsimp only
  rw [hencoders]
  dsimp only
  by_cases hmem : encoder ∈ h.encoders
  · rw [if_neg (not_not.mpr hmem), if_neg (not_not.mpr hmem), speedPresetAnswer, hpresets hmem]
    dsimp only
    split
    · refine ⟨iff_of_false (Option.some_ne_none _) (Option.some_ne_none _), fun answer h => ?_⟩
      cases h
      exact ⟨_, _, rfl, rfl, rfl⟩
    · exact ⟨iff_of_true rfl rfl, fun answer h => by cases h⟩
  · rw [if_pos hmem, if_pos hmem]
    refine ⟨iff_of_false (Option.some_ne_none _) (Option.some_ne_none _), fun answer h => ?_⟩
    cases h
    exact ⟨_, _, rfl, rfl, rfl⟩

theorem handbrakeInfo_available {isDigit : Char → Bool} {which : Option PyStr} {run : ProbeRun} :
    (handbrakeInfo isDigit which run).available = true ↔
      ∃ path stdout stderr, which = some path ∧ run = .completed 0 stdout stderr := by
  constructor
  · intro h
    cases which with
    | none => cases h
    | some path =>
        cases run with
        | failed => cases h
        | completed returncode stdout stderr =>
            rw [handbrakeInfo] at h
            split at h
            · cases h
            · rename_i hcode
              cases not_not.mp hcode
              exact ⟨path, stdout, stderr, rfl, rfl⟩
  · rintro ⟨path, stdout, stderr, rfl, rfl⟩
    rfl

/-- **The client can decide by the response.**  On a run of the caches without a reset or an
overwrite, however the calls overlap: every response lists the same; its status is "ok" exactly when
the binary runs and neither encoders nor roots are missing; and of each request whose path and
document are through, the route makes what the client makes of the response.  Without encoders or
without roots it refuses every request. -/
theorem health_decides {isDigit : Char → Bool} {which : Option PyStr} {run : ProbeRun}
    (hrun : Run (fun e s t => Cache.Step isWord e s t ∧ NoOverwrite s e) .init trace s)
    (hreset : .reset ∉ trace) (hreported : Reported s available presets)
    {h : Health} (hh : h = health (handbrakeInfo isDigit which run) available presets roots gpu workers) :
    (∀ available' presets', Reported s available' presets' →
        available' = available ∧ presets' = presets) ∧
      (h.status = "ok" ↔ (∃ path stdout stderr, which = some path ∧ run = .completed 0 stdout stderr) ∧
        h.encoders ≠ [] ∧ h.allowedRoots ≠ []) ∧
      ∀ checks req, checks.allowedRoots = h.allowedRoots → Consulted s checks req →
        (h.encoders = [] ∨ h.allowedRoots = [] → refusal checks req ≠ none) ∧
        ∀ src preset encoder,
          validateSourcePath checks.repr checks.calls checks.allowedRoots req.sourcePath = .ok src →
          selectPreset checks.repr checks.presetFrames req = .ok (preset, encoder) →
          (refusal checks req = none ↔ h.verdict encoder (presetVideoPreset preset) = none) ∧
            ∀ answer, refusal checks req = some answer → ∃ statusCode code,
              h.verdict encoder (presetVideoPreset preset) = some (statusCode, code) ∧
                answer.Says statusCode code := by
  have hs := Agreed.run hrun hreset
  subst hh
  refine ⟨fun _ _ h' => hreported.unique hs h', ?_, ?_⟩
  · rw [health_status, handbrakeInfo_available]
    rfl
  intro checks req hroots hconsulted
  obtain ⟨_, havailable, hreturned⟩ := hconsulted.encoders
  cases hs.unique hreported.encoders hreturned
  refine ⟨fun hempty hnone => ?_, fun src preset encoder hsrc hselect => ?_⟩
  · rcases hempty with hempty | hempty
    · obtain ⟨preset, encoder, _, _, -, havailable', hmem, -⟩ := refusal_none hnone
      rw [havailable] at havailable'
      cases havailable'
      have hnil : available = [] := hempty
      rw [hnil] at hmem
      exact absurd hmem List.not_mem_nil
    · exact refusal_no_roots (hroots.trans hempty) hnone
  · refine refusal_verdict hsrc hselect havailable fun hmem => ?_
    obtain ⟨names, hnames, hreturned⟩ := hconsulted.presets preset encoder _ hselect havailable hmem
    rw [hnames, presetsOf_eq hs hreported hmem hreturned]

/-- A response, and after it a request. -/
def healthThenPost : List Event :=
  [.miss 0 .encoders, .probe 0 helpRun, .store 0, .miss 1 (.presets "x264".toList),
    .probe 1 presetsRun, .store 1, .hit 2 .encoders (probed asciiWord helpRun .encoders),
    .hit 3 (.presets "x264".toList) (probed asciiWord presetsRun (.presets "x264".toList))]

theorem healthThenPost_reached : ∃ s,
    Run (fun e s t => Cache.Step asciiWord e s t ∧ NoOverwrite s e) .init healthThenPost s ∧
      Reported s ["x264".toList] [["veryfast".toList, "fast".toList]] ∧
      Consulted s sampleChecks (speedRequest "balanced".toList) := by
  have hpresets : probed asciiWord presetsRun (.presets "x264".toList)
      = ["veryfast".toList, "fast".toList] := probedPresets_presetsRun
  obtain ⟨s, hrun, h0, h1, h2, h3⟩ : ∃ s,
      Run (fun e s t => Cache.Step asciiWord e s t ∧ NoOverwrite s e) .init healthThenPost s ∧
      s.calls 0 = .returned .encoders (probed asciiWord helpRun .encoders) ∧
      s.calls 1 = .returned (.presets "x264".toList)
        (probed asciiWord presetsRun (.presets "x264".toList)) ∧
      s.calls 2 = .returned .encoders (probed asciiWord helpRun .encoders) ∧
      s.calls 3 = .returned (.presets "x264".toList)
        (probed asciiWord presetsRun (.presets "x264".toList)) := by
    refine ⟨_, .cons ⟨.miss rfl rfl, ?_⟩ <| .cons ⟨.probe helpRun rfl, ?_⟩ <|
      .cons ⟨.store rfl, ?_⟩ <| .cons ⟨.miss rfl rfl, ?_⟩ <| .cons ⟨.probe presetsRun rfl, ?_⟩ <|
      .cons ⟨.store rfl, ?_⟩ <| .cons ⟨.hit rfl rfl, ?_⟩ <| .cons ⟨.hit rfl rfl, ?_⟩ <| .nil _,
      rfl, rfl, rfl, rfl⟩
    all_goals
      intro id query names other he hpc hc
      cases he
    all_goals
      cases hpc
      cases hc
  rw [probed_helpRun] at h0 h2
  rw [hpresets] at h1 h3
  refine ⟨s, hrun, ⟨⟨0, h0⟩, .cons ⟨1, h1⟩ .nil⟩, ⟨_, rfl, ⟨2, h2⟩⟩, ?_⟩
  intro preset encoder available _ havailable hmem
  cases havailable
  cases List.mem_singleton.mp hmem
  exact ⟨_, sampleChecks_presets, ⟨3, h3⟩⟩

def sampleInfo : HandbrakeInfo :=
  handbrakeInfo Char.isDigit (some "/usr/bin/HandBrakeCLI".toList)
    (.completed 0 "HandBrake 1.9.2\n".toList [])

example : sampleInfo.version = "1.9.2".toList := by decide

/-- The speed preset is not among those of the response, and the route refuses it. -/
theorem health_decides_balanced : ∃ answer,
    refusal sampleChecks (speedRequest "balanced".toList) = some answer ∧
      answer.Says 400 "invalid_video_preset" := by
  obtain ⟨s, hrun, hreported, hconsulted⟩ := healthThenPost_reached
  have hreset : Event.reset ∉ healthThenPost := by simp [healthThenPost]
  obtain ⟨preset, hselect, hspeed⟩ : ∃ preset,
      selectPreset sampleChecks.repr sampleChecks.presetFrames (speedRequest "balanced".toList)
        = .ok (preset, "x264".toList) ∧ presetVideoPreset preset = "balanced".toList :=
    ⟨_, rfl, rfl⟩
  have hsrc : validateSourcePath sampleChecks.repr sampleChecks.calls sampleChecks.allowedRoots
      "/media1/movie.mkv".toList = .ok "/media1/movie.mkv".toList := by decide +kernel
  have hh : health sampleInfo ["x264".toList] [["veryfast".toList, "fast".toList]]
      ["/media1".toList] (.ok none) 1 = health (handbrakeInfo Char.isDigit
        (some "/usr/bin/HandBrakeCLI".toList) (.completed 0 "HandBrake 1.9.2\n".toList []))
        ["x264".toList] [["veryfast".toList, "fast".toList]] ["/media1".toList] (.ok none) 1 := rfl
  obtain ⟨-, -, hroute⟩ := health_decides hrun hreset hreported hh
  obtain ⟨hnone, hsome⟩ := (hroute sampleChecks _ rfl hconsulted).2 _ _ _ hsrc hselect
  rw [hspeed] at hnone hsome
  cases hrefusal : refusal sampleChecks (speedRequest "balanced".toList) with
  | none => exact absurd (hnone.mp hrefusal) (by decide)
  | some answer =>
      obtain ⟨statusCode, code, hverdict, hsays⟩ := hsome answer hrefusal
      cases hverdict
      exact ⟨answer, rfl, hsays⟩

end HandBrakeEncoder.Routes
