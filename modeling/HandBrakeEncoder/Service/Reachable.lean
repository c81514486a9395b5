/-
# `Service.Reachable` — a job can run through

The system of `Service.Life` is not stuck: from a worker executing the job, the
function can make its stores, `run_encode` can run and return, and the worker
can record the outcome.  `Life.runs_through` puts these together for any setup,
so a statement about jobs that are over is about some.
-/
import HandBrakeEncoder.Service.Life
import HandBrakeEncoder.Ops.Stages

namespace HandBrakeEncoder.Service

open Jobs Runner Ops Posix Relation Lib

variable {S : Setup} {L₀ L : Life} {m : State} {w : WorkerId}

/-- An action that is no store and no end of a function. -/
def plain : Action → Bool
  | .fnStore _ _ _ | .finish _ _ => false
  | _ => true

/-- A run of the manager up to the call. -/
theorem Life.Reaches.of_manager {as : List Action} (h : Jobs.Reaches S.cfg as m)
    (hplain : ∀ a ∈ as, plain a = true) :
    ∃ L, Life.Reaches S L ∧ L.mgr = m ∧ L.stored = [] ∧ (L.fn = .notCalled ∨ L.fn = .called) := by
  refine Run.invariant_of (Q := fun a => plain a = true)
    (P := fun m => ∃ L, Life.Reaches S L ∧ L.mgr = m ∧ L.stored = [] ∧
      (L.fn = .notCalled ∨ L.fn = .called)) ?_ h hplain ⟨_, .refl, rfl, rfl, .inl rfl⟩
  rintro a s t ha ⟨L, hL, rfl, hstored, hfn⟩ hstep
  have hends : L.Ends S a := by
    rintro _ _ rfl _
    cases ha
  have hnone : fnStored S.job L.mgr a = [] := by
    cases a <;> first | rfl | cases ha
  refine ⟨L.after S a t, hL.tail (.manager a t hstep hends), rfl, ?_, ?_⟩
  · show L.stored ++ fnStored S.job L.mgr a = []
    rw [hstored, hnone]
    rfl
  · have hcases : (L.after S a t).fn = if a.isCall S.job then .called else L.fn := rfl
    rw [hcases]
    split
    · exact .inr rfl
    · exact hfn

/-- The function makes its stores. -/
theorem Life.runs_fnStores (h : ReflTransGen (Life.Step S) L₀ L)
    (hw : L.mgr.workers w = .executing S.job) (stores : List AttrStore)
    (hby : ∀ st ∈ stores, st.byFunction = true) :
    ∃ L', ReflTransGen (Life.Step S) L₀ L' ∧ L'.mgr.workers w = .executing S.job ∧ L'.fn = L.fn ∧
      L'.stored = L.stored ++ stores := by
  induction stores generalizing L with
  | nil => exact ⟨L, h, hw, rfl, (List.append_nil _).symm⟩
  | cons st stores ih =>
      have hjob : JobStep w S.job (.fnStore w st 0) (L.mgr.workers w) (L.mgr.jobs S.job)
          (.executing S.job) ((L.mgr.jobs S.job).store 0 st) := by
        rw [hw]
        exact .fnStore (hby st List.mem_cons_self)
      have hstep := h.tail (.manager _ _ (.worker w (.onJob hjob)) nofun)
      obtain ⟨L', hL', hw', hfn, hstored⟩ := ih hstep (State.setWorker_self _ _ _)
        fun st' h' => hby st' (List.mem_cons_of_mem _ h')
      refine ⟨L', hL', hw', hfn, ?_⟩
      rw [hstored]
      show (L.stored ++ if L.mgr.workers w = .executing S.job then [st] else []) ++ stores = _
      rw [if_pos hw, List.append_assoc]
      rfl

/-- The child runs, its output is read to the end, and it exits 0. -/
theorem Life.runs_encode (h : ReflTransGen (Life.Step S) L₀ L) (hfn : L.fn = .called)
    (he : S.encodes = true) :
    ∃ L', ReflTransGen (Life.Step S) L₀ L' ∧ L'.mgr = L.mgr ∧ L'.stored = L.stored ∧
      L'.fn = .ended (S.run .returned) := by
  have hpopen := h.tail (.popen hfn he)
  have hthread := hpopen.tail (.proc _ _ rfl (.main (.newThread rfl)) rfl)
  have hreading := hthread.tail (.proc _ _ rfl (.main (.startThread rfl)) rfl)
  have hread := hreading.tail (.proc _ _ rfl (.main (.loopEnds rfl)) rfl)
  have hexited := hread.tail (.proc _ _ rfl (.child (.exits 0 rfl)) rfl)
  have hpolled := hexited.tail (.proc _ _ rfl (.main (.pollExited rfl (.exited rfl))) rfl)
  have hwaited := hpolled.tail (.proc _ _ rfl (.main (.finalWait rfl rfl)) rfl)
  have hjoined := hwaited.tail (.proc _ _ rfl (.main (.join rfl)) rfl)
  have hdone := hjoined.tail (.proc _ _ rfl (.main (.verdict rfl (.finished rfl))) rfl)
  exact ⟨_, hdone.tail (.encodeEnds _ .returned rfl rfl rfl), rfl, rfl, rfl⟩

/-- The worker makes the stores it has left. -/
theorem Life.runs_lastStores {st : JobStatus} {ss : List AttrStore} {kills : Bool}
    (hends : EndsIn st ss) (h : ReflTransGen (Life.Step S) L₀ L)
    (hw : L.mgr.workers w = .storing S.job ss kills) :
    ∃ L', ReflTransGen (Life.Step S) L₀ L' ∧ L'.mgr.status S.job = st ∧ L'.fn = L.fn := by
  induction hends generalizing L with
  | last =>
      have hjob : JobStep w S.job (.storeAttr w 0) (L.mgr.workers w) (L.mgr.jobs S.job)
          (.afterStore S.job kills []) ((L.mgr.jobs S.job).store 0 (.status st)) := by
        rw [hw]
        exact .storeAttr
      refine ⟨_, h.tail (.manager _ _ (.worker w (.onJob hjob)) nofun), ?_, rfl⟩
      exact State.setJob_status_self _ _ _
  | @more s ss _ hrest ih =>
      have hjob : JobStep w S.job (.storeAttr w 0) (L.mgr.workers w) (L.mgr.jobs S.job)
          (.afterStore S.job kills ss) ((L.mgr.jobs S.job).store 0 s) := by
        rw [hw]
        exact .storeAttr
      have hstep := h.tail (.manager _ _ (.worker w (.onJob hjob)) nofun)
      obtain ⟨x, xs, rfl⟩ := List.exists_cons_of_ne_nil hrest.ne_nil
      obtain ⟨L', hL', hstatus, hfn⟩ := ih hstep (State.setWorker_self _ _ _)
      exact ⟨L', hL', hstatus, hfn⟩

/-- **A job can run through**: from a worker executing it, to the status its function leads to. -/
theorem Life.runs_through (hw : L.mgr.workers w = .executing S.job)
    (hfn : L.fn = .called) (hstored : L.stored = []) (he : S.encodes = true)
    (hby : ∀ st ∈ (S.run .returned).stores, st.byFunction = true) :
    ∃ L', ReflTransGen (Life.Step S) L L' ∧ L'.fn = .ended (S.run .returned) ∧
      L'.mgr.status S.job = endStatus (S.run .returned).result := by
  obtain ⟨L₁, h₁, hw₁, hfn₁, hstored₁⟩ := Life.runs_fnStores .refl hw _ hby
  obtain ⟨L₂, h₂, hmgr₂, hstored₂, hfn₂⟩ := Life.runs_encode h₁ (hfn₁.trans hfn) he
  have hjob : JobStep w S.job (.finish w (S.run .returned).result) (L₂.mgr.workers w)
      (L₂.mgr.jobs S.job) (.storing S.job (terminalStores (S.run .returned).result)
        (S.run .returned).result.kills) (L₂.mgr.jobs S.job) := by
    rw [hmgr₂, hw₁]
    exact .finish
  have hends : L₂.Ends S (.finish w (S.run .returned).result) := by
    rintro _ outcome heq -
    cases heq
    exact ⟨_, hfn₂, rfl, by rw [hstored₂, hstored₁, hstored]; rfl⟩
  have hfinish := h₂.tail (.manager _ _ (.worker w (.onJob hjob)) hends)
  obtain ⟨L₃, h₃, hstatus, hfn₃⟩ := Life.runs_lastStores (endStatus_endsIn _) hfinish
    (State.setWorker_self _ _ _)
  exact ⟨L₃, h₃, hfn₃.trans hfn₂, hstatus⟩

/-! ## One job of one worker -/

/-- The job `J` for `/data/movie.mkv`, the first of a manager with one worker. -/
def sampleSetup : Setup where
  cfg := ⟨1, 3600, 0⟩
  job := 0
  host := sampleHost
  env := sampleEnv
  jobId := "J".toList
  req := sampleRequest "/data/movie.mkv".toList
  world := ⟨sampleFs, []⟩
  raises _ := False
  timeout := "14400".toList

theorem sampleSetup_executing : ∃ L, Life.Reaches sampleSetup L ∧ L.mgr.workers 0 = .executing 0 ∧
    (0 ∈ L.mgr.accepted ∧ L.mgr.status 0 = .running ∧ (L.mgr.jobs 0).etaUpdatedAt = none) ∧
    L.fn = .called ∧ L.stored = [] := by
  obtain ⟨m, hm, hw, hjob⟩ := reaches_of_replay ⟨1, 3600, 0⟩
    [.start 0, .setRunning 0, .spawn 0, .append 0, .submit 0 0, .put 0, .takeJob 0 0,
      .decrement 0, .claim 0 0, .call 0 0]
    (fun s => s.workers 0 = .executing 0 ∧
      0 ∈ s.accepted ∧ s.status 0 = .running ∧ (s.jobs 0).etaUpdatedAt = none)
    (by decide +kernel)
  obtain ⟨L, hL, rfl, hstored, hfn⟩ := Life.Reaches.of_manager (S := sampleSetup) hm (by decide)
  have hplace := hL.inv.place 0 (congrArg WorkerPc.job? hw)
  rw [hw] at hplace
  exact ⟨L, hL, hw, hjob, hfn.resolve_left hplace.2, hstored⟩

/-- The sample job completes, some time after it was running without an estimate. -/
theorem sampleSetup_completes : ∃ L L', Life.Reaches sampleSetup L ∧
    (0 ∈ L.mgr.accepted ∧ L.mgr.status 0 = .running ∧ (L.mgr.jobs 0).etaUpdatedAt = none) ∧
    ReflTransGen (Life.Step sampleSetup) L L' ∧
    L'.fn = .ended (sampleSetup.run .returned) ∧ L'.mgr.status 0 = .completed := by
  obtain ⟨L, hL, hw, hjob, hfn, hstored⟩ := sampleSetup_executing
  have hresult : (sampleSetup.run .returned).result = .returned := by decide +kernel
  obtain ⟨L', hL', hfn', hstatus⟩ := Life.runs_through (S := sampleSetup) hw hfn hstored
    (by decide +kernel) (by decide +kernel)
  rw [hresult] at hstatus
  exact ⟨L, L', hL, hjob, hL', hfn', hstatus⟩

end HandBrakeEncoder.Service
