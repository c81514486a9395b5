/-
# `Service.Percent` — the progress of a job

`Job.progress` starts at 0, takes what `on_progress` stores, and is set to 100 when
the job's function returns (`Life.Reaches.progress`).  So the job, and the view
that rounds it, show a percentage as long as the loop passes nothing else.
-/
import HandBrakeEncoder.Progress.Percent
import HandBrakeEncoder.Service.Views

namespace HandBrakeEncoder.Service

open Jobs Runner Ops Posix Relation

variable {S : Setup} {L L' : Life} {m : State} {a : Action}

/-! ## The values the attribute takes -/

/-- The progress of the job is 0, 100, or a value its function stored. -/
def Sourced (S : Setup) (L : Life) : Prop :=
  (L.mgr.jobs S.job).progress = .finite 0 ∨ (L.mgr.jobs S.job).progress = .finite 100 ∨
    .progress (L.mgr.jobs S.job).progress ∈ L.stored

theorem Sourced.of_eq (h : Sourced S L)
    (hjob : (L'.mgr.jobs S.job).progress = (L.mgr.jobs S.job).progress)
    (hstored : L.stored ⊆ L'.stored) : Sourced S L' := by
  rw [Sourced, hjob]
  exact h.imp_right (Or.imp_right (fun hmem => hstored hmem))

/-- The one progress the end of a job stores. -/
theorem Left.progress {x : PyFloat} {ss : List AttrStore} (h : Left S L (.progress x :: ss)) :
    x = .finite 100 := by
  obtain ⟨made, hcause, _⟩ := h
  have hmem : AttrStore.progress x ∈ made ++ .progress x :: ss := by simp
  generalize made ++ .progress x :: ss = stores at hcause hmem
  cases hcause with
  | rejected =>
      simp [rejectStores] at hmem
  | ended r =>
      cases hresult : r.result with
      | returned =>
          rw [hresult] at hmem
          simpa [terminalStores] using hmem
      | raised e =>
          rw [hresult] at hmem
          cases e <;> simp [terminalStores] at hmem

/-- A step of the job's own worker. -/
theorem Sourced.jobStep (h : Sourced S L) (hi : L.Inv S) {w : WorkerId} {pc : WorkerPc}
    (hjob : JobStep w S.job a (L.mgr.workers w) (L.mgr.jobs S.job) pc (m.jobs S.job)) :
    Sourced S (L.after S a m) := by
  have hplace := hi.place w hjob.holds
  have hstored : L.stored ⊆ (L.after S a m).stored := List.subset_append_left _ _
  generalize hpc : L.mgr.workers w = before at hjob hplace
  generalize hbefore : L.mgr.jobs S.job = job at hjob
  generalize hafter : m.jobs S.job = job' at hjob
  -- the job after the step is `job'`
  have hjob' : ((L.after S a m).mgr.jobs S.job).progress = job'.progress :=
    congrArg Job.progress hafter
  have hkeep : job'.progress = job.progress → Sourced S (L.after S a m) := by
    intro heq
    refine h.of_eq ?_ hstored
    rw [hjob', heq, hbefore]
  cases hjob with
  | claimRefused hclaim =>
      exact hkeep rfl
  | claimGranted hclaim =>
      refine hkeep ?_
      rw [(Job.claim_some.mp hclaim).2]
  | call =>
      exact hkeep rfl
  | @fnStore _ x now hfn =>
      cases x with
      | progress v =>
          refine Or.inr (Or.inr ?_)
          rw [hjob']
          refine List.mem_append_right _ ?_
          rw [fnStored, if_pos hpc]
          exact List.mem_singleton.mpr rfl
      | status _ | etaSeconds _ | etaUpdatedAt _ | message _ | error _ | outputPath _
      | encoderUsed _ | finishedAt =>
          exact hkeep rfl
  | finish =>
      exact hkeep rfl
  | @storeAttr _ x ss kills now =>
      cases x with
      | progress v =>
          refine Or.inr (Or.inl ?_)
          rw [hjob']
          exact Left.progress hplace
      | status _ | etaSeconds _ | etaUpdatedAt _ | message _ | error _ | outputPath _
      | encoderUsed _ | finishedAt =>
          exact hkeep rfl

theorem Sourced.step (h : S.job ∈ L.mgr.accepted → Sourced S L) (hi : L.Inv S)
    (hstep : Life.Step S L L') : S.job ∈ L'.mgr.accepted → Sourced S L' := by
  cases hstep with
  | endsBefore | popenRaises | popen | proc | encodeEnds =>
      exact h
  | manager a m hstep _ =>
      intro hj'
      by_cases hj : S.job ∈ L.mgr.accepted
      · rcases hstep.seen hi.mgr hj with ⟨w, hjob, -⟩ | ⟨haside, hjob, -⟩
        · exact (h hj).jobStep hi hjob
        · refine (h hj).of_eq ?_ (List.subset_append_left _ _)
          show (m.jobs S.job).progress = _
          rcases hjob with hjob | hjob
          · rw [hjob]
          · rw [hjob]
            rfl
      · -- the job was just submitted
        obtain ⟨_, hnext, created, rfl⟩ := hstep.accepted_new hi.mgr hj' hj
        refine Or.inl ?_
        show ((L.mgr.accept created).jobs S.job).progress = .finite 0
        rw [hnext, State.accept]
        simp

theorem Life.Reaches.progress (h : Life.Reaches S L) (hj : S.job ∈ L.mgr.accepted) :
    Sourced S L := by
  revert hj
  induction h with
  | refl =>
      intro hj
      cases hj
  | tail hreach hstep ih =>
      exact Sourced.step ih (Life.Reaches.inv hreach) hstep

/-! ## The range -/

theorem round1_isPercent {x : PyFloat} (h : x.IsPercent) : (round1 x).IsPercent := by
  cases x with
  | finite q =>
      obtain ⟨h₀, h₁₀₀⟩ := h
      have hlow : ((0 : ℤ) : ℚ) ≤ q * 10 := by
        push_cast
        linarith
      have hhigh : q * 10 ≤ ((1000 : ℤ) : ℚ) := by
        push_cast
        linarith
      have hlow' : (0 : ℚ) ≤ Binary64.roundHalfEven (q * 10) := by
        exact_mod_cast Binary64.le_roundHalfEven hlow
      have hhigh' : (Binary64.roundHalfEven (q * 10) : ℚ) ≤ 1000 := by
        exact_mod_cast Binary64.roundHalfEven_le hhigh
      refine ⟨?_, ?_⟩
      · rw [← Binary64.round_zero]
        exact Binary64.round_mono (by linarith)
      · rw [← Progress.round_hundred]
        exact Binary64.round_mono (by linarith)
  | posInf | negInf | nan =>
      exact h

/-- What `on_progress` is given, what the job's progress takes and what a view shows of it are
percentages exactly if no fraction reported is below zero or a NaN. -/
theorem progress_percent_iff (env : Progress.LoopEnv) (lines : List PyStr) :
    ((∀ x, Progress.Passed env lines x → x.IsPercent) ∧
      ∀ (S : Setup) (L : Life), Life.Reaches S L → S.job ∈ L.mgr.accepted →
        (∀ x, .progress x ∈ L.stored → Progress.Passed env lines x) →
          (L.mgr.jobs S.job).progress.IsPercent ∧
            ∀ id at_ now v, at_ .progress = L.mgr.jobs S.job → toDict id at_ now = .ok v →
              v.progress.IsPercent) ↔
      ∀ front, front <+: lines → Progress.Harmless env [] 0 front →
        ∀ obj ∈ Progress.reported env.loads [] front, Progress.NonNegativeProgress obj := by
  rw [← Progress.passed_isPercent_iff]
  refine and_iff_left_of_imp ?_
  intro hpassed S L hreach hj hstored
  have hjob : (L.mgr.jobs S.job).progress.IsPercent := by
    rcases hreach.progress hj with h | h | h
    · rw [h]
      exact ⟨le_refl _, by norm_num⟩
    · rw [h]
      exact ⟨by norm_num, le_refl _⟩
    · exact hpassed _ (hstored _ h)
  refine ⟨hjob, ?_⟩
  intro id at_ now v hat hv
  rw [(toDict_ok hv).2]
  show (round1 (at_ .progress).progress).IsPercent
  rw [hat]
  exact round1_isPercent hjob

/-! A line of progress below zero. -/

def negativeText : PyStr := "\x7b\"Working\":\x7b\"Progress\":-1\x7d\x7d".toList

def negativeObj : JDict := [("Working".toList, .obj [("Progress".toList, .num (.int (-1)))])]

def negativeEnv : Progress.LoopEnv where
  loads := fun t => if t = negativeText then .ok (.obj negativeObj) else .error (.jsonDecodeError [])
  onEta := true
  raises := fun _ => none

/-- `on_progress` is given -100. -/
theorem progress_not_percent :
    ¬ ∀ (env : Progress.LoopEnv) (lines : List PyStr) (x : PyFloat),
      Progress.Passed env lines x → x.IsPercent := by
  intro h
  have hhanded : Progress.handed negativeEnv.loads [] [negativeText ++ ['\n']] = [negativeText] := by
    decide
  have hloads : negativeEnv.loads negativeText = .ok (.obj negativeObj) := by
    simp [negativeEnv]
  have hreported : Progress.reported negativeEnv.loads [] [negativeText ++ ['\n']] = [negativeObj] := by
    rw [Progress.reported, hhanded, List.filterMap_cons, Progress.decoded, hloads]
    rfl
  have hharmless : Progress.Harmless negativeEnv [] 0 [negativeText ++ ['\n']] := by
    refine ⟨?_, ?_⟩
    · intro text htext
      rw [hhanded, List.mem_singleton] at htext
      rintro ⟨e, he, _⟩
      rw [htext, hloads] at he
      cases he
    · intro i _ _ e he
      cases he
  have hsmall : (PyNum.int (-1)).InRange := by
    have := hundred_lt_floatLimit
    simp only [PyNum.InRange, Int.cast_neg, Int.cast_one, abs_neg, abs_one]
    linarith
  have hround : Binary64.round (-1) = -1 := by
    have := Binary64.round_int (n := -1) (by norm_num)
    exact_mod_cast this
  have hfloat : (PyNum.int (-1)).toFloat = .ok (.finite (-1)) := by
    have hvalue : (PyNum.int (-1)).value = -1 := by norm_num [PyNum.value]
    rw [hsmall.toFloat, hvalue, hround]
  have hrange := h negativeEnv [negativeText ++ ['\n']] (Progress.percentOf (.finite (-1)))
    (Progress.passed_iff.mpr ⟨_, List.prefix_refl _, hharmless, negativeObj,
      hreported ▸ List.mem_cons_self, .int (-1), .finite (-1), rfl, hfloat, rfl⟩)
  have hnonneg : (0 : ℚ) ≤ -1 :=
    (Progress.percentOf_isPercent_iff (x := .finite (-1)) hround).mp hrange
  linarith

end HandBrakeEncoder.Service
