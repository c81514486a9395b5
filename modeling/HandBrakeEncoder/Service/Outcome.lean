/-
# `Service.Outcome` — how a job ends, end to end

The status a job ends in is decided in four places: `_claim`, the verdict of
`run_encode`, the steps of `run_encode_job` after it, and the `except` arms of
the worker.  `job_ends` puts them together:

    COMPLETED   claimed, the child exited 0 with its output read to the end, and the
                staging file was checked and renamed; the cancel event plays no part
    CANCELLED   the event was set, and the job was not claimed or the child's code is
                not 0; nothing was published
    FAILED      the rest, with an error
-/
import HandBrakeEncoder.Service.Reachable

namespace HandBrakeEncoder.Service

open Jobs Runner Ops Posix Relation

/-- `run_encode` returned: the stdout loop finished, the wait did not time out, the code is 0. -/
def Life.Encoded (L : Life) : Prop :=
  ∃ p, L.proc = some p ∧ p.Clean ∧ p.returncode = some 0

/-- The staging check passed and `os.replace` succeeded. -/
def Life.Published (L : Life) : Prop :=
  ∃ r w, L.fn = .ended r ∧ r.checked = true ∧ r.atReplace = some w

/-- An outcome that does not complete the job and does not cancel it stores an error. -/
theorem error_mem {e : PyExc} (h : external e = true) :
    .error e.str ∈ terminalStores (.raised e) ∧ endStatus (.raised e) = .failed := by
  cases e with
  | handBrakeCancelled _ => cases h
  | jsonDecodeError _ | recursionError | valueError _ | overflowError | osError _ | timeoutExpired
  | handBrakeError _ | pathNotAllowed _ | sourceNotFound _ | presetError _ | queueFull _ | other _
  | baseException _ => simp [terminalStores, endStatus]

theorem external_or_cancelled (e : PyExc) :
    external e = true ∨ ∃ msg, e = .handBrakeCancelled msg := by
  cases e with
  | handBrakeCancelled msg => exact .inr ⟨msg, rfl⟩
  | jsonDecodeError _ | recursionError | valueError _ | overflowError | osError _ | timeoutExpired
  | handBrakeError _ | pathNotAllowed _ | sourceNotFound _ | presetError _ | queueFull _ | other _
  | baseException _ => exact .inl rfl

variable {S : Setup} {L : Life} {r : JobRun} {e : PyExc}

/-! ## What the end of the function says -/

theorem Setup.run_outcome (hext : S.env.External) (outcome : FnOutcome) :
    Ops.Outcome outcome (S.run outcome) :=
  runEncodeJob_outcome S.host hext outcome S.jobId S.req S.world

theorem Setup.run_encoded (S : Setup) (outcome : FnOutcome) :
    (S.run outcome).encoded = S.encodes :=
  encoded_withOutcome S.host S.env outcome S.jobId S.req S.world

/-- Whatever became of the child, what the function did is what it does for some outcome. -/
theorem Over.eq_run (ho : Over S L r) : ∃ outcome, r = S.run outcome := by
  rcases ho with ⟨-, -, h⟩ | ⟨e, -, -, -, h⟩ | ⟨p, outcome, -, -, -, h⟩
  · exact ⟨_, h⟩
  · exact ⟨_, h⟩
  · exact ⟨outcome, h⟩

/-- The function returned: so did `run_encode`, and the encode is published. -/
theorem Over.returned (ho : Over S L r) (hi : L.Inv S) (hext : S.env.External)
    (h : r.result = .returned) :
    L.Encoded ∧ r.checked = true ∧ ∃ w, r.atReplace = some w := by
  have hpublished : ∀ outcome, (S.run outcome).result = .returned → S.encodes = true ∧
      outcome = .returned ∧ (S.run outcome).checked = true ∧
        ∃ w, (S.run outcome).atReplace = some w := by
    intro outcome hresult
    have hencoded := S.run_encoded outcome
    rcases S.run_outcome hext outcome with ⟨e, _, _, he, _⟩ | ⟨e, _, _, he, _⟩ |
      ⟨e, _, _, _, he, _⟩ | ⟨w, henc, hout, hchecked, _, hw⟩
    · exact nomatch he.symm.trans hresult
    · exact nomatch he.symm.trans hresult
    · exact nomatch he.symm.trans hresult
    · exact ⟨hencoded.symm.trans henc, hout, hchecked, w, hw⟩
  rcases ho with ⟨-, hnot, rfl⟩ | ⟨e, -, -, -, rfl⟩ | ⟨p, outcome, hp, -, hdone, rfl⟩
  · obtain ⟨henc, -⟩ := hpublished _ h
    exact nomatch hnot.symm.trans henc
  · obtain ⟨-, hout, -⟩ := hpublished _ h
    exact nomatch hout
  · obtain ⟨-, rfl, hrest⟩ := hpublished _ h
    cases (hi.proc p hp).inv.settled hdone with
    | returned hclean hrc => exact ⟨⟨p, hp, hclean, hrc⟩, hrest⟩

theorem Over.raised (ho : Over S L r) (hext : S.env.External) (h : r.result = .raised e) :
    r.atReplace = none := by
  obtain ⟨outcome, rfl⟩ := ho.eq_run
  rcases S.run_outcome hext outcome with ⟨_, _, _, _, hnone⟩ | ⟨_, _, _, _, hnone⟩ |
    ⟨_, _, _, _, _, hnone⟩ | ⟨_, _, _, _, hreturned, _⟩
  · exact hnone
  · exact hnone
  · exact hnone
  · exact nomatch h.symm.trans hreturned

/-- What the function raised came from `run_encode`, or is no `HandBrakeCancelled`. -/
theorem Setup.run_raised (hext : S.env.External) {outcome : FnOutcome}
    (h : (S.run outcome).result = .raised e) :
    external e = true ∨ (S.encodes = true ∧ outcome = .raised e) := by
  have hencoded := S.run_encoded outcome
  rcases S.run_outcome hext outcome with ⟨e', _, he, hresult, _⟩ | ⟨e', henc, hout, hresult, _⟩ |
    ⟨e', _, _, he, hresult, _⟩ | ⟨_, _, _, _, hreturned, _⟩
  · cases h.symm.trans hresult
    exact .inl he
  · cases h.symm.trans hresult
    exact .inr ⟨hencoded.symm.trans henc, hout⟩
  · cases h.symm.trans hresult
    exact .inl he
  · exact nomatch h.symm.trans hreturned

/-- The function raised `HandBrakeCancelled`: the event was set and the child did not exit 0. -/
theorem Over.cancelled (ho : Over S L r) (hi : L.Inv S) (hext : S.env.External) {msg : PyStr}
    (h : r.result = .raised (.handBrakeCancelled msg)) :
    L.event S = true ∧ ∃ p rc, L.proc = some p ∧ p.returncode = some rc ∧ rc ≠ 0 := by
  rcases ho with ⟨-, -, rfl⟩ | ⟨e, -, -, he, rfl⟩ | ⟨p, outcome, hp, -, hdone, rfl⟩
  · rcases S.run_raised hext h with hcase | ⟨-, hcase⟩
    · cases hcase
    · cases hcase
  · rcases S.run_raised hext h with hcase | ⟨-, hcase⟩
    · cases hcase
    · cases hcase
      cases he
  · have hfits := hi.proc p hp
    rcases S.run_raised hext h with hcase | ⟨-, rfl⟩
    · cases hcase
    · cases hfits.inv.settled hdone with
      | cancelled rc hne hrc he => exact ⟨hfits.event he, p, rc, hp, hrc, hne⟩
      | failed he _ => cases he

/-- The function raised something else after a clean read: the watcher did not kill the child. -/
theorem Over.failed (ho : Over S L r) (hi : L.Inv S) (hext : S.env.External)
    (he : external e = true) (h : r.result = .raised e) {p : Proc} (hp : L.proc = some p)
    (hclean : p.Clean) : p.watcherKilled = false := by
  rcases ho with ⟨hnone, -, -⟩ | ⟨_, hnone, -, -, -⟩ | ⟨q, outcome, hq, henc, hdone, rfl⟩
  · exact nomatch hnone.symm.trans hp
  · exact nomatch hnone.symm.trans hp
  · obtain rfl : p = q := Option.some.inj (hp.symm.trans hq)
    have hinv := (hi.proc p hp).inv
    cases hinv.settled hdone with
    | returned _ hrc =>
        refine Bool.eq_false_iff.mpr fun hkilled => ?_
        have := hinv.killed_code hkilled hrc
        exact absurd this (by decide)
    | @cancelled msg _ _ _ _ =>
        -- the job raises what `run_encode` raised
        have hcancelled : (S.run (.raised (.handBrakeCancelled msg))).result
            = .raised (.handBrakeCancelled msg) := by
          have hencoded := S.run_encoded (.raised (.handBrakeCancelled msg))
          rcases S.run_outcome hext (.raised (.handBrakeCancelled msg)) with
            ⟨_, hnot, _⟩ | ⟨e', _, hout, hresult, _⟩ | ⟨_, _, hout, _⟩ | ⟨_, _, hout, _⟩
          · exact nomatch hnot.symm.trans (hencoded.trans henc)
          · cases hout
            exact hresult
          · cases hout
          · cases hout
        cases h.symm.trans hcancelled
        cases he
    | failed _ hf =>
        obtain ⟨_, _, _, hspared⟩ := hf hclean
        exact hspared

/-! ## The end of the job -/

/-- A job that is over was rejected, or ended as its function did. -/
theorem Life.Inv.endings (hi : L.Inv S) (hj : S.job ∈ L.mgr.accepted)
    (hterm : (L.mgr.status S.job).terminal = true) :
    (L.mgr.status S.job = .cancelled ∧ L.fn = .notCalled ∧ L.claimed = false ∧ L.event S = true) ∨
    ∃ r, L.fn = .ended r ∧ L.claimed = true ∧ L.stored = r.stores ∧ Over S L r ∧
      L.mgr.status S.job = endStatus r.result ∧
      ∀ x ∈ terminalStores r.result, x.Shown (L.mgr.jobs S.job) := by
  obtain ⟨made, hcause, hshown⟩ := hi.ended hj hterm
  rw [List.append_nil] at hcause
  cases hcause with
  | rejected hfn hclaimed hevent =>
      exact .inl ⟨hshown (.status .cancelled) (by simp [rejectStores]), hfn, hclaimed, hevent⟩
  | ended r hfn hclaimed hstored =>
      have hover := hi.fn
      rw [hfn] at hover
      exact .inr ⟨r, hfn, hclaimed, hstored, hover, hshown _ (endStatus_mem r.result), hshown⟩

/-- **How a job ends.** -/
theorem job_ends (hext : S.env.External) (h : Life.Reaches S L) (hj : S.job ∈ L.mgr.accepted)
    (hterm : (L.mgr.status S.job).terminal = true) :
    (L.mgr.status S.job = .completed ↔ L.claimed = true ∧ L.Encoded ∧ L.Published) ∧
    (L.mgr.status S.job = .cancelled → L.event S = true ∧
      (L.claimed = false ∨ ∃ p rc, L.proc = some p ∧ p.returncode = some rc ∧ rc ≠ 0) ∧
      ∀ r, L.fn = .ended r → r.atReplace = none) ∧
    (L.mgr.status S.job ≠ .completed → L.mgr.status S.job ≠ .cancelled →
      L.mgr.status S.job = .failed ∧ (L.mgr.jobs S.job).error ≠ none) ∧
    (∀ p, L.proc = some p → p.child = .exited 0 → L.mgr.status S.job ≠ .cancelled) ∧
    (∀ p, L.proc = some p → p.watcherKilled = true →
      L.mgr.status S.job ≠ .completed ∧ (p.Clean → L.mgr.status S.job ≠ .failed)) := by
  have hi := h.inv
  rcases hi.endings hj hterm with ⟨hstatus, hfn, hclaimed, hevent⟩ |
    ⟨r, hfn, hclaimed, -, hover, hstatus, hshown⟩
  · -- rejected: there was no call, so there is no child and nothing is published
    have hnone : L.proc = none := hi.no_proc (.inl hfn)
    have hnever : ∀ r, L.fn ≠ .ended r := fun r hr => nomatch hfn.symm.trans hr
    rw [hstatus]
    refine ⟨⟨nofun, ?_⟩, ?_, ?_, ?_, ?_⟩
    · rintro ⟨hyes, -⟩
      exact nomatch hclaimed.symm.trans hyes
    · intro _
      exact ⟨hevent, .inl hclaimed, fun r hr => absurd hr (hnever r)⟩
    · intro _ hne
      exact absurd rfl hne
    · intro p hp
      exact nomatch hnone.symm.trans hp
    · intro p hp
      exact nomatch hnone.symm.trans hp
  · have honly : ∀ r', L.fn = .ended r' → r' = r := by
      intro r' hr'
      cases hfn.symm.trans hr'
      rfl
    rw [hstatus]
    cases hresult : r.result with
    | returned =>
        obtain ⟨hencoded, hchecked, w, hw⟩ := hover.returned hi hext hresult
        refine ⟨⟨?_, ?_⟩, nofun, ?_, ?_, ?_⟩
        · intro _
          exact ⟨hclaimed, hencoded, r, w, hfn, hchecked, hw⟩
        · intro _
          rfl
        · intro hne
          exact absurd rfl hne
        · intro _ _ _
          exact nofun
        · intro p hp hkilled
          obtain ⟨q, hq, -, hrc⟩ := hencoded
          obtain rfl : p = q := Option.some.inj (hp.symm.trans hq)
          exact absurd ((hi.proc p hp).inv.killed_code hkilled hrc) (by decide)
    | raised e =>
        have hunpublished := hover.raised hext hresult
        have hnot : ¬ L.Published := by
          rintro ⟨r', w, hr', -, hw⟩
          rw [honly r' hr', hunpublished] at hw
          cases hw
        rcases external_or_cancelled e with he | ⟨msg, rfl⟩
        · obtain ⟨hmem, hfailed⟩ := error_mem he
          have herror := hshown (.error e.str) (by rw [hresult]; exact hmem)
          rw [hfailed]
          refine ⟨⟨nofun, fun hc => absurd hc.2.2 hnot⟩, nofun, ?_, ?_, ?_⟩
          · intro _ _
            refine ⟨rfl, fun hnone => ?_⟩
            exact nomatch hnone.symm.trans herror
          · intro _ _ _
            exact nofun
          · intro p hp hkilled
            refine ⟨nofun, fun hclean => ?_⟩
            have hspared := hover.failed hi hext he hresult hp hclean
            exact nomatch hspared.symm.trans hkilled
        · obtain ⟨hevent, p, rc, hp, hrc, hne⟩ := hover.cancelled hi hext hresult
          refine ⟨⟨nofun, fun hc => absurd hc.2.2 hnot⟩, ?_, ?_, ?_, ?_⟩
          · intro _
            refine ⟨hevent, .inr ⟨p, rc, hp, hrc, hne⟩, fun r' hr' => ?_⟩
            rw [honly r' hr']
            exact hunpublished
          · intro _ hno
            exact absurd rfl hno
          · intro q hq hexited
            obtain rfl : p = q := Option.some.inj (hp.symm.trans hq)
            have hchild := (hi.proc p hp).inv.recorded rc hrc
            rw [hexited] at hchild
            exact absurd (Child.exited.inj hchild).symm hne
          · intro _ _ _
            exact ⟨nofun, fun _ => nofun⟩

/-- The sample job completes, since its child exited 0 and its file was published. -/
theorem job_ends_completed : ∃ L, Life.Reaches sampleSetup L ∧ L.mgr.status 0 = .completed ∧
    L.claimed = true ∧ L.Encoded ∧ L.Published := by
  obtain ⟨_, L, hstart, -, hrun, hfn, hstatus⟩ := sampleSetup_completes
  have hL : Life.Reaches sampleSetup L := hstart.trans hrun
  have hj : sampleSetup.job ∈ L.mgr.accepted := hL.inv.accepted (by rw [hfn]; exact nofun)
  have hends := job_ends (S := sampleSetup) (fun _ _ h => nomatch h) hL hj
    ((congrArg JobStatus.terminal hstatus).trans rfl)
  exact ⟨L, hL, hstatus, hends.1.mp hstatus⟩

end HandBrakeEncoder.Service
