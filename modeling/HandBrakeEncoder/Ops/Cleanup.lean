/-
# `Ops.Cleanup` — what a failed job leaves

A job that raises should leave nothing: no file of its own, the output entry as
it was, no open descriptor.  Whether it does is decided between the claim and
the inner `try` block.  The `except` arm removes the staging file, but only
around `run_encode` and what follows; the outer `finally` closes the
descriptor, but only from `json.dump` on.

| raised by | staging file | descriptor |
| :-- | :-- | :-- |
| `NamedTemporaryFile` | left | left open |
| `json.dump`, `handle.close` | left | closed |
| anything later | removed | closed |

So a failure is cleaned up exactly when none of the three raises after the claim
(`raised_cleansUp_iff`).
-/
import HandBrakeEncoder.Ops.Stages

namespace HandBrakeEncoder.Ops

open Posix Jobs

/-- Nothing of the job is left: no entry it made (the staging file and the temporary file are
such), the entry at the output path as it was, the descriptors as they were. -/
structure CleanedUp (host : Host) (env : Env) (jobId : PyStr) (req : EncodeRequest)
    (w₀ w : World) : Prop where
  noNewEntry : ∀ e, w₀.fs.look e = none → w.fs.look e = none
  output : ∀ p e, prepare host env w₀.fs jobId req = .ok p → w₀.fs.locate p.dst = .ok e →
    w.fs.look e = w₀.fs.look e
  descriptors : w.fds = w₀.fds

/-- Once the staging path is claimed, the temporary file is made, written and closed. -/
def TempSucceeds (host : Host) (env : Env) (jobId : PyStr) (req : EncodeRequest) (w₀ : World) :
    Prop :=
  ∀ p w, prepare host env w₀.fs jobId req = .ok p → claimStaging env w₀ p.staging = .ok w →
    (∃ r, makeTemp host env w = .ok r) ∧ env.fails .jsonDump = none ∧
      env.fails .handleClose = none

/-- `TempSucceeds` by running the steps. -/
def tempSucceeds (host : Host) (env : Env) (jobId : PyStr) (req : EncodeRequest) (w₀ : World) :
    Bool :=
  match prepare host env w₀.fs jobId req with
  | .error _ => true
  | .ok p =>
      match claimStaging env w₀ p.staging with
      | .error _ => true
      | .ok w =>
          (makeTemp host env w).isOk && env.fails .jsonDump = none && env.fails .handleClose = none

variable {host : Host} {env : Env} {jobId : PyStr} {req : EncodeRequest} {w₀ w : World}

theorem CleanedUp.of_same (hlook : ∀ e, w.fs.look e = w₀.fs.look e) (hfds : w.fds = w₀.fds) :
    CleanedUp host env jobId req w₀ w where
  noNewEntry e he := (hlook e).trans he
  output _ e _ _ := hlook e
  descriptors := hfds

/-- The plan and the claim of a run are its only ones. -/
theorem ClaimMade.tempSucceeds {p : Plan} {L : Layout p} {D : Ino}
    (hC : ClaimMade host env jobId req w₀ L D) : TempSucceeds host env jobId req w₀ ↔
      (∃ r, makeTemp host env (claimWorld env w₀ (D, L.stagingName)) = .ok r) ∧
        env.fails .jsonDump = none ∧ env.fails .handleClose = none := by
  constructor
  · intro h
    exact h p _ hC.plan hC.claim
  · intro h p' w' hp hc
    rw [hC.plan] at hp
    cases hp
    rw [hC.claim] at hc
    cases hc
    exact h

theorem isOk_iff {α : Type} {x : Except PyExc α} : x.isOk = true ↔ ∃ r, x = .ok r := by
  cases x with
  | error e => exact ⟨nofun, nofun⟩
  | ok r => exact ⟨fun _ => ⟨r, rfl⟩, fun _ => rfl⟩

theorem tempSucceeds_iff : tempSucceeds host env jobId req w₀ = true ↔
    TempSucceeds host env jobId req w₀ := by
  rw [tempSucceeds]
  cases hp : prepare host env w₀.fs jobId req with
  | error e => exact ⟨fun _ _ _ hp' => (nomatch hp.symm.trans hp'), fun _ => rfl⟩
  | ok p =>
      dsimp only
      cases hc : claimStaging env w₀ p.staging with
      | error e =>
          refine ⟨fun _ p' w hp' hc' => ?_, fun _ => rfl⟩
          cases hp.symm.trans hp'
          exact nomatch hc.symm.trans hc'
      | ok w =>
          simp only [Bool.and_eq_true, decide_eq_true_eq, and_assoc, isOk_iff]
          constructor
          · intro h p' w' hp' hc'
            cases hp.symm.trans hp'
            cases hc.symm.trans hc'
            exact h
          · intro h
            exact h p w hp hc

/-- **A failure leaves nothing behind exactly when the temporary file succeeds.** -/
theorem raised_cleansUp_iff (hq : env.Quiet) :
    (∀ e, (runEncodeJob host env jobId req w₀).result = .raised e →
      CleanedUp host env jobId req w₀ (runEncodeJob host env jobId req w₀).world) ↔
      TempSucceeds host env jobId req w₀ := by
  cases runEncodeJob_ends host jobId req w₀ hq with
  | refused e hw hr hnone =>
      refine ⟨fun _ p w hp hc => absurd hc (hnone p w hp), fun _ _ _ => ?_⟩
      rw [hw]
      exact .of_same (fun _ => rfl) rfl
  | noTemp e hC hr hmake hw =>
      rw [hC.tempSucceeds]
      constructor
      · intro h
        -- the staging descriptor is still open
        have hfds := (h e hr).descriptors
        rw [hw] at hfds
        exact absurd (congrArg List.length hfds) (by simp [claimWorld])
      · rintro ⟨⟨r, hmake'⟩, -⟩
        rw [hmake] at hmake'
        cases hmake'
  | @notWritten p L D eT name e hC T hmade hfail hr hadds hfds =>
      rw [hC.tempSucceeds]
      constructor
      · intro h
        -- the staging entry is still there
        have hgone := (h e hr).noNewEntry (D, L.stagingName) hC.claimed.free
        rw [hadds.look_new List.lookup_cons_self] at hgone
        cases hgone
      · rintro ⟨-, hok⟩
        exact absurd hok hfail
  | notPublished e hC T hmade hdump hclose hfail hr hadds hfds =>
      obtain ⟨w, hmake⟩ := hmade
      rw [hC.tempSucceeds]
      refine ⟨fun _ => ⟨⟨_, hmake⟩, hdump, hclose⟩, fun _ _ _ => ?_⟩
      exact .of_same (fun e => hadds.look_old rfl) hfds
  | published rest hC T hmade hdump hclose hsucceeds hr =>
      obtain ⟨w, hmake⟩ := hmade
      rw [hC.tempSucceeds]
      refine ⟨fun _ => ⟨⟨_, hmake⟩, hdump, hclose⟩, fun _ e he => ?_⟩
      rw [hr] at he
      cases he

/-- The encode fails: both files and the descriptor are gone. -/
theorem raised_cleansUp_encode_fails :
    CleanedUp sampleHost
      { sampleEnv with encode := fun _ => ⟨[], some [8], .raised (.handBrakeError [])⟩ }
      "J".toList (sampleRequest "/data/movie.mkv".toList) ⟨sampleFs, []⟩
      (runEncodeJob sampleHost
        { sampleEnv with encode := fun _ => ⟨[], some [8], .raised (.handBrakeError [])⟩ }
        "J".toList (sampleRequest "/data/movie.mkv".toList) ⟨sampleFs, []⟩).world := by
  refine (raised_cleansUp_iff (fun _ _ => rfl)).mpr ?_ (.handBrakeError []) (by decide +kernel)
  exact tempSucceeds_iff.mp (by decide +kernel)

/-- `NamedTemporaryFile` raises: the staging file stays, and its descriptor stays open. -/
theorem temp_failure_leaks_staging :
    ¬ ∀ (host : Host) (env : Env) (jobId : PyStr) (req : EncodeRequest) (w₀ : World), env.Quiet →
      ∀ e, (runEncodeJob host env jobId req w₀).result = .raised e →
        CleanedUp host env jobId req w₀ (runEncodeJob host env jobId req w₀).world := by
  intro h
  have hclean := h sampleHost (sampleEnv.failing .namedTemporaryFile (.osError []))
    "J".toList (sampleRequest "/data/movie.mkv".toList) ⟨sampleFs, []⟩ (fun _ _ => rfl)
    (.osError []) (by decide +kernel)
  exact absurd hclean.descriptors (by decide +kernel)

end HandBrakeEncoder.Ops
