/-
# `Jobs.History` — the manager over time

Requests that read without the lock read at moments of their own.  A history gives
the state at every moment, so the reads of one request, and those of several, can
be compared.  Of one job it says three things: it stays accepted, its status moves
along the life cycle, and once it is over it shows the same for good.

`sweep` is such a reader: it holds the lock, which keeps the store as it is, but
not the workers from storing to the jobs it looks at.  `sweep_reads` says that it
takes each job as it was at one moment, that of its first read.
-/
import HandBrakeEncoder.Jobs.Retention
import HandBrakeEncoder.Lib.Timeline

namespace HandBrakeEncoder.Jobs

open Lib JobStatus Relation

/-- The manager over time, under any interleaving. -/
abbrev History (cfg : Config) := Timeline (Step cfg) State.init

variable {cfg : Config} {H : History cfg} {s : State} {j : JobId} {now : Clock}

/-- A job accepted at a moment, at that moment and any later one. -/
theorem History.accepted_later (H : History cfg) {m n : Nat} (h : m ≤ n) (hj : j ∈ (H.state m).accepted) :
    j ∈ (H.state n).accepted := by
  obtain ⟨as, hreach⟩ := H.reached m
  obtain ⟨bs, hrun⟩ := H.run h
  have hi : Inv (H.state m) := Reaches.inv hreach
  exact (Run.invariant (P := fun t => Inv t ∧ j ∈ t.accepted)
    (fun a s t ⟨hi, hj⟩ hstep => ⟨hi.step hstep, hstep.accepted_mono hi hj⟩) hrun ⟨hi, hj⟩).2

theorem History.status_later (H : History cfg) {m n : Nat} (h : m ≤ n) (hj : j ∈ (H.state m).accepted) :
    ReflTransGen Edge ((H.state m).status j) ((H.state n).status j) := by
  obtain ⟨as, hreach⟩ := H.reached m
  obtain ⟨bs, hrun⟩ := H.run h
  have hi : Inv (H.state m) := Reaches.inv hreach
  refine (Run.invariant (P := fun t => (Inv t ∧ j ∈ t.accepted) ∧
    ReflTransGen Edge ((H.state m).status j) (t.status j)) ?_ hrun ⟨⟨hi, hj⟩, .refl⟩).2
  intro a s t ⟨⟨hi, hj⟩, hpath⟩ hstep
  refine ⟨⟨hi.step hstep, hstep.accepted_mono hi hj⟩, ?_⟩
  rcases hstep.status hi hj with hsame | hedge
  · rw [hsame]
    exact hpath
  · exact hpath.tail hedge

/-- A job that is over at a moment shows the same from then on. -/
theorem History.settled_later (H : History cfg) {m n : Nat} (h : m ≤ n) (hj : j ∈ (H.state m).accepted)
    (hterm : ((H.state m).status j).terminal = true) :
    SameView ((H.state m).jobs j) ((H.state n).jobs j) := by
  obtain ⟨as, hreach⟩ := H.reached m
  obtain ⟨bs, hrun⟩ := H.run h
  exact frozen_run hrun (Reaches.inv hreach) hj hterm

/-! ## The reads of `sweep` -/

/-- The list that `sweep` makes of the stored jobs, each test at moments of its own. -/
def sweepExpired (cfg : Config) (now : Clock) (reads : JobId → SweepRead → Job) :
    List JobId → Except PyExc (List JobId)
  | [] => .ok []
  | j :: js =>
      match sweepLook cfg now (reads j) with
      | .error e => .error e
      | .ok hit =>
          match sweepExpired cfg now reads js with
          | .error e => .error e
          | .ok expired => .ok (if hit then j :: expired else expired)

/-- One test, made read by read, is the test on the job as its status was read. -/
theorem History.sweepLook (H : History cfg) {moment : SweepRead → Nat}
    (hordered : ∀ r r', r.index ≤ r'.index → moment r ≤ moment r')
    (hj : j ∈ (H.state (moment .status)).accepted) (now : Clock) :
    sweepLook cfg now (fun r => (H.state (moment r)).jobs j)
      = .ok (((H.state (moment .status)).jobs j).expired cfg now) := by
  rw [Jobs.sweepLook]
  cases hterm : ((H.state (moment .status)).jobs j).status.terminal with
  | false =>
      rw [if_pos rfl, Job.expired, hterm]
      rfl
  | true =>
      obtain ⟨as, hreach⟩ := H.reached (moment .status)
      obtain ⟨at_, hat⟩ := Reaches.finishedAt hreach hj hterm
      have hlater : ∀ r, ((H.state (moment r)).jobs j).finishedAt = some at_ := fun r =>
        (H.settled_later (hordered _ r (Nat.zero_le _)) hj hterm).finishedAt.trans hat
      rw [if_neg (by simp), hlater .finishedAt, if_neg (by simp), hlater .finishedAtAgain,
        Job.expired, hterm, hat]
      rfl

/-- **`sweep` takes each job as it was at one moment.**  However the workers store to the jobs
meanwhile, its reads never raise, the jobs it evicts are those that were expired when it read their
status, and when they are popped they are still over and still expired. -/
theorem sweep_reads (H : History cfg) (moment : JobId → SweepRead → Nat)
    (hordered : ∀ j r r', r.index ≤ r'.index → moment j r ≤ moment j r') (now : Clock)
    {js : List JobId} (hjs : ∀ j ∈ js, j ∈ (H.state (moment j .status)).accepted) :
    sweepExpired cfg now (fun j r => (H.state (moment j r)).jobs j) js
        = .ok (js.filter fun j => ((H.state (moment j .status)).jobs j).expired cfg now) ∧
      ∀ j ∈ js, ((H.state (moment j .status)).jobs j).expired cfg now = true →
        ((H.state (moment j .popped)).jobs j).expired cfg now = true := by
  constructor
  · induction js with
    | nil => rfl
    | cons j js ih =>
        have hlook := H.sweepLook (hordered j) (hjs j List.mem_cons_self) now
        have hrest := ih fun i hi => hjs i (List.mem_cons_of_mem _ hi)
        rw [sweepExpired, hlook, hrest, List.filter_cons]
  · intro j hj hexpired
    have hterm := Job.expired_terminal hexpired
    have hsame := H.settled_later (hordered j _ .popped (Nat.zero_le _)) (hjs j hj) hterm
    rw [Job.expired, hsame.status, hsame.finishedAt]
    exact hexpired

/-- A job that finished at 10 is evicted at 100 when it is looked at after its status was stored,
and not when its status is read between the stores. -/
theorem sweep_reads_late : ∃ (H : History ⟨1, 60, 0⟩) (early late : JobId → SweepRead → Nat),
    sweepExpired ⟨1, 60, 0⟩ 100 (fun j r => (H.state (early j r)).jobs j) [0] = .ok [] ∧
      sweepExpired ⟨1, 60, 0⟩ 100 (fun j r => (H.state (late j r)).jobs j) [0] = .ok [0] := by
  obtain ⟨s, t, hs, ht, ⟨hsj, hslook⟩, htj, htlook⟩ := runs_of_replay ⟨1, 60, 0⟩
    (finishedAtTen.take 12) (finishedAtTen.drop 12)
    (fun s t => (0 ∈ s.accepted ∧ (s.jobs 0).expired ⟨1, 60, 0⟩ 100 = false) ∧
      0 ∈ t.accepted ∧ (t.jobs 0).expired ⟨1, 60, 0⟩ 100 = true) (by decide +kernel)
  obtain ⟨H, hmid, hafter⟩ := Timeline.through hs ht
  have hHs : H.state 12 = s := hmid
  have hHt : ∀ n, 14 ≤ n → H.state n = t := hafter
  have hordered : ∀ n (_ : JobId) (r r' : SweepRead), r.index ≤ r'.index →
      n + r.index ≤ n + r'.index := fun n _ _ _ hle => Nat.add_le_add_left hle n
  have hearly : ∀ j ∈ [0], j ∈ (H.state (12 + SweepRead.status.index)).accepted := by
    simp [SweepRead.index, hHs, hsj]
  have hlate : ∀ j ∈ [0], j ∈ (H.state (14 + SweepRead.status.index)).accepted := by
    simp [SweepRead.index, hHt, htj]
  refine ⟨H, fun _ r => 12 + r.index, fun _ r => 14 + r.index, ?_, ?_⟩
  · have hreads := (sweep_reads H (fun _ r => 12 + r.index) (hordered 12) 100 hearly).1
    rw [hreads]
    simp [SweepRead.index, hHs, hslook]
  · have hreads := (sweep_reads H (fun _ r => 14 + r.index) (hordered 14) 100 hlate).1
    rw [hreads]
    simp [SweepRead.index, hHt, htlook]

end HandBrakeEncoder.Jobs
