/-
# `Jobs.Eta` — the estimate of a view, and the stamp it is judged by

`set_eta` stores a number and then the time it stored it; `to_dict` reads the
number, the status, the stamp, the clock, the stamp again, and the status again.
The owner of the job may store between any two of these reads, so the number of
one call can be judged by the stamp of a later one, and a view that found the
job running can be dated when it no longer is.

    owner    setEta n   eta_seconds = n         readClock   time.monotonic()
             stamp      eta_updated_at = ...    store       any other attribute

A call of `set_eta` is made when it reads the clock; `made` lists the calls so
far with their readings and is not program state.
-/
import HandBrakeEncoder.Jobs.View

namespace HandBrakeEncoder.Jobs

open Lib

/-! ## The owner of the job -/

/-- Where the owner stands in `set_eta`. -/
inductive EtaPc
  | idle
  | stored (seconds : Option ℤ)
  | stamping (at_ : Option Clock)
  deriving DecidableEq

/-- A job and the worker that owns it; `now` is the monotonic clock. -/
structure Owner where
  job : Job
  now : Clock
  pc : EtaPc := .idle
  made : List (ℤ × Clock) := []

/-- A job just submitted. -/
def Owner.init (created now : Clock) : Owner := { job := { createdAt := created }, now }

/-- What the owner does, and the passing of time. -/
inductive Deed
  | store (x : AttrStore) (at_ : Clock)
  | setEta (seconds : Option ℤ)
  | readClock
  | stamp
  | tick (now : Clock)

/-- The stores `set_eta` makes. -/
def AttrStore.ofEta : AttrStore → Bool
  | .etaSeconds _ | .etaUpdatedAt _ => true
  | _ => false

/-- The deed is a store to `status`. -/
def Deed.toStatus : Deed → Bool
  | .store (.status _) _ => true
  | _ => false

inductive Owner.Step : Deed → Owner → Owner → Prop
  | store {o : Owner} {x : AttrStore} {at_ : Clock} : o.pc = .idle → x.ofEta = false →
      Step (.store x at_) o { o with job := o.job.store at_ x }
  | setEta {o : Owner} {seconds : Option ℤ} : o.pc = .idle →
      Step (.setEta seconds) o
        { o with job := o.job.store o.now (.etaSeconds seconds), pc := .stored seconds }
  | readClock {o : Owner} {n : ℤ} : o.pc = .stored (some n) →
      Step .readClock o { o with pc := .stamping (some o.now), made := (n, o.now) :: o.made }
  | noClock {o : Owner} : o.pc = .stored none →
      Step .readClock o { o with pc := .stamping none }
  | stamp {o : Owner} {at_ : Option Clock} : o.pc = .stamping at_ →
      Step .stamp o { o with job := o.job.store o.now (.etaUpdatedAt at_), pc := .idle }
  | tick {o : Owner} {now : Clock} : o.now ≤ now → Step (.tick now) o { o with now }

/-- One `to_dict` over a run of the owner: its moments, and what the owner does before each. -/
structure Watch (start : Owner) where
  deeds : Read → List Deed
  own : Read → Owner
  first : Run Owner.Step start (deeds .etaSeconds) (own .etaSeconds)
  next : ∀ r r' : Read, r'.index = r.index + 1 → Run Owner.Step (own r) (deeds r') (own r')

variable {o o' start : Owner} {d : Deed} {ds : List Deed} {n : ℤ}

/-- What the call returns. -/
def Watch.view (W : Watch start) (id : PyStr) : Except PyExc View :=
  toDict id (fun r => (W.own r).job) (W.own .monotonic).now

/-- What the owner does between the read of `eta_seconds` and the last of `eta_updated_at`. -/
def Watch.window (W : Watch start) : List Deed :=
  W.deeds .status ++ W.deeds .etaUpdatedAt ++ W.deeds .monotonic ++ W.deeds .etaUpdatedAtAgain

/-- What the owner does between the two reads of `status`. -/
def Watch.dating (W : Watch start) : List Deed :=
  W.deeds .etaUpdatedAt ++ W.deeds .monotonic ++ W.deeds .etaUpdatedAtAgain ++
    W.deeds .statusValue

/-- A call with `n` was made at most 30 seconds before `clock`, or is being made. -/
def Owner.Passed (o : Owner) (n : ℤ) (clock : Clock) : Prop :=
  (∃ t, (n, t) ∈ o.made ∧ clock - t ≤ etaMaxAge) ∨ o.pc = .stored (some n)

/-- An estimate shown is one of a running job, passed in the last 30 seconds. -/
def Watch.Fresh (W : Watch start) (v : View) : Prop :=
  ∀ n, v.etaSeconds = some n → v.status = .running ∧
    (W.own .etaUpdatedAtAgain).Passed n (W.own .monotonic).now

/-! ## The owner's invariant -/

/-- Number and stamp belong together, but for the call under way. -/
structure Owner.Inv (o : Owner) : Prop where
  past : ∀ t, o.job.etaUpdatedAt = some t → t ≤ o.now
  idle : o.pc = .idle → ∀ n, o.job.etaSeconds = some n →
    ∃ t, o.job.etaUpdatedAt = some t ∧ (n, t) ∈ o.made
  stored : ∀ seconds, o.pc = .stored seconds → o.job.etaSeconds = seconds
  stamping : ∀ at_, o.pc = .stamping at_ → (∀ t, at_ = some t → t ≤ o.now ∧
    ∀ t', o.job.etaUpdatedAt = some t' → t' ≤ t) ∧
    ∀ n, o.job.etaSeconds = some n → ∃ t, at_ = some t ∧ (n, t) ∈ o.made

theorem Owner.Inv.init (created now : Clock) : (Owner.init created now).Inv where
  past _ h := nomatch h
  idle _ _ h := nomatch h
  stored _ h := nomatch h
  stamping _ h := nomatch h

/-- The stores outside `set_eta` touch neither the number nor the stamp. -/
theorem Job.store_eta {x : AttrStore} (h : x.ofEta = false) (job : Job) (at_ : Clock) :
    (job.store at_ x).etaSeconds = job.etaSeconds ∧
      (job.store at_ x).etaUpdatedAt = job.etaUpdatedAt := by
  cases x <;> first | exact ⟨rfl, rfl⟩ | cases h

theorem Owner.Inv.step (hi : o.Inv) (h : Owner.Step d o o') : o'.Inv := by
  cases h with
  | @store _ x at_ hidle hx =>
      obtain ⟨hseconds, hstamp⟩ := Job.store_eta hx o.job at_
      refine ⟨fun t ht => hi.past t (hstamp ▸ ht), fun _ n hn => ?_, fun _ h => ?_, fun _ h => ?_⟩
      · rw [hstamp]
        exact hi.idle hidle n (hseconds ▸ hn)
      · exact nomatch hidle.symm.trans h
      · exact nomatch hidle.symm.trans h
  | setEta hidle =>
      exact ⟨hi.past, nofun, fun _ h => EtaPc.stored.inj h, nofun⟩
  | @readClock _ n hpc =>
      refine ⟨hi.past, nofun, nofun, ?_⟩
      rintro _ ⟨⟩
      refine ⟨fun t ht => ?_, fun k hk => ?_⟩
      · cases ht
        exact ⟨le_rfl, hi.past⟩
      · cases (hi.stored _ hpc).symm.trans hk
        exact ⟨_, rfl, List.mem_cons_self⟩
  | noClock hpc =>
      refine ⟨hi.past, nofun, nofun, ?_⟩
      rintro _ ⟨⟩
      exact ⟨nofun, fun k hk => nomatch (hi.stored _ hpc).symm.trans hk⟩
  | @stamp _ at_ hpc =>
      obtain ⟨hat, hmade⟩ := hi.stamping _ hpc
      exact ⟨fun t ht => (hat t ht).1, fun _ => hmade, nofun, nofun⟩
  | tick hle =>
      refine ⟨fun t ht => (hi.past t ht).trans hle, hi.idle, hi.stored, fun at_ hat => ?_⟩
      obtain ⟨hnow, hmade⟩ := hi.stamping at_ hat
      exact ⟨fun t ht => ⟨(hnow t ht).1.trans hle, (hnow t ht).2⟩, hmade⟩

theorem Owner.Inv.run (hi : o.Inv) (h : Run Owner.Step o ds o') : o'.Inv :=
  h.invariant (fun _ _ _ hi hstep => hi.step hstep) hi

/-! ## The owner is a worker of the manager -/

/-- The function of the job does this. -/
def Deed.byFunction : Deed → Bool
  | .store x _ => x.byFunction
  | _ => true

/-- A deed leaves the job or is one store to it. -/
theorem Owner.Step.stores (h : Owner.Step d o o') (hd : d.byFunction = true) :
    o'.job = o.job ∨ ∃ x now, x.byFunction = true ∧ o'.job = o.job.store now x := by
  cases h with
  | @store _ x at_ _ _ => exact .inr ⟨x, at_, hd, rfl⟩
  | @setEta _ seconds _ => exact .inr ⟨.etaSeconds seconds, o.now, rfl, rfl⟩
  | @stamp _ at_ _ => exact .inr ⟨.etaUpdatedAt at_, o.now, rfl, rfl⟩
  | readClock _ | noClock _ | tick _ => exact .inl rfl

/-- While the function runs, what the owner does to the job its worker can do. -/
theorem Owner.run_manager {cfg : Config} {s : State} {w : WorkerId} {j : JobId}
    (hw : s.workers w = .executing j) (hjob : s.jobs j = o.job) (h : Run Owner.Step o ds o')
    (hby : ∀ d ∈ ds, d.byFunction = true) :
    ∃ as t, Run (Jobs.Step cfg) s as t ∧ t.workers w = .executing j ∧ t.jobs j = o'.job := by
  refine Run.invariant_of (Q := fun d => d.byFunction = true)
    (P := fun o' => ∃ as t, Run (Jobs.Step cfg) s as t ∧ t.workers w = .executing j ∧ t.jobs j = o'.job)
    ?_ h hby ⟨[], s, .nil s, hw, hjob⟩
  rintro d o₁ o₂ hd ⟨as, t, hrun, hw, hjob⟩ hstep
  rcases hstep.stores hd with hsame | ⟨x, now, hx, hstored⟩
  · exact ⟨as, t, hrun, hw, hjob.trans hsame.symm⟩
  · have hfn : JobStep w j (.fnStore w x now) (t.workers w) (t.jobs j) (.executing j)
        ((t.jobs j).store now x) := by
      rw [hw]
      exact .fnStore hx
    refine ⟨_, _, hrun.snoc (.worker w (.onJob hfn)), Function.update_self _ _ _, ?_⟩
    rw [hstored, ← hjob]
    exact Function.update_self _ _ _

/-- And so it can make the stores at the end of the job. -/
theorem Owner.store_manager {cfg : Config} {s : State} {w : WorkerId} {j : JobId} {x : AttrStore}
    {xs : List AttrStore} {kills : Bool} {at_ : Clock}
    (hw : s.workers w = .storing j (x :: xs) kills) (hjob : s.jobs j = o.job)
    (h : Owner.Step (.store x at_) o o') :
    ∃ t, Jobs.Step cfg (.storeAttr w at_) s t ∧ t.workers w = .afterStore j kills xs ∧
      t.jobs j = o'.job := by
  have hstore : JobStep w j (.storeAttr w at_) (s.workers w) (s.jobs j) (.afterStore j kills xs)
      ((s.jobs j).store at_ x) := by
    rw [hw]
    exact .storeAttr
  refine ⟨_, .worker w (.onJob hstore), Function.update_self _ _ _, ?_⟩
  cases h with
  | store _ _ =>
      rw [← hjob]
      exact Function.update_self _ _ _

/-! ## The reader's window -/

/-- Where the stamp of a number is, once the number has been read. -/
inductive Stamped (n : ℤ) (ds : List Deed) (o : Owner) : Prop
  | placed (t : Clock) : o.job.etaUpdatedAt = some t → (n, t) ∈ o.made →
      (o.pc = .idle ∨ ∃ seconds, .setEta seconds ∈ ds) → Stamped n ds o
  | waiting : o.pc = .stored (some n) → Stamped n ds o
  | coming (t : Clock) : o.pc = .stamping (some t) → (n, t) ∈ o.made →
      (∀ t', o.job.etaUpdatedAt = some t' → t' ≤ t) → Stamped n ds o

/-- At the read of the number. -/
theorem Owner.Inv.stamped (hi : o.Inv) (hn : o.job.etaSeconds = some n) : Stamped n [] o := by
  cases hpc : o.pc with
  | idle =>
      obtain ⟨t, ht, hmade⟩ := hi.idle hpc n hn
      exact .placed t ht hmade (.inl hpc)
  | stored seconds =>
      obtain rfl : some n = seconds := hn.symm.trans (hi.stored _ hpc)
      exact .waiting hpc
  | stamping at_ =>
      obtain ⟨hat, hmade⟩ := hi.stamping _ hpc
      obtain ⟨t, rfl, ht⟩ := hmade n hn
      exact .coming t hpc ht (hat t rfl).2

/-- A deed that is no stamp of a call begun after the read keeps the stamp in place. -/
theorem Stamped.step (hs : Stamped n ds o) (hi : o.Inv) (h : Owner.Step d o o')
    (hwhole : ∀ seconds, ¬ List.Sublist [.setEta seconds, .stamp] (ds ++ [d])) :
    Stamped n (ds ++ [d]) o' := by
  have hstays : (∃ seconds, Deed.setEta seconds ∈ ds) → ∃ seconds, .setEta seconds ∈ ds ++ [d] :=
    fun ⟨seconds, hmem⟩ => ⟨seconds, List.mem_append_left _ hmem⟩
  cases h with
  | @store _ x at_ hidle hx =>
      obtain ⟨-, hstamp⟩ := Job.store_eta hx o.job at_
      rcases hs with ⟨t, ht, hmade, -⟩ | hpc | ⟨t, hpc, -, -⟩
      · exact .placed t (hstamp.trans ht) hmade (.inl hidle)
      · exact nomatch hidle.symm.trans hpc
      · exact nomatch hidle.symm.trans hpc
  | @setEta _ seconds hidle =>
      rcases hs with ⟨t, ht, hmade, -⟩ | hpc | ⟨t, hpc, -, -⟩
      · exact .placed t ht hmade (.inr ⟨seconds, by simp⟩)
      · exact nomatch hidle.symm.trans hpc
      · exact nomatch hidle.symm.trans hpc
  | @readClock _ k hpc =>
      rcases hs with ⟨t, ht, hmade, hidle | hlater⟩ | hwait | ⟨t, hstamping, -, -⟩
      · exact nomatch hpc.symm.trans hidle
      · exact .placed t ht (List.mem_cons_of_mem _ hmade) (.inr (hstays hlater))
      · cases hpc.symm.trans hwait
        exact .coming o.now rfl List.mem_cons_self hi.past
      · exact nomatch hpc.symm.trans hstamping
  | noClock hpc =>
      rcases hs with ⟨t, ht, hmade, hidle | hlater⟩ | hwait | ⟨t, hstamping, -, -⟩
      · exact nomatch hpc.symm.trans hidle
      · exact .placed t ht hmade (.inr (hstays hlater))
      · exact nomatch hpc.symm.trans hwait
      · exact nomatch hpc.symm.trans hstamping
  | @stamp _ at_ hpc =>
      rcases hs with ⟨t, ht, hmade, hidle | ⟨seconds, hmem⟩⟩ | hwait | ⟨t, hstamping, hmade, -⟩
      · exact nomatch hpc.symm.trans hidle
      · -- the stamp of a call begun after the read: the whole call is in the window
        exact absurd ((List.singleton_sublist.mpr hmem).append (.refl [Deed.stamp])) (hwhole seconds)
      · exact nomatch hpc.symm.trans hwait
      · cases hpc.symm.trans hstamping
        exact .placed t rfl hmade (.inl rfl)
  | tick hle =>
      rcases hs with ⟨t, ht, hmade, hidle | hlater⟩ | hwait | ⟨t, hstamping, hmade, hpast⟩
      · exact .placed t ht hmade (.inl hidle)
      · exact .placed t ht hmade (.inr (hstays hlater))
      · exact .waiting hwait
      · exact .coming t hstamping hmade hpast

theorem Stamped.run (hi : o.Inv) (h : Run Owner.Step o ds o') (hn : o.job.etaSeconds = some n)
    (hwhole : ∀ seconds, ¬ List.Sublist [.setEta seconds, .stamp] ds) : Stamped n ds o' := by
  induction h with
  | nil => exact hi.stamped hn
  | snoc hrun hstep ih =>
      have hprev := ih fun seconds hsub => hwhole seconds (hsub.trans (List.sublist_append_left _ _))
      exact hprev.step (hi.run hrun) hstep hwhole

/-- The stamp read last vouches for the number read first. -/
theorem Stamped.passed (hs : Stamped n ds o) {t clock : Clock} (ht : o.job.etaUpdatedAt = some t)
    (hyoung : clock - t ≤ etaMaxAge) : o.Passed n clock := by
  rcases hs with ⟨t', ht', hmade, -⟩ | hpc | ⟨t', hpc, hmade, hpast⟩
  · cases ht.symm.trans ht'
    exact .inl ⟨t, hmade, hyoung⟩
  · exact .inr hpc
  · have := hpast t ht
    exact .inl ⟨t', hmade, by linarith⟩

/-- Nothing but a store to `status` changes the status. -/
theorem Owner.Step.status (h : Owner.Step d o o') (hd : d.toStatus = false) :
    o'.job.status = o.job.status := by
  cases h with
  | @store _ x at_ _ _ => cases x <;> first | rfl | cases hd
  | setEta _ | readClock _ | noClock _ | stamp _ | tick _ => rfl

theorem Owner.status_run (h : Run Owner.Step o ds o') (hds : ∀ d ∈ ds, d.toStatus = false) :
    o'.job.status = o.job.status :=
  h.invariant_of (P := fun o' => o'.job.status = o.job.status)
    (fun _ _ _ hd hsame hstep => (hstep.status hd).trans hsame) hds rfl

/-! ## Runs of the owner, computed -/

/-- The owner may do this now. -/
def Owner.able (o : Owner) : Deed → Bool
  | .store x _ => o.pc = .idle && !x.ofEta
  | .setEta _ => o.pc = .idle
  | .readClock => match o.pc with | .stored _ => true | _ => false
  | .stamp => match o.pc with | .stamping _ => true | _ => false
  | .tick now => o.now ≤ now

def Owner.act (o : Owner) : Deed → Owner
  | .store x at_ => { o with job := o.job.store at_ x }
  | .setEta seconds =>
      { o with job := o.job.store o.now (.etaSeconds seconds), pc := .stored seconds }
  | .readClock =>
      match o.pc with
      | .stored (some n) => { o with pc := .stamping (some o.now), made := (n, o.now) :: o.made }
      | .stored none => { o with pc := .stamping none }
      | _ => o
  | .stamp =>
      match o.pc with
      | .stamping at_ => { o with job := o.job.store o.now (.etaUpdatedAt at_), pc := .idle }
      | _ => o
  | .tick now => { o with now }

theorem Owner.act_step (h : o.able d = true) : Owner.Step d o (o.act d) := by
  obtain ⟨job, now, pc, made⟩ := o
  cases d with
  | store x at_ =>
      simp only [Owner.able, Bool.and_eq_true, decide_eq_true_eq, Bool.not_eq_true'] at h
      exact .store h.1 h.2
  | setEta seconds => exact .setEta (of_decide_eq_true h)
  | readClock =>
      cases pc with
      | stored seconds =>
          cases seconds with
          | none => exact .noClock rfl
          | some n => exact .readClock rfl
      | idle | stamping _ => cases h
  | stamp =>
      cases pc with
      | stamping at_ => exact .stamp rfl
      | idle | stored _ => cases h
  | tick t => exact .tick (of_decide_eq_true h)

def Owner.acts (o : Owner) (ds : List Deed) : Owner := ds.foldl Owner.act o

/-- The owner may do these one after the other. -/
def Owner.AbleAll : Owner → List Deed → Prop
  | _, [] => True
  | o, d :: ds => o.able d = true ∧ (o.act d).AbleAll ds

theorem Owner.ableAll_append {ds es : List Deed} :
    o.AbleAll (ds ++ es) ↔ o.AbleAll ds ∧ (o.acts ds).AbleAll es := by
  induction ds generalizing o with
  | nil => exact ⟨fun h => ⟨trivial, h⟩, fun h => h.2⟩
  | cons d ds ih =>
      have hcons : o.AbleAll (d :: ds ++ es)
          ↔ o.able d = true ∧ (o.act d).AbleAll (ds ++ es) := .rfl
      rw [hcons, ih, ← and_assoc]
      rfl

theorem Owner.acts_run (h : o.AbleAll ds) : Run Owner.Step o ds (o.acts ds) := by
  induction ds generalizing o with
  | nil => exact .nil o
  | cons d ds ih => exact .cons (Owner.act_step h.1) (ih h.2)

/-- The reads in order. -/
def Read.all : List Read :=
  [.etaSeconds, .status, .etaUpdatedAt, .monotonic, .etaUpdatedAtAgain, .statusValue, .progress,
    .message, .error, .outputPath, .encoderUsed, .createdAt, .finishedAt]

theorem Read.all_index (r : Read) : Read.all[r.index]? = some r := by
  cases r <;> rfl

/-- Everything the owner does before a read. -/
def deedsUpTo (deeds : Read → List Deed) (k : Nat) : List Deed := (Read.all.take k).flatMap deeds

theorem deedsUpTo_read (deeds : Read → List Deed) (r : Read) :
    deedsUpTo deeds (r.index + 1) = deedsUpTo deeds r.index ++ deeds r := by
  rw [deedsUpTo, deedsUpTo, List.take_add_one, Read.all_index, List.flatMap_append]
  simp

/-- The watch in which the owner does the given deeds before the reads. -/
def Watch.of (start : Owner) (deeds : Read → List Deed)
    (h : start.AbleAll (Read.all.flatMap deeds)) : Watch start where
  deeds := deeds
  own r := start.acts (deedsUpTo deeds (r.index + 1))
  first := by
    have hsplit : start.AbleAll (deeds .etaSeconds ++ (Read.all.drop 1).flatMap deeds) := h
    have hzero : deedsUpTo deeds (Read.index .etaSeconds + 1) = deeds .etaSeconds :=
      List.append_nil _
    rw [hzero]
    exact Owner.acts_run (Owner.ableAll_append.mp hsplit).1
  next r r' hr := by
    have hcut : deedsUpTo deeds (r'.index + 1) ++ (Read.all.drop (r'.index + 1)).flatMap deeds
        = Read.all.flatMap deeds := by
      rw [deedsUpTo, ← List.flatMap_append, List.take_append_drop]
    rw [← hcut] at h
    have hable := (Owner.ableAll_append.mp h).1
    rw [deedsUpTo_read, hr] at hable
    have hacts : start.acts (deedsUpTo deeds (r'.index + 1))
        = (start.acts (deedsUpTo deeds (r.index + 1))).acts (deeds r') := by
      rw [deedsUpTo_read deeds r', hr]
      exact List.foldl_append
    rw [hacts]
    exact Owner.acts_run (Owner.ableAll_append.mp hable).2

/-! ## Three views -/

/-- A job claimed at 0, with an estimate of 5 s at once. -/
def claimedWithEta : List Deed :=
  [.store (.status .running) 0, .setEta (some 5), .readClock, .stamp]

/-- A view of it. -/
def promptDeeds : Read → List Deed
  | .etaSeconds => claimedWithEta
  | _ => []

/-- The job completes after its status was tested and before it is read for the view. -/
def finishingDeeds : Read → List Deed
  | .etaSeconds => claimedWithEta
  | .statusValue => (terminalStores .returned).map (Deed.store · 0)
  | _ => []

/-- After 31 s of silence the next estimate comes between the read of the number and its test. -/
def resumingDeeds : Read → List Deed
  | .etaSeconds => claimedWithEta
  | .status => [.tick 31, .setEta (some 4), .readClock, .stamp]
  | _ => []

theorem promptDeeds_able : (Owner.init 0 0).AbleAll (Read.all.flatMap promptDeeds) :=
  ⟨rfl, rfl, rfl, rfl, trivial⟩

theorem finishingDeeds_able : (Owner.init 0 0).AbleAll (Read.all.flatMap finishingDeeds) :=
  ⟨rfl, rfl, rfl, rfl, rfl, rfl, rfl, trivial⟩

theorem resumingDeeds_able : (Owner.init 0 0).AbleAll (Read.all.flatMap resumingDeeds) :=
  have hlater : decide ((0 : Clock) ≤ 31) = true := decide_eq_true (by norm_num)
  ⟨rfl, rfl, rfl, rfl, hlater, rfl, rfl, rfl, trivial⟩

/-! ## The view -/

theorem Watch.window_run (W : Watch start) :
    Run Owner.Step (W.own .etaSeconds) W.window (W.own .etaUpdatedAtAgain) :=
  (((W.next .etaSeconds .status rfl).trans (W.next .status .etaUpdatedAt rfl)).trans
    (W.next .etaUpdatedAt .monotonic rfl)).trans (W.next .monotonic .etaUpdatedAtAgain rfl)

theorem Watch.dating_run (W : Watch start) :
    Run Owner.Step (W.own .status) W.dating (W.own .statusValue) :=
  (((W.next .status .etaUpdatedAt rfl).trans (W.next .etaUpdatedAt .monotonic rfl)).trans
    (W.next .monotonic .etaUpdatedAtAgain rfl)).trans (W.next .etaUpdatedAtAgain .statusValue rfl)

/-- **The estimate of a view.**  Where the owner stores no status between the two reads of it, and
no call of `set_eta` makes both its stores between the read of the number and the last read of the
stamp, an estimate shown is one of a running job, passed in the last 30 seconds. -/
theorem eta_fresh {created now : Clock} (W : Watch (.init created now))
    (hstatus : ∀ d ∈ W.dating, d.toStatus = false)
    (hwhole : ∀ seconds, ¬ List.Sublist [.setEta seconds, .stamp] W.window) (id : PyStr) (v : View)
    (h : W.view id = .ok v) : W.Fresh v := by
  intro n hn
  obtain ⟨heta, hv⟩ := toDict_ok h
  rw [hn] at heta
  obtain ⟨hrunning, -, ⟨t, ht, hyoung⟩, hseconds⟩ := shownEta_some.mp heta
  have hi := (Owner.Inv.init created now).run W.first
  refine ⟨?_, (Stamped.run hi W.window_run hseconds hwhole).passed ht hyoung⟩
  rw [hv]
  exact (Owner.status_run W.dating_run hstatus).trans hrunning

/-- A view of a job that reports is fresh. -/
theorem eta_fresh_prompt : ∃ v, (Watch.of _ promptDeeds promptDeeds_able).view "J".toList = .ok v ∧
    v.etaSeconds = some 5 ∧ (Watch.of _ promptDeeds promptDeeds_able).Fresh v := by
  have heta : shownEta (fun r => ((Watch.of _ promptDeeds promptDeeds_able).own r).job) 0
      = .ok (some 5) :=
    shownEta_some.mpr ⟨rfl, nofun, ⟨0, rfl, by norm_num [etaMaxAge]⟩, rfl⟩
  obtain ⟨v, hv, hseconds, -⟩ := toDict_of_eta "J".toList heta
  refine ⟨v, hv, hseconds, ?_⟩
  have hwhole : ∀ seconds, ¬ List.Sublist [.setEta seconds, .stamp]
      (Watch.of _ promptDeeds promptDeeds_able).window :=
    fun seconds hsub => Nat.not_succ_le_zero 1 hsub.length_le
  exact eta_fresh _ (fun d hd => absurd hd List.not_mem_nil) hwhole _ v hv

/-- Two views that are not: one dates a running job's estimate to a completed job, the other shows
a number passed 31 s before. -/
theorem eta_not_fresh :
    (∃ v, (Watch.of _ finishingDeeds finishingDeeds_able).view "J".toList = .ok v ∧
      v.etaSeconds = some 5 ∧ v.status = .completed) ∧
    (∃ v, (Watch.of _ resumingDeeds resumingDeeds_able).view "J".toList = .ok v ∧
      v.etaSeconds = some 5 ∧ v.status = .running ∧
      ¬ (Watch.of _ resumingDeeds resumingDeeds_able).Fresh v) := by
  have hfinishing : shownEta
      (fun r => ((Watch.of _ finishingDeeds finishingDeeds_able).own r).job) 0 = .ok (some 5) :=
    shownEta_some.mpr ⟨rfl, nofun, ⟨0, rfl, by norm_num [etaMaxAge]⟩, rfl⟩
  have hresuming : shownEta
      (fun r => ((Watch.of _ resumingDeeds resumingDeeds_able).own r).job) 31 = .ok (some 5) :=
    shownEta_some.mpr ⟨rfl, nofun, ⟨31, rfl, by norm_num [etaMaxAge]⟩, rfl⟩
  constructor
  · exact toDict_of_eta "J".toList hfinishing
  · obtain ⟨v, hv, hseconds, hstatus⟩ := toDict_of_eta "J".toList hresuming
    refine ⟨v, hv, hseconds, hstatus, fun hfresh => ?_⟩
    obtain ⟨-, ⟨t, hmade, hyoung⟩ | hpc⟩ := hfresh 5 hseconds
    · have hcalls : (5, t) ∈ [((4 : ℤ), (31 : Clock)), (5, 0)] := hmade
      have hnow : (31 : Clock) - t ≤ etaMaxAge := hyoung
      simp only [List.mem_cons, Prod.mk.injEq, List.not_mem_nil, or_false] at hcalls
      rcases hcalls with ⟨h, -⟩ | ⟨-, rfl⟩
      · cases h
      · norm_num [etaMaxAge] at hnow
    · have hidle : EtaPc.idle = .stored (some 5) := hpc
      cases hidle

end HandBrakeEncoder.Jobs
