/-
# `Encoders.Fresh` — a reset discards every probe in flight

A probe runs outside the lock, so any number of resets may come between a call's
opening section and its last.  The call remembers the generation it opened at, and
that one number says all it has to know (`Remembered`): it is never ahead of the
counter, and where the counter still shows it no reset has come since.

    Fresh      a list that a probe gave which was opened after the last reset
    Tracked    what a call between its sections has behind it
    Inv        every call is tracked, and every cached list is fresh
    OpenedAt   the generation a call read, kept to its end: after a reset it has nothing to store
-/
import HandBrakeEncoder.Encoders.Cache

namespace HandBrakeEncoder.Encoders.Cache

open Lib

/-- Call `id` went past its opening section to probe for this query, and `after` is what happened
since. -/
def Since (trace : List Event) (id : ℕ) (query : Query) (after : List Event) : Prop :=
  ∃ before, trace = before ++ .miss id query :: after

/-- A generation read before `after`, with the counter now at `now`. -/
structure Remembered (after : List Event) (gen now : ℕ) : Prop where
  le : gen ≤ now
  current : gen = now → .reset ∉ after

/-- The list is what the probe of a call gave whose opening section for this query came after
every reset.  The probe under a call's identifier is that call's (`opens_once`). -/
def Fresh (isWord : Char → Bool) (trace : List Event) (query : Query) (names : List PyStr) : Prop :=
  ∃ id after run, Since trace id query after ∧ .reset ∉ after ∧ .probe id run ∈ after ∧
    names = probed isWord run query

/-- What a call at this point has behind it, with the counter at `now`. -/
def Pc.Tracked (isWord : Char → Bool) (trace : List Event) (id now : ℕ) : Pc → Prop
  | .idle | .returned _ _ | .raised _ => True
  | .probing query gen => ∃ after, Since trace id query after ∧ Remembered after gen now
  | .probed query gen names => ∃ after run, Since trace id query after ∧
      Remembered after gen now ∧ .probe id run ∈ after ∧ names = Cache.probed isWord run query

/-- Kept by every step. -/
structure Inv (isWord : Char → Bool) (trace : List Event) (s : State) : Prop where
  calls : ∀ id, (s.calls id).Tracked isWord trace id s.globals.generation
  cached : ∀ query names, s.globals.cached query = some names → Fresh isWord trace query names

variable {isWord : Char → Bool} {trace after : List Event} {e : Event} {s t : State} {pc : Pc}
  {id gen now : ℕ} {query : Query} {names : List PyStr}

/-! ## One more event -/

theorem Since.opened (trace : List Event) (id : ℕ) (query : Query) :
    Since (trace ++ [.miss id query]) id query [] := ⟨trace, rfl⟩

theorem Since.snoc (h : Since trace id query after) (e : Event) :
    Since (trace ++ [e]) id query (after ++ [e]) := by
  obtain ⟨before, rfl⟩ := h
  exact ⟨before, List.append_assoc before _ [e]⟩

theorem reset_not_mem_snoc (h : .reset ∉ after) (he : e ≠ .reset) : .reset ∉ after ++ [e] := by
  intro hmem
  rcases List.mem_append.mp hmem with hold | hnew
  · exact h hold
  · exact he (List.mem_singleton.mp hnew).symm

theorem Remembered.opened (gen : ℕ) : Remembered [] gen gen := ⟨le_rfl, fun _ => List.not_mem_nil⟩

theorem Remembered.snoc (h : Remembered after gen now) (he : e ≠ .reset) :
    Remembered (after ++ [e]) gen now :=
  ⟨h.le, fun hgen => reset_not_mem_snoc (h.current hgen) he⟩

/-- A reset puts the counter past every generation that is remembered. -/
theorem Remembered.reset (h : Remembered after gen now) :
    Remembered (after ++ [.reset]) gen (now + 1) := by
  refine ⟨Nat.le_succ_of_le h.le, ?_⟩
  intro hgen
  have hle := h.le
  omega

/-- A reset since then is in the counter. -/
theorem Remembered.lt (h : Remembered after gen now) (hreset : .reset ∈ after) : gen < now :=
  Nat.lt_of_le_of_ne h.le (fun hgen => h.current hgen hreset)

theorem Fresh.snoc (h : Fresh isWord trace query names) (he : e ≠ .reset) :
    Fresh isWord (trace ++ [e]) query names := by
  obtain ⟨id, after, run, hsince, hreset, hprobe, hnames⟩ := h
  exact ⟨id, after ++ [e], run, hsince.snoc e, reset_not_mem_snoc hreset he,
    List.mem_append_left _ hprobe, hnames⟩

theorem Pc.Tracked.snoc (h : pc.Tracked isWord trace id now) (he : e ≠ .reset) :
    pc.Tracked isWord (trace ++ [e]) id now := by
  cases pc with
  | idle => trivial
  | returned => trivial
  | raised => trivial
  | probing query gen =>
      obtain ⟨after, hsince, hgen⟩ := h
      exact ⟨after ++ [e], hsince.snoc e, hgen.snoc he⟩
  | probed query gen names =>
      obtain ⟨after, run, hsince, hgen, hprobe, hnames⟩ := h
      exact ⟨after ++ [e], run, hsince.snoc e, hgen.snoc he, List.mem_append_left _ hprobe, hnames⟩

theorem Pc.Tracked.reset (h : pc.Tracked isWord trace id now) :
    pc.Tracked isWord (trace ++ [.reset]) id (now + 1) := by
  cases pc with
  | idle => trivial
  | returned => trivial
  | raised => trivial
  | probing query gen =>
      obtain ⟨after, hsince, hgen⟩ := h
      exact ⟨after ++ [.reset], hsince.snoc _, hgen.reset⟩
  | probed query gen names =>
      obtain ⟨after, run, hsince, hgen, hprobe, hnames⟩ := h
      exact ⟨after ++ [.reset], run, hsince.snoc _, hgen.reset, List.mem_append_left _ hprobe, hnames⟩

/-! ## The invariant -/

theorem Inv.init : Inv isWord [] .init where
  calls := fun _ => trivial
  cached := by
    intro query names hc
    cases query with
    | encoders => cases hc
    | presets encoder => cases hc

/-- One call goes on; the others and the globals are as they were. -/
theorem Inv.goto (h : Inv isWord trace s) (he : e ≠ .reset)
    (hpc : pc.Tracked isWord (trace ++ [e]) id s.globals.generation) :
    Inv isWord (trace ++ [e]) (s.goto id pc) where
  calls := by
    intro id'
    rw [State.goto_calls]
    split
    · rename_i hid
      subst hid
      exact hpc
    · exact (h.calls id').snoc he
  cached := fun query names hc => (h.cached query names hc).snoc he

/-- A reset leaves no list and makes every remembered generation an old one. -/
theorem Inv.reset (h : Inv isWord trace s) :
    Inv isWord (trace ++ [.reset]) { s with globals := s.globals.resetCache } where
  calls := fun id => (h.calls id).reset
  cached := by
    intro query names hc
    cases query with
    | encoders => cases hc
    | presets encoder => cases hc

/-- A last section stores a list that is fresh, or nothing. -/
theorem Inv.store (h : Inv isWord trace s) (hfresh : gen = s.globals.generation →
    Fresh isWord trace query names) :
    Inv isWord trace { s with globals := s.globals.store query gen names } where
  calls := by
    intro id
    rw [Globals.generation_store]
    exact h.calls id
  cached := by
    intro query' names' hc
    dsimp only at hc
    rw [Globals.store] at hc
    split at hc
    · rename_i hgen
      rw [Globals.cached_put] at hc
      split at hc
      · rename_i hquery
        cases hc
        subst hquery
        exact hfresh hgen.symm
      · exact h.cached query' names' hc
    · exact h.cached query' names' hc

/-- The step lemma. -/
theorem Inv.step (h : Inv isWord trace s) (hstep : Step isWord e s t) :
    Inv isWord (trace ++ [e]) t := by
  cases hstep with
  | reset =>
      exact h.reset
  | hit =>
      exact h.goto (by simp) trivial
  | @miss _ id query =>
      exact h.goto (by simp) ⟨[], Since.opened trace id query, .opened _⟩
  | @probe _ id query gen run hpc =>
      have htracked := h.calls id
      rw [hpc] at htracked
      obtain ⟨after, hsince, hgen⟩ := htracked
      exact h.goto (by simp) ⟨_, run, hsince.snoc _, hgen.snoc (by simp), by simp, rfl⟩
  | uncaught =>
      exact h.goto (by simp) trivial
  | @store _ id query gen names hpc =>
      have htracked := h.calls id
      rw [hpc] at htracked
      obtain ⟨after, run, hsince, hgen, hprobe, hnames⟩ := htracked
      have hgoto : Inv isWord (trace ++ [.store id]) (s.goto id (.returned query names)) :=
        h.goto (by simp) trivial
      apply hgoto.store
      intro hcurrent
      exact Fresh.snoc ⟨id, after, run, hsince, hgen.current hcurrent, hprobe, hnames⟩ (by simp)

theorem Inv.run (h : Run (Step isWord) .init trace s) : Inv isWord trace s :=
  h.trace (fun _ _ _ _ hinv hstep => hinv.step hstep) .init

/-! ## A call that a reset has overtaken -/

/-- A call that read this generation in its opening section, wherever it stands by now. -/
def Pc.OpenedAt (gen : ℕ) : Pc → Prop
  | .idle => False
  | .probing _ gen' => gen' = gen
  | .probed _ gen' _ => gen' = gen
  | .returned _ _ | .raised _ => True

theorem Step.generation_eq (h : Step isWord e s t) (he : e ≠ .reset) :
    t.globals.generation = s.globals.generation := by
  cases h with
  | reset => exact absurd rfl he
  | hit => rfl
  | miss => rfl
  | probe => rfl
  | uncaught => rfl
  | store => exact Globals.generation_store _ _ _ _

theorem Remembered.step (h : Remembered after gen s.globals.generation) (hstep : Step isWord e s t) :
    Remembered (after ++ [e]) gen t.globals.generation := by
  by_cases he : e = .reset
  · subst he
    cases hstep
    exact h.reset
  · rw [hstep.generation_eq he]
    exact h.snoc he

/-- An event of another call leaves this one where it is, and one of its own keeps its generation. -/
theorem Step.openedAt (h : Step isWord e s t) (hcall : (s.calls id).OpenedAt gen) :
    (t.calls id).OpenedAt gen := by
  have hgoto : ∀ {id' : ℕ} {pc pc' : Pc}, s.calls id' = pc → (pc.OpenedAt gen → pc'.OpenedAt gen) →
      ((s.goto id' pc').calls id).OpenedAt gen := by
    intro id' pc pc' hpc hkeep
    rw [State.goto_calls]
    split
    · rename_i hid
      subst hid hpc
      exact hkeep hcall
    · exact hcall
  cases h with
  | reset => exact hcall
  | hit hpc => exact hgoto hpc (fun _ => trivial)
  | miss hpc => exact hgoto hpc (fun hidle => absurd hidle not_false)
  | probe _ hpc => exact hgoto hpc (fun hgen => hgen)
  | uncaught hpc => exact hgoto hpc (fun _ => trivial)
  | store hpc => exact hgoto hpc (fun _ => trivial)

/-- The last section of a call that opened before a reset changes nothing. -/
theorem Step.store_overtaken (h : Step isWord (.store id) s t) (hcall : (s.calls id).OpenedAt gen)
    (hlt : gen < s.globals.generation) : t.globals = s.globals := by
  cases h with
  | store hpc =>
      rw [hpc] at hcall
      cases hcall
      exact if_neg (Nat.ne_of_gt hlt)

/-- The events since the opening section of a call, and where they leave it. -/
theorem opened_run (hopen : Step isWord (.miss id query) s t) {u : State}
    (h : Run (Step isWord) t after u) :
    (u.calls id).OpenedAt s.globals.generation ∧
      Remembered after s.globals.generation u.globals.generation := by
  refine @Run.trace _ _ (Step isWord) t u after (fun after u =>
    (u.calls id).OpenedAt s.globals.generation ∧
      Remembered after s.globals.generation u.globals.generation) ?_ h ?_
  · intro after e u v hu hstep
    exact ⟨hstep.openedAt hu.1, hu.2.step hstep⟩
  · cases hopen
    refine ⟨?_, .opened _⟩
    rw [State.goto_calls, if_pos rfl]
    exact rfl

/-- The opening section, and the run since then. -/
theorem Since.opening (h : Since trace id query after) (hrun : Run (Step isWord) .init trace s) :
    ∃ u v, Step isWord (.miss id query) u v ∧ Run (Step isWord) v after s := by
  obtain ⟨before, htrace⟩ := h
  obtain ⟨u, -, hrest⟩ := hrun.split htrace
  obtain ⟨v, hopen, hafter⟩ := hrest.uncons
  exact ⟨u, v, hopen, hafter⟩

/-- A call opens once, so whatever else bears its identifier is its own. -/
theorem opens_once (h : Run (Step isWord) .init trace s) (hsince : Since trace id query after)
    (query' : Query) : .miss id query' ∉ after := by
  intro hmem
  obtain ⟨u, v, hopen, hafter⟩ := hsince.opening h
  obtain ⟨first, last, hsplit⟩ := List.append_of_mem hmem
  obtain ⟨w, hfirst, hlast⟩ := hafter.split hsplit
  obtain ⟨x, hagain, -⟩ := hlast.uncons
  have hcall := (opened_run hopen hfirst).1
  cases hagain with
  | miss hidle =>
      rw [hidle] at hcall
      exact hcall

/-- In every interleaving, what is cached was given by a probe opened after the last reset, for
the presets of an encoder by one for that encoder; and a call that opened before a reset leaves
the caches as they are. -/
theorem reset_discards (h : Run (Step isWord) .init trace s) :
    (∀ names, s.globals.cache = some names → Fresh isWord trace .encoders names) ∧
      (∀ encoder names, s.globals.presetCache encoder = some names →
        Fresh isWord trace (.presets encoder) names) ∧
      ∀ id query after t, Since trace id query after → .reset ∈ after →
        Step isWord (.store id) s t → t.globals = s.globals := by
  have hinv := Inv.run h
  refine ⟨hinv.cached .encoders, fun encoder => hinv.cached (.presets encoder), ?_⟩
  intro id query after t hsince hreset hstep
  obtain ⟨u, v, hopen, hafter⟩ := hsince.opening h
  obtain ⟨hcall, hgen⟩ := opened_run hopen hafter
  exact hstep.store_overtaken hcall (hgen.lt hreset)

/-- A probe in flight at a reset, and one begun after it that is stored before the first ends. -/
def inFlight : List Event :=
  [.miss 0 .encoders, .reset, .miss 1 .encoders, .probe 1 helpRun, .store 1, .probe 0 .failed]

theorem reset_discards_inFlight :
    ∃ s t, Run (Step asciiWord) .init inFlight s ∧ Step asciiWord (.store 0) s t ∧
      t.globals = s.globals ∧
        Fresh asciiWord inFlight .encoders (probed asciiWord helpRun .encoders) := by
  obtain ⟨s, t, hrun, hcache, hstore⟩ : ∃ s t, Run (Step asciiWord) .init inFlight s ∧
      s.globals.cache = some (probed asciiWord helpRun .encoders) ∧
        Step asciiWord (.store 0) s t :=
    ⟨_, _, .cons (.miss rfl rfl) <| .cons (.reset _) <| .cons (.miss rfl rfl) <|
      .cons (.probe helpRun rfl) <| .cons (.store rfl) <| .cons (.probe .failed rfl) <| .nil _,
      rfl, .store rfl⟩
  obtain ⟨hfresh, -, hold⟩ := reset_discards hrun
  refine ⟨s, t, hrun, hstore, ?_, hfresh _ hcache⟩
  exact hold 0 .encoders _ t ⟨[], rfl⟩ List.mem_cons_self hstore

end HandBrakeEncoder.Encoders.Cache
