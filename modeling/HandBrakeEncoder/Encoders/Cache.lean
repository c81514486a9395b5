/-
# `Encoders.Cache` — the probe caches and the calls that share them

`available_encoders` and `encoder_presets` run the same three sections: under the
lock they look for a cached list and otherwise remember the generation, outside
the lock they probe HandBrake for up to twenty seconds, under the lock again they
store what the probe gave if no `reset_cache` came in between.  Each section is
one step here; any number of calls stand between their sections at once.

The generation guards the store against a reset and against nothing else: two
calls that both found the cache empty each store, and the later store wins.
-/
import HandBrakeEncoder.Encoders.Parse
import HandBrakeEncoder.Lib.Run

namespace HandBrakeEncoder.Encoders.Cache

open Lib

/-- What a call asks for, and the key its list is cached under. -/
inductive Query
  | encoders
  | presets (encoder : PyStr)
  deriving DecidableEq

/-- The globals of the module. -/
structure Globals where
  /-- `_cache`. -/
  cache : Option (List PyStr)
  /-- `_preset_cache`. -/
  presetCache : PyStr → Option (List PyStr)
  /-- `_generation`. -/
  generation : ℕ

namespace Globals

/-- The globals at import. -/
def init : Globals := { cache := none, presetCache := fun _ => none, generation := 0 }

/-- `reset_cache`. -/
def resetCache (g : Globals) : Globals :=
  { cache := none, presetCache := fun _ => none, generation := g.generation + 1 }

/-- The list cached for a query: `_cache`, or `_preset_cache.get(encoder)`. -/
def cached (g : Globals) : Query → Option (List PyStr)
  | .encoders => g.cache
  | .presets encoder => g.presetCache encoder

/-- `_cache = names`, or `_preset_cache[encoder] = names`. -/
def put (g : Globals) (names : List PyStr) : Query → Globals
  | .encoders => { g with cache := some names }
  | .presets encoder =>
      { g with presetCache := Function.update g.presetCache encoder (some names) }

/-- The last section of a call: `names` is stored if the generation is still `gen`. -/
def store (g : Globals) (query : Query) (gen : ℕ) (names : List PyStr) : Globals :=
  if g.generation = gen then g.put names query else g

theorem cached_put (g : Globals) (names : List PyStr) (query other : Query) :
    (g.put names query).cached other = if other = query then some names else g.cached other := by
  cases query with
  | encoders =>
      cases other with
      | encoders =>
          rfl
      | presets encoder =>
          rfl
  | presets encoder =>
      cases other with
      | encoders =>
          rfl
      | presets encoder' =>
          simp only [put, cached, Function.update_apply, Query.presets.injEq]

@[simp] theorem generation_put (g : Globals) (names : List PyStr) (query : Query) :
    (g.put names query).generation = g.generation := by
  cases query with
  | encoders =>
      rfl
  | presets encoder =>
      rfl

@[simp] theorem generation_store (g : Globals) (query : Query) (gen : ℕ) (names : List PyStr) :
    (g.store query gen names).generation = g.generation := by
  rw [store]
  split
  · exact g.generation_put names query
  · rfl

end Globals

/-- Where a call stands. -/
inductive Pc
  | idle
  /-- Past its opening section, with the generation it read there. -/
  | probing (query : Query) (gen : ℕ)
  | probed (query : Query) (gen : ℕ) (names : List PyStr)
  | returned (query : Query) (names : List PyStr)
  | raised (query : Query)

/-- The globals and every call, each under an identifier of its own. -/
structure State where
  globals : Globals
  calls : ℕ → Pc

namespace State

def init : State := { globals := .init, calls := fun _ => .idle }

/-- Call `id` goes on to `pc`. -/
def goto (s : State) (id : ℕ) (pc : Pc) : State :=
  { s with calls := Function.update s.calls id pc }

theorem goto_calls (s : State) (id id' : ℕ) (pc : Pc) :
    (s.goto id pc).calls id' = if id' = id then pc else s.calls id' :=
  Function.update_apply s.calls id pc id'

@[simp] theorem goto_globals (s : State) (id : ℕ) (pc : Pc) : (s.goto id pc).globals = s.globals := rfl

end State

/-- What can happen, with the call it happens to. -/
inductive Event
  | reset
  | hit (id : ℕ) (query : Query) (names : List PyStr)
  | miss (id : ℕ) (query : Query)
  | probe (id : ℕ) (run : ProbeRun)
  | uncaught (id : ℕ)
  | store (id : ℕ)

/-- The query of the call this opens. -/
def Event.opens : Event → Option Query
  | .hit _ query _ | .miss _ query => some query
  | .reset | .probe _ _ | .uncaught _ | .store _ => none

/-- The list a probe gives the call that made it. -/
def probed (isWord : Char → Bool) (run : ProbeRun) : Query → List PyStr
  | .encoders => probedEncoders isWord run
  | .presets encoder => probedPresets run encoder

/-- One section of one call, or a reset. -/
inductive Step (isWord : Char → Bool) : Event → State → State → Prop
  | reset (s : State) :
      Step isWord .reset s { s with globals := s.globals.resetCache }
  /-- The opening section of a call that finds its list. -/
  | hit {s : State} {id : ℕ} {query : Query} {names : List PyStr} :
      s.calls id = .idle → s.globals.cached query = some names →
        Step isWord (.hit id query names) s (s.goto id (.returned query names))
  /-- The opening section of a call that has to probe. -/
  | miss {s : State} {id : ℕ} {query : Query} :
      s.calls id = .idle → s.globals.cached query = none →
        Step isWord (.miss id query) s (s.goto id (.probing query s.globals.generation))
  | probe {s : State} {id : ℕ} {query : Query} {gen : ℕ} (run : ProbeRun) :
      s.calls id = .probing query gen →
        Step isWord (.probe id run) s (s.goto id (.probed query gen (probed isWord run query)))
  /-- The probe raises something neither handler names. -/
  | uncaught {s : State} {id : ℕ} {query : Query} {gen : ℕ} :
      s.calls id = .probing query gen →
        Step isWord (.uncaught id) s (s.goto id (.raised query))
  /-- The last section of a call. -/
  | store {s : State} {id : ℕ} {query : Query} {gen : ℕ} {names : List PyStr} :
      s.calls id = .probed query gen names →
        Step isWord (.store id) s
          { s.goto id (.returned query names) with globals := s.globals.store query gen names }

variable {isWord : Char → Bool}

/-! ## What a call finds once another has found it -/

/-- Between resets, what one opening section found every later one for the query finds. -/
def WriteOnce (trace : List Event) : Prop :=
  ∀ (before after : List Event) (id : ℕ) (query : Query) (names : List PyStr),
    trace = before ++ .hit id query names :: after → .reset ∉ after →
      ∀ e ∈ after, e.opens = some query → ∃ id', e = .hit id' query names

/-- The step does not store over another list: a last section whose generation is still
current finds its key empty, or holding the very list it stores. -/
def NoOverwrite (s : State) (e : Event) : Prop :=
  ∀ (id : ℕ) (query : Query) (names other : List PyStr), e = .store id →
    s.calls id = .probed query s.globals.generation names →
      s.globals.cached query = some other → other = names

/-- A step that neither resets nor overwrites leaves every cached list. -/
theorem Step.cached_eq {e : Event} {s t : State} {query : Query} {names : List PyStr}
    (h : Step isWord e s t) (hreset : e ≠ .reset) (hover : NoOverwrite s e)
    (hc : s.globals.cached query = some names) : t.globals.cached query = some names := by
  cases h with
  | reset =>
      exact absurd rfl hreset
  | hit =>
      exact hc
  | miss =>
      exact hc
  | probe =>
      exact hc
  | uncaught =>
      exact hc
  | @store _ id query' gen names' hpc =>
      show (s.globals.store query' gen names').cached query = some names
      rw [Globals.store]
      split
      · rename_i hgen
        rw [Globals.cached_put]
        split
        · rename_i hq
          subst hgen hq
          rw [hover id query names' names rfl hpc hc]
        · exact hc
      · exact hc

/-- An opening section finds the list that is cached. -/
theorem Step.opens_hit {e : Event} {s t : State} {query : Query} {names : List PyStr}
    (h : Step isWord e s t) (hc : s.globals.cached query = some names)
    (hopens : e.opens = some query) : ∃ id, e = .hit id query names := by
  cases h with
  | reset =>
      cases hopens
  | @hit _ id query' names' _ hc' =>
      cases hopens
      rw [hc] at hc'
      cases hc'
      exact ⟨id, rfl⟩
  | miss _ hc' =>
      cases hopens
      rw [hc] at hc'
      cases hc'
  | probe =>
      cases hopens
  | uncaught =>
      cases hopens
  | store =>
      cases hopens

/-- From a state where a query is cached, on a run without a reset or an overwrite. -/
theorem opens_hit_of_cached {trace : List Event} {s t : State} {query : Query} {names : List PyStr}
    (h : Run (fun e s t => Step isWord e s t ∧ NoOverwrite s e) s trace t) (hreset : .reset ∉ trace)
    (hc : s.globals.cached query = some names) :
    t.globals.cached query = some names ∧
      ∀ e ∈ trace, e.opens = some query → ∃ id, e = .hit id query names := by
  induction h with
  | nil =>
      exact ⟨hc, fun e he => absurd he List.not_mem_nil⟩
  | @snoc t u trace e hrun hstep ih =>
      rw [List.mem_append, List.mem_singleton, not_or] at hreset
      obtain ⟨hmid, hfound⟩ := ih hreset.1
      refine ⟨hstep.1.cached_eq (Ne.symm hreset.2) hstep.2 hmid, ?_⟩
      intro e' he'
      rcases List.mem_append.mp he' with hold | hnew
      · exact hfound e' hold
      · cases List.mem_singleton.mp hnew
        exact hstep.1.opens_hit hmid

/-- On a run that never stores over another list the caches are write-once between resets. -/
theorem writeOnce_of_noOverwrite {trace : List Event} {t : State}
    (h : Run (fun e s t => Step isWord e s t ∧ NoOverwrite s e) .init trace t) :
    WriteOnce trace := by
  intro before after id query names htrace hreset
  obtain ⟨u, _, hrest⟩ := h.split htrace
  obtain ⟨v, hhit, hafter⟩ := hrest.uncons
  cases hhit.1 with
  | hit _ hc =>
      exact (opens_hit_of_cached hafter hreset hc).2

/-! Two calls that overlap, and the runs in which the second stores. -/

/-- `\w` on the characters of ASCII. -/
def asciiWord (c : Char) : Bool := c.isAlphanum || c == '_'

/-- A build with one encoder. -/
def helpRun : ProbeRun := .completed 0 "  -e, --encoder <string>\n      x264\n".toList []

theorem probed_helpRun : probed asciiWord helpRun .encoders = ["x264".toList] := by decide

/-- Both calls miss; the second gets no answer and empties what a third has already found. -/
theorem not_writeOnce :
    ¬ ∀ (isWord : Char → Bool) (trace : List Event) (t : State),
      Run (Step isWord) .init trace t → WriteOnce trace := by
  intro h
  have hrun := h asciiWord
    ([.miss 0 .encoders, .miss 1 .encoders, .probe 0 helpRun, .store 0] ++
      .hit 2 .encoders (probed asciiWord helpRun .encoders) ::
        [.probe 1 .failed, .store 1, .hit 3 .encoders []]) _
    (.cons (.miss rfl rfl) <| .cons (.miss rfl rfl) <| .cons (.probe helpRun rfl) <|
      .cons (.store rfl) <| .cons (.hit rfl rfl) <| .cons (.probe .failed rfl) <|
      .cons (.store rfl) <| .cons (.hit rfl rfl) <| .nil _)
  obtain ⟨id, hid⟩ := hrun _ _ _ _ _ rfl (by simp) (.hit 3 .encoders []) (by simp) rfl
  rw [probed_helpRun] at hid
  cases hid

/-- The run of one probe whose list the two calls after it find. -/
theorem writeOnce_one_probe :
    WriteOnce ([.miss 0 .encoders, .probe 0 helpRun, .store 0] ++
      [.hit 1 .encoders (probed asciiWord helpRun .encoders),
        .hit 2 .encoders (probed asciiWord helpRun .encoders)]) := by
  refine @writeOnce_of_noOverwrite asciiWord _ _
    (.cons ⟨.miss rfl rfl, ?_⟩ <| .cons ⟨.probe helpRun rfl, ?_⟩ <| .cons ⟨.store rfl, ?_⟩ <|
      .cons ⟨.hit rfl rfl, ?_⟩ <| .cons ⟨.hit rfl rfl, ?_⟩ <| .nil _)
  case refine_3 =>
      intro id query names other he hpc hc
      cases he
      cases hpc
      cases hc
  all_goals
    intro id query names other he
    cases he

end HandBrakeEncoder.Encoders.Cache
