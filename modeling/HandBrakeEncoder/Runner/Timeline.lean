/-
# `Runner.Timeline` — `run_encode` against the clock

`Runner.Process` leaves time out: a wait may expire or not.  Here the child is a
timeline, the time of its spawn being 0: when each line of stdout can be read,
when stdout ends, when the child exits and with what code.  Any of them may
never come, and the lines may go on for ever.

    loop        a blocking read per line, with no limit; it ends with stdout, or raises
    finally     it raised:   killed unless it has exited, and the exception goes on
                it ended:    `proc.wait(timeout)` counts from here, then the verdict

So `timeout` is a limit on the time from the end of stdout to the exit, and on
nothing before it.  Nobody cancels, what the runner does itself takes no time,
and a killed child is reaped within the ten seconds its killer waits.
-/
import Mathlib.Data.Seq.Basic
import HandBrakeEncoder.Lib.Text
import HandBrakeEncoder.Progress.Escapes
import HandBrakeEncoder.Runner.Verdict

namespace HandBrakeEncoder.Runner

open Jobs Progress Relation

/-- A child nobody interferes with. -/
structure Timeline where
  stdout : Stream'.Seq (Clock × PyStr)
  eof : Option Clock
  exit : Option Clock
  code : ℤ
  stderr : PyStr

/-- The child has exited at that time. -/
def Timeline.exitedBy (c : Timeline) (t : Clock) : Bool :=
  match c.exit with
  | none => false
  | some x => x ≤ t

theorem Timeline.exitedBy_iff {c : Timeline} {t : Clock} :
    c.exitedBy t = true ↔ ∃ x, c.exit = some x ∧ x ≤ t := by
  rw [Timeline.exitedBy]
  cases c.exit with
  | none => exact ⟨nofun, fun ⟨_, h, _⟩ => nomatch h⟩
  | some x => simp

/-- The `timeout` argument, and how it prints. -/
structure Limit where
  seconds : Clock
  text : PyStr

/-! ## The stdout loop -/

/-- The loop after so many lines, or the exception that left it. -/
def readN (env : LoopEnv) (c : Timeline) : ℕ → Except PyExc LoopState
  | 0 => .ok .init
  | n + 1 => do
      let st ← readN env c n
      match c.stdout.get? n with
      | some (_, line) => readLine env st line
      | none => .ok st

/-- When and how the loop ends, if it does: with stdout, or raising at a line. -/
inductive LoopEnds (env : LoopEnv) (c : Timeline) : Clock → Option PyExc → Prop
  | eof {n : ℕ} {st : LoopState} {t : Clock} : readN env c n = .ok st →
      c.stdout.get? n = none → c.eof = some t → LoopEnds env c t none
  | raises {n : ℕ} {st : LoopState} {t : Clock} {line : PyStr} {e : PyExc} :
      readN env c n = .ok st → c.stdout.get? n = some (t, line) →
      readLine env st line = .error e → LoopEnds env c t (some e)

/-! ## The end of `run_encode` -/

/-- How `run_encode` ends; `killed` says that it sent the signal to a child still running. -/
structure Ending where
  killed : Bool
  outcome : FnOutcome

/-- The verdict on a child nobody cancelled. -/
def Timeline.verdict (c : Timeline) : FnOutcome :=
  if c.code = 0 then .returned
  else .raised (.handBrakeError (failureText (Text.strip c.stderr) c.code))

/-- The `finally` block and what follows it, entered at `t`. -/
def finish (limit : Limit) (c : Timeline) (t : Clock) : Option PyExc → Ending
  | some e => { killed := !c.exitedBy t, outcome := .raised e }
  | none =>
      if c.exitedBy t || c.exitedBy (t + limit.seconds) then
        { killed := false, outcome := c.verdict }
      else
        { killed := true, outcome := .raised (.handBrakeError (timedOutText limit.text)) }

/-- `run_encode` ends so; where there is no such ending it never returns. -/
def RunEncode (env : LoopEnv) (limit : Limit) (c : Timeline) (ending : Ending) : Prop :=
  ∃ t raised, LoopEnds env c t raised ∧ ending = finish limit c t raised

variable {env : LoopEnv} {limit : Limit} {c : Timeline}

/-! ## One ending -/

theorem readN_error {m n : ℕ} {e : PyExc} (h : readN env c n = .error e) (hle : n ≤ m) :
    readN env c m = .error e := by
  induction hle with
  | refl => exact h
  | step _ ih =>
      rw [readN, ih]
      rfl

theorem readN_raises {n : ℕ} {st : LoopState} {t : Clock} {line : PyStr} {e : PyExc}
    (h : readN env c n = .ok st) (hget : c.stdout.get? n = some (t, line))
    (hline : readLine env st line = .error e) : readN env c (n + 1) = .error e := by
  have hnext : readN env c (n + 1) = readLine env st line := by
    simp only [readN, h, hget]
    rfl
  exact hnext.trans hline

/-- A loop that has raised is not one that goes on. -/
theorem readN_before {m n : ℕ} {st : LoopState} {e : PyExc} (hm : readN env c m = .ok st)
    (hn : readN env c n = .error e) : m < n := by
  by_contra hle
  cases hm.symm.trans (readN_error hn (not_lt.mp hle))

/-- The loop ends in one way. -/
theorem LoopEnds.unique {t t' : Clock} {r r' : Option PyExc} (h : LoopEnds env c t r)
    (h' : LoopEnds env c t' r') : t = t' ∧ r = r' := by
  -- a loop that stdout ended has not raised: the lines before are read, and none follows
  have hmixed : ∀ {m n : ℕ} {st st' : LoopState} {u : Clock} {line : PyStr} {e : PyExc},
      readN env c m = .ok st → c.stdout.get? m = none → readN env c n = .ok st' →
      c.stdout.get? n = some (u, line) → readLine env st' line = .error e → False := by
    intro m n st st' u line e hm hnone hn hsome hline
    have hlt := readN_before hm (readN_raises hn hsome hline)
    have hstable := c.stdout.le_stable (Nat.le_of_lt_succ hlt) hnone
    cases hstable.symm.trans hsome
  cases h with
  | eof hm hnone heof =>
      cases h' with
      | eof _ _ heof' => exact ⟨Option.some.inj (heof.symm.trans heof'), rfl⟩
      | raises hn hsome hline => exact (hmixed hm hnone hn hsome hline).elim
  | @raises m st t line e hm hsome hline =>
      cases h' with
      | eof hn hnone heof => exact (hmixed hn hnone hm hsome hline).elim
      | @raises n st' t' line' e' hn hsome' hline' =>
          have hmn := readN_before hm (readN_raises hn hsome' hline')
          have hnm := readN_before hn (readN_raises hm hsome hline)
          obtain rfl : m = n := by omega
          cases hm.symm.trans hn
          cases hsome.symm.trans hsome'
          cases hline.symm.trans hline'
          exact ⟨rfl, rfl⟩

theorem RunEncode.unique {ending ending' : Ending} (h : RunEncode env limit c ending)
    (h' : RunEncode env limit c ending') : ending = ending' := by
  obtain ⟨t, r, hends, rfl⟩ := h
  obtain ⟨t', r', hends', rfl⟩ := h'
  obtain ⟨rfl, rfl⟩ := hends.unique hends'
  rfl

/-- What raises in the loop is none of the runner's own exceptions. -/
theorem LoopEnds.raised (hloads : Documented env.loads) {t : Clock} {e : PyExc}
    (h : LoopEnds env c t (some e)) :
    e = .recursionError ∨ (∃ msg, e = .valueError msg) ∨ ∃ msg, e = .baseException msg := by
  cases h with
  | raises _ _ hline => exact readLine_error hloads hline

/-! ## The ending is one of the untimed process -/

/-- Each ending is that of a run of the thread, the watcher and the child. -/
theorem RunEncode.steps (hloads : Documented env.loads) {ending : Ending}
    (h : RunEncode env limit c ending) :
    ∃ p, Steps (fun call => call = .stdoutLoop) limit.text (.init false) p ∧
      p.main = .done ending.outcome := by
  obtain ⟨t, raised, hends, rfl⟩ := h
  have hthread : Steps (fun call => call = .stdoutLoop) limit.text (.init false) _ :=
    .single (.main (.newThread rfl))
  have hreading := hthread.tail (.main (.startThread rfl))
  cases raised with
  | some e =>
      have hext : external e = true := by
        rcases hends.raised hloads with rfl | ⟨msg, rfl⟩ | ⟨msg, rfl⟩
        · rfl
        · rfl
        · rfl
      have hraised := hreading.tail (.main (.loopRaises e rfl rfl hext))
      have hpolled := hraised.tail (.main (.abortPoll rfl (.silent rfl)))
      have hkilled := hpolled.tail (.main (.abortKill rfl))
      have hdead := hkilled.tail (.child (.dies rfl))
      have hreaped := hdead.tail (.main (.abortWait rfl rfl))
      have hwaited := hreaped.tail (.main (.finalWait rfl rfl))
      exact ⟨_, hwaited.tail (.main (.joinRaise rfl)), rfl⟩
  | none =>
      have hread := hreading.tail (.main (.loopEnds rfl))
      rw [finish]
      split
      · have hexited := hread.tail (.child (.exits c.code rfl))
        have hpolled := hexited.tail (.main (.pollExited rfl (.exited rfl)))
        have hwaited := hpolled.tail (.main (.finalWait rfl rfl))
        have hjoined := hwaited.tail (.main (.join rfl))
        have hverdict : Verdict (fun call => call = .stdoutLoop) false c.code c.verdict := by
          rw [Timeline.verdict]
          split
          · rename_i hzero
            exact .finished hzero
          · rename_i hfailed
            exact .failed _ hfailed rfl
        exact ⟨_, hjoined.tail (.main (.verdict rfl hverdict)), rfl⟩
      · have hpolled := hread.tail (.main (.poll rfl (.silent rfl)))
        have hexpired := hpolled.tail (.main (.timeoutExpired rfl rfl))
        have hlogged := hexpired.tail (.main (.timeoutLog rfl))
        have hkilled := hlogged.tail (.main (.timeoutKill rfl))
        have hdead := hkilled.tail (.child (.dies rfl))
        exact ⟨_, hdead.tail (.main (.timeoutWait rfl rfl)), rfl⟩

/-! ## The timeout -/

/-- `run_encode` ends, and it ends by killing the child and raising `HandBrakeError`. -/
def TimesOut (env : LoopEnv) (limit : Limit) (c : Timeline) : Prop :=
  (∃ ending, RunEncode env limit c ending) ∧ ∀ ending, RunEncode env limit c ending →
    ending.killed = true ∧ ∃ msg, ending.outcome = .raised (.handBrakeError msg)

/-- Stdout ends at `t`, after lines that make the loop raise nothing. -/
def ReadOut (env : LoopEnv) (c : Timeline) (t : Clock) : Prop :=
  ∃ timed, c.stdout = .ofList timed ∧ c.eof = some t ∧ Harmless env [] 0 (timed.map Prod.snd)

/-- The loop over the first lines of a finite stdout. -/
theorem readN_ofList {timed : List (Clock × PyStr)} (hout : c.stdout = .ofList timed) (n : ℕ) :
    readN env c n = readLoop env .init ((timed.take n).map Prod.snd) := by
  induction n with
  | zero => rfl
  | succ n ih =>
      rw [List.take_add_one, List.map_append]
      simp only [readN, ih, hout, Stream'.Seq.ofList_get?]
      cases hread : readLoop env .init ((timed.take n).map Prod.snd) with
      | error e =>
          rw [readLoop_append_error hread]
          rfl
      | ok st =>
          rw [readLoop_append hread]
          cases timed[n]? with
          | none => rfl
          | some line =>
              show readLine env st line.2 = readLoop env st [line.2]
              rw [readLoop]
              cases readLine env st line.2 <;> rfl

/-- The loop over all of them. -/
theorem readN_all {timed : List (Clock × PyStr)} (hout : c.stdout = .ofList timed) {n : ℕ}
    (hn : timed.length ≤ n) : readN env c n = readLoop env .init (timed.map Prod.snd) := by
  rw [readN_ofList hout, List.take_of_length_le hn]

/-- The loop ends with stdout exactly where it reads it out. -/
theorem loopEnds_none_iff {t : Clock} : LoopEnds env c t none ↔ ReadOut env c t := by
  constructor
  · rintro ⟨hread, hnone, heof⟩
    rename_i n st
    have hout := (Stream'.Seq.ofList_toList c.stdout ⟨n, hnone⟩).symm
    generalize c.stdout.toList ⟨n, hnone⟩ = timed at hout
    refine ⟨timed, hout, heof, (readLoop_ok_iff _ .init).mp ⟨st, ?_⟩⟩
    have hlen : timed.length ≤ n := by
      rw [hout, Stream'.Seq.ofList_get?] at hnone
      exact List.getElem?_eq_none_iff.mp hnone
    rw [← readN_all hout hlen]
    exact hread
  · rintro ⟨timed, hout, heof, hharmless⟩
    obtain ⟨st, hst⟩ := (readLoop_ok_iff _ .init).mpr hharmless
    refine .eof (n := timed.length) ((readN_all hout le_rfl).trans hst) ?_ heof
    rw [hout, Stream'.Seq.ofList_get?]
    exact List.getElem?_eq_none_iff.mpr le_rfl

/-- A child killed at its timeout. -/
theorem ReadOut.timesOut {t : Clock} (h : ReadOut env c t) (hnow : c.exitedBy t = false)
    (hlate : c.exitedBy (t + limit.seconds) = false) : TimesOut env limit c := by
  have hends := loopEnds_none_iff.mpr h
  have hfinish : finish limit c t none
      = { killed := true, outcome := .raised (.handBrakeError (timedOutText limit.text)) } := by
    rw [finish, hnow, hlate]
    rfl
  have hrun : RunEncode env limit c _ := ⟨t, none, hends, rfl⟩
  refine ⟨⟨_, hrun⟩, fun ending hending => ?_⟩
  rw [hending.unique hrun, hfinish]
  exact ⟨rfl, _, rfl⟩

/-- **When the timeout bounds the encode.**  A child that outlives `timeout` is killed with a
`HandBrakeError` exactly when its stdout ends, with no exception on the way, and the child outlives
`timeout` from there as well. -/
theorem timeout_bounds_iff (hloads : Documented env.loads) :
    (c.exitedBy limit.seconds = false → TimesOut env limit c) ↔
      c.exitedBy limit.seconds = true ∨
        ∃ t, ReadOut env c t ∧ c.exitedBy t = false ∧ c.exitedBy (t + limit.seconds) = false := by
  constructor
  · intro h
    cases hexit : c.exitedBy limit.seconds with
    | true => exact .inl rfl
    | false =>
        right
        obtain ⟨⟨ending, t, raised, hends, hending⟩, hall⟩ := h hexit
        obtain ⟨hkilled, msg, herror⟩ := hall ending ⟨t, raised, hends, hending⟩
        subst hending
        cases raised with
        | some e =>
            exfalso
            have he : e = .handBrakeError msg := FnOutcome.raised.inj herror
            rcases hends.raised hloads with h | ⟨_, h⟩ | ⟨_, h⟩
            · cases h.symm.trans he
            · cases h.symm.trans he
            · cases h.symm.trans he
        | none =>
            rw [finish] at hkilled
            split at hkilled
            · cases hkilled
            · rename_i hnot
              rw [Bool.or_eq_true, not_or, Bool.not_eq_true, Bool.not_eq_true] at hnot
              exact ⟨t, loopEnds_none_iff.mp hends, hnot⟩
  · rintro (hexit | ⟨t, hread, hnow, hlate⟩) hlong
    · cases hlong.symm.trans hexit
    · exact hread.timesOut hnow hlate

/-! ### Three children and a timeout of 5 s -/

/-- Nothing is printed, so nothing is decoded. -/
def silentEnv : LoopEnv where
  loads _ := .error (.jsonDecodeError "Expecting value: line 1 column 1 (char 0)".toList)
  onEta := true
  raises _ := none

theorem silentEnv_documented : Documented silentEnv.loads := by
  intro text e h
  cases h
  exact .inl ⟨_, rfl⟩

/-- Closes stdout after 1 s and never exits. -/
def hanging : Timeline := ⟨.nil, some 1, none, 0, []⟩

/-- Works for 10 s, then exits 0. -/
def slow : Timeline := ⟨.nil, some 10, some 10, 0, []⟩

/-- Prints nothing, and never exits. -/
def stalled : Timeline := ⟨.nil, none, none, 0, []⟩

def fiveSeconds : Limit := ⟨5, "5".toList⟩

theorem hanging_readOut : ReadOut silentEnv hanging 1 :=
  ⟨[], rfl, rfl, .nil⟩

/-- The child that hangs after its output is killed. -/
theorem timeout_bounds_hanging : TimesOut silentEnv fiveSeconds hanging :=
  (timeout_bounds_iff silentEnv_documented).mpr (.inr ⟨1, hanging_readOut, rfl, rfl⟩) rfl

/-- The slow one is not, and returns twice the timeout after its spawn; for the stalled one
`run_encode` waits for ever. -/
theorem timeout_not_bounding :
    (slow.exitedBy fiveSeconds.seconds = false ∧
      RunEncode silentEnv fiveSeconds slow { killed := false, outcome := .returned }) ∧
    (stalled.exitedBy fiveSeconds.seconds = false ∧
      ∀ ending, ¬ RunEncode silentEnv fiveSeconds stalled ending) := by
  have hlate : slow.exitedBy 5 = false := by
    rw [← Bool.not_eq_true, Timeline.exitedBy_iff]
    rintro ⟨_, ⟨⟩, h⟩
    norm_num at h
  have hend : slow.exitedBy 10 = true := Timeline.exitedBy_iff.mpr ⟨10, rfl, le_rfl⟩
  refine ⟨⟨hlate, 10, none, .eof (n := 0) rfl rfl rfl, ?_⟩, rfl, ?_⟩
  · rw [finish, hend]
    rfl
  · rintro _ ⟨t, raised, hends, -⟩
    cases hends with
    | eof _ _ heof => cases heof
    | raises _ hsome _ => cases hsome

end HandBrakeEncoder.Runner
