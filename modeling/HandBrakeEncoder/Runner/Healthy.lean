/-
# `Runner.Healthy` — a healthy encode and its output

A child that prints what it likes, closes stdout and exits 0 in time is a
healthy encode.  Its output reaches `run_encode` through the stdout loop alone,
so what can fail it is what can leave the loop (`Progress.Escapes`): a text that
makes `json.loads` raise `RecursionError` or a plain `ValueError`.
-/
import HandBrakeEncoder.Runner.Timeline

namespace HandBrakeEncoder.Runner

open Jobs Progress Braces

/-- `run_encode` ends, and it ends by returning. -/
def Returns (env : LoopEnv) (limit : Limit) (c : Timeline) : Prop :=
  (∃ ending, RunEncode env limit c ending) ∧
    ∀ ending, RunEncode env limit c ending → ending.outcome = .returned

variable {env : LoopEnv} {limit : Limit} {c : Timeline} {timed : List (Clock × PyStr)} {t : Clock}

theorem readOut_iff (hout : c.stdout = .ofList timed) (heof : c.eof = some t) :
    ReadOut env c t ↔ Harmless env [] 0 (timed.map Prod.snd) := by
  constructor
  · rintro ⟨timed', hout', -, hharmless⟩
    cases Stream'.Seq.ofList_injective (hout.symm.trans hout')
    exact hharmless
  · exact fun h => ⟨timed, hout, heof, h⟩

/-- **When a healthy encode returns.**  With callbacks that raise any `Exception` they like, a
child that exits 0 in time returns exactly when no text the loop hands to `json.loads` makes it
raise `RecursionError` or a plain `ValueError`. -/
theorem healthy_returns_iff (hcallbacks : Ordinary env) (hloads : Documented env.loads)
    (hout : c.stdout = .ofList timed) (heof : c.eof = some t) (hcode : c.code = 0)
    (hexit : c.exitedBy (t + limit.seconds) = true) :
    Returns env limit c ↔ ∀ text ∈ handed env.loads [] (timed.map Prod.snd),
      env.loads text ≠ .error .recursionError ∧ ∀ msg, env.loads text ≠ .error (.valueError msg) := by
  have hharmless : (∀ text ∈ handed env.loads [] (timed.map Prod.snd),
      env.loads text ≠ .error .recursionError ∧ ∀ msg, env.loads text ≠ .error (.valueError msg)) ↔
      ReadOut env c t := by
    rw [readOut_iff hout heof, hcallbacks.harmless_iff]
    refine forall₂_congr fun text _ => ?_
    rw [hloads.fatal, not_or, not_exists]
  rw [hharmless]
  constructor
  · rintro ⟨⟨ending, u, raised, hends, rfl⟩, hall⟩
    cases raised with
    | none =>
        obtain ⟨timed', hout', hu, hharmless⟩ := loopEnds_none_iff.mp hends
        cases heof.symm.trans hu
        exact ⟨timed', hout', heof, hharmless⟩
    | some e => cases hall _ ⟨u, some e, hends, rfl⟩
  · intro hread
    have hfinish : finish limit c t none = { killed := false, outcome := .returned } := by
      rw [finish, hexit, Bool.or_true, Timeline.verdict, if_pos hcode]
      rfl
    have hrun : RunEncode env limit c _ := ⟨t, none, loopEnds_none_iff.mpr hread, rfl⟩
    refine ⟨⟨_, hrun⟩, fun ending hending => ?_⟩
    rw [hending.unique hrun, hfinish]

/-- A state object. -/
def muxing : PyStr := '{' :: "\"State\":\"MUXING\"".toList ++ ['}']

/-- Decodes the state object; the callbacks raise, all of them. -/
def brokenCallbacks : LoopEnv where
  loads text :=
    if text = muxing then .ok (.obj [("State".toList, .str "MUXING".toList)])
    else .error (.jsonDecodeError "Expecting value: line 1 column 1 (char 0)".toList)
  onEta := true
  raises _ := some (.other "callback broken".toList)

/-- Prints the object and exits 0. -/
def tidy : Timeline := ⟨.ofList [(1, muxing ++ ['\n'])], some 2, some 2, 0, []⟩

theorem healthy_returns_tidy : Returns brokenCallbacks fiveSeconds tidy := by
  have hexit : tidy.exitedBy (2 + fiveSeconds.seconds) = true :=
    Timeline.exitedBy_iff.mpr ⟨2, rfl, by norm_num [fiveSeconds]⟩
  have hcallbacks : Ordinary brokenCallbacks := by
    intro _ _ h
    cases h
    rfl
  have hloads : ∀ text e, brokenCallbacks.loads text = .error e → ∃ msg, e = .jsonDecodeError msg := by
    intro text e h
    simp only [brokenCallbacks] at h
    split at h
    · cases h
    · cases h
      exact ⟨_, rfl⟩
  have hiff : Returns brokenCallbacks fiveSeconds tidy ↔ _ :=
    healthy_returns_iff hcallbacks (fun text e h => .inl (hloads text e h)) rfl rfl rfl hexit
  refine hiff.mpr fun text _ => ⟨fun h => ?_, fun msg h => ?_⟩
  · obtain ⟨_, he⟩ := hloads text _ h
    cases he
  · obtain ⟨_, he⟩ := hloads text _ h
    cases he

/-! ## An integer literal past the digit limit -/

/-- An object whose one value has 4301 digits. -/
def longMembers : PyStr := "\"a\":".toList ++ List.replicate 4301 '1'

def longText : PyStr := '{' :: longMembers ++ ['}']

def digitLimit : PyExc :=
  .valueError ("Exceeds the limit (4300 digits) for integer string conversion: value has 4301 "
    ++ "digits; use sys.set_int_max_str_digits() to increase the limit").toList

/-- The decoder on that object; it is given no other text. -/
def longEnv : LoopEnv where
  loads text :=
    if text = longText then .error digitLimit
    else .error (.jsonDecodeError "Expecting value: line 1 column 1 (char 0)".toList)
  onEta := true
  raises _ := none

theorem longEnv_documented : Documented longEnv.loads := by
  intro text e h
  simp only [longEnv] at h
  split at h
  · cases h
    exact .inr (.inr ⟨_, rfl⟩)
  · cases h
    exact .inl ⟨_, rfl⟩

theorem longMembers_neutral : Neutral longMembers := by
  have hkey : Neutral "\"a\"".toList := Neutral.string (.plain (by decide) (by decide) .nil)
  have hcolon : Neutral [':'] := .plain ⟨by decide, by decide, by decide⟩
  have hdigits : Neutral (List.replicate 4301 '1') := by
    refine .of_plain fun c hc => ?_
    rw [List.eq_of_mem_replicate hc]
    exact ⟨by decide, by decide, by decide⟩
  exact (hkey.append hcolon).append hdigits

/-- The line that child prints. -/
def longLine : PyStr := longText ++ ['\n']

/-- Prints the line and exits 0 a second later. -/
def longWinded : Timeline := ⟨.ofList [(1, longLine)], some 2, some 2, 0, []⟩

theorem longLine_raises : readLine longEnv .init longLine = .error digitLimit := by
  have hbrace : '}' ∈ longLine := by
    rw [longLine, longText]
    simp
  have hspans : Scan.start.spans longLine = [longText] := by
    have hnewline : Noise ['\n'] := by decide
    have htext : Scan.start.spans longText = [longText] ∧ Scan.start.after longText = .start := by
      rw [longText]
      exact ⟨longMembers_neutral.spans_object, longMembers_neutral.after_object⟩
    rw [longLine, Scan.spans_append, htext.1, htext.2, hnewline.spans]
    rfl
  have hloads : longEnv.loads longText = .error digitLimit := by
    simp only [longEnv, if_true]
  have hparse : parseProgressObjects longEnv.loads longLine = .error digitLimit := by
    rw [parseProgressObjects_eq, hspans, decodeSpans, decodeSpan, hloads]
    rfl
  have hbuffer : LoopState.init.buffer ++ longLine = longLine := List.nil_append _
  refine readLine_parse_error hbrace ?_
  rw [hbuffer]
  exact hparse

/-- The child is healthy, and `run_encode` kills it and raises what `json.loads` raised. -/
theorem healthy_long_integer :
    Ordinary longEnv ∧ Documented longEnv.loads ∧ longWinded.code = 0 ∧
      longWinded.exitedBy fiveSeconds.seconds = true ∧
      RunEncode longEnv fiveSeconds longWinded { killed := true, outcome := .raised digitLimit } ∧
      ¬ Returns longEnv fiveSeconds longWinded := by
  have hexit : longWinded.exitedBy fiveSeconds.seconds = true :=
    Timeline.exitedBy_iff.mpr ⟨2, rfl, by norm_num [fiveSeconds]⟩
  have hrunning : longWinded.exitedBy 1 = false := by
    rw [← Bool.not_eq_true, Timeline.exitedBy_iff]
    rintro ⟨_, ⟨⟩, h⟩
    norm_num at h
  have hrun : RunEncode longEnv fiveSeconds longWinded
      { killed := true, outcome := .raised digitLimit } := by
    refine ⟨1, some digitLimit, .raises (n := 0) rfl rfl longLine_raises, ?_⟩
    rw [finish, hrunning]
    rfl
  have hcallbacks : Ordinary longEnv := by
    intro _ _ h
    cases h
  refine ⟨hcallbacks, longEnv_documented, rfl, hexit, hrun, fun hreturns => ?_⟩
  cases hreturns.2 _ hrun

end HandBrakeEncoder.Runner
