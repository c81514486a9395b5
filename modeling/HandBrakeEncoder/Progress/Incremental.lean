/-
# `Progress.Incremental` — the loop against one parse of the whole

`run_encode` parses the buffer again at every line with a closing brace and clears
it after the first success.  One parse of the whole text goes on from wherever the
line ended; the loop goes on from the start of a scan.  The two agree as long as
a line on which an object ends leaves the scan at its start (`CleanBreaks`), and
if one does not, the text can be gone on with so that they differ.

    gather      the loop's lists of objects, one after another
    Agrees      they are the objects of one parse
    Completes   an object ends on this line
-/
import HandBrakeEncoder.Progress.Delivery
import HandBrakeEncoder.Lib.Lines
import HandBrakeEncoder.Lib.Modes

namespace HandBrakeEncoder.Progress

open Braces Lines

/-- One list of objects and then another; the first exception decides. -/
def joined (r r' : Except PyExc (List JDict)) : Except PyExc (List JDict) :=
  match r with
  | .error e => .error e
  | .ok objects =>
      match r' with
      | .error e => .error e
      | .ok more => .ok (objects ++ more)

/-- The `objects` of the loop, one list after another, from the given buffer on. -/
def gather (loads : JsonLoads) : PyStr → List PyStr → Except PyExc (List JDict)
  | _, [] => .ok []
  | buffer, line :: lines =>
      if '}' ∉ line then gather loads (buffer ++ line) lines
      else
        match parseProgressObjects loads (buffer ++ line) with
        | .error e => .error e
        | .ok [] =>
            gather loads (if maxBufferBytes < (buffer ++ line).length then [] else buffer ++ line) lines
        | .ok (obj :: objects) => joined (.ok (obj :: objects)) (gather loads [] lines)

/-- The loop over the lines of the text obtains what one parse of the text returns. -/
def Agrees (loads : JsonLoads) (text : PyStr) : Prop :=
  gather loads [] (lines text) = parseProgressObjects loads text

/-- An object ends on the line, and nothing before its end leaves the parse by an exception. -/
def Completes (loads : JsonLoads) (before line : PyStr) : Prop :=
  (∀ text ∈ Scan.start.spans (before ++ line), ¬ Fatal loads text) ∧
    ∃ text ∈ (Scan.start.after before).spans line, ∃ obj, loads text = .ok (.obj obj)

/-- Every line on which an object ends, the last line excepted, leaves the scan outside braces
and strings. -/
def CleanFrom (loads : JsonLoads) (before : PyStr) (ls : List PyStr) : Prop :=
  ∀ front line rest, ls = front ++ line :: rest → rest ≠ [] →
    Completes loads (before ++ front.flatten) line →
      (Scan.start.after (before ++ front.flatten ++ line)).mode = Mode.start

def CleanBreaks (loads : JsonLoads) (text : PyStr) : Prop := CleanFrom loads [] (lines text)

variable {loads : JsonLoads} {env : LoopEnv}

/-! ## Lists of objects -/

theorem joined_nil (r : Except PyExc (List JDict)) : joined (.ok []) r = r := by
  cases r with
  | error e => rfl
  | ok objects => rfl

theorem joined_nil_right (r : Except PyExc (List JDict)) : joined r (.ok []) = r := by
  cases r with
  | error e => rfl
  | ok objects => rw [joined, List.append_nil]

theorem joined_assoc (r r' r'' : Except PyExc (List JDict)) :
    joined (joined r r') r'' = joined r (joined r' r'') := by
  cases r with
  | error e => rfl
  | ok objects =>
      cases r' with
      | error e => rfl
      | ok objects' =>
          cases r'' with
          | error e => rfl
          | ok objects'' => exact congrArg Except.ok (List.append_assoc objects objects' objects'')

theorem joined_ok_injective {objects : List JDict} {r r' : Except PyExc (List JDict)}
    (h : joined (.ok objects) r = joined (.ok objects) r') : r = r' := by
  cases r with
  | error e =>
      cases r' with
      | error e' => exact h
      | ok more' => cases h
  | ok more =>
      cases r' with
      | error e' => cases h
      | ok more' => rw [List.append_cancel_left (Except.ok.inj h)]

theorem joined_eq_ok {r r' : Except PyExc (List JDict)} {objects : List JDict}
    (h : joined r r' = .ok objects) :
    ∃ found more, r = .ok found ∧ r' = .ok more ∧ objects = found ++ more := by
  cases r with
  | error e => cases h
  | ok found =>
      cases r' with
      | error e => cases h
      | ok more => exact ⟨found, more, rfl, rfl, (Except.ok.inj h).symm⟩

theorem decodeSpans_joined (texts : List PyStr) (found : List JDict) :
    decodeSpans loads found texts = joined (.ok found) (decodeSpans loads [] texts) := by
  induction texts generalizing found with
  | nil => exact (joined_nil_right _).symm
  | cons text texts ih =>
      rw [decodeSpans, decodeSpans]
      by_cases hfatal : Fatal loads text
      · obtain ⟨e, hspan, he, -⟩ := decodeSpan_fatal found hfatal
        obtain ⟨e', hspan', he', -⟩ := decodeSpan_fatal [] hfatal
        rw [he] at he'
        cases he'
        rw [hspan, hspan']
        rfl
      · rw [decodeSpan_harmless hfatal, decodeSpan_harmless hfatal]
        dsimp only
        rw [ih, ih ([] ++ (decoded loads text).toList), ← joined_assoc]
        rfl

/-- The spans of two stretches decode one stretch after the other. -/
theorem decodeSpans_both (a b : List PyStr) :
    decodeSpans loads [] (a ++ b) = joined (decodeSpans loads [] a) (decodeSpans loads [] b) := by
  rw [decodeSpans_append]
  cases decodeSpans loads [] a with
  | error e => rfl
  | ok objects => exact decodeSpans_joined b objects

/-- One parse of a text, cut anywhere. -/
theorem parse_append (a b : PyStr) :
    parseProgressObjects loads (a ++ b) =
      joined (parseProgressObjects loads a) (decodeSpans loads [] ((Scan.start.after a).spans b)) := by
  rw [parseProgressObjects_eq, parseProgressObjects_eq, Scan.spans_append, decodeSpans_both]

/-- Text without a closing brace adds nothing to what is found before it. -/
theorem parse_plain {b : PyStr} (hb : '}' ∉ b) (a : PyStr) :
    parseProgressObjects loads (a ++ b) = parseProgressObjects loads a := by
  rw [parse_append, Scan.spans_of_not_mem hb]
  exact joined_nil_right _

/-! ## The loop's lists -/

theorem retained_nothing {text : PyStr} (h : parseProgressObjects loads text = .ok []) :
    retained loads text = if maxBufferBytes < text.length then [] else text := by
  rw [parseProgressObjects_eq] at h
  have hnone := (decodeSpans_ok h).2.symm
  rw [retained]
  by_cases hlen : maxBufferBytes < text.length
  · rw [if_pos hlen, if_neg (fun hboth => absurd hboth.2 (Nat.not_le.mpr hlen))]
  · rw [if_neg hlen, if_pos ⟨hnone, Nat.not_lt.mp hlen⟩]

theorem retained_some {text : PyStr} {obj : JDict} {objects : List JDict}
    (h : parseProgressObjects loads text = .ok (obj :: objects)) : retained loads text = [] := by
  rw [parseProgressObjects_eq] at h
  have hsome := (decodeSpans_ok h).2
  rw [retained, ← hsome]
  exact if_neg (fun hboth => absurd hboth.1 (List.cons_ne_nil _ _))

/-- The lists compose along the lines. -/
theorem gather_append (buffer : PyStr) (ls ms : List PyStr) :
    gather loads buffer (ls ++ ms) =
      joined (gather loads buffer ls) (gather loads (kept loads buffer ls) ms) := by
  induction ls generalizing buffer with
  | nil => exact (joined_nil _).symm
  | cons l ls ih =>
      rw [List.cons_append, gather, gather, kept]
      by_cases hb : '}' ∉ l
      · rw [if_pos hb, if_pos hb, if_pos hb]
        exact ih (buffer ++ l)
      · rw [if_neg hb, if_neg hb, if_neg hb]
        cases hparse : parseProgressObjects loads (buffer ++ l) with
        | error e => rfl
        | ok objects =>
            cases objects with
            | nil =>
                rw [retained_nothing hparse]
                exact ih _
            | cons obj objects =>
                rw [retained_some hparse]
                dsimp only
                rw [ih [], joined_assoc]

/-! ### One line, then all of them -/

section Line
variable {buffer line : PyStr}

theorem gather_line_plain (hb : '}' ∉ line) : gather loads buffer [line] = .ok [] := by
  rw [gather, if_pos hb]
  rfl

theorem gather_line_parsed (hb : '}' ∈ line) :
    gather loads buffer [line] = parseProgressObjects loads (buffer ++ line) := by
  rw [gather, if_neg (not_not.mpr hb)]
  cases parseProgressObjects loads (buffer ++ line) with
  | error e => rfl
  | ok objects =>
      cases objects with
      | nil => rfl
      | cons obj objects => exact joined_nil_right _

/-- A line on which the loop obtains an object clears the buffer. -/
theorem kept_of_gather {objects : List JDict} (h : gather loads buffer [line] = .ok objects)
    (hne : objects ≠ []) : kept loads buffer [line] = [] := by
  by_cases hb : '}' ∈ line
  · rw [gather_line_parsed hb] at h
    obtain ⟨obj, found, rfl⟩ := List.exists_cons_of_ne_nil hne
    rw [kept_line_parsed hb, retained_some h]
  · rw [gather_line_plain hb] at h
    exact absurd (Except.ok.inj h).symm hne

/-- A line on which the loop is not left keeps the buffer free of objects. -/
theorem parse_kept_line {objects : List JDict} (h : parseProgressObjects loads buffer = .ok [])
    (hline : gather loads buffer [line] = .ok objects) :
    parseProgressObjects loads (kept loads buffer [line]) = .ok [] := by
  by_cases hb : '}' ∈ line
  · rw [gather_line_parsed hb] at hline
    rw [kept_line_parsed hb]
    cases objects with
    | nil =>
        rw [retained_nothing hline]
        split
        · rfl
        · exact hline
    | cons obj objects =>
        rw [retained_some hline]
        rfl
  · rw [kept_line_plain hb, parse_plain hb]
    exact h

theorem gather_line_reported (h : ∀ text ∈ handed loads buffer [line], ¬ Fatal loads text) :
    gather loads buffer [line] = .ok (reported loads buffer [line]) := by
  rw [reported]
  rw [handed] at h ⊢
  by_cases hb : '}' ∈ line
  · rw [if_neg (not_not.mpr hb), handed, List.append_nil] at h ⊢
    rw [gather_line_parsed hb, parseProgressObjects_eq, decodeSpans_harmless h, List.nil_append]
  · rw [gather_line_plain hb, if_pos hb]
    rfl

end Line

/-- What the loop reports is what it gathers. -/
theorem gather_reported {buffer : PyStr} {ls : List PyStr}
    (h : ∀ text ∈ handed loads buffer ls, ¬ Fatal loads text) :
    gather loads buffer ls = .ok (reported loads buffer ls) := by
  induction ls generalizing buffer with
  | nil => rfl
  | cons l ls ih =>
      rw [← List.singleton_append] at h ⊢
      rw [handed_append] at h
      rw [gather_append, reported_append,
        gather_line_reported (fun text htext => h text (List.mem_append_left _ htext)),
        ih (fun text htext => h text (List.mem_append_right _ htext))]
      rfl

theorem readLine_reports {st : LoopState} {line : PyStr} {objects : List JDict}
    (h : gather env.loads st.buffer [line] = .ok objects) :
    readLine env st line = (reportObjects env st.calls objects).map
      fun calls => ⟨kept env.loads st.buffer [line], calls⟩ := by
  by_cases hb : '}' ∈ line
  · rw [gather_line_parsed hb] at h
    simp only [readLine]
    rw [if_neg (not_not.mpr hb), kept_line_parsed hb, h]
    cases objects with
    | nil =>
        rw [retained_nothing h]
        by_cases hlen : maxBufferBytes < (st.buffer ++ line).length
        · simp only [if_pos hlen]
          rfl
        · simp only [if_neg hlen]
          rfl
    | cons obj objects =>
        rw [retained_some h]
        dsimp only
        cases reportObjects env st.calls (obj :: objects) with
        | error e => rfl
        | ok calls => rfl
  · rw [gather_line_plain hb] at h
    cases h
    rw [readLine_plain env st hb, kept_line_plain hb]
    rfl

theorem reportObjects_append (calls : List Callback) (objects objects' : List JDict) :
    reportObjects env calls (objects ++ objects') =
      (reportObjects env calls objects).bind fun calls' => reportObjects env calls' objects' := by
  induction objects generalizing calls with
  | nil => rfl
  | cons obj objects ih =>
      rw [List.cons_append, reportObjects, reportObjects]
      cases reportEta env calls obj with
      | error e => rfl
      | ok calls₁ =>
          dsimp only
          cases reportProgress env calls₁ obj with
          | error e => rfl
          | ok calls₂ => exact ih calls₂

/-- The callbacks the loop makes are those of the objects it obtains, in order. -/
theorem readLoop_reports {ls : List PyStr} {st : LoopState} {objects : List JDict}
    (h : gather env.loads st.buffer ls = .ok objects) :
    (readLoop env st ls).map LoopState.calls = reportObjects env st.calls objects := by
  induction ls generalizing st objects with
  | nil =>
      cases h
      rfl
  | cons l ls ih =>
      rw [← List.singleton_append, gather_append] at h
      obtain ⟨found, more, hfound, hmore, rfl⟩ := joined_eq_ok h
      rw [readLoop, readLine_reports hfound, reportObjects_append]
      cases reportObjects env st.calls found with
      | error e => rfl
      | ok calls => exact @ih ⟨kept env.loads st.buffer [l], calls⟩ more hmore

/-! ## Clean line breaks -/

/-- The loop, with this buffer after this text, stands where one parse of the text stands. -/
structure InStep (loads : JsonLoads) (before buffer : PyStr) : Prop where
  scan : Scan.start.after buffer = Scan.start.after before
  nothing : parseProgressObjects loads buffer = .ok []
  found : ∃ objects, parseProgressObjects loads before = .ok objects

section InStep
variable {before buffer line : PyStr}

theorem InStep.nil : InStep loads [] [] := ⟨rfl, rfl, [], rfl⟩

/-- Parsing the buffer with the next line is parsing that line where the text ended. -/
theorem InStep.parse (h : InStep loads before buffer) (line : PyStr) :
    parseProgressObjects loads (buffer ++ line) =
      decodeSpans loads [] ((Scan.start.after before).spans line) := by
  rw [parse_append, h.nothing, h.scan, joined_nil]

theorem InStep.found_append (h : InStep loads before buffer) {objects : List JDict}
    (hline : decodeSpans loads [] ((Scan.start.after before).spans line) = .ok objects) :
    ∃ objects', parseProgressObjects loads (before ++ line) = .ok objects' := by
  obtain ⟨found, hfound⟩ := h.found
  refine ⟨found ++ objects, ?_⟩
  rw [parse_append, hfound, hline]
  rfl

/-- A line that completes no object joins the buffer. -/
theorem InStep.extend (h : InStep loads before buffer)
    (hline : decodeSpans loads [] ((Scan.start.after before).spans line) = .ok []) :
    InStep loads (before ++ line) (buffer ++ line) where
  scan := by
    rw [Scan.after_append, Scan.after_append, h.scan]
  nothing := (h.parse line).trans hline
  found := h.found_append hline

/-- A line that ends with the scan at its start may clear the buffer. -/
theorem InStep.cleared (h : InStep loads before buffer) {objects : List JDict}
    (hline : decodeSpans loads [] ((Scan.start.after before).spans line) = .ok objects)
    (hmode : (Scan.start.after (before ++ line)).mode = Mode.start) :
    InStep loads (before ++ line) [] where
  scan := by
    rw [Scan.after_mode] at hmode
    exact (Scan.after_eq_start hmode).symm
  nothing := rfl
  found := h.found_append hline

theorem InStep.completes (h : InStep loads before buffer) {obj : JDict} {objects : List JDict}
    (hline : decodeSpans loads [] ((Scan.start.after before).spans line) = .ok (obj :: objects)) :
    Completes loads before line := by
  obtain ⟨found, hfound⟩ := h.found
  rw [parseProgressObjects_eq] at hfound
  constructor
  · intro text htext
    rw [Scan.spans_append] at htext
    rcases List.mem_append.mp htext with hmem | hmem
    · exact (decodeSpans_ok hfound).1 text hmem
    · exact (decodeSpans_ok hline).1 text hmem
  · have hobj : obj ∈ ((Scan.start.after before).spans line).filterMap (decoded loads) := by
      rw [← (decodeSpans_ok hline).2]
      exact List.mem_cons_self
    obtain ⟨text, htext, hdecoded⟩ := List.mem_filterMap.mp hobj
    exact ⟨text, htext, obj, decoded_eq_some.mp hdecoded⟩

theorem InStep.gather_line (h : InStep loads before buffer) :
    gather loads buffer [line] = decodeSpans loads [] ((Scan.start.after before).spans line) := by
  by_cases hb : '}' ∈ line
  · rw [gather_line_parsed hb, h.parse]
  · rw [gather_line_plain hb, Scan.spans_of_not_mem hb]
    rfl

/-- The step: within the cap, and ending at the start of the scan if an object ends on it, a line
keeps the loop in step. -/
theorem InStep.next (h : InStep loads before buffer) {objects : List JDict}
    (hline : decodeSpans loads [] ((Scan.start.after before).spans line) = .ok objects)
    (hlen : (buffer ++ line).length ≤ maxBufferBytes)
    (hclean : Completes loads before line → (Scan.start.after (before ++ line)).mode = Mode.start) :
    InStep loads (before ++ line) (kept loads buffer [line]) := by
  cases objects with
  | nil =>
      have hkept : kept loads buffer [line] = buffer ++ line := by
        by_cases hb : '}' ∈ line
        · rw [kept_line_parsed hb, retained_nothing ((h.parse line).trans hline),
            if_neg (Nat.not_lt.mpr hlen)]
        · exact kept_line_plain hb buffer
      rw [hkept]
      exact h.extend hline
  | cons obj objects =>
      rw [kept_of_gather (h.gather_line.trans hline) (List.cons_ne_nil _ _)]
      exact h.cleared hline (hclean (h.completes hline))

end InStep

/-- A line makes the buffer longer by itself at most. -/
theorem length_kept_line (loads : JsonLoads) (buffer line : PyStr) :
    (kept loads buffer [line]).length ≤ (buffer ++ line).length := by
  rcases @kept_line_cases loads buffer line with hkept | hkept
  · rw [hkept]
  · rw [hkept]
    exact Nat.zero_le _

theorem CleanFrom.tail {before line : PyStr} {ls : List PyStr}
    (h : CleanFrom loads before (line :: ls)) : CleanFrom loads (before ++ line) ls := by
  intro front line' rest hls hne hcompletes
  have hsplit : before ++ line ++ front.flatten = before ++ (line :: front).flatten := by
    rw [List.flatten_cons, List.append_assoc]
  rw [hsplit] at hcompletes ⊢
  exact h (line :: front) line' rest (by rw [hls]; rfl) hne hcompletes

/-- Over clean line breaks the loop stays in step, clearing or not.  The cap is never reached
before the last line. -/
theorem gather_clean {ls : List PyStr} {before buffer : PyStr} (hstep : InStep loads before buffer)
    (hclean : CleanFrom loads before ls)
    (hlen : (buffer ++ ls.dropLast.flatten).length ≤ maxBufferBytes) :
    gather loads buffer ls = decodeSpans loads [] ((Scan.start.after before).spans ls.flatten) := by
  induction ls generalizing before buffer with
  | nil => rfl
  | cons line ls ih =>
      rw [← List.singleton_append, gather_append, hstep.gather_line, List.flatten_append,
        List.flatten_singleton, Scan.spans_append, decodeSpans_both, ← Scan.after_append]
      cases hline : decodeSpans loads [] ((Scan.start.after before).spans line) with
      | error e => rfl
      | ok objects =>
          by_cases hls : ls = []
          · rw [hls]
            rfl
          · have hkept := length_kept_line loads buffer line
            rw [List.dropLast_cons_of_ne_nil hls, List.flatten_cons] at hlen
            simp only [List.length_append] at hlen hkept
            have hnext : InStep loads (before ++ line) (kept loads buffer [line]) := by
              refine hstep.next hline ?_ ?_
              · rw [List.length_append]
                omega
              · intro hcompletes
                have hmode := hclean [] line ls rfl hls
                rw [List.flatten_nil, List.append_nil] at hmode
                exact hmode hcompletes
            rw [ih hnext hclean.tail]
            rw [List.length_append]
            omega

/-- Lines with clean breaks give the loop what one parse of them gives. -/
theorem gather_parse {ls : List PyStr} (hclean : CleanFrom loads [] ls)
    (hlen : ls.dropLast.flatten.length ≤ maxBufferBytes) :
    gather loads [] ls = parseProgressObjects loads ls.flatten := by
  rw [parseProgressObjects_eq]
  exact gather_clean InStep.nil hclean hlen

theorem CleanFrom.front {before : PyStr} {front more : List PyStr}
    (h : CleanFrom loads before (front ++ more)) : CleanFrom loads before front := by
  intro front' line rest hfront hne hcompletes
  refine h front' line (rest ++ more) ?_ (List.append_ne_nil_of_left_ne_nil hne _) hcompletes
  rw [hfront, List.append_assoc]
  rfl

/-- A cut short of the last line leaves that line behind it. -/
theorem split_snoc {ls front rest : List PyStr} {line last : PyStr}
    (h : ls ++ [last] = front ++ line :: rest) (hne : rest ≠ []) :
    ∃ init, rest = init ++ [last] ∧ ls = front ++ line :: init := by
  obtain ⟨init, last', rfl⟩ := List.eq_nil_or_concat rest |>.resolve_left hne
  rw [List.concat_eq_append, ← List.cons_append, ← List.append_assoc] at h
  obtain ⟨hls, hlast⟩ := List.append_inj' h rfl
  rw [List.concat_eq_append, List.singleton_inj.mp hlast]
  exact ⟨init, rfl, hls⟩

/-- The last line is free, so it may be exchanged for another. -/
theorem CleanFrom.exchange {before : PyStr} {front more : List PyStr} (hmore : more ≠ [])
    (h : CleanFrom loads before (front ++ more)) (last : PyStr) :
    CleanFrom loads before (front ++ [last]) := by
  intro front' line rest hsplit hne hcompletes
  obtain ⟨init, rfl, hfront⟩ := split_snoc hsplit hne
  refine h front' line (init ++ more) ?_ (List.append_ne_nil_of_right_ne_nil _ hmore) hcompletes
  rw [hfront, List.append_assoc, List.cons_append]

/-! ## Breaks that are not clean -/

/-- The shortest object, on a line of its own. -/
def probe : PyStr := ['{', '}', '\n']

/-- It is a span only where the scan is at its start. -/
theorem probe_spans {s : Scan} (hs : s.mode.Sound) (h : s.spans probe ≠ []) :
    s.mode = Mode.start := by
  obtain ⟨⟨d, q, x⟩, pending⟩ := s
  cases q with
  | true =>
      exfalso
      apply h
      cases x <;> simp [probe, Scan.out, Scan.step, Mode.closes, Mode.next]
  | false =>
      cases x with
      | true => exact absurd (hs rfl) Bool.false_ne_true
      | false =>
          cases d with
          | zero => rfl
          | succ d =>
              exfalso
              apply h
              simp [probe, Scan.out, Scan.step, Mode.closes, Mode.next]

theorem parse_probe (hempty : loads ['{', '}'] = .ok (.obj [])) :
    parseProgressObjects loads probe = .ok [[]] := by
  have hspans : Scan.start.spans probe = [['{', '}']] := by decide
  rw [parseProgressObjects_eq, hspans, decodeSpans, decodeSpan, hempty]
  rfl

theorem gather_probe (hempty : loads ['{', '}'] = .ok (.obj [])) :
    gather loads [] [probe] = .ok [[]] := by
  have hb : '}' ∈ probe := by decide
  rw [gather_line_parsed hb, List.nil_append, parse_probe hempty]

/-- The objects completed on a line, as one parse finds them. -/
theorem Completes.objects {before line : PyStr} (h : Completes loads before line) :
    ∃ found objects, parseProgressObjects loads before = .ok found ∧ objects ≠ [] ∧
      decodeSpans loads [] ((Scan.start.after before).spans line) = .ok objects := by
  obtain ⟨hharmless, text, htext, obj, hobj⟩ := h
  rw [Scan.spans_append] at hharmless
  have hbefore := decodeSpans_harmless (fun t ht => hharmless t (List.mem_append_left _ ht)) []
  have hline := decodeSpans_harmless (fun t ht => hharmless t (List.mem_append_right _ ht)) []
  rw [← parseProgressObjects_eq] at hbefore
  refine ⟨_, _, hbefore, ?_, hline⟩
  exact List.ne_nil_of_mem (List.mem_filterMap.mpr ⟨text, htext, decoded_eq_some.mpr hobj⟩)

/-- Where the loop agrees with one parse up to a line on which an object ends, and up to the probe
put after that line, the line leaves the scan at its start. -/
theorem mode_of_gather {front : List PyStr} {line : PyStr}
    (hempty : loads ['{', '}'] = .ok (.obj [])) (hcompletes : Completes loads front.flatten line)
    (hfront : gather loads [] front = parseProgressObjects loads front.flatten)
    (hline : gather loads [] (front ++ [line]) = parseProgressObjects loads (front.flatten ++ line))
    (hprobe : gather loads [] (front ++ [line] ++ [probe]) =
      parseProgressObjects loads (front.flatten ++ line ++ probe)) :
    (Scan.start.after (front.flatten ++ line)).mode = Mode.start := by
  obtain ⟨found, objects, hfound, hne, hobjects⟩ := hcompletes.objects
  have hlast : gather loads (kept loads [] front) [line] = .ok objects := by
    rw [gather_append, hfront, parse_append, hfound, hobjects] at hline
    exact joined_ok_injective hline
  have hbuffer : kept loads [] (front ++ [line]) = [] := by
    rw [kept_append]
    exact kept_of_gather hlast hne
  have hmore : decodeSpans loads [] ((Scan.start.after (front.flatten ++ line)).spans probe) =
      .ok [[]] := by
    rw [gather_append, hline, hbuffer, gather_probe hempty, parse_append (front.flatten ++ line),
      parse_append, hfound, hobjects] at hprobe
    exact (joined_ok_injective hprobe).symm
  apply probe_spans
  · rw [Scan.after_mode]
    exact Mode.sound_start.run _
  · intro hnil
    rw [hnil] at hmore
    cases hmore

/-- The loop agrees with one parse of the text, of each run of its first lines, and of each of
these with the probe in place of what follows, exactly if every line on which an object ends
leaves the scan outside braces and strings. -/
theorem incremental_iff {text : PyStr} (hempty : loads ['{', '}'] = .ok (.obj []))
    (hlen : text.length ≤ maxBufferBytes) :
    (∀ front, front <+: lines text → Agrees loads front.flatten ∧
      (front ≠ lines text → Agrees loads (front.flatten ++ probe))) ↔ CleanBreaks loads text := by
  constructor
  · intro h front line rest hlines hne hcompletes
    rw [List.nil_append] at hcompletes ⊢
    have hfront : front <+: lines text := ⟨line :: rest, hlines.symm⟩
    have hsplit : lines text = front ++ [line] ++ rest := by
      rw [hlines, List.append_assoc]
      rfl
    have hline : front ++ [line] <+: lines text := ⟨rest, hsplit.symm⟩
    have hproper : front ++ [line] ≠ lines text := by
      intro he
      rw [hsplit] at he
      exact hne (List.self_eq_append_right.mp he)
    have hflatten : (front ++ [line]).flatten = front.flatten ++ line := by
      rw [List.flatten_append, List.flatten_singleton]
    have h₁ := (h front hfront).1
    have h₂ := (h (front ++ [line]) hline).1
    have h₃ := (h (front ++ [line]) hline).2 hproper
    rw [Agrees, lines_prefix hfront] at h₁
    rw [Agrees, lines_prefix hline, hflatten] at h₂
    rw [Agrees, lines_front hsplit hne, hflatten] at h₃
    exact mode_of_gather hempty hcompletes h₁ h₂ h₃
  · intro hclean front hfront
    obtain ⟨more, hmore⟩ := hfront
    have hshort : front.flatten.length ≤ maxBufferBytes := by
      have hcut := congrArg List.length (lines_cut hmore.symm)
      rw [List.length_append] at hcut
      omega
    rw [CleanBreaks, ← hmore] at hclean
    constructor
    · rw [Agrees, lines_prefix ⟨more, hmore⟩]
      exact gather_parse hclean.front (Nat.le_trans (length_dropLast_flatten front) hshort)
    · intro hne
      have hrest : more ≠ [] := by
        rintro rfl
        exact hne (by rw [← hmore, List.append_nil])
      rw [Agrees, lines_front hmore.symm hrest,
        show lines probe = [probe] from lines_terminated (t := ['{', '}']) (by decide)]
      have hparse := gather_parse (hclean.exchange hrest probe) (by
        rw [List.dropLast_concat]
        exact hshort)
      rwa [List.flatten_append, List.flatten_singleton] at hparse

/-! ## An object begun on the line of another -/

/-- A decoder of empty objects. -/
def emptyObjects : JsonLoads := fun text =>
  if text = ['{', '}'] ∨ text = ['{', '\n', '}'] then .ok (.obj []) else .error (.jsonDecodeError [])

/-- Two objects, the second begun where the first ends. -/
def sharedLine : PyStr := ['{', '}', ' ', '{', '\n', '}', '\n']

/-- The characterisation at that text. -/
theorem incremental_iff_sharedLine :
    (∀ front, front <+: lines sharedLine → Agrees emptyObjects front.flatten ∧
      (front ≠ lines sharedLine → Agrees emptyObjects (front.flatten ++ probe))) ↔
        CleanBreaks emptyObjects sharedLine :=
  incremental_iff rfl (by decide)

/-- The loop clears the buffer with the second object begun, and one parse finds both. -/
theorem not_incremental :
    ¬ ∀ (loads : JsonLoads) (text : PyStr), text.length ≤ maxBufferBytes → Agrees loads text := by
  intro h
  have hagrees := h emptyObjects sharedLine (by decide)
  have hloop : gather emptyObjects [] (lines sharedLine) = .ok [[]] := rfl
  have hparse : parseProgressObjects emptyObjects sharedLine = .ok [[], []] := rfl
  rw [Agrees, hloop, hparse] at hagrees
  cases hagrees

end HandBrakeEncoder.Progress
