/-
# `Progress.Recovery` — after poisoned output

Whatever was on stdout before, the loop finds its way back to the records that
follow.  A buffer the scan cannot get out of is past the cap at some line of some
record and is dropped there, or is cleared by an accidental parse.  What is left of
that record is scanned from the start at a line break, outside every string, and so
no deeper than the record itself would be scanned there; the record ends at depth
zero, hence so does what is left of it (`after_rest`).

## The argument

    Undecoded B   no object is found in the buffer            every line keeps it       (`Undecoded.through`)
    Recovered B   moreover the scan is at its start and B short
                  a record from there is delivered, and clears the buffer               (`Recovered.record`)
    a record from anywhere: recovered after it, or B has grown by it and is within the cap   (`Undecoded.record`)

Records longer than the cap together cannot all have joined the buffer.
-/
import HandBrakeEncoder.Progress.Exact
import HandBrakeEncoder.Progress.Incremental
import HandBrakeEncoder.Lib.JsonText

namespace HandBrakeEncoder.Progress

open Braces Lines JsonText

/-- `json.loads` raises `JSONDecodeError` or nothing. -/
def OnlyDecodeErrors (loads : JsonLoads) : Prop :=
  ∀ text e, loads text = .error e → ∃ msg, e = .jsonDecodeError msg

/-- The text of an object after a label, and the object. -/
structure Labelled where
  label : PyStr
  text : PyStr
  obj : JDict
  plain : ∀ c ∈ label, Plain c
  object : ObjectText text

/-- The record with its newline. -/
def Labelled.line (r : Labelled) : PyStr := r.label ++ r.text ++ ['\n']

/-- The decoder returns the object, and the record is at most half the cap. -/
structure Labelled.Valid (loads : JsonLoads) (r : Labelled) : Prop where
  loads : loads r.text = .ok (.obj r.obj)
  short : 2 * r.line.length ≤ maxBufferBytes

/-- Records one after another. -/
def stream (records : List Labelled) : PyStr := (records.map Labelled.line).flatten

variable {env : LoopEnv} {loads : JsonLoads}

theorem OnlyDecodeErrors.not_fatal (h : OnlyDecodeErrors loads) (text : PyStr) : ¬ Fatal loads text := by
  rintro ⟨e, he, hnot⟩
  obtain ⟨msg, rfl⟩ := h text e he
  exact hnot msg rfl

/-- Such a decoder never makes the loop raise. -/
theorem OnlyDecodeErrors.gather (h : OnlyDecodeErrors loads) (buffer : PyStr) (ls : List PyStr) :
    ∃ objects, gather loads buffer ls = .ok objects :=
  ⟨_, gather_reported fun text _ => h.not_fatal text⟩

/-! ## A record and its lines -/

section Record
variable (r : Labelled)

theorem Labelled.label_noise : Noise r.label :=
  fun c hc => ⟨(r.plain c hc).2.1, (r.plain c hc).1⟩

theorem Labelled.spans : Scan.start.spans r.line = [r.text] := by
  have hnewline : Noise ['\n'] := by decide
  rw [Labelled.line, Scan.spans_append, Scan.spans_append, Scan.after_append, r.label_noise.spans,
    r.label_noise.after, r.object.spans, r.object.after, hnewline.spans]
  rfl

theorem Labelled.after : Scan.start.after r.line = Scan.start := by
  have hnewline : Noise ['\n'] := by decide
  rw [Labelled.line, Scan.after_append, Scan.after_append, r.label_noise.after, r.object.after,
    hnewline.after]

theorem Labelled.oneLine : OnOneLine r.line := by
  have hlabel : OnOneLine r.label := Strung.of_not_mem fun hq => (r.plain _ hq).1 rfl
  exact (hlabel.append r.object.strung).append (.plain (by decide) .nil)

/-- The object ends on the record's last line, and nothing ends before it. -/
theorem Labelled.cut : ∃ ls last, lines r.line = ls ++ [last] ∧ '}' ∈ last ∧
    Scan.start.spans ls.flatten = [] := by
  obtain ⟨front, htext, hfront⟩ := r.object.split
  have hlast : lines ['}', '\n'] = [['}', '\n']] := rfl
  obtain ⟨ls, x, hls, hx⟩ := lines_snoc hlast (r.label ++ front)
  refine ⟨ls, x ++ ['}', '\n'], ?_, List.mem_append_right _ List.mem_cons_self, ?_⟩
  · rw [← hls, Labelled.line, htext]
    simp only [List.append_assoc, List.cons_append, List.nil_append]
  · have hopen : Scan.start.spans (r.label ++ front) = [] := by
      rw [Scan.spans_append, r.label_noise.spans, r.label_noise.after, hfront]
      rfl
    rw [← hx] at hopen
    exact Scan.spans_prefix hopen

/-- Whatever of a record is left after a line break, a scan of it ends at its start. -/
theorem Labelled.after_rest {front rest : List PyStr} (h : lines r.line = front ++ rest)
    (hne : front ≠ []) : Scan.start.after rest.flatten = Scan.start := by
  by_cases hrest : rest = []
  · rw [hrest]
    rfl
  · obtain ⟨x, hx⟩ := lines_break h hne hrest
    have hline : r.line = front.flatten ++ rest.flatten := lines_cut h
    have hstrung : OnOneLine x := by
      refine Strung.before (x := '\n') (r := rest.flatten) (by decide) (fun _ hb => hb) r.oneLine ?_
      rw [hline, hx, List.append_assoc]
      rfl
    -- at the break the record itself is outside strings, at some depth
    have hbreak : (Mode.start.run front.flatten).Unquoted := by
      rw [hx, Mode.run_append]
      exact (Mode.unquoted_start.run hstrung).next (by decide)
    have hbelow : Mode.start.Below (Mode.start.run front.flatten) :=
      ⟨hbreak.inString.symm, hbreak.escaped.symm, Nat.zero_le _⟩
    have hend : (Mode.start.run front.flatten).run rest.flatten = Mode.start := by
      have hmode := Scan.after_mode Scan.start r.line
      rw [r.after] at hmode
      rw [← Mode.run_append, ← hline]
      exact hmode.symm
    have hle := hbelow.run rest.flatten
    rw [hend] at hle
    exact Scan.after_eq_start hle.eq_start

end Record

/-! ## The buffer -/

/-- No object is found in the buffer. -/
def Undecoded (loads : JsonLoads) (buffer : PyStr) : Prop :=
  parseProgressObjects loads buffer = .ok []

/-- The buffer leaves the scan at its start, and room for a record. -/
structure Recovered (loads : JsonLoads) (buffer : PyStr) : Prop where
  undecoded : Undecoded loads buffer
  start : Scan.start.after buffer = Scan.start
  short : 2 * buffer.length ≤ maxBufferBytes

theorem Recovered.nil : Recovered loads [] := ⟨rfl, rfl, Nat.zero_le _⟩

/-- Whatever lines come, what is retained holds no object. -/
theorem Undecoded.through {buffer : PyStr} (hloads : OnlyDecodeErrors loads)
    (h : Undecoded loads buffer) (ls : List PyStr) : Undecoded loads (kept loads buffer ls) := by
  induction ls generalizing buffer with
  | nil => exact h
  | cons l ls ih =>
      rw [← List.singleton_append, kept_append]
      obtain ⟨objects, hobjects⟩ := hloads.gather buffer [l]
      exact ih (parse_kept_line h hobjects)

/-- What is retained is the buffer and all the lines, or what is left of the lines at a cut
between two of them. -/
theorem kept_cases (buffer : PyStr) (ls : List PyStr) :
    kept loads buffer ls = buffer ++ ls.flatten ∨
      ∃ front rest, ls = front ++ rest ∧ front ≠ [] ∧ kept loads buffer ls = rest.flatten := by
  induction ls generalizing buffer with
  | nil => exact .inl (List.append_nil buffer).symm
  | cons l ls ih =>
      -- the buffer after the line is the whole, or nothing
      have hline : kept loads buffer (l :: ls) = kept loads (buffer ++ l) ls ∨
          kept loads buffer (l :: ls) = kept loads [] ls := by
        rw [← List.singleton_append, kept_append]
        exact (kept_line_cases buffer l).imp (congrArg (kept loads · ls)) (congrArg (kept loads · ls))
      rcases hline with hkept | hkept
      · rw [hkept, List.flatten_cons, ← List.append_assoc]
        refine (ih (buffer ++ l)).imp_right ?_
        rintro ⟨front, rest, rfl, -, hrest⟩
        exact ⟨l :: front, rest, rfl, List.cons_ne_nil _ _, hrest⟩
      · rw [hkept]
        rcases ih [] with hall | ⟨front, rest, rfl, -, hrest⟩
        · exact .inr ⟨[l], ls, rfl, List.cons_ne_nil _ _, hall⟩
        · exact .inr ⟨l :: front, rest, rfl, List.cons_ne_nil _ _, hrest⟩

/-- After a line with a closing brace the buffer is within the cap. -/
theorem length_kept_snoc {last : PyStr} (hb : '}' ∈ last) (buffer : PyStr) (ls : List PyStr) :
    (kept loads buffer (ls ++ [last])).length ≤ maxBufferBytes := by
  rw [kept_append, kept_line_parsed hb]
  exact length_retained _

/-! ## One record -/

/-- Where nothing ends before the last line, no line break matters. -/
theorem Recovered.start_clean {buffer : PyStr} (h : Recovered loads buffer) {ls : List PyStr}
    (hnone : Scan.start.spans ls.flatten = []) (last : PyStr) :
    CleanFrom loads buffer (ls ++ [last]) := by
  intro front line rest hsplit hne hcompletes
  obtain ⟨init, -, hfront⟩ := split_snoc hsplit hne
  obtain ⟨-, text, htext, -⟩ := hcompletes
  rw [hfront, List.flatten_append, List.flatten_cons, ← List.append_assoc] at hnone
  have hline := Scan.spans_prefix hnone
  rw [Scan.spans_append] at hline
  rw [Scan.after_append, h.start, (List.append_eq_nil_iff.mp hline).2] at htext
  exact absurd htext List.not_mem_nil

/-- From a recovered buffer a record is delivered, and clears it. -/
theorem Recovered.record {buffer : PyStr} (h : Recovered loads buffer) {r : Labelled}
    (hr : r.Valid loads) :
    gather loads buffer (lines r.line) = .ok [r.obj] ∧ kept loads buffer (lines r.line) = [] := by
  obtain ⟨ls, last, hlines, hb, hnone⟩ := r.cut
  have hstep : InStep loads buffer buffer := ⟨rfl, h.undecoded, [], h.undecoded⟩
  have hflatten : ls.flatten ++ last = r.line := by
    rw [lines_cut hlines, List.flatten_singleton]
  have hclean := h.start_clean hnone last
  have hlen : (buffer ++ ls.flatten).length ≤ maxBufferBytes := by
    have hcut := congrArg List.length hflatten
    have hbuffer := h.short
    have hshort := hr.short
    rw [List.length_append] at hcut ⊢
    omega
  have hobj : gather loads buffer (ls ++ [last]) = .ok [r.obj] := by
    rw [gather_clean hstep hclean (by rw [List.dropLast_concat]; exact hlen),
      List.flatten_append, List.flatten_singleton, hflatten, h.start, r.spans, decodeSpans,
      decodeSpan, hr.loads]
    rfl
  have hfirst : gather loads buffer ls = .ok [] := by
    rw [gather_clean hstep hclean.front ?_, h.start, hnone]
    · rfl
    · have hdrop := length_dropLast_flatten ls
      rw [List.length_append] at hlen ⊢
      omega
  have hlast : gather loads (kept loads buffer ls) [last] = .ok [r.obj] := by
    rw [gather_append, hfirst, joined_nil] at hobj
    exact hobj
  rw [hlines]
  refine ⟨hobj, ?_⟩
  rw [kept_append]
  exact kept_of_gather hlast (List.cons_ne_nil _ _)

/-- After a record the loop has recovered, or the buffer has grown by the record and is within
the cap. -/
theorem Undecoded.record {buffer : PyStr} (hloads : OnlyDecodeErrors loads)
    (h : Undecoded loads buffer) {r : Labelled} (hr : r.Valid loads) :
    Recovered loads (kept loads buffer (lines r.line)) ∨
      (kept loads buffer (lines r.line) = buffer ++ r.line ∧
        (buffer ++ r.line).length ≤ maxBufferBytes) := by
  have hundecoded := h.through hloads (lines r.line)
  rcases @kept_cases loads buffer (lines r.line) with hall | ⟨front, rest, hsplit, hne, hrest⟩
  · rw [lines_flatten] at hall
    refine .inr ⟨hall, ?_⟩
    obtain ⟨ls, last, hlines, hb, -⟩ := r.cut
    rw [← hall, hlines]
    exact length_kept_snoc hb buffer ls
  · rw [hrest] at hundecoded ⊢
    refine .inl ⟨hundecoded, r.after_rest hsplit hne, ?_⟩
    have hcut := congrArg List.length (lines_cut hsplit)
    have hshort := hr.short
    rw [List.length_append] at hcut
    omega

/-! ## Many records -/

theorem stream_cons (r : Labelled) (records : List Labelled) :
    stream (r :: records) = r.line ++ stream records := rfl

theorem stream_append (records records' : List Labelled) :
    stream (records ++ records') = stream records ++ stream records' := by
  rw [stream, List.map_append, List.flatten_append]
  rfl

/-- A record ends with its newline, so what follows it starts on a line of its own. -/
theorem lines_stream_cons (r : Labelled) (text : PyStr) :
    lines (r.line ++ text) = lines r.line ++ lines text := by
  rw [Labelled.line, List.append_assoc, List.singleton_append]
  exact lines_append _ _

theorem lines_stream_append (records : List Labelled) (text : PyStr) :
    lines (stream records ++ text) = lines (stream records) ++ lines text := by
  induction records with
  | nil => rfl
  | cons r records ih =>
      rw [stream_cons, List.append_assoc, lines_stream_cons, ih, lines_stream_cons, List.append_assoc]

/-- From a recovered buffer every record is delivered, in order, and nothing else. -/
theorem Recovered.records {buffer : PyStr} (h : Recovered loads buffer) {records : List Labelled}
    (hvalid : ∀ r ∈ records, r.Valid loads) :
    gather loads buffer (lines (stream records)) = .ok (records.map Labelled.obj) ∧
      Recovered loads (kept loads buffer (lines (stream records))) := by
  induction records generalizing buffer with
  | nil => exact ⟨rfl, h⟩
  | cons r records ih =>
      obtain ⟨hobj, hcleared⟩ := h.record (hvalid r List.mem_cons_self)
      obtain ⟨hrest, hrecovered⟩ :=
        ih Recovered.nil (fun r' hr' => hvalid r' (List.mem_cons_of_mem _ hr'))
      rw [stream_cons, lines_stream_cons, gather_append, kept_append, hobj, hcleared, hrest]
      exact ⟨rfl, hrecovered⟩

/-- From any buffer without an object: recovered after the records, or grown by all of them and
within the cap. -/
theorem Undecoded.records {buffer : PyStr} (hloads : OnlyDecodeErrors loads)
    (h : Undecoded loads buffer) {records : List Labelled} (hvalid : ∀ r ∈ records, r.Valid loads) :
    Recovered loads (kept loads buffer (lines (stream records))) ∨
      (kept loads buffer (lines (stream records)) = buffer ++ stream records ∧
        (records ≠ [] → (buffer ++ stream records).length ≤ maxBufferBytes)) := by
  induction records generalizing buffer with
  | nil => exact .inr ⟨(List.append_nil buffer).symm, fun hne => absurd rfl hne⟩
  | cons r records ih =>
      have hrest : ∀ r' ∈ records, r'.Valid loads := fun r' hr' => hvalid r' (List.mem_cons_of_mem _ hr')
      rw [stream_cons, lines_stream_cons, kept_append, ← List.append_assoc]
      rcases h.record hloads (hvalid r List.mem_cons_self) with hrecovered | ⟨hgrown, hlen⟩
      · exact .inl (hrecovered.records hrest).2
      · have hundecoded := h.through hloads (lines r.line)
        rw [hgrown] at hundecoded ⊢
        rcases ih hundecoded hrest with hrecovered | ⟨hkept, hcap⟩
        · exact .inl hrecovered
        · refine .inr ⟨hkept, fun _ => ?_⟩
          by_cases hnil : records = []
          · rw [hnil, show stream ([] : List Labelled) = [] from rfl, List.append_nil]
            exact hlen
          · exact hcap hnil

/-- After any lines, and records longer than the cap together, the loop has recovered. -/
theorem recovered_after (hloads : OnlyDecodeErrors loads) (pre : List PyStr) {records : List Labelled}
    (hvalid : ∀ r ∈ records, r.Valid loads) (hlong : maxBufferBytes < (stream records).length) :
    Recovered loads (kept loads [] (pre ++ lines (stream records))) := by
  have hpre : Undecoded loads (kept loads [] pre) := Recovered.nil.undecoded.through hloads pre
  rw [kept_append]
  rcases hpre.records hloads hvalid with hrecovered | ⟨-, hcap⟩
  · exact hrecovered
  · exfalso
    have hne : records ≠ [] := by
      rintro rfl
      exact absurd hlong (Nat.not_lt_zero _)
    have hle := hcap hne
    rw [List.length_append] at hle
    omega

/-- Over the lines and all the records, the loop delivers what it delivers over the lines and the
first records, and then the later records, each once, in order and with nothing between them.
It is left before that only by an exception of a callback outside `Exception`. -/
def DeliversLater (env : LoopEnv) (pre : List PyStr) (first later : List Labelled) : Prop :=
  match readLoop env .init (pre ++ lines (stream first)) with
  | .ok st => (readLoop env .init (pre ++ lines (stream (first ++ later)))).map LoopState.calls =
      reportObjects env st.calls (later.map Labelled.obj)
  | .error e => e.isException = false

/-- Whatever lines came before, once records longer than the cap together have been read, the
later records are delivered. -/
theorem recovery (hloads : OnlyDecodeErrors env.loads) (pre : List PyStr)
    {first later : List Labelled} (hfirst : ∀ r ∈ first, r.Valid env.loads)
    (hlater : ∀ r ∈ later, r.Valid env.loads) (hlong : maxBufferBytes < (stream first).length) :
    DeliversLater env pre first later := by
  rw [DeliversLater]
  cases hrun : readLoop env .init (pre ++ lines (stream first)) with
  | ok st =>
      have hbuffer : st.buffer = kept env.loads [] (pre ++ lines (stream first)) :=
        (readLoop_delivers hrun).1
      have hrecovered := recovered_after hloads pre hfirst hlong
      rw [← hbuffer] at hrecovered
      dsimp only
      rw [stream_append, lines_stream_append, ← List.append_assoc, readLoop_append hrun]
      exact readLoop_reports (hrecovered.records hlater).1
  | error e =>
      obtain ⟨objects, hobjects⟩ := hloads.gather [] (pre ++ lines (stream first))
      have hreports := @readLoop_reports env _ .init _ hobjects
      rw [hrun] at hreports
      obtain ⟨msg, rfl⟩ := reportObjects_error hreports.symm
      rfl

/-! ## Three records of half the cap -/

/-- An object with a `Progress` after `n` characters. -/
def progressAfter (n : Nat) : Labelled where
  label := List.replicate n 'x'
  text := progressText
  obj := progressObj
  plain := by
    intro c hc
    rw [List.eq_of_mem_replicate hc]
    decide
  object := progressText_object

theorem length_progressAfter (n : Nat) : (progressAfter n).line.length = n + 32 := by
  rw [Labelled.line, List.length_append, List.length_append, progressAfter, List.length_replicate]
  rfl

theorem progressAfter_valid {n : Nat} (h : 2 * (n + 32) ≤ maxBufferBytes) :
    (progressAfter n).Valid pairEnv.loads where
  loads := rfl
  short := by
    rw [length_progressAfter]
    exact h

/-- A label that makes the record half the cap. -/
def longLabel : Nat := maxBufferBytes / 2 - 32

/-- An open brace and an open string, then three records of half the cap each, then one more, whose
progress is reported. -/
theorem recovery_three_halves :
    DeliversLater pairEnv [['{', '"', '\n']] (List.replicate 3 (progressAfter longLabel))
        [progressAfter 0] ∧
      ∀ calls, reportObjects pairEnv calls ([progressAfter 0].map Labelled.obj)
        = .ok (calls ++ [.onProgress (.finite (8162774324609023 / 2 ^ 48))]) := by
  have hloads : OnlyDecodeErrors pairEnv.loads := by
    intro text e he
    simp only [pairEnv, nestedEnv] at he
    split at he
    · cases he
    · split at he
      · cases he
      · cases he
        exact ⟨[], rfl⟩
  have hcalls : expectedCalls progressObj
      = [.onProgress (.finite (8162774324609023 / 2 ^ 48))] := by
    decide +kernel
  refine ⟨@recovery pairEnv hloads _ _ _ ?_ ?_ ?_, fun calls => ?_⟩
  · intro r hr
    rw [List.eq_of_mem_replicate hr]
    exact progressAfter_valid (by decide)
  · intro r hr
    rw [List.mem_singleton.mp hr]
    exact progressAfter_valid (by decide)
  · have hlength : ∀ n, (stream (List.replicate 3 (progressAfter n))).length = 3 * (n + 32) := by
      intro n
      simp only [List.replicate, stream_cons, List.length_append, length_progressAfter]
      show (n + 32) + ((n + 32) + ((n + 32) + 0)) = 3 * (n + 32)
      omega
    rw [hlength]
    decide
  · rw [← hcalls]
    exact reportObjects_single (fun i e h => by cases h) rfl progressObj_inRange calls

end HandBrakeEncoder.Progress
