/-
# `Progress.Bounded` — how long the stdout buffer gets

A line with a closing brace leaves at most `_MAX_BUFFER_BYTES` characters: the
buffer is cleared, dropped, or was within the cap.  A line without one is added
to the buffer and the iteration ends there, so the cap is not looked at until a
closing brace comes.  The bound holds as long as no block of such lines, with the
buffer it started on, is past the cap before its last line.
-/
import HandBrakeEncoder.Progress.Delivery
import HandBrakeEncoder.Progress.Exact
import Mathlib.Data.List.DropRight

namespace HandBrakeEncoder.Progress

open Braces

/-- After every iteration the buffer is at most the cap and the line just read. -/
def BufferBounded (env : LoopEnv) (lines : List PyStr) : Prop :=
  ∀ front line st, front ++ [line] <+: lines → readLoop env .init (front ++ [line]) = .ok st →
    st.buffer.length ≤ maxBufferBytes + line.length

/-- A block of lines without a closing brace, on the buffer the loop holds before it, is within
the cap up to its last line. -/
def BlocksWithinCap (env : LoopEnv) (lines : List PyStr) : Prop :=
  ∀ front block line, front ++ block ++ [line] <+: lines → Harmless env [] 0 front →
    (∀ last, front.getLast? = some last → '}' ∈ last) →
    (∀ l ∈ block, '}' ∉ l) → '}' ∉ line →
      (kept env.loads [] front).length + block.flatten.length ≤ maxBufferBytes

variable {env : LoopEnv} {loads : JsonLoads}

/-! ## What a line leaves -/

/-- Lines without a closing brace pile up. -/
theorem kept_block {block : List PyStr} (h : ∀ l ∈ block, '}' ∉ l) (buffer : PyStr) :
    kept loads buffer block = buffer ++ block.flatten := by
  induction block generalizing buffer with
  | nil =>
      exact (List.append_nil buffer).symm
  | cons l block ih =>
      rw [kept, if_pos (h l List.mem_cons_self),
        ih (fun l' hl' => h l' (List.mem_cons_of_mem _ hl')), List.flatten_cons, List.append_assoc]

/-- They raise nothing. -/
theorem readLoop_block {block : List PyStr} (h : ∀ l ∈ block, '}' ∉ l) (st : LoopState) :
    readLoop env st block = .ok { st with buffer := st.buffer ++ block.flatten } := by
  induction block generalizing st with
  | nil =>
      rw [List.flatten_nil, List.append_nil]
      rfl
  | cons l block ih =>
      rw [readLoop, readLine_plain env st (h l List.mem_cons_self)]
      show readLoop env { st with buffer := st.buffer ++ l } block = _
      rw [ih (fun l' hl' => h l' (List.mem_cons_of_mem _ hl')), List.flatten_cons,
        ← List.append_assoc]

/-- A loop that runs through its lines ran through the first of them. -/
theorem readLoop_front {st st' : LoopState} {ls ms : List PyStr}
    (h : readLoop env st (ls ++ ms) = .ok st') : ∃ st₁, readLoop env st ls = .ok st₁ := by
  cases hls : readLoop env st ls with
  | ok st₁ =>
      exact ⟨st₁, rfl⟩
  | error e =>
      rw [readLoop_append_error hls] at h
      cases h

/-- The lines up to the last closing brace, and the block after it. -/
theorem exists_block (lines : List PyStr) : ∃ front block, lines = front ++ block ∧
    (∀ last, front.getLast? = some last → '}' ∈ last) ∧ ∀ l ∈ block, '}' ∉ l := by
  refine ⟨lines.rdropWhile (fun l => decide ('}' ∉ l)), lines.rtakeWhile (fun l => decide ('}' ∉ l)),
    List.rdropWhile_append_rtakeWhile.symm, ?_, ?_⟩
  · intro last hlast
    obtain ⟨init, hinit⟩ := List.getLast?_eq_some_iff.mp hlast
    have hne : lines.rdropWhile (fun l => decide ('}' ∉ l)) ≠ [] := by
      rw [hinit]
      exact List.concat_ne_nil _ _
    have hnot := List.rdropWhile_last_not _ _ hne
    rw [List.getLast?_eq_some_getLast hne, Option.some.injEq] at hlast
    rw [hlast] at hnot
    simpa using hnot
  · intro l hl
    have hplain := List.mem_rtakeWhile_imp hl
    simpa using hplain

/-- The buffer is bounded exactly if no block of lines without a closing brace is past the cap
before its last line. -/
theorem bufferBounded_iff (env : LoopEnv) (lines : List PyStr) :
    BufferBounded env lines ↔ BlocksWithinCap env lines := by
  constructor
  · intro hbounded front block line hprefix hharmless _ hblock hline
    obtain ⟨st, hst⟩ := (readLoop_ok_iff front .init).mpr hharmless
    have hbuffer : st.buffer = kept env.loads [] front := (readLoop_delivers hst).1
    have hall : ∀ l ∈ block ++ [line], '}' ∉ l := by
      intro l hl
      rcases List.mem_append.mp hl with hmem | hmem
      · exact hblock l hmem
      · rw [List.mem_singleton.mp hmem]
        exact hline
    have hrun : readLoop env .init (front ++ block ++ [line])
        = .ok { st with buffer := st.buffer ++ (block ++ [line]).flatten } := by
      rw [List.append_assoc, readLoop_append hst, readLoop_block hall]
    have hle := hbounded (front ++ block) line _ hprefix hrun
    rw [hbuffer] at hle
    simp only [List.flatten_append, List.flatten_cons, List.flatten_nil, List.append_nil,
      List.length_append] at hle
    omega
  · intro hblocks front line st hprefix hst
    have hbuffer : st.buffer = kept env.loads [] (front ++ [line]) := (readLoop_delivers hst).1
    rw [kept_append] at hbuffer
    by_cases hb : '}' ∈ line
    · rw [kept_line_parsed hb] at hbuffer
      rw [hbuffer]
      exact (length_retained _).trans (Nat.le_add_right _ _)
    · obtain ⟨done, block, rfl, hlast, hblock⟩ := exists_block front
      rw [List.append_assoc] at hst
      have hharmless := (readLoop_ok_iff done .init).mp (readLoop_front hst)
      have hle := hblocks done block line hprefix hharmless hlast hblock hb
      rw [kept_line_plain hb, kept_append, kept_block hblock] at hbuffer
      rw [hbuffer]
      simp only [List.length_append]
      omega

/-- On two lines without a closing brace the first has to be within the cap. -/
theorem BufferBounded.first_within {line line' : PyStr} (h : BufferBounded env [line, line'])
    (hline : '}' ∉ line) (hline' : '}' ∉ line') : line.length ≤ maxBufferBytes := by
  have hall : ∀ l ∈ [line] ++ [line'], '}' ∉ l := by
    intro l hl
    rcases List.mem_append.mp hl with hmem | hmem
    · rw [List.mem_singleton.mp hmem]
      exact hline
    · rw [List.mem_singleton.mp hmem]
      exact hline'
  have hle := h [line] line' _ (List.prefix_refl _) (readLoop_block hall .init)
  simp only [LoopState.init, List.nil_append, List.flatten_append, List.flatten_singleton,
    List.length_append] at hle
  omega

/-- A line past the cap and then another: neither holds a closing brace. -/
theorem buffer_past_cap :
    ¬ ∀ (env : LoopEnv) (lines : List PyStr), BufferBounded env lines := by
  intro h
  have hplain : ∀ n, '}' ∉ preamble n := by
    intro n hmem
    rcases List.mem_append.mp hmem with hx | hnewline
    · exact absurd (List.eq_of_mem_replicate hx) (by decide)
    · exact absurd (List.mem_singleton.mp hnewline) (by decide)
  have hwithin := (h nestedEnv _).first_within (hplain maxBufferBytes) (hplain 0)
  have hlength : (preamble maxBufferBytes).length = maxBufferBytes + 1 := by
    rw [preamble, List.length_append, List.length_replicate, List.length_singleton]
  rw [hlength] at hwithin
  exact Nat.not_succ_le_self _ hwithin

end HandBrakeEncoder.Progress
