/-
# `Encoders.Blocks` — the parsers read back what HandBrake prints

A block is a heading line and below it the values, each alone on a line indented
by four spaces or more, with lines between that hold no value: blank ones, and
prose of several words.  The two parsers differ in what ends a block and so in
what such a line may be: a flag ends the list of encoders, a line that does not
start with a space the list of presets.
-/
import HandBrakeEncoder.Encoders.Parse

namespace HandBrakeEncoder.Encoders

open Text

/-- A value of a block: one word. -/
def Word (value : PyStr) : Prop := value ≠ [] ∧ ∀ c ∈ value, isSpace c = false

def Blank (line : PyStr) : Prop := ∀ c ∈ line, isSpace c = true

/-- At least two words: whitespace with something on either side. -/
def MultiWord (line : PyStr) : Prop :=
  ∃ c s d, isSpace c = false ∧ isSpace s = true ∧ isSpace d = false ∧ [c, s, d].Sublist line

/-- A value alone on its line. -/
def valueLine (indent : ℕ) (value : PyStr) (trailing : ℕ) : PyStr :=
  List.replicate (4 + indent) ' ' ++ value ++ List.replicate trailing ' '

/-- `Block Value Filler lines values`: the lines below a heading, and the values on them. -/
inductive Block (Value Filler : PyStr → Prop) : List PyStr → List PyStr → Prop
  | nil : Block Value Filler [] []
  | value {value : PyStr} {lines values : List PyStr} (indent trailing : ℕ) :
      Word value → Value value → Block Value Filler lines values →
        Block Value Filler (valueLine indent value trailing :: lines) (value :: values)
  | filler {line : PyStr} {lines values : List PyStr} :
      OneLine line → Blank line ∨ MultiWord line → Filler line → Block Value Filler lines values →
        Block Value Filler (line :: lines) values

/-- No flag: neither a name nor prose in a block of encoders starts with a hyphen. -/
def NoHyphen (value : PyStr) : Prop := value.head? ≠ some '-'

/-- The block below the flag: prose that is no flag. -/
abbrev EncoderBlock : List PyStr → List PyStr → Prop := Block NoHyphen (fun line => anyFlag line = false)

/-- The block below a header: prose is indented. -/
abbrev PresetBlock : List PyStr → List PyStr → Prop :=
  Block (fun _ => True) (fun line => Blank line ∨ line.head? = some ' ')

/-- The header of the presets of an encoder. -/
def headerLine (encoder rest : PyStr) : PyStr :=
  "Available --encoder-preset values for '".toList ++ (encoder ++ ("' encoder:".toList ++ rest))

/-! ## The patterns on the lines of a block -/

theorem isSpace_replicate {n : ℕ} {c : Char} (h : c ∈ List.replicate n ' ') : isSpace c = true := by
  rw [List.eq_of_mem_replicate h]
  decide

/-- What follows the spaces in front of a word. -/
theorem Word.dropWhile_isSpace {value : PyStr} (h : Word value) (n : ℕ) (rest : PyStr) :
    (List.replicate n ' ' ++ (value ++ rest)).dropWhile isSpace = value ++ rest := by
  rw [List.dropWhile_append_of_pos (fun c hc => isSpace_replicate hc)]
  cases value with
  | nil =>
      exact absurd rfl h.1
  | cons c value =>
      rw [List.cons_append, List.dropWhile_cons_of_neg]
      rw [h.2 c List.mem_cons_self]
      exact Bool.false_ne_true

theorem Word.not_isSpace {value : PyStr} (h : Word value) :
    ∀ c ∈ value, (!isSpace c) = true := by
  intro c hc
  rw [h.2 c hc]
  rfl

theorem indentedValue_valueLine {value : PyStr} (h : Word value) (indent trailing : ℕ) :
    indentedValue (valueLine indent value trailing) = some value := by
  have hindent : 4 ≤ ((valueLine indent value trailing).takeWhile isSpace).length := by
    rw [valueLine, List.append_assoc,
      List.takeWhile_append_of_pos (fun c hc => isSpace_replicate hc), List.length_append,
      List.length_replicate]
    omega
  have hspaces : (List.replicate trailing ' ').takeWhile (fun c => !isSpace c) = [] := by
    cases trailing with
    | zero =>
        rfl
    | succ trailing =>
        rfl
  have hrest : (valueLine indent value trailing).dropWhile isSpace
      = value ++ List.replicate trailing ' ' := by
    rw [valueLine, List.append_assoc, h.dropWhile_isSpace]
  have hvalue : (value ++ List.replicate trailing ' ').takeWhile (fun c => !isSpace c) = value := by
    rw [List.takeWhile_append_of_pos h.not_isSpace, hspaces, List.append_nil]
  have htail : ((value ++ List.replicate trailing ' ').dropWhile (fun c => !isSpace c)).all isSpace
      = true := by
    rw [List.dropWhile_append_of_pos h.not_isSpace, List.all_eq_true]
    intro c hc
    exact isSpace_replicate ((List.dropWhile_sublist _).subset hc)
  simp only [indentedValue, hrest, hvalue, htail, decide_eq_true hindent, decide_eq_true h.1,
    Bool.and_self, if_true]

theorem indentedValue_blank {line : PyStr} (h : Blank line) : indentedValue line = none := by
  have hrest : line.dropWhile isSpace = [] := List.dropWhile_eq_nil_iff.mpr h
  rw [indentedValue, hrest]
  simp

/-- A second word keeps the first from being a value. -/
theorem indentedValue_multiWord {line : PyStr} (h : MultiWord line) : indentedValue line = none := by
  obtain ⟨c, s, d, hc, hs, hd, hsub⟩ := h
  -- the three characters lie behind the leading spaces, the last of them behind the first word
  have hrest : [c, s, d].Sublist (line.dropWhile isSpace) := by
    rw [← List.takeWhile_append_dropWhile (p := isSpace) (l := line)] at hsub
    obtain ⟨l₁, l₂, heq, h₁, h₂⟩ := List.sublist_append_iff.mp hsub
    cases l₁ with
    | nil =>
        rw [List.nil_append] at heq
        rw [heq]
        exact h₂
    | cons c' l₁ =>
        obtain ⟨rfl, _⟩ := List.cons.inj heq
        have := List.mem_takeWhile_imp (h₁.subset List.mem_cons_self)
        rw [hc] at this
        cases this
  have htail : d ∈ (line.dropWhile isSpace).dropWhile (fun c => !isSpace c) := by
    rw [← List.takeWhile_append_dropWhile (p := fun c => !isSpace c)
      (l := line.dropWhile isSpace)] at hrest
    obtain ⟨l₁, l₂, heq, h₁, h₂⟩ := List.sublist_append_iff.mp hrest
    have hnot : s ∉ l₁ := by
      intro hmem
      have := List.mem_takeWhile_imp (h₁.subset hmem)
      rw [hs] at this
      cases this
    rcases l₁ with _ | ⟨a, _ | ⟨b, l₁⟩⟩
    · rw [List.nil_append] at heq
      exact h₂.subset (heq ▸ by simp)
    · have hback : [s, d] = l₂ := (List.cons.inj heq).2
      exact h₂.subset (hback ▸ by simp)
    · obtain ⟨rfl, _⟩ := List.cons.inj (List.cons.inj heq).2
      exact absurd (by simp) hnot
  rw [indentedValue]
  refine if_neg ?_
  intro hall
  simp only [Bool.and_eq_true, List.all_eq_true] at hall
  have := hall.2 d htail
  rw [hd] at this
  cases this

theorem anyFlag_valueLine {value : PyStr} (h : Word value) (hhyphen : NoHyphen value)
    (indent trailing : ℕ) : anyFlag (valueLine indent value trailing) = false := by
  rw [anyFlag, valueLine, List.append_assoc, h.dropWhile_isSpace]
  cases value with
  | nil =>
      exact absurd rfl h.1
  | cons c value =>
      exact beq_eq_false_iff_ne.mpr hhyphen

theorem oneLine_replicate (n : ℕ) : OneLine (List.replicate n ' ') := by
  intro c hc
  rw [List.eq_of_mem_replicate hc]
  decide

theorem oneLine_valueLine {value : PyStr} (h : Word value) (indent trailing : ℕ) :
    OneLine (valueLine indent value trailing) :=
  ((oneLine_replicate _).append (oneLine_of_noSpace h.2)).append (oneLine_replicate _)

theorem Block.oneLine {Value Filler : PyStr → Prop} {lines values : List PyStr}
    (h : Block Value Filler lines values) : ∀ line ∈ lines, OneLine line := by
  induction h with
  | nil =>
      intro line hline
      exact absurd hline List.not_mem_nil
  | value indent trailing hword _ _ ih =>
      intro line hline
      rcases List.mem_cons.mp hline with rfl | hrest
      · exact oneLine_valueLine hword indent trailing
      · exact ih line hrest
  | filler hone _ _ _ ih =>
      intro line hline
      rcases List.mem_cons.mp hline with rfl | hrest
      · exact hone
      · exact ih line hrest

theorem indentedValue_filler {line : PyStr} (h : Blank line ∨ MultiWord line) :
    indentedValue line = none :=
  h.elim indentedValue_blank indentedValue_multiWord

/-! ## The loops -/

theorem collectEncoders_block {lines values : List PyStr} (h : EncoderBlock lines values)
    (rest : List PyStr) : collectEncoders (lines ++ rest) = values ++ collectEncoders rest := by
  induction h with
  | nil =>
      rfl
  | value indent trailing hword hhyphen _ ih =>
      rw [List.cons_append, collectEncoders,
        if_neg (by rw [anyFlag_valueLine hword hhyphen]; exact Bool.false_ne_true)]
      simp only [indentedValue_valueLine hword, ih]
      rfl
  | filler _ hprose hflag _ ih =>
      rw [List.cons_append, collectEncoders, if_neg (by rw [hflag]; exact Bool.false_ne_true)]
      simp only [indentedValue_filler hprose, ih]

theorem afterFlag_skip {isWord : Char → Bool} {before : List PyStr}
    (h : ∀ line ∈ before, encoderFlag isWord line = false) (rest : List PyStr) :
    afterFlag isWord (before ++ rest) = afterFlag isWord rest := by
  induction before with
  | nil =>
      rfl
  | cons line before ih =>
      rw [List.cons_append, afterFlag, if_neg (by rw [h line List.mem_cons_self]; exact Bool.false_ne_true)]
      exact ih (fun line' hline' => h line' (List.mem_cons_of_mem _ hline'))

/-- A line with a value is not blank and starts with a space. -/
theorem valueLine_indented {value : PyStr} (h : Word value) (indent trailing : ℕ) :
    strip (valueLine indent value trailing) ≠ [] ∧
      (valueLine indent value trailing).head? = some ' ' := by
  constructor
  · obtain ⟨c, hc⟩ := List.exists_mem_of_ne_nil value h.1
    refine strip_ne_nil (List.mem_append_left _ (List.mem_append_right _ hc)) (h.2 c hc)
  · rw [valueLine, Nat.add_comm, List.replicate_succ]
    rfl

theorem strip_blank {line : PyStr} (h : Blank line) : strip line = [] := by
  rw [strip, List.dropWhile_eq_nil_iff.mpr h]
  rfl

theorem collectPresets_block {lines values : List PyStr} (h : PresetBlock lines values)
    (rest : List PyStr) : collectPresets (lines ++ rest) = values ++ collectPresets rest := by
  induction h with
  | nil =>
      rfl
  | value indent trailing hword _ _ ih =>
      obtain ⟨hstrip, hhead⟩ := valueLine_indented hword indent trailing
      rw [List.cons_append, collectPresets, if_neg hstrip, if_neg (by rw [hhead]; exact fun h => h rfl)]
      simp only [indentedValue_valueLine hword, ih]
      rfl
  | @filler line _ _ _ hprose hindent _ ih =>
      rw [List.cons_append, collectPresets]
      by_cases hblank : strip line = []
      · rw [if_pos hblank, ih]
      · have hhead : line.head? = some ' ' :=
          hindent.resolve_left (fun hspace => hblank (strip_blank hspace))
        rw [if_neg hblank, if_neg (by rw [hhead]; exact fun h => h rfl)]
        simp only [indentedValue_filler hprose, ih]

theorem afterHeader_skip {encoder : PyStr} {before : List PyStr}
    (h : ∀ line ∈ before, presetHeader line = none) (rest : List PyStr) :
    afterHeader encoder (before ++ rest) = afterHeader encoder rest := by
  induction before with
  | nil =>
      rfl
  | cons line before ih =>
      rw [List.cons_append, afterHeader, h line List.mem_cons_self]
      exact ih (fun line' hline' => h line' (List.mem_cons_of_mem _ hline'))

theorem dropPrefix?_append (front rest : PyStr) : (front ++ rest).dropPrefix? front = some rest := by
  induction front with
  | nil =>
      cases rest with
      | nil =>
          rfl
      | cons c rest =>
          rfl
  | cons c front ih =>
      rw [List.cons_append, List.dropPrefix?, if_pos (beq_self_eq_true c), ih]

theorem headerClose_eq : "' encoder:".toList = '\'' :: " encoder:".toList := by decide

/-- The header names the encoder it was printed for. -/
theorem presetHeader_headerLine {encoder : PyStr} (hquote : '\'' ∉ encoder) (rest : PyStr) :
    presetHeader (headerLine encoder rest) = some encoder := by
  have hall : ∀ c ∈ encoder, decide (c ≠ '\'') = true := by
    intro c hc
    exact decide_eq_true (fun heq => hquote (heq ▸ hc))
  have hfront : (headerLine encoder rest).dropPrefix?
      "Available --encoder-preset values for '".toList
        = some (encoder ++ ("' encoder:".toList ++ rest)) := dropPrefix?_append _ _
  have hclose : ("' encoder:".toList ++ rest).dropPrefix? "' encoder:".toList = some rest :=
    dropPrefix?_append _ _
  have htake : (encoder ++ ("' encoder:".toList ++ rest)).takeWhile (· ≠ '\'') = encoder := by
    rw [List.takeWhile_append_of_pos hall, headerClose_eq, List.cons_append,
      List.takeWhile_cons_of_neg (by simp), List.append_nil]
  have hdrop : (encoder ++ ("' encoder:".toList ++ rest)).dropWhile (· ≠ '\'')
      = "' encoder:".toList ++ rest := by
    rw [List.dropWhile_append_of_pos hall, headerClose_eq, List.cons_append,
      List.dropWhile_cons_of_neg (by simp)]
  unfold presetHeader
  simp only [hfront, htake, hdrop, hclose]

/-! ## A block in its surroundings -/

theorem head?_ne_newline {heading : PyStr} (hone : OneLine heading) (hne : heading ≠ [])
    (rest : PyStr) : (heading ++ rest).head? ≠ some '\n' := by
  cases heading with
  | nil =>
      exact absurd rfl hne
  | cons c heading =>
      intro hc
      have := hone c List.mem_cons_self
      rw [Option.some.inj hc] at this
      cases this

/-- The lines of a text around a block. -/
theorem splitlines_around {before heading : PyStr} {lines : List PyStr} (hbefore : WholeLines before)
    (hone : OneLine heading) (hne : heading ≠ []) (hlines : ∀ line ∈ lines, OneLine line)
    (after : PyStr) :
    splitlines (before ++ (unlines (heading :: lines) ++ after)) =
      splitlines before ++ heading :: (lines ++ splitlines after) := by
  have hall : ∀ line ∈ heading :: lines, OneLine line := by
    intro line hline
    rcases List.mem_cons.mp hline with rfl | hrest
    · exact hone
    · exact hlines line hrest
  have hhead : (unlines (heading :: lines) ++ after).head? ≠ some '\n' := by
    rw [unlines, List.flatMap_cons, List.append_assoc, List.append_assoc]
    exact head?_ne_newline hone hne _
  rw [splitlines_append hbefore (fun _ => hhead), splitlines_unlines hall, List.cons_append]

theorem headerLine_ne_nil (encoder rest : PyStr) : headerLine encoder rest ≠ [] := by
  intro h
  have hfront := (List.append_eq_nil_iff.mp h).1
  exact absurd hfront (by decide)

theorem oneLine_headerLine {encoder rest : PyStr} (hencoder : OneLine encoder)
    (hrest : OneLine rest) : OneLine (headerLine encoder rest) := by
  have hfront : OneLine "Available --encoder-preset values for '".toList := by decide
  have hclose : OneLine "' encoder:".toList := by decide
  exact hfront.append (hencoder.append (hclose.append hrest))

theorem parseEncoderList_block {isWord : Char → Bool} {before flag after : PyStr}
    {lines names : List PyStr} (hbefore : WholeLines before)
    (hnone : ∀ line ∈ splitlines before, encoderFlag isWord line = false) (hone : OneLine flag)
    (hflag : encoderFlag isWord flag = true) (hblock : EncoderBlock lines names)
    (hafter : ∀ line, (splitlines after).head? = some line → anyFlag line = true) :
    parseEncoderList isWord (before ++ (unlines (flag :: lines) ++ after)) = names := by
  have hne : flag ≠ [] := by
    rintro rfl
    cases hflag
  have hstop : collectEncoders (splitlines after) = [] := by
    cases hlines : splitlines after with
    | nil =>
        rfl
    | cons line rest =>
        rw [collectEncoders, if_pos (hafter line (by rw [hlines]; rfl))]
  rw [parseEncoderList, splitlines_around hbefore hone hne hblock.oneLine, afterFlag_skip hnone,
    afterFlag, if_pos hflag, collectEncoders_block hblock, hstop, List.append_nil]

section Presets

variable {before encoder rest : PyStr} {lines names : List PyStr}

/-- The first header decides, whatever stands below it. -/
theorem parsePresetList_headed (hbefore : WholeLines before)
    (hnone : ∀ line ∈ splitlines before, presetHeader line = none) (hquote : '\'' ∉ encoder)
    (hencoder : OneLine encoder) (hrest : OneLine rest) (hlines : ∀ line ∈ lines, OneLine line)
    (after asked : PyStr) :
    parsePresetList (before ++ (unlines (headerLine encoder rest :: lines) ++ after)) asked =
      if encoder ≠ asked then [] else collectPresets (lines ++ splitlines after) := by
  rw [parsePresetList, splitlines_around hbefore (oneLine_headerLine hencoder hrest)
    (headerLine_ne_nil encoder rest) hlines, afterHeader_skip hnone, afterHeader,
    presetHeader_headerLine hquote]

theorem collectPresets_stops {after : PyStr}
    (hafter : ∀ line, (splitlines after).head? = some line → strip line ≠ [] ∧ line.head? ≠ some ' ') :
    collectPresets (splitlines after) = [] := by
  cases hlines : splitlines after with
  | nil =>
      rfl
  | cons line rest =>
      obtain ⟨hstrip, hhead⟩ := hafter line (by rw [hlines]; rfl)
      rw [collectPresets, if_neg hstrip, if_pos hhead]

end Presets

/-- Each parser reads a block back exactly, whatever stands before it and after it. -/
theorem parsers_invert_blocks (isWord : Char → Bool) :
    (∀ (before flag after : PyStr) (lines names : List PyStr), WholeLines before →
      (∀ line ∈ splitlines before, encoderFlag isWord line = false) →
      OneLine flag → encoderFlag isWord flag = true → EncoderBlock lines names →
      (∀ line, (splitlines after).head? = some line → anyFlag line = true) →
        parseEncoderList isWord (before ++ (unlines (flag :: lines) ++ after)) = names) ∧
    ∀ (before encoder rest : PyStr) (lines names : List PyStr), WholeLines before →
      (∀ line ∈ splitlines before, presetHeader line = none) →
      '\'' ∉ encoder → OneLine encoder → OneLine rest → PresetBlock lines names →
        (∀ after, (∀ line, (splitlines after).head? = some line →
            strip line ≠ [] ∧ line.head? ≠ some ' ') →
          parsePresetList (before ++ (unlines (headerLine encoder rest :: lines) ++ after)) encoder
            = names) ∧
        ∀ after other, other ≠ encoder →
          parsePresetList (before ++ (unlines (headerLine encoder rest :: lines) ++ after)) other
            = [] := by
  constructor
  · intro before flag after lines names hbefore hnone hone hflag hblock hafter
    exact parseEncoderList_block hbefore hnone hone hflag hblock hafter
  · intro before encoder rest lines names hbefore hnone hquote hencoder hrest hblock
    have hparse := parsePresetList_headed hbefore hnone hquote hencoder hrest hblock.oneLine
    constructor
    · intro after hafter
      rw [hparse, if_neg (fun h => h rfl), collectPresets_block hblock, collectPresets_stops hafter,
        List.append_nil]
    · intro after other hother
      rw [hparse, if_pos hother.symm]

/-- Two values, and between them a blank line and one of prose. -/
def listedLines : List PyStr :=
  [valueLine 0 "fast".toList 0, [], "      not on this machine".toList, valueLine 4 "slow".toList 2]

theorem block_listedLines {Value Filler : PyStr → Prop} (hvalue : ∀ value, value ∈
      ["fast".toList, "slow".toList] → Value value)
    (hfiller : ∀ line, line ∈ [[], "      not on this machine".toList] → Filler line) :
    Block Value Filler listedLines ["fast".toList, "slow".toList] := by
  have hblank : Blank [] := fun c hc => absurd hc List.not_mem_nil
  have hprose : MultiWord "      not on this machine".toList :=
    ⟨'n', ' ', 'o', by decide, by decide, by decide, by decide⟩
  have hfast : Word "fast".toList := ⟨by decide, by simp [isSpace]⟩
  have hslow : Word "slow".toList := ⟨by decide, by simp [isSpace]⟩
  refine .value 0 0 hfast (hvalue _ (by simp)) ?_
  refine .filler (by decide) (.inl hblank) (hfiller _ (by simp)) ?_
  refine .filler (by decide) (.inr hprose) (hfiller _ (by simp)) ?_
  exact .value 4 2 hslow (hvalue _ (by simp)) .nil

/-- The same lines below a flag and below a header. -/
theorem parsers_invert_blocks_listed :
    parseEncoderList Char.isAlphanum ("HandBrake\n".toList
        ++ (unlines ("  -e, --encoder <string>".toList :: listedLines) ++ "  -q\n".toList))
      = ["fast".toList, "slow".toList] ∧
    parsePresetList ("HandBrake\n".toList
        ++ (unlines (headerLine "x264".toList [] :: listedLines) ++ "Done\n".toList)) "x264".toList
      = ["fast".toList, "slow".toList] := by
  have hwhole : WholeLines "HandBrake\n".toList := by
    intro c hc
    cases hc
    decide
  obtain ⟨hencoders, hpresets⟩ := parsers_invert_blocks Char.isAlphanum
  constructor
  · have hblock : EncoderBlock listedLines ["fast".toList, "slow".toList] := by
      refine block_listedLines (fun value hvalue => ?_) (by decide)
      rcases List.mem_pair.mp hvalue with rfl | rfl
      · exact ne_of_beq_false rfl
      · exact ne_of_beq_false rfl
    refine hencoders _ _ _ _ _ hwhole (by decide) (by decide) (by decide) hblock ?_
    intro line hline
    cases hline
    decide
  · have hblock : PresetBlock listedLines ["fast".toList, "slow".toList] := by
      refine block_listedLines (fun _ _ => trivial) (fun line hline => ?_)
      rcases List.mem_pair.mp hline with rfl | rfl
      · exact .inl (fun c hc => absurd hc List.not_mem_nil)
      · exact .inr rfl
    refine (hpresets _ _ _ _ _ hwhole (by decide) (by decide) (by decide) (by decide) hblock).1 _ ?_
    intro line hline
    cases hline
    decide

end HandBrakeEncoder.Encoders
