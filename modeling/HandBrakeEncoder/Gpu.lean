/-
# `Gpu` — the name of the graphics card, as the diagnostics tell it

`detect_gpu_name` asks the environment, then `nvidia-smi`, then `lspci -nn`; of the
last it takes the first line its pattern matches somewhere.  The pattern wants
the colon right after the class, as `lspci` prints it:

    01:00.0 VGA compatible controller: NVIDIA Corporation AD104 (rev a1)

**With `-nn` no name is read.**  The option puts the number of the class between the
two, and then the pattern never matches:

    01:00.0 VGA compatible controller [0300]: NVIDIA Corporation AD104 [10de:2786] (rev a1)
-/
import HandBrakeEncoder.Encoders.Parse
import Mathlib.Data.List.Chain
import Mathlib.Data.List.Infix

namespace HandBrakeEncoder.Gpu

open Text Encoders

/-! ## The pattern -/

/-- The classes of `_PCI_NAME`, in lower case. -/
def controllers : List PyStr :=
  ["vga compatible controller".toList, "3d controller".toList, "display controller".toList]

/-- What a letter of the pattern matches under `re.IGNORECASE`. -/
def sameLetter (letter c : Char) : Bool :=
  c = letter || c = letter.toUpper || (letter = 'i' && (c = 'İ' || c = 'ı'))
    || (letter = 's' && c = 'ſ')

/-- The text is the word, in whatever case. -/
def SameText (word text : PyStr) : Prop :=
  List.Forall₂ (fun letter c => sameLetter letter c) word text

instance decSameText (word text : PyStr) : Decidable (SameText word text) :=
  inferInstanceAs (Decidable (List.Forall₂ _ word text))

/-- What follows the word at the front of the text. -/
def afterWord : PyStr → PyStr → Option PyStr
  | [], text => some text
  | _ :: _, [] => none
  | letter :: letters, c :: cs => if sameLetter letter c then afterWord letters cs else none

/-- The group of `\s*(.+)`: if nothing but whitespace is left, `\s*` gives one character back. -/
def nameGroup (text : PyStr) : Option PyStr :=
  match (text.dropWhile isSpace).takeWhile (· ≠ '\n') with
  | [] => ((text.takeWhile isSpace).reverse.find? (· ≠ '\n')).map ([·])
  | name => some name

/-- `_PCI_NAME` at the front of the text, with its group. -/
def pciNameAt (text : PyStr) : Option PyStr :=
  controllers.findSome? fun word => (afterWord (word ++ [':']) text).bind nameGroup

/-- `_PCI_NAME.search(line)`, with its group. -/
def pciName (line : PyStr) : Option PyStr := line.tails.findSome? pciNameAt

/-! ## The detection -/

/-- `text or None`. -/
def orNone (text : PyStr) : Option PyStr := if text = [] then none else some text

/-- What a command has to say: its output without the whitespace around it. -/
def commandOutput : ProbeRun → Option PyStr
  | .failed => none
  | .completed returncode stdout _ => if returncode ≠ 0 then none else orNone (strip stdout)

/-- `detect_gpu_name`, given `ENCODER_GPU_NAME` and how the two commands ran. -/
def detectGpuName (configured : PyStr) (nvidiaSmi lspci : ProbeRun) : Option PyStr :=
  if strip configured ≠ [] then some (strip configured)
  else
    match commandOutput nvidiaSmi with
    | some output => orNone (strip ((splitlines output).headD []))
    | none =>
        match commandOutput lspci with
        | some output => ((splitlines output).findSome? pciName).bind fun name => orNone (strip name)
        | none => none

/-! ## A line of `lspci` -/

/-- No colon of the text comes right after an `r`, the last letter of every class. -/
def Untitled (text : PyStr) : Prop := text.IsChain fun c d => d = ':' → sameLetter 'r' c = false

instance decUntitled (text : PyStr) : Decidable (Untitled text) :=
  inferInstanceAs (Decidable (List.IsChain _ text))

/-- A line of `lspci`: slot and class, with `-nn` the number of the class, and the device. -/
structure PciLine where
  heading : PyStr
  number : Option PyStr
  device : PyStr
  heading_starts : ∀ c, heading.head? = some c → isSpace c = false
  heading_ne_nil : heading ≠ []
  heading_untitled : Untitled heading
  number_plain : ∀ digits, number = some digits → ':' ∉ digits
  device_ne_nil : device ≠ []
  device_strip : strip device = device
  device_untitled : Untitled device
  heading_oneLine : OneLine heading
  number_oneLine : ∀ digits, number = some digits → OneLine digits
  device_oneLine : OneLine device

namespace PciLine

/-- What stands between the class and the colon. -/
def suffix (l : PciLine) : PyStr :=
  match l.number with
  | none => []
  | some digits => " [".toList ++ digits ++ "]".toList

def text (l : PciLine) : PyStr := l.heading ++ l.suffix ++ ':' :: ' ' :: l.device

/-- The class is one of a display, and no number follows it. -/
def names (l : PciLine) : Bool :=
  l.number.isNone && l.heading.tails.any fun cls => controllers.any fun word => SameText word cls

end PciLine

variable {text front back letters heading tail word rest name title : PyStr} {c : Char}

/-! ## Reading one line -/

theorem afterWord_some : afterWord word text = some rest ↔
    ∃ title, text = title ++ rest ∧ SameText word title := by
  induction word generalizing text with
  | nil =>
      constructor
      · intro h
        cases h
        exact ⟨[], rfl, .nil⟩
      · rintro ⟨title, rfl, hsame⟩
        cases hsame
        rfl
  | cons letter letters ih =>
      constructor
      · intro h
        cases text with
        | nil => cases h
        | cons c cs =>
            rw [afterWord] at h
            split at h
            · rename_i hc
              obtain ⟨title, rfl, hsame⟩ := ih.mp h
              exact ⟨c :: title, rfl, .cons hc hsame⟩
            · cases h
      · rintro ⟨title, rfl, hsame⟩
        cases hsame with
        | cons hc hsame =>
            rw [List.cons_append, afterWord, if_pos hc]
            exact ih.mpr ⟨_, rfl, hsame⟩

theorem afterWord_append :
    afterWord (word ++ letters) text = (afterWord word text).bind (afterWord letters) := by
  induction word generalizing text with
  | nil => rfl
  | cons letter word ih =>
      cases text with
      | nil => rfl
      | cons c cs =>
          rw [List.cons_append, afterWord, afterWord]
          split
          · exact ih
          · rfl

theorem afterWord_colon : afterWord [':'] text = some rest ↔ text = ':' :: rest := by
  constructor
  · intro h
    obtain ⟨title, rfl, hsame⟩ := afterWord_some.mp h
    cases hsame with
    | cons hc hnil =>
        cases hnil
        simpa [sameLetter] using hc
  · rintro rfl
    rfl

/-- Where the pattern matches, a class stands up to a colon, and the name after it. -/
theorem pciNameAt_some : pciNameAt text = some name → ∃ word ∈ controllers, ∃ title rest,
    text = title ++ ':' :: rest ∧ SameText word title ∧ nameGroup rest = some name := by
  intro h
  obtain ⟨word, hword, h⟩ := List.exists_of_findSome?_eq_some h
  obtain ⟨rest, hafter, hname⟩ := Option.bind_eq_some_iff.mp h
  rw [afterWord_append] at hafter
  obtain ⟨tail, htail, hcolon⟩ := Option.bind_eq_some_iff.mp hafter
  cases afterWord_colon.mp hcolon
  obtain ⟨title, rfl, hsame⟩ := afterWord_some.mp htail
  exact ⟨word, hword, title, rest, rfl, hsame, hname⟩

/-- Every class ends with `r`. -/
theorem controllers_last (h : word ∈ controllers) (hsame : SameText word title) :
    ∃ front c, title = front ++ [c] ∧ sameLetter 'r' c = true := by
  have hall : ∀ word ∈ controllers, word = word.dropLast ++ ['r'] := by decide
  rw [hall word h] at hsame
  have hlast := List.forall₂_drop_append title word.dropLast ['r'] (List.Forall₂.flip hsame)
  generalize hdrop : title.drop word.dropLast.length = last at hlast
  cases hlast with
  | @cons c _ _ _ hc hnil =>
      cases hnil
      refine ⟨title.take word.dropLast.length, c, ?_, hc⟩
      rw [← hdrop, List.take_append_drop]

theorem Untitled.letter (h : Untitled (front ++ c :: ':' :: back)) : sameLetter 'r' c = false :=
  (List.isChain_append_cons_cons.mp h).2.1 rfl

/-- In an untitled text the pattern matches nowhere. -/
theorem pciNameAt_untitled (h : Untitled text) : pciNameAt text = none := by
  refine Option.eq_none_iff_forall_ne_some.mpr fun name hname => ?_
  obtain ⟨word, hword, title, rest, rfl, hsame, -⟩ := pciNameAt_some hname
  obtain ⟨front, c, rfl, hc⟩ := controllers_last hword hsame
  rw [List.append_assoc] at h
  cases hc.symm.trans h.letter

theorem pciName_untitled (h : Untitled text) : pciName text = none := by
  refine List.findSome?_eq_none_iff.mpr fun tail htail => ?_
  exact pciNameAt_untitled (h.suffix ((List.mem_tails _ _).mp htail))

/-- Two cuts of a text at a colon are one, if only that after the heading can follow a class. -/
theorem cut_unique (hheading : Untitled heading) (htail : Untitled (':' :: tail))
    (htitle : title = front ++ [c]) (hc : sameLetter 'r' c = true)
    (h : heading ++ ':' :: tail = title ++ ':' :: rest) : heading = title ∧ tail = rest := by
  subst htitle
  rcases List.append_eq_append_iff.mp h with ⟨between, htitle, hcut⟩ | ⟨between, rfl, hcut⟩
  · rcases List.eq_nil_or_concat between with rfl | ⟨front', c', rfl⟩
    · cases hcut
      exact ⟨(htitle.trans (List.append_nil heading)).symm, rfl⟩
    · rw [List.concat_eq_append] at htitle hcut
      rw [← List.append_assoc] at htitle
      obtain ⟨-, hlast⟩ := List.append_inj' htitle rfl
      cases hlast
      rw [hcut, List.append_assoc] at htail
      cases hc.symm.trans htail.letter
  · cases between with
    | nil =>
        cases hcut
        exact ⟨List.append_nil _, rfl⟩
    | cons d between =>
        cases hcut
        rw [List.append_assoc] at hheading
        cases hc.symm.trans hheading.letter

/-- At the heading of a line the pattern matches if it is a class, and then takes the name. -/
theorem pciNameAt_heading (hheading : Untitled heading) (htail : Untitled (':' :: tail))
    (hname : nameGroup tail = some name) : pciNameAt (heading ++ ':' :: tail) =
      if controllers.any (fun word => SameText word heading) then some name else none := by
  have hcut : ∀ found, pciNameAt (heading ++ ':' :: tail) = some found →
      (∃ word ∈ controllers, SameText word heading) ∧ found = name := by
    intro found hfound
    obtain ⟨word, hword, title, rest, hsplit, hsame, hgroup⟩ := pciNameAt_some hfound
    obtain ⟨front, c, htitle, hc⟩ := controllers_last hword hsame
    obtain ⟨rfl, rfl⟩ := cut_unique hheading htail htitle hc hsplit
    exact ⟨⟨word, hword, hsame⟩, Option.some.inj (hgroup.symm.trans hname)⟩
  split
  · rename_i hany
    obtain ⟨word, hword, hsame⟩ := List.any_eq_true.mp hany
    have hafter : afterWord (word ++ [':']) (heading ++ ':' :: tail) = some tail := by
      rw [afterWord_append, afterWord_some.mpr ⟨heading, rfl, of_decide_eq_true hsame⟩]
      rfl
    cases hfound : pciNameAt (heading ++ ':' :: tail) with
    | some found => rw [(hcut found hfound).2]
    | none =>
        have hnone := List.findSome?_eq_none_iff.mp hfound word hword
        rw [hafter] at hnone
        cases hnone.symm.trans hname
  · rename_i hany
    refine Option.eq_none_iff_forall_ne_some.mpr fun found hfound => hany ?_
    obtain ⟨word, hword, hsame⟩ := (hcut found hfound).1
    exact List.any_eq_true.mpr ⟨word, hword, decide_eq_true hsame⟩

theorem pciName_heading (hheading : Untitled heading) (htail : Untitled (':' :: tail))
    (hname : nameGroup tail = some name) : pciName (heading ++ ':' :: tail) =
      if heading.tails.any (fun cls => controllers.any (fun word => SameText word cls)) then some name
      else none := by
  induction heading with
  | nil => exact pciName_untitled htail
  | cons c heading ih =>
      have hrest := ih (hheading.suffix (List.suffix_cons c heading))
      have hhere := pciNameAt_heading hheading htail hname
      rw [pciName] at hrest ⊢
      rw [List.tails_cons, List.any_cons, List.cons_append, List.tails_cons, List.findSome?_cons,
        ← List.cons_append, hhere, hrest]
      cases controllers.any fun word => SameText word (c :: heading) with
      | true => rfl
      | false => rfl

/-! ## Reading a line of `lspci` -/

theorem untitled_of_not_mem (h : ':' ∉ text) : Untitled text := by
  induction text with
  | nil => exact .nil
  | cons c text ih =>
      rw [List.mem_cons, not_or] at h
      refine List.isChain_cons.mpr ⟨fun d hd hcolon => ?_, ih h.2⟩
      subst hcolon
      exact absurd (List.mem_of_mem_head? hd) h.2

theorem Untitled.append (hfront : Untitled front) (hback : Untitled back)
    (hseam : ∀ c, front.getLast? = some c → back.head? = some ':' → sameLetter 'r' c = false) :
    Untitled (front ++ back) := by
  refine List.isChain_append.mpr ⟨hfront, hback, fun c hc d hd hcolon => hseam c hc ?_⟩
  rw [← hcolon]
  exact hd

namespace PciLine

variable (l : PciLine)

theorem untitled_tail : Untitled (':' :: ' ' :: l.device) := by
  have hspace : Untitled (' ' :: l.device) :=
    List.isChain_cons.mpr ⟨fun _ _ _ => rfl, l.device_untitled⟩
  exact List.isChain_cons_cons.mpr ⟨fun _ => rfl, hspace⟩

theorem nameGroup_device : nameGroup (' ' :: l.device) = some l.device := by
  obtain ⟨c, cs, hdevice⟩ := List.exists_cons_of_ne_nil l.device_ne_nil
  have hstart : (' ' :: l.device).dropWhile isSpace = l.device := by
    have hc := (strip_eq_self_iff.mp l.device_strip).1 c (by rw [hdevice]; rfl)
    rw [List.dropWhile_cons, if_pos (show isSpace ' ' = true from rfl), hdevice,
      List.dropWhile_cons, hc]
    exact if_neg Bool.false_ne_true
  have hline : l.device.takeWhile (· ≠ '\n') = l.device := by
    refine List.takeWhile_eq_self_iff.mpr fun c hc => decide_eq_true fun hfeed => ?_
    subst hfeed
    cases l.device_oneLine _ hc
  rw [nameGroup, hstart, hline, hdevice]

theorem untitled_text {digits : PyStr} (h : l.number = some digits) : Untitled l.text := by
  have hnumber : Untitled l.suffix := by
    rw [suffix, h]
    refine untitled_of_not_mem fun hmem => ?_
    simp only [List.mem_append] at hmem
    rcases hmem with (hmem | hmem) | hmem
    · exact absurd hmem (by decide)
    · exact l.number_plain digits h hmem
    · exact absurd hmem (by decide)
  have hheading : Untitled (l.heading ++ l.suffix) := by
    refine l.heading_untitled.append hnumber fun c _ hcolon => ?_
    rw [suffix, h] at hcolon
    cases hcolon
  have hbracket : l.heading ++ l.suffix = l.heading ++ (" [".toList ++ digits) ++ [']'] := by
    rw [suffix, h, List.append_assoc]
    rfl
  refine hheading.append l.untitled_tail fun c hlast _ => ?_
  rw [hbracket, List.getLast?_concat] at hlast
  cases hlast
  rfl

theorem pciName_text : pciName l.text = if l.names then some l.device else none := by
  cases h : l.number with
  | none =>
      have hfound := pciName_heading l.heading_untitled l.untitled_tail l.nameGroup_device
      rw [text, suffix, names, h, List.append_nil, hfound]
      rfl
  | some digits =>
      rw [pciName_untitled (l.untitled_text h), names, h]
      rfl

theorem text_ne_nil : l.text ≠ [] := by
  intro h
  rw [text, List.append_assoc] at h
  exact l.heading_ne_nil (List.append_eq_nil_iff.mp h).1

theorem text_oneLine : OneLine l.text := by
  have hsuffix : OneLine l.suffix := by
    rw [suffix]
    split
    · exact fun c hc => absurd hc List.not_mem_nil
    · rename_i digits hnumber
      have hdigits := l.number_oneLine digits hnumber
      exact (OneLine.append (by decide) hdigits).append (by decide)
  have htail : OneLine (':' :: ' ' :: l.device) :=
    OneLine.append (show OneLine [':', ' '] by decide) l.device_oneLine
  exact (l.heading_oneLine.append hsuffix).append htail

theorem text_head (c : Char) (hc : l.text.head? = some c) : isSpace c = false := by
  obtain ⟨d, heading, hheading⟩ := List.exists_cons_of_ne_nil l.heading_ne_nil
  refine l.heading_starts c ?_
  rw [text, hheading] at hc
  rw [hheading]
  exact hc

theorem text_last (c : Char) (hc : l.text.getLast? = some c) : isSpace c = false := by
  obtain ⟨-, hlast⟩ := strip_eq_self_iff.mp l.device_strip
  refine hlast c ?_
  have hend : l.text = l.heading ++ l.suffix ++ [':', ' '] ++ l.device := by
    rw [text, List.append_assoc _ [':', ' ']]
    rfl
  rw [hend, List.getLast?_append_of_ne_nil _ l.device_ne_nil] at hc
  exact hc

end PciLine

/-! ## What `lspci` prints -/

theorem unlines_head {ls : List PciLine} {rest : PyStr} {c : Char}
    (hrest : ∀ c, rest.head? = some c → isSpace c = false)
    (hc : (unlines (ls.map PciLine.text) ++ rest).head? = some c) : isSpace c = false := by
  cases ls with
  | nil => exact hrest c hc
  | cons l ls =>
      obtain ⟨d, text, htext⟩ := List.exists_cons_of_ne_nil l.text_ne_nil
      refine l.text_head c ?_
      rw [List.map_cons, unlines, List.flatMap_cons, htext] at hc
      rw [htext]
      exact hc

/-- The lines come back from the output. -/
theorem output_lines {ls : List PciLine} (hne : ls ≠ []) (stderr : PyStr) :
    ∃ output, commandOutput (.completed 0 (unlines (ls.map PciLine.text)) stderr) = some output ∧
      splitlines output = ls.map PciLine.text := by
  rcases List.eq_nil_or_concat ls with rfl | ⟨lines, l, rfl⟩
  · exact absurd rfl hne
  have hsplit : unlines ((lines.concat l).map PciLine.text) =
      (unlines (lines.map PciLine.text) ++ l.text) ++ ['\n'] := by
    rw [List.concat_eq_append, List.map_append, unlines, List.flatMap_append, List.append_assoc,
      List.map_singleton, List.flatMap_singleton]
    rfl
  have hout : unlines (lines.map PciLine.text) ++ l.text ≠ [] :=
    fun h => l.text_ne_nil (List.append_eq_nil_iff.mp h).2
  have hstrip : strip (unlines (lines.map PciLine.text) ++ l.text) =
      unlines (lines.map PciLine.text) ++ l.text := by
    refine strip_eq_self_iff.mpr ⟨fun c hc => unlines_head l.text_head hc, fun c hc => ?_⟩
    rw [List.getLast?_append_of_ne_nil _ l.text_ne_nil] at hc
    exact l.text_last c hc
  refine ⟨unlines (lines.map PciLine.text) ++ l.text, ?_, ?_⟩
  · rw [hsplit, commandOutput, strip_line hstrip hout, orNone, if_neg hout]
    rfl
  · have honeLine : ∀ text ∈ lines.map PciLine.text, OneLine text := by
      intro text htext
      obtain ⟨line, -, rfl⟩ := List.mem_map.mp htext
      exact line.text_oneLine
    rw [splitlines_unlines honeLine, splitlines_oneLine l.text_oneLine l.text_ne_nil,
      List.concat_eq_append, List.map_append]
    rfl

theorem findSome?_text (ls : List PciLine) :
    (ls.map PciLine.text).findSome? pciName = (ls.find? PciLine.names).map PciLine.device := by
  induction ls with
  | nil => rfl
  | cons l ls ih =>
      rw [List.map_cons, List.findSome?_cons, l.pciName_text, List.find?_cons]
      cases l.names with
      | true => rfl
      | false => exact ih

/-- **Only without its number is a class read.**  Where the environment names no card and
`nvidia-smi` tells nothing, what `lspci` prints gives the device of the first line whose class is
one of a display and bears no number; so if it numbers every class, it gives nothing. -/
theorem lspci_read {configured : PyStr} {nvidiaSmi : ProbeRun} (hconfigured : strip configured = [])
    (hsmi : commandOutput nvidiaSmi = none) (ls : List PciLine) (stderr : PyStr) :
    detectGpuName configured nvidiaSmi (.completed 0 (unlines (ls.map PciLine.text)) stderr)
        = (ls.find? PciLine.names).map PciLine.device ∧
      ((∀ l ∈ ls, l.number ≠ none) → detectGpuName configured nvidiaSmi
        (.completed 0 (unlines (ls.map PciLine.text)) stderr) = none) := by
  have hread : detectGpuName configured nvidiaSmi
      (.completed 0 (unlines (ls.map PciLine.text)) stderr)
        = (ls.find? PciLine.names).map PciLine.device := by
    rw [detectGpuName, if_neg (not_not.mpr hconfigured), hsmi]
    rcases eq_or_ne ls [] with rfl | hne
    · rfl
    obtain ⟨output, hout, hlines⟩ := output_lines hne stderr
    rw [hout]
    dsimp only
    rw [hlines, findSome?_text]
    cases ls.find? PciLine.names with
    | none => rfl
    | some l =>
        show orNone (strip l.device) = some l.device
        rw [l.device_strip, orNone, if_neg l.device_ne_nil]
  refine ⟨hread, fun hnumbers => ?_⟩
  have hnone : ls.find? PciLine.names = none := by
    refine List.find?_eq_none.mpr fun l hl hnames => ?_
    obtain ⟨hnumber, -⟩ := Bool.and_eq_true_iff.mp hnames
    exact hnumbers l hl (Option.isNone_iff_eq_none.mp hnumber)
  rw [hread, hnone]
  rfl

/-- A card as `lspci -nn` shows it. -/
def sampleCard : PciLine where
  heading := "01:00.0 VGA compatible controller".toList
  number := some "0300".toList
  device := "NVIDIA Corporation AD104 [10de:2786] (rev a1)".toList
  heading_starts c hc := by
    cases hc
    rfl
  heading_ne_nil := by decide
  heading_untitled := by decide
  number_plain digits h := by
    cases h
    decide
  device_ne_nil := by decide
  device_strip := by decide
  device_untitled := by decide
  heading_oneLine := by decide
  number_oneLine digits h := by
    cases h
    decide
  device_oneLine := by decide

theorem lspci_read_card : detectGpuName [] .failed
    (.completed 0 (unlines [sampleCard.text]) []) = none := by
  refine (lspci_read rfl rfl [sampleCard] []).2 fun l hl => ?_
  cases List.mem_singleton.mp hl
  exact Option.some_ne_none _

/-- Without the number the same card is named. -/
example : detectGpuName [] .failed (.completed 0
    "01:00.0 VGA compatible controller: NVIDIA Corporation AD104 (rev a1)\n".toList [])
      = some "NVIDIA Corporation AD104 (rev a1)".toList := by
  decide +kernel

end HandBrakeEncoder.Gpu
