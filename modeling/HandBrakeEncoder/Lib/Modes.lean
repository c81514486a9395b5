/-
# `Lib.Modes` — the mode of a brace scan, without its spans

Where a scan ends is a matter of its mode alone (`Scan.after_mode`), and outside
every brace nothing is pending, so a scan whose mode is back at the start is back
at the start itself (`Scan.after_eq_start`).

Three things are said of modes.

    quotes        a text whose quotation marks pair up ends outside strings, and only such a text   (`paired_iff`)
    depth         a scan that started lower stays lower, with the same strings                      (`Mode.Below.run`)
    spans         all that a scan completes is in the text it read                                  (`Scan.spans_sublist`)

The depth is clamped at zero, which is why the second is an inequality: a closing
brace brings two scans of the same text together and never apart.
-/
import HandBrakeEncoder.Lib.Braces

namespace Braces

/-! ## Running -/

/-- The mode after a text. -/
def Mode.run (m : Mode) (t : List Char) : Mode := t.foldl Mode.next m

@[simp] theorem Mode.run_nil (m : Mode) : m.run [] = m := rfl

@[simp] theorem Mode.run_cons (m : Mode) (c : Char) (t : List Char) :
    m.run (c :: t) = (m.next c).run t := rfl

theorem Mode.run_append (m : Mode) (a b : List Char) : m.run (a ++ b) = (m.run a).run b :=
  List.foldl_append

theorem Scan.after_mode (s : Scan) (t : List Char) : (s.after t).mode = s.mode.run t := by
  induction t generalizing s with
  | nil => rfl
  | cons c t ih => exact ih (s.step c)

/-- Outside every brace no text is pending. -/
def Scan.Idle (s : Scan) : Prop := s.mode.depth = 0 → s.pending = []

theorem Scan.idle_start : Scan.start.Idle := fun _ => rfl

/-- The character that opens a span takes the depth off zero. -/
theorem Mode.depth_of_opens {m : Mode} {c : Char} (h : m.opens c = true) :
    (m.next c).depth = 1 := by
  simp only [Mode.opens, Bool.and_eq_true, Bool.not_eq_true', beq_iff_eq] at h
  obtain ⟨⟨hq, hd⟩, rfl⟩ := h
  simp [Mode.next, hq, hd]

/-- Only the character that closes the span takes the depth to zero. -/
theorem Mode.closes_of_depth {m : Mode} {c : Char} (hd : m.depth ≠ 0)
    (h : (m.next c).depth = 0) : m.closes c = true := by
  rw [Mode.next] at h
  split at h
  · exact absurd h (by split_ifs <;> exact hd)
  · rename_i hq
    split at h
    · exact absurd h hd
    · split at h
      · exact absurd h (Nat.succ_ne_zero _)
      · split at h
        · rename_i hc
          have hone : m.depth = 1 := by
            have hle : m.depth - 1 = 0 := h
            omega
          simp [Mode.closes, hq, hone, hc]
        · exact absurd h hd

theorem Scan.idle_step (s : Scan) (c : Char) : (s.step c).Idle := by
  intro hd
  show s.keep c = []
  have hnext : (s.mode.next c).depth = 0 := hd
  rw [Scan.keep]
  split
  · rename_i hopens
    rw [Mode.depth_of_opens hopens] at hnext
    exact absurd hnext Nat.one_ne_zero
  · split
    · rfl
    · rename_i hcloses
      split
      · rfl
      · rename_i h0
        exact absurd (Mode.closes_of_depth h0 hnext) hcloses

theorem Scan.Idle.after {s : Scan} (h : s.Idle) (t : List Char) : (s.after t).Idle := by
  induction t generalizing s with
  | nil => exact h
  | cons c t ih => exact ih (s.idle_step c)

/-- A scan is back at the start as soon as its mode is. -/
theorem Scan.after_eq_start {t : List Char} (h : Mode.start.run t = Mode.start) :
    Scan.start.after t = Scan.start := by
  have hmode : (Scan.start.after t).mode = Mode.start := (Scan.after_mode _ t).trans h
  have hpending : (Scan.start.after t).pending = [] :=
    Scan.idle_start.after t (congrArg Mode.depth hmode)
  cases hs : Scan.start.after t with
  | mk mode pending =>
      rw [hs] at hmode hpending
      rw [show mode = Mode.start from hmode, show pending = [] from hpending]
      rfl

/-! ## What a scan completes -/

/-- Without a closing brace nothing is completed. -/
theorem Scan.spans_of_not_mem {t : List Char} (h : '}' ∉ t) (s : Scan) : s.spans t = [] := by
  induction t generalizing s with
  | nil => rfl
  | cons c t ih =>
      have hout : s.out c = [] := by
        have hc : c ≠ '}' := fun e => h (e ▸ List.mem_cons_self)
        simp [Scan.out, Mode.closes, hc]
      rw [Scan.spans_cons, hout, ih (fun hmem => h (List.mem_cons_of_mem _ hmem))]
      rfl

theorem Scan.step_sublist (s : Scan) (c : Char) :
    ((s.out c).flatten ++ s.keep c).Sublist (s.pending ++ [c]) := by
  rw [Scan.out, Scan.keep]
  cases hcloses : s.mode.closes c with
  | true =>
      have hopens : s.mode.opens c = false := by
        simp only [Mode.closes, Bool.and_eq_true, beq_iff_eq] at hcloses
        simp [Mode.opens, hcloses.2]
      rw [hopens]
      simp
  | false =>
      simp only [Bool.false_eq_true, if_false, List.flatten_nil, List.nil_append]
      split
      · exact List.sublist_append_right _ _
      · split
        · exact List.nil_sublist _
        · exact List.Sublist.refl _

/-- All that a scan completes was pending, or is in the text it read. -/
theorem Scan.spans_sublist (s : Scan) (t : List Char) :
    (s.spans t).flatten.Sublist (s.pending ++ t) := by
  induction t generalizing s with
  | nil => exact List.nil_sublist _
  | cons c t ih =>
      rw [Scan.spans_cons, List.flatten_append]
      have hrest : ((s.out c).flatten ++ ((s.step c).spans t).flatten).Sublist
          ((s.out c).flatten ++ (s.keep c ++ t)) := (ih (s.step c)).append_left _
      have hstep : (((s.out c).flatten ++ s.keep c) ++ t).Sublist ((s.pending ++ [c]) ++ t) :=
        (s.step_sublist c).append_right _
      rw [List.append_assoc, List.append_assoc] at hstep
      exact hrest.trans hstep

/-! ## Two scans of one text -/

/-- The same string, and no deeper. -/
structure Mode.Below (m m' : Mode) : Prop where
  inString : m.inString = m'.inString
  escaped : m.escaped = m'.escaped
  depth : m.depth ≤ m'.depth

theorem Mode.Below.next {m m' : Mode} (h : m.Below m') (c : Char) : (m.next c).Below (m'.next c) := by
  obtain ⟨d, q, x⟩ := m
  obtain ⟨d', q', x'⟩ := m'
  obtain ⟨hq, hx, hd⟩ := h
  simp only at hq hx hd
  subst hq hx
  simp only [Mode.next]
  split_ifs
  · exact ⟨rfl, rfl, hd⟩
  · exact ⟨rfl, rfl, hd⟩
  · exact ⟨rfl, rfl, hd⟩
  · exact ⟨rfl, rfl, hd⟩
  · exact ⟨rfl, rfl, hd⟩
  · exact ⟨rfl, rfl, Nat.succ_le_succ hd⟩
  · exact ⟨rfl, rfl, Nat.sub_le_sub_right hd 1⟩
  · exact ⟨rfl, rfl, hd⟩

theorem Mode.Below.run {m m' : Mode} (h : m.Below m') (t : List Char) :
    (m.run t).Below (m'.run t) := by
  induction t generalizing m m' with
  | nil => exact h
  | cons c t ih => exact ih (h.next c)

/-- Below the start there is only the start. -/
theorem Mode.Below.eq_start {m : Mode} (h : m.Below Mode.start) : m = Mode.start := by
  obtain ⟨d, q, x⟩ := m
  obtain ⟨hq, hx, hd⟩ := h
  simp only [Mode.start] at hq hx hd
  rw [hq, hx, Nat.le_zero.mp hd]
  rfl

/-! ## Quotation marks -/

/-- Outside strings. -/
structure Mode.Unquoted (m : Mode) : Prop where
  inString : m.inString = false
  escaped : m.escaped = false

theorem Mode.unquoted_start : Mode.start.Unquoted := ⟨rfl, rfl⟩

theorem Mode.Unquoted.eq {m : Mode} (h : m.Unquoted) : m = ⟨m.depth, false, false⟩ := by
  obtain ⟨d, q, x⟩ := m
  obtain ⟨hq, hx⟩ := h
  simp only at hq hx
  rw [hq, hx]

/-- A text whose quotation marks pair up into strings, each body of the kind `inside`. -/
inductive Strung (inside : List Char → Prop) : List Char → Prop
  | nil : Strung inside []
  | plain {c : Char} {t : List Char} : c ≠ '"' → Strung inside t → Strung inside (c :: t)
  | string {b t : List Char} :
      Body b → inside b → Strung inside t → Strung inside ('"' :: (b ++ '"' :: t))

/-- Quotation marks that pair up, whatever the strings hold. -/
abbrev Paired : List Char → Prop := Strung (fun _ => True)

section Strung
variable {inside : List Char → Prop}

theorem Strung.append {a b : List Char} (ha : Strung inside a) (hb : Strung inside b) :
    Strung inside (a ++ b) := by
  induction ha with
  | nil => exact hb
  | plain hq _ ih => exact .plain hq ih
  | string hbody hin _ ih =>
      rw [List.cons_append, List.append_assoc]
      exact .string hbody hin ih

theorem Strung.of_not_mem {t : List Char} (h : '"' ∉ t) : Strung inside t := by
  induction t with
  | nil => exact .nil
  | cons c t ih =>
      refine .plain ?_ (ih (fun hmem => h (List.mem_cons_of_mem _ hmem)))
      intro hc
      exact h (hc ▸ List.mem_cons_self)

/-- A character no string holds, and no quotation mark, cuts between strings. -/
theorem Strung.before {x : Char} (hx : x ≠ '"') (hin : ∀ b, inside b → x ∉ b) {t : List Char}
    (h : Strung inside t) : ∀ {a r : List Char}, t = a ++ x :: r → Strung inside a := by
  induction h with
  | nil =>
      intro a r he
      exact absurd he.symm (List.append_ne_nil_of_right_ne_nil _ (List.cons_ne_nil _ _))
  | @plain c t hq _ ih =>
      intro a r he
      cases a with
      | nil => exact .nil
      | cons d a =>
          obtain ⟨hd, htail⟩ := List.cons.inj he
          subst hd
          exact .plain hq (ih htail)
  | @string b t hbody hb _ ih =>
      intro a r he
      cases a with
      | nil => exact absurd (List.cons.inj he).1.symm hx
      | cons d a =>
          obtain ⟨hd, htail⟩ := List.cons.inj he
          subst hd
          rcases List.append_eq_append_iff.mp htail with ⟨as, rfl, hrest⟩ | ⟨bs, rfl, hrest⟩
          · cases as with
            | nil => exact absurd (List.cons.inj hrest).1.symm hx
            | cons e as =>
                obtain ⟨he', hrest'⟩ := List.cons.inj hrest
                subst he'
                exact .string hbody hb (ih hrest')
          · cases bs with
            | nil => exact absurd (List.cons.inj hrest).1 hx
            | cons e bs =>
                have he' : x = e := (List.cons.inj hrest).1
                exact absurd (List.mem_append_right a (he' ▸ List.mem_cons_self)) (hin _ hb)

end Strung

/-! ### One character in or at a string -/

theorem Mode.next_open (d : Nat) : Mode.next ⟨d, false, false⟩ '"' = ⟨d, true, false⟩ := by
  simp [Mode.next]

theorem Mode.next_close (d : Nat) : Mode.next ⟨d, true, false⟩ '"' = ⟨d, false, false⟩ := by
  simp [Mode.next]

theorem Mode.next_backslash (d : Nat) : Mode.next ⟨d, true, false⟩ '\\' = ⟨d, true, true⟩ := by
  simp [Mode.next]

theorem Mode.next_escaped (d : Nat) (c : Char) : Mode.next ⟨d, true, true⟩ c = ⟨d, true, false⟩ := by
  simp [Mode.next]

theorem Mode.next_body (d : Nat) {c : Char} (hq : c ≠ '"') (hs : c ≠ '\\') :
    Mode.next ⟨d, true, false⟩ c = ⟨d, true, false⟩ := by
  simp [Mode.next, hq, hs]

/-- A string body ends inside its string. -/
theorem Body.run {t : List Char} (h : Body t) (d : Nat) :
    Mode.run ⟨d, true, false⟩ t = ⟨d, true, false⟩ := by
  induction h with
  | nil => rfl
  | plain hq hs _ ih => rw [Mode.run_cons, Mode.next_body d hq hs, ih]
  | escape _ ih => rw [Mode.run_cons, Mode.run_cons, Mode.next_backslash, Mode.next_escaped, ih]

/-- Outside strings, a character that is no quotation mark leaves the scan there. -/
theorem Mode.Unquoted.next {m : Mode} (h : m.Unquoted) {c : Char} (hc : c ≠ '"') :
    (m.next c).Unquoted := by
  obtain ⟨hq, hx⟩ := h
  simp only [Mode.next, hq, hc, Bool.false_eq_true, if_false]
  split_ifs
  · exact ⟨rfl, hx⟩
  · exact ⟨rfl, hx⟩
  · exact ⟨hq, hx⟩

theorem Mode.Unquoted.run {inside : List Char → Prop} {t : List Char} (h : Strung inside t) {m : Mode}
    (hm : m.Unquoted) : (m.run t).Unquoted := by
  induction h generalizing m with
  | nil => exact hm
  | plain hq _ ih => exact ih (hm.next hq)
  | string hbody _ _ ih =>
      rw [hm.eq, Mode.run_cons, Mode.next_open, Mode.run_append, hbody.run, Mode.run_cons,
        Mode.next_close]
      exact ih ⟨rfl, rfl⟩

/-- A text that leaves no string open pairs its quotation marks.  Inside a string, and after a
backslash there, what is left of that string comes first. -/
theorem paired_of_run (t : List Char) (d : Nat) :
    ((Mode.run ⟨d, false, false⟩ t).inString = false → Paired t) ∧
      ((Mode.run ⟨d, true, false⟩ t).inString = false →
        ∃ b r, Body b ∧ Paired r ∧ t = b ++ '"' :: r) ∧
      ((Mode.run ⟨d, true, true⟩ t).inString = false →
        ∃ c b r, Body b ∧ Paired r ∧ t = c :: (b ++ '"' :: r)) := by
  induction t generalizing d with
  | nil => exact ⟨fun _ => .nil, fun h => absurd h (by simp), fun h => absurd h (by simp)⟩
  | cons c t ih =>
      refine ⟨?_, ?_, ?_⟩
      · intro h
        rw [Mode.run_cons] at h
        by_cases hq : c = '"'
        · subst hq
          rw [Mode.next_open] at h
          obtain ⟨b, r, hb, hr, rfl⟩ := (ih d).2.1 h
          exact .string hb trivial hr
        · have hnext : (Mode.next ⟨d, false, false⟩ c).Unquoted := Mode.Unquoted.next ⟨rfl, rfl⟩ hq
          rw [hnext.eq] at h
          exact .plain hq ((ih _).1 h)
      · intro h
        rw [Mode.run_cons] at h
        by_cases hs : c = '\\'
        · subst hs
          rw [Mode.next_backslash] at h
          obtain ⟨c, b, r, hb, hr, rfl⟩ := (ih d).2.2 h
          exact ⟨'\\' :: c :: b, r, .escape hb, hr, rfl⟩
        · by_cases hq : c = '"'
          · subst hq
            rw [Mode.next_close] at h
            exact ⟨[], t, .nil, (ih d).1 h, rfl⟩
          · rw [Mode.next_body d hq hs] at h
            obtain ⟨b, r, hb, hr, rfl⟩ := (ih d).2.1 h
            exact ⟨c :: b, r, .plain hq hs hb, hr, rfl⟩
      · intro h
        rw [Mode.run_cons, Mode.next_escaped] at h
        obtain ⟨b, r, hb, hr, rfl⟩ := (ih d).2.1 h
        exact ⟨c, b, r, hb, hr, rfl⟩

theorem paired_iff {t : List Char} {m : Mode} (hm : m.Unquoted) :
    Paired t ↔ (m.run t).inString = false := by
  constructor
  · intro h
    exact (hm.run h).inString
  · intro h
    rw [hm.eq] at h
    exact (paired_of_run t m.depth).1 h

/-- An escape is inside a string. -/
def Mode.Sound (m : Mode) : Prop := m.escaped = true → m.inString = true

theorem Mode.Sound.next {m : Mode} (h : m.Sound) (c : Char) : (m.next c).Sound := by
  obtain ⟨d, q, x⟩ := m
  cases q with
  | true =>
      cases x with
      | true => exact fun hx => absurd hx Bool.false_ne_true
      | false =>
          simp only [Mode.next, if_true, Bool.false_eq_true, if_false]
          split_ifs
          · exact fun _ => rfl
          · exact fun hx => absurd hx Bool.false_ne_true
          · exact fun _ => rfl
  | false =>
      simp only [Mode.next, Bool.false_eq_true, if_false]
      split_ifs
      · exact fun _ => rfl
      · exact h
      · exact h
      · exact h

theorem Mode.Sound.run {m : Mode} (h : m.Sound) (t : List Char) : (m.run t).Sound := by
  induction t generalizing m with
  | nil => exact h
  | cons c t ih => exact ih (h.next c)

theorem Mode.sound_start : Mode.start.Sound := fun h => h

/-- Outside braces and strings there is only the start. -/
theorem Mode.Sound.eq_start {m : Mode} (h : m.Sound) (hdepth : m.depth = 0)
    (hstring : m.inString = false) : m = Mode.start := by
  obtain ⟨d, q, x⟩ := m
  cases hdepth
  cases hstring
  cases x with
  | false => rfl
  | true => exact absurd (h rfl) Bool.false_ne_true

/-! ## Texts without braces -/

/-- Text that cannot open or close a span; quotation marks and backslashes are allowed. -/
def Braceless (t : List Char) : Prop := '{' ∉ t ∧ '}' ∉ t

instance decBraceless (t : List Char) : Decidable (Braceless t) := by
  unfold Braceless
  infer_instance

theorem Braceless.run_depth {t : List Char} (h : Braceless t) (m : Mode) :
    (m.run t).depth = m.depth := by
  induction t generalizing m with
  | nil => rfl
  | cons c t ih =>
      have htail : Braceless t :=
        ⟨fun hmem => h.1 (List.mem_cons_of_mem _ hmem), fun hmem => h.2 (List.mem_cons_of_mem _ hmem)⟩
      have ho : c ≠ '{' := fun e => h.1 (e ▸ List.mem_cons_self)
      have hc : c ≠ '}' := fun e => h.2 (e ▸ List.mem_cons_self)
      rw [Mode.run_cons, ih htail]
      simp only [Mode.next, ho, hc, if_false]
      split_ifs <;> rfl

theorem Braceless.spans {t : List Char} (h : Braceless t) (s : Scan) : s.spans t = [] :=
  Scan.spans_of_not_mem h.2 s

/-- Paired quotation marks and no brace: the scan is where it was. -/
theorem Braceless.after {t : List Char} (h : Braceless t) (hpaired : Paired t) :
    Scan.start.after t = Scan.start := by
  apply Scan.after_eq_start
  rw [(Mode.unquoted_start.run hpaired).eq, h.run_depth Mode.start]
  rfl

end Braces
