/-
# `Lib.Resolution` — `realpath` finds what the kernel finds

`realpath` resolves in user space what the kernel resolves at `open`.  The two
agree on every path the kernel resolves: `realpath` then meets no loop, and what
it returns leads to the same place with no symbolic link and no `..` on the way
(`joinRealpath_correct`).

**Why it meets no loop.**  A link is met again while it is being resolved only if
its own target passes through it.  The kernel counts the links it follows: with
the fewest links that resolve the target, the target cannot contain the link
(`Pending`).

A path the kernel does not resolve is another matter: see `joinRealpath`.
-/
import HandBrakeEncoder.Lib.RealPath
import Mathlib.Data.Nat.Find

namespace Posix

variable {fs : Fs} {k k' : Nat} {trail trail' mid out : List Ino} {ns ms names : List Name}
  {n : Name} {path path' target : List Char} {i : Ino}

/-! ## Parts of a walk -/

theorem Fs.Walks.mono (h : fs.Walks k trail names out) (hk : k ≤ k') :
    fs.Walks k' trail names out := by
  induction h generalizing k' with
  | done => exact .done
  | up hdir _ ih => exact .up hdir (ih hk)
  | enter hdir hn hi hd _ ih => exact .enter hdir hn hi hd (ih hk)
  | follow hdir hn hi ht _ ih =>
      obtain ⟨k', rfl⟩ := Nat.exists_eq_add_of_le' (Nat.lt_of_lt_of_le (Nat.succ_pos _) hk)
      exact .follow hdir hn hi ht (ih (Nat.le_of_succ_le_succ hk))

theorem Fs.Walks.append (h : fs.Walks k trail names out) : ∀ {ns ms : List Name},
    names = ns ++ ms → ∃ mid, fs.Walks k trail ns mid ∧ fs.Walks k mid ms out := by
  induction h with
  | done =>
      intro ns ms hnames
      obtain ⟨rfl, rfl⟩ := List.append_eq_nil_iff.mp hnames.symm
      exact ⟨_, .done, .done⟩
  | up hdir hrest ih =>
      intro ns ms hnames
      rcases ns with _ | ⟨m, ns⟩
      · obtain rfl := hnames
        exact ⟨_, .done, .up hdir hrest⟩
      · obtain ⟨rfl, hrest'⟩ := List.cons.inj hnames
        obtain ⟨mid, hfirst, hlast⟩ := ih hrest'
        exact ⟨mid, .up hdir hfirst, hlast⟩
  | enter hdir hn hi hd hrest ih =>
      intro ns ms hnames
      rcases ns with _ | ⟨m, ns⟩
      · obtain rfl := hnames
        exact ⟨_, .done, .enter hdir hn hi hd hrest⟩
      · obtain ⟨rfl, hrest'⟩ := List.cons.inj hnames
        obtain ⟨mid, hfirst, hlast⟩ := ih hrest'
        exact ⟨mid, .enter hdir hn hi hd hfirst, hlast⟩
  | follow hdir hn hi ht hrest ih =>
      intro ns ms hnames
      rcases ns with _ | ⟨m, ns⟩
      · obtain rfl := hnames
        exact ⟨_, .done, .follow hdir hn hi ht hrest⟩
      · obtain ⟨rfl, rfl⟩ := List.cons.inj hnames
        obtain ⟨mid, hfirst, hlast⟩ := ih (List.append_assoc ..).symm
        exact ⟨mid, .follow hdir hn hi ht hfirst, hlast.mono (Nat.le_succ _)⟩

/-- The last step of a walk that follows no link. -/
theorem Fs.Walks.last (h : fs.Walks 0 trail (ns ++ [n]) out) (hn : n ≠ dotdot) :
    ∃ mid i, fs.Walks 0 trail ns mid ∧ fs.node (Fs.top mid) = .dir ∧
      fs.look (Fs.top mid, n) = some i ∧ out = i :: mid := by
  obtain ⟨mid, hfirst, hlast⟩ := h.append rfl
  cases hlast with
  | up => exact absurd rfl hn
  | enter hdir _ hi _ hrest =>
      cases hrest
      exact ⟨mid, _, hfirst, hdir, hi, rfl⟩

/-! ## Paths without links -/

theorem isAbs_eq_cons (h : isAbs path = true) : ∃ rest, path = '/' :: rest := by
  cases path with
  | nil => cases h
  | cons c rest =>
      obtain rfl : c = '/' := Option.some.inj (of_decide_eq_true h)
      exact ⟨rest, rfl⟩

theorem normalize_names (hns : ∀ n ∈ ns, IsName n) : normalize ns = ns := by
  induction ns using List.reverseRecOn with
  | nil => rfl
  | append_singleton ns n ih =>
      rw [normalize, List.foldl_append]
      show (if n = dotdot then _ else normalize ns ++ [n]) = _
      rw [if_neg (hns n (by simp)).notDotdot, ih fun m hm => hns m (List.mem_append_left _ hm)]

/-- A path in normal form is left as it is. -/
theorem normpath_str (p : AbsPath) : normpath p.str = p.str := by
  have hdouble : doubleSlash p.str = p.double := by
    obtain ⟨double, names, hnames⟩ := p
    cases names with
    | nil => cases double <;> rfl
    | cons n ns =>
        have hn := hnames n List.mem_cons_self
        obtain ⟨c, cs, rfl⟩ := List.exists_cons_of_ne_nil hn.nonempty
        have hc : c ≠ '/' := by
          rintro rfl
          exact hn.noSlash List.mem_cons_self
        cases double <;> simp [doubleSlash, AbsPath.str, render, hc]
  rw [normpath, hdouble, AbsPath.components_str, normalize_names p.isName]
  rfl

/-- The path is absolute and normal, and leads to the end of the trail by entries that are not
symbolic links. -/
def At (fs : Fs) (path : List Char) (trail : List Ino) : Prop :=
  '\x00' ∉ path ∧ ∃ ns : List Name, (∀ n ∈ ns, IsName n) ∧ path = render ns ∧ fs.Walks 0 [] ns trail

theorem At.root (fs : Fs) : At fs ['/'] [] := by
  refine ⟨by decide, [], ?_, rfl, .done⟩
  exact fun _ hn => absurd hn List.not_mem_nil

theorem At.components (h : At fs path trail) : fs.Walks 0 [] (components path) trail := by
  obtain ⟨-, ns, hns, rfl, hwalk⟩ := h
  rw [components_render hns]
  exact hwalk

theorem At.unique (h : At fs path trail) (h' : At fs path trail') : trail = trail' :=
  h.components.unique h'.components

theorem At.components_child (h : At fs path trail) (hn : IsName n) :
    Posix.components (join path n) = Posix.components path ++ [n] := by
  obtain ⟨-, ns, hns, rfl, -⟩ := h
  have hall : ∀ m ∈ ns ++ [n], IsName m := by
    intro m hm
    rcases List.mem_append.mp hm with hold | hnew
    · exact hns m hold
    · rw [List.mem_singleton.mp hnew]
      exact hn
  rw [join_render hns hn, components_render hall, components_render hns]

/-- The kernel finds the entry of a name in a directory the path leads to. -/
theorem At.locate (h : At fs path trail) (hn : IsName n) (hdir : fs.node (Fs.top trail) = .dir) :
    fs.locate (join path n) = .ok (Fs.top trail, n) :=
  Fs.locate_ok.mpr ⟨Posix.components path, trail, h.components_child hn, hn.notDotdot,
    h.components.mono (Nat.zero_le _), rfl, hdir⟩

theorem At.readlink (h : At fs path trail) (hn : IsName n) (hdir : fs.node (Fs.top trail) = .dir)
    (hi : fs.look (Fs.top trail, n) = some i) :
    fs.readlink? (join path n) = some target ↔ fs.node i = .link target := by
  rw [Fs.readlink?, Fs.lstat_of_locate (h.locate hn hdir) hi]
  dsimp only
  cases fs.node i with
  | dir => simp
  | file data => simp
  | link t => simp

theorem At.enter (h : At fs path trail) (hn : IsName n) (hnul : '\x00' ∉ join path n)
    (hdir : fs.node (Fs.top trail) = .dir) (hi : fs.look (Fs.top trail, n) = some i)
    (hd : (fs.node i).direct = true) : At fs (join path n) (i :: trail) := by
  obtain ⟨-, ns, hns, rfl, hwalk⟩ := h
  refine ⟨hnul, ns ++ [n], ?_, join_render hns hn, hwalk.snoc hdir hn.notDotdot hi hd⟩
  intro m hm
  rcases List.mem_append.mp hm with hold | hnew
  · exact hns m hold
  · rw [List.mem_singleton.mp hnew]
    exact hn

theorem mem_render_append {c : Char} (h : c ∈ render ns) (ms : List Name) :
    c ∈ render (ns ++ ms) := by
  cases ns with
  | nil =>
      rw [List.mem_singleton.mp h]
      exact AbsPath.slash_mem_render ms
  | cons n ns =>
      show c ∈ (n :: ns ++ ms).flatMap ('/' :: ·)
      rw [List.flatMap_append]
      exact List.mem_append_left _ h

theorem mem_render_of_mem {c : Char} (hn : n ∈ ns) (hc : c ∈ n) : c ∈ render ns := by
  cases ns with
  | nil => cases hn
  | cons m ms => exact List.mem_flatMap.mpr ⟨n, hn, List.mem_cons_of_mem _ hc⟩

theorem At.up (h : At fs path trail) : At fs (dirname path) trail.tail := by
  obtain ⟨hnul, ns, hns, rfl, hwalk⟩ := h
  rcases List.eq_nil_or_concat ns with rfl | ⟨ms, n, rfl⟩
  · cases hwalk
    exact At.root fs
  · rw [List.concat_eq_append] at hns hwalk hnul ⊢
    have hms : ∀ m ∈ ms, IsName m := fun m hm => hns m (List.mem_append_left _ hm)
    have hn : IsName n := hns n (List.mem_append_right _ (List.mem_singleton.mpr rfl))
    obtain ⟨mid, i, hfirst, -, -, rfl⟩ := hwalk.last hn.notDotdot
    rw [dirname_render hms hn]
    exact ⟨fun hmem => hnul (mem_render_append hmem [n]), ms, hms, rfl, hfirst⟩

/-! ## The dictionary of links -/

/-- Where the resolution of a link's target starts. -/
def base (target : List Char) (trail : List Ino) : List Ino := if isAbs target then [] else trail

/-- The path is that of a symbolic link: its directory's trail, and its target. -/
structure LinkAt (fs : Fs) (key : List Char) (trail : List Ino) (target : List Char) : Prop where
  exists_dir : ∃ path n i, key = join path n ∧ IsName n ∧ At fs path trail ∧
    fs.node (Fs.top trail) = .dir ∧ fs.look (Fs.top trail, n) = some i ∧ fs.node i = .link target

/-- Every link resolved so far leads where its path in the dictionary leads. -/
def Resolved (fs : Fs) (seen : Seen) : Prop :=
  ∀ key val trail target, seen.lookup key = some (some val) → LinkAt fs key trail target →
    ∃ k out, fs.Walks k (base target trail) (components target) out ∧ At fs val out

/-- No link that is being resolved can be followed with fewer than `k` links to come. -/
def Pending (fs : Fs) (k : Nat) (seen : Seen) : Prop :=
  ∀ key trail target, seen.lookup key = some none → LinkAt fs key trail target →
    ∀ m < k, ∀ out, ¬ fs.Walks m (base target trail) (components target) out

/-- What is pending in the one dictionary is pending in the other. -/
def PendingSub (seen seen' : Seen) : Prop :=
  ∀ key, seen.lookup key = some none → seen'.lookup key = some none

theorem Resolved.nil (fs : Fs) : Resolved fs [] := by
  intro key val trail target hlookup
  cases hlookup

theorem Pending.nil (fs : Fs) (k : Nat) : Pending fs k [] := by
  intro key trail target hlookup
  cases hlookup

/-- A link is found under its path only. -/
theorem LinkAt.unique {key target' : List Char} (h : LinkAt fs key trail target)
    (h' : LinkAt fs key trail' target') : trail = trail' ∧ target = target' := by
  obtain ⟨path, n, i, rfl, hn, hat, hdir, hi, hnode⟩ := h
  obtain ⟨path', n', i', hkey, hn', hat', hdir', hi', hnode'⟩ := h'
  have hcomponents := (hat.components_child hn).symm.trans
    ((congrArg components hkey).trans (hat'.components_child hn'))
  obtain ⟨hpath, hlast⟩ := List.append_inj' hcomponents rfl
  obtain ⟨rfl, -⟩ := List.cons.inj hlast
  obtain rfl : trail = trail' := hat.components.unique (hpath ▸ hat'.components)
  obtain rfl : i = i' := Option.some.inj (hi.symm.trans hi')
  exact ⟨rfl, Node.link.inj (hnode.symm.trans hnode')⟩

/-- What a resolution should give, from a dictionary. -/
structure Correct (fs : Fs) (seen : Seen) (out : List Ino) (r : Resolving) : Prop where
  ok : r.ok = true
  at_ : At fs r.path out
  resolved : Resolved fs r.seen
  pending : PendingSub r.seen seen

/-- The recursive call is right for every link it may be made at. -/
def CallCorrect (fs : Fs)
    (resolve : Seen → List Char → List Char → Except RealpathError Resolving) : Prop :=
  ∀ {k : Nat} {seen : Seen} {path target : List Char} {trail out : List Ino} {r : Resolving},
    At fs path trail → Resolved fs seen → Pending fs k seen →
    fs.Walks k (base target trail) (components target) out →
    resolve seen path target = .ok r → Correct fs seen out r

theorem lookup_of_ne {key key' : List Char} {val : Option (List Char)} {seen : Seen}
    (h : key ≠ key') : List.lookup key ((key', val) :: seen) = seen.lookup key := by
  rw [List.lookup_cons, beq_false_of_ne h]

/-- A link taken up: it is pending, with the fewest links its target takes. -/
theorem Pending.push {key : List Char} {seen : Seen} (h : Pending fs k' seen) (hk : k ≤ k')
    (hlink : LinkAt fs key trail target)
    (hleast : ∀ m < k, ∀ out, ¬ fs.Walks m (base target trail) (components target) out) :
    Pending fs k ((key, none) :: seen) := by
  intro key' trail' target' hlookup hlink' m hm
  rcases eq_or_ne key' key with rfl | hne
  · obtain ⟨rfl, rfl⟩ := hlink.unique hlink'
    exact hleast m hm
  · rw [lookup_of_ne hne] at hlookup
    exact h key' trail' target' hlookup hlink' m (Nat.lt_of_lt_of_le hm hk)

theorem Resolved.push {key : List Char} {seen : Seen} (h : Resolved fs seen) :
    Resolved fs ((key, none) :: seen) := by
  intro key' val trail' target' hlookup
  rcases eq_or_ne key' key with rfl | hne
  · rw [List.lookup_cons_self] at hlookup
    cases hlookup
  · rw [lookup_of_ne hne] at hlookup
    exact h key' val trail' target' hlookup

/-- A link resolved. -/
theorem Resolved.set {key val : List Char} {seen : Seen} (h : Resolved fs seen)
    (hlink : LinkAt fs key trail target)
    (hwalk : fs.Walks k (base target trail) (components target) out) (hat : At fs val out) :
    Resolved fs ((key, some val) :: seen) := by
  intro key' val' trail' target' hlookup hlink'
  rcases eq_or_ne key' key with rfl | hne
  · rw [List.lookup_cons_self] at hlookup
    cases hlookup
    obtain ⟨rfl, rfl⟩ := hlink.unique hlink'
    exact ⟨k, out, hwalk, hat⟩
  · rw [lookup_of_ne hne] at hlookup
    exact h key' val' trail' target' hlookup hlink'

/-- Of the two changes only the second stays: nothing is pending that was not before. -/
theorem PendingSub.set {key val : List Char} {seen seen' : Seen}
    (h : PendingSub seen' ((key, none) :: seen)) : PendingSub ((key, some val) :: seen') seen := by
  intro key' hlookup
  rcases eq_or_ne key' key with rfl | hne
  · rw [List.lookup_cons_self] at hlookup
    cases hlookup
  · rw [lookup_of_ne hne] at hlookup
    have hbefore := h key' hlookup
    rwa [lookup_of_ne hne] at hbefore

theorem Pending.sub {seen seen' : Seen} (h : Pending fs k seen) (hsub : PendingSub seen' seen) :
    Pending fs k seen' := fun key trail target hlookup => h key trail target (hsub key hlookup)

theorem Correct.sub {seen seen' : Seen} {r : Resolving} (h : Correct fs seen' out r)
    (hsub : PendingSub seen' seen) : Correct fs seen out r where
  ok := h.ok
  at_ := h.at_
  resolved := h.resolved
  pending := fun key hlookup => hsub key (h.pending key hlookup)

/-! ## `_joinrealpath` -/

/-- The components among the pieces of a path. -/
def pick (pieces : List Name) : List Name := pieces.filter (fun c => c ≠ [] && c ≠ ['.'])

/-- The loop at a name. -/
theorem joinPieces_name {resolve : Seen → List Char → List Char → Except RealpathError Resolving}
    {seen : Seen} {rest : List Name} {r : Resolving} (hn : IsName n)
    (h : joinPieces fs resolve seen path (n :: rest) = .ok r) : '\x00' ∉ join path n ∧
      (match fs.readlink? (join path n) with
      | none => joinPieces fs resolve seen (join path n) rest
      | some target =>
          match seen.lookup (join path n) with
          | some (some resolved) => joinPieces fs resolve seen resolved rest
          | some none => .ok ⟨join (join path n) (unsplit rest), false, seen⟩
          | none =>
              match resolve ((join path n, none) :: seen) path target with
              | .error e => .error e
              | .ok r =>
                  if r.ok then
                    joinPieces fs resolve ((join path n, some r.path) :: r.seen) r.path rest
                  else .ok ⟨join r.path (unsplit rest), false, r.seen⟩) = .ok r := by
  rw [joinPieces, if_neg (fun hempty => hempty.elim hn.nonempty hn.notDot), if_neg hn.notDotdot] at h
  dsimp only at h
  split at h
  · cases h
  · rename_i hnul
    exact ⟨hnul, h⟩

/-- At a link: it leads where the kernel goes, whether it was met before or not. -/
theorem joinLink_correct {resolve : Seen → List Char → List Char → Except RealpathError Resolving}
    (hcall : CallCorrect fs resolve) {seen : Seen} {rest : List Name} {r : Resolving}
    (hat : At fs path trail) (hres : Resolved fs seen) (hpend : Pending fs (k + 1) seen)
    (hn : IsName n) (hdir : fs.node (Fs.top trail) = .dir)
    (hi : fs.look (Fs.top trail, n) = some i) (hnode : fs.node i = .link target)
    (hwalk : fs.Walks k (base target trail) (components target ++ pick rest) out)
    (ih : ∀ {seen : Seen} {path : List Char} {trail : List Ino}, At fs path trail →
      Resolved fs seen → Pending fs (k + 1) seen → fs.Walks (k + 1) trail (pick rest) out →
      joinPieces fs resolve seen path rest = .ok r → Correct fs seen out r)
    (h : joinPieces fs resolve seen path (n :: rest) = .ok r) : Correct fs seen out r := by
  have hlink : LinkAt fs (join path n) trail target := ⟨path, n, i, rfl, hn, hat, hdir, hi, hnode⟩
  obtain ⟨-, h⟩ := joinPieces_name hn h
  rw [(hat.readlink hn hdir hi).mpr hnode] at h
  dsimp only at h
  obtain ⟨mid, htarget, hrest⟩ := hwalk.append rfl
  have hrest' := hrest.mono (Nat.le_succ k)
  split at h
  · -- a link met before leads where it led then
    rename_i resolved hlookup
    obtain ⟨k', mid', hwalk', hat'⟩ := hres _ _ _ _ hlookup hlink
    obtain rfl : mid = mid' := (htarget.mono (Nat.le_max_left k k')).unique
      (hwalk'.mono (Nat.le_max_right k k'))
    exact ih hat' hres hpend hrest' h
  · -- a link met while it is resolved cannot be followed with what is left
    rename_i hlookup
    exact absurd htarget (hpend _ _ _ hlookup hlink k (Nat.lt_succ_self k) mid)
  · split at h
    · cases h
    rename_i r' hresolve
    classical
    have hexists : ∃ m out, fs.Walks m (base target trail) (components target) out :=
      ⟨k, mid, htarget⟩
    obtain ⟨mid', hleast⟩ := Nat.find_spec hexists
    obtain rfl : mid = mid' := htarget.unique (hleast.mono (Nat.find_le ⟨mid, htarget⟩))
    have hnone : ∀ m < Nat.find hexists, ∀ out,
        ¬ fs.Walks m (base target trail) (components target) out := fun m hm out hwalk =>
      Nat.find_min hexists hm ⟨out, hwalk⟩
    have hle : Nat.find hexists ≤ k + 1 := Nat.le_succ_of_le (Nat.find_le ⟨mid, htarget⟩)
    have hcorrect := hcall hat hres.push (hpend.push hle hlink hnone) hleast hresolve
    rw [if_pos hcorrect.ok] at h
    have hsub : PendingSub ((join path n, some r'.path) :: r'.seen) seen :=
      PendingSub.set hcorrect.pending
    have hset := hcorrect.resolved.set hlink hleast hcorrect.at_
    exact (ih hcorrect.at_ hset (hpend.sub hsub) hrest' h).sub hsub

theorem joinPieces_correct {resolve : Seen → List Char → List Char → Except RealpathError Resolving}
    (hcall : CallCorrect fs resolve) {pieces : List Name} (hpieces : ∀ n ∈ pieces, '/' ∉ n) :
    ∀ {k : Nat} {seen : Seen} {path : List Char} {trail out : List Ino} {r : Resolving},
      At fs path trail → Resolved fs seen → Pending fs k seen → fs.Walks k trail (pick pieces) out →
      joinPieces fs resolve seen path pieces = .ok r → Correct fs seen out r := by
  induction pieces with
  | nil =>
      intro k seen path trail out r hat hres hpend hwalk h
      cases hwalk
      cases h
      exact ⟨rfl, hat, hres, fun _ hlookup => hlookup⟩
  | cons n rest ih =>
      intro k seen path trail out r hat hres hpend hwalk h
      have hrest : ∀ m ∈ rest, '/' ∉ m := fun m hm => hpieces m (List.mem_cons_of_mem _ hm)
      by_cases hempty : n = [] ∨ n = ['.']
      · have hpick : pick (n :: rest) = pick rest := by
          rcases hempty with rfl | rfl <;> rfl
        rw [joinPieces, if_pos hempty] at h
        exact ih hrest hat hres hpend (hpick ▸ hwalk) h
      have hpick : pick (n :: rest) = n :: pick rest :=
        List.filter_cons_of_pos (by simpa [not_or] using hempty)
      rw [hpick] at hwalk
      by_cases hdotdot : n = dotdot
      · subst hdotdot
        rw [joinPieces, if_neg hempty, if_pos rfl] at h
        cases hwalk with
        | up _ hwalk => exact ih hrest hat.up hres hpend hwalk h
        | enter _ hn => exact absurd rfl hn
        | follow _ hn => exact absurd rfl hn
      have hn : IsName n := ⟨fun h => hempty (.inl h), fun h => hempty (.inr h), hdotdot,
        hpieces n List.mem_cons_self⟩
      cases hwalk with
      | up => exact absurd rfl hdotdot
      | follow hdir _ hi hnode hwalk =>
          exact joinLink_correct hcall hat hres hpend hn hdir hi hnode hwalk (ih hrest) h
      | @enter _ _ _ _ _ i hdir _ hi hd hwalk =>
          obtain ⟨hnul, h⟩ := joinPieces_name hn h
          have hnone : fs.readlink? (join path n) = none := by
            refine Option.eq_none_iff_forall_ne_some.mpr fun target htarget => ?_
            rw [(hat.readlink hn hdir hi).mp htarget] at hd
            cases hd
          rw [hnone] at h
          exact ih hrest (hat.enter hn hnul hdir hi hd) hres hpend hwalk h

theorem joinRealpath_correct (fs : Fs) (depth : Nat) : CallCorrect fs (joinRealpath fs depth) := by
  induction depth with
  | zero =>
      intro k seen path target trail out r _ _ _ _ h
      cases h
  | succ depth ih =>
      intro k seen path target trail out r hat hres hpend hwalk h
      rw [joinRealpath] at h
      rw [base] at hwalk
      split at h
      · rename_i habs
        rw [if_pos habs] at hwalk
        obtain ⟨rest, rfl⟩ := isAbs_eq_cons habs
        rw [components_slash] at hwalk
        exact joinPieces_correct ih (fun n hn => mem_splitOn_noSlash hn) (At.root fs) hres hpend hwalk h
      · rename_i habs
        rw [if_neg habs] at hwalk
        exact joinPieces_correct ih (fun n hn => mem_splitOn_noSlash hn) hat hres hpend hwalk h

/-- The path of a linkless place is in normal form. -/
theorem At.normpath (h : At fs path trail) : Posix.normpath path = path := by
  obtain ⟨-, ns, hns, rfl, -⟩ := h
  exact normpath_str ⟨false, ns, hns⟩

/-- **`realpath` agrees with the kernel.**  If the kernel resolves the path, what `realpath`
returns leads to the same place, with no link and no `..` on the way. -/
theorem realpath_correct {depth : Nat} {cwd real : List Char} (hcwd : isAbs cwd = true)
    (h : realpath fs depth cwd path = .ok real)
    (hwalk : fs.Walks k [] (components (join cwd path)) out) : At fs real out := by
  have habs : isAbs (join cwd path) = true := by
    obtain ⟨rest, rfl⟩ := isAbs_eq_cons hcwd
    rw [join]
    split
    · assumption
    · split <;> rfl
  rw [realpath] at h
  split at h
  · cases h
  · rename_i r hr
    cases h
    obtain ⟨rest, hrest⟩ := isAbs_eq_cons habs
    rw [hrest] at hr hwalk
    have hroot : joinRealpath fs depth [] ['/'] ('/' :: rest) = .ok r := by
      rw [← hr]
      cases depth <;> rfl
    have hbase : base ('/' :: rest) [] = [] := if_pos rfl
    have hcorrect := joinRealpath_correct fs depth (At.root fs) (Resolved.nil fs)
      (Pending.nil fs k) (hbase ▸ hwalk) hroot
    rw [hcorrect.at_.normpath]
    exact hcorrect.at_

/-! ## What a linkless path says about the tree -/

/-- The inode is reached from the directory by entries, none of them a symbolic link. -/
inductive Under (fs : Fs) (d : Ino) : Ino → Prop
  | here : Under fs d d
  | child {a b : Ino} {n : Name} : Under fs d a → fs.node a = .dir → fs.look (a, n) = some b →
      (fs.node b).direct = true → Under fs d b

theorem Fs.Walks.under (h : fs.Walks 0 trail names out) (hnames : ∀ n ∈ names, IsName n) :
    Under fs (Fs.top trail) (Fs.top out) := by
  induction names using List.reverseRecOn generalizing out with
  | nil =>
      cases h
      exact .here
  | append_singleton ns n ih =>
      have hn := hnames n (List.mem_append_right _ (List.mem_singleton.mpr rfl))
      obtain ⟨mid, hfirst, hlast⟩ := h.append rfl
      cases hlast with
      | up => exact absurd rfl hn.notDotdot
      | enter hdir _ hi hd hrest =>
          cases hrest
          exact (ih hfirst fun m hm => hnames m (List.mem_append_left _ hm)).child hdir hi hd

theorem At.stat (h : At fs path trail) : fs.stat path = .ok (Fs.top trail) :=
  Fs.stat_ok.mpr ⟨trail, h.components.mono (Nat.zero_le _), rfl⟩

/-- A directory above a linkless path is linkless, and the path's place is under it. -/
theorem At.above (h : At fs path trail) {top : List Name} (htop : top <+: Posix.components path) :
    ∃ mid, At fs (render top) mid ∧ Under fs (Fs.top mid) (Fs.top trail) := by
  obtain ⟨hnul, ns, hns, rfl, hwalk⟩ := h
  rw [components_render hns] at htop
  obtain ⟨rest, rfl⟩ := htop
  obtain ⟨mid, hfirst, hlast⟩ := hwalk.append rfl
  have htop : ∀ n ∈ top, IsName n := fun n hn => hns n (List.mem_append_left _ hn)
  have hrest : ∀ n ∈ rest, IsName n := fun n hn => hns n (List.mem_append_right _ hn)
  exact ⟨mid, ⟨fun hmem => hnul (mem_render_append hmem rest), top, htop, rfl, hfirst⟩,
    hlast.under hrest⟩

/-! ## Paths that are left as they are -/

/-- A name that is not that of a link is appended. -/
theorem joinPieces_step {resolve : Seen → List Char → List Char → Except RealpathError Resolving}
    {seen : Seen} {rest : List Name} (hn : IsName n) (hnul : '\x00' ∉ join path n)
    (hlink : fs.readlink? (join path n) = none) :
    joinPieces fs resolve seen path (n :: rest) = joinPieces fs resolve seen (join path n) rest := by
  rw [joinPieces, if_neg (fun hempty => hempty.elim hn.nonempty hn.notDot), if_neg hn.notDotdot]
  dsimp only
  rw [if_neg hnul, hlink]

theorem not_mem_join {c : Char} (hc : c ≠ '/') (hpath : c ∉ path) (hname : c ∉ n) :
    c ∉ join path n := by
  rw [join]
  split
  · exact hname
  · split
    · exact fun hmem => (List.mem_append.mp hmem).elim hpath hname
    · intro hmem
      rcases List.mem_append.mp hmem with hmem | hmem
      · exact hpath hmem
      · rcases List.mem_cons.mp hmem with hslash | hmem
        · exact hc hslash
        · exact hname hmem

/-- The loop takes linkless names as they are. -/
theorem joinPieces_at {resolve : Seen → List Char → List Char → Except RealpathError Resolving}
    {seen : Seen} {rest : List Name} (hns : ∀ n ∈ ns, IsName n ∧ '\x00' ∉ n)
    (hat : At fs path trail) (hwalk : fs.Walks 0 trail ns out) :
    ∃ path', At fs path' out ∧ Posix.components path' = Posix.components path ++ ns ∧
      joinPieces fs resolve seen path (ns ++ rest) = joinPieces fs resolve seen path' rest := by
  induction ns generalizing path trail with
  | nil =>
      cases hwalk
      exact ⟨path, hat, (List.append_nil _).symm, rfl⟩
  | cons n ns ih =>
      obtain ⟨hn, hnul⟩ := hns n List.mem_cons_self
      have hjoin : '\x00' ∉ join path n := not_mem_join (by decide) hat.1 hnul
      cases hwalk with
      | up => exact absurd rfl hn.notDotdot
      | @enter _ _ _ _ _ i hdir _ hi hd hwalk =>
          have hnone : fs.readlink? (join path n) = none := by
            refine Option.eq_none_iff_forall_ne_some.mpr fun target htarget => ?_
            rw [(hat.readlink hn hdir hi).mp htarget] at hd
            cases hd
          obtain ⟨path', hat', hcomponents, hloop⟩ := ih
            (fun m hm => hns m (List.mem_cons_of_mem _ hm)) (hat.enter hn hjoin hdir hi hd) hwalk
          refine ⟨path', hat', ?_, ?_⟩
          · rw [hcomponents, hat.components_child hn, List.append_assoc]
            rfl
          · rw [List.cons_append, joinPieces_step hn hjoin hnone]
            exact hloop

/-- A linkless path is that of its components. -/
theorem At.eq_render (h : At fs path trail) : path = render (Posix.components path) := by
  obtain ⟨-, ns, hns, rfl, -⟩ := h
  rw [components_render hns]

theorem splitOn_render (hns : ∀ m ∈ ns, IsName m) (hne : ns ≠ []) :
    ((render ns).drop 1).splitOn '/' = ns := by
  rw [← slash_intercalate]
  exact List.splitOn_intercalate '/' (fun m hm => (hns m hm).noSlash) hne

/-- **A free name in a linkless directory** is its own real path. -/
theorem realpath_free {depth : Nat} (cwd : List Char) (hat : At fs path trail) (hn : IsName n)
    (hnul : '\x00' ∉ n) (hdir : fs.node (Fs.top trail) = .dir)
    (hfree : fs.look (Fs.top trail, n) = none) :
    realpath fs (depth + 1) cwd (join path n) = .ok (join path n) := by
  obtain ⟨hpath, ns, hns, rfl, hwalk⟩ := hat
  have hall : ∀ m ∈ ns ++ [n], IsName m := by
    intro m hm
    rcases List.mem_append.mp hm with hold | hnew
    · exact hns m hold
    · rw [List.mem_singleton.mp hnew]
      exact hn
  have habs : isAbs (render (ns ++ [n])) = true := AbsPath.isAbs_str ⟨false, _, hall⟩
  have hnonul : ∀ m ∈ ns, IsName m ∧ '\x00' ∉ m := by
    intro m hm
    exact ⟨hns m hm, fun hmem => hpath (mem_render_of_mem hm hmem)⟩
  obtain ⟨path', hat', hcomponents, hloop⟩ : ∃ path', At fs path' trail ∧
      Posix.components path' = Posix.components ['/'] ++ ns ∧
      joinPieces fs (joinRealpath fs depth) [] ['/'] (ns ++ [n])
        = joinPieces fs (joinRealpath fs depth) [] path' [n] :=
    joinPieces_at hnonul (At.root fs) hwalk
  have hpath' : path' = render ns := by
    rw [hat'.eq_render, hcomponents]
    rfl
  subst hpath'
  have hnone : fs.readlink? (join (render ns) n) = none := by
    rw [Fs.readlink?, Fs.lstat, hat'.locate hn hdir]
    dsimp only
    rw [hfree]
  rw [realpath, join_render hns hn, join, if_pos habs, joinRealpath, if_pos habs,
    splitOn_render hall (List.append_ne_nil_of_right_ne_nil _ (List.cons_ne_nil _ _)), hloop,
    joinPieces_step hn (not_mem_join (by decide) hpath hnul) hnone, joinPieces]
  dsimp only
  rw [join_render hns hn]
  exact congrArg Except.ok (normpath_str ⟨false, _, hall⟩)

end Posix
