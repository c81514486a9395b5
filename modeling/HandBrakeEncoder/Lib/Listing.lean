/-
# `Lib.Listing` — lists whose elements stand at ordered positions

`Listing At xs`: the elements of `xs` stand at positions that increase along the
list, and the pairs of a position and its element are exactly those `At` relates.
So `xs` holds every element `At` speaks of, each once for each of its positions,
and nothing else.  A search from the front therefore finds the least position.
-/
import Mathlib.Data.List.Lex
import Mathlib.Order.Lattice

namespace Lib

variable {ι α : Type*} [LinearOrder ι]

/-- The elements of a list are those at the positions of `At`, in their order. -/
def Listing (At : ι → α → Prop) (xs : List α) : Prop :=
  ∃ entries : List (ι × α), xs = entries.map Prod.snd ∧
    entries.Pairwise (fun a b => a.1 < b.1) ∧ ∀ p x, (p, x) ∈ entries ↔ At p x

namespace Listing

variable {At Bt : ι → α → Prop} {xs ys : List α}

theorem nil (h : ∀ p x, ¬ At p x) : Listing At [] :=
  ⟨[], rfl, List.Pairwise.nil, fun p x => ⟨fun hmem => absurd hmem List.not_mem_nil,
    fun hat => absurd hat (h p x)⟩⟩

theorem singleton (p : ι) (x : α) : Listing (fun q y => q = p ∧ y = x) [x] :=
  ⟨[(p, x)], rfl, List.pairwise_singleton _ _, fun q y => by
    rw [List.mem_singleton, Prod.mk.injEq]⟩

theorem congr (h : Listing At xs) (hAt : ∀ p x, At p x ↔ Bt p x) : Listing Bt xs := by
  obtain ⟨entries, hxs, hsorted, hmem⟩ := h
  exact ⟨entries, hxs, hsorted, fun p x => (hmem p x).trans (hAt p x)⟩

/-- Two lists follow each other when the positions of the first all lie below. -/
theorem append (hx : Listing At xs) (hy : Listing Bt ys)
    (hlt : ∀ p x q y, At p x → Bt q y → p < q) :
    Listing (fun p x => At p x ∨ Bt p x) (xs ++ ys) := by
  obtain ⟨entries, hxs, hsorted, hmem⟩ := hx
  obtain ⟨entries', hys, hsorted', hmem'⟩ := hy
  refine ⟨entries ++ entries', ?_, ?_, ?_⟩
  · rw [hxs, hys, List.map_append]
  · refine List.pairwise_append.mpr ⟨hsorted, hsorted', ?_⟩
    intro a ha b hb
    exact hlt a.1 a.2 b.1 b.2 ((hmem _ _).mp ha) ((hmem' _ _).mp hb)
  · intro p x
    rw [List.mem_append, hmem, hmem']

/-- A strictly increasing change of positions. -/
theorem map {κ : Type*} [LinearOrder κ] {f : ι → κ} (hf : StrictMono f) (h : Listing At xs) :
    Listing (fun q x => ∃ p, q = f p ∧ At p x) xs := by
  obtain ⟨entries, hxs, hsorted, hmem⟩ := h
  refine ⟨entries.map (fun a => (f a.1, a.2)), ?_, ?_, ?_⟩
  · rw [List.map_map]
    exact hxs
  · rw [List.pairwise_map]
    exact hsorted.imp (fun hab => hf hab)
  · intro q x
    rw [List.mem_map]
    constructor
    · rintro ⟨⟨p, y⟩, hpy, heq⟩
      cases heq
      exact ⟨p, rfl, (hmem p y).mp hpy⟩
    · rintro ⟨p, rfl, hat⟩
      exact ⟨(p, x), (hmem p x).mpr hat, rfl⟩

/-! ## Searching from the front -/

/-- The first element of a kind is the one at the least of the kind's positions. -/
theorem find?_eq_some_iff (h : Listing At xs) (q : α → Bool) (x : α) :
    xs.find? q = some x ↔
      ∃ p, At p x ∧ q x = true ∧ ∀ p' x', At p' x' → q x' = true → p ≤ p' := by
  obtain ⟨entries, rfl, hsorted, hmem⟩ := h
  simp only [← hmem]
  clear hmem
  induction entries with
  | nil =>
      simp
  | cons a entries ih =>
      obtain ⟨habove, hsorted⟩ := List.pairwise_cons.mp hsorted
      rw [List.map_cons, List.find?_cons]
      cases ha : q a.2 with
      | true =>
          constructor
          · intro heq
            cases heq
            refine ⟨a.1, List.mem_cons_self, ha, ?_⟩
            intro p' x' hmem _
            rcases List.mem_cons.mp hmem with rfl | hmem
            · exact le_refl _
            · exact (habove _ hmem).le
          · rintro ⟨p, hmem, hx, hleast⟩
            rcases List.mem_cons.mp hmem with rfl | hmem
            · rfl
            · exact absurd (habove _ hmem) (not_lt.mpr (hleast a.1 a.2 List.mem_cons_self ha))
      | false =>
          rw [ih hsorted]
          refine exists_congr (fun p => ?_)
          -- `a` is not of the kind, so it neither is the entry sought nor bounds one
          have hne : ∀ p' x', q x' = true → ((p', x') ∈ a :: entries ↔ (p', x') ∈ entries) := by
            intro p' x' hx'
            rw [List.mem_cons, or_iff_right]
            rintro rfl
            rw [ha] at hx'
            cases hx'
          constructor
          · rintro ⟨hmem, hx, hleast⟩
            exact ⟨(hne p x hx).mpr hmem, hx,
              fun p' x' h' hx' => hleast p' x' ((hne p' x' hx').mp h') hx'⟩
          · rintro ⟨hmem, hx, hleast⟩
            exact ⟨(hne p x hx).mp hmem, hx,
              fun p' x' h' hx' => hleast p' x' ((hne p' x' hx').mpr h') hx'⟩

/-- There is no element of a kind iff no position holds one. -/
theorem find?_eq_none_iff (h : Listing At xs) (q : α → Bool) :
    xs.find? q = none ↔ ∀ p x, At p x → q x = false := by
  obtain ⟨entries, rfl, _, hmem⟩ := h
  rw [List.find?_eq_none]
  constructor
  · intro hnone p x hat
    have := hnone x (List.mem_map.mpr ⟨(p, x), (hmem p x).mpr hat, rfl⟩)
    simpa using this
  · intro hnone x hx
    obtain ⟨⟨p, y⟩, hpy, rfl⟩ := List.mem_map.mp hx
    rw [hnone p y ((hmem p y).mp hpy)]
    exact Bool.false_ne_true

end Listing

end Lib
