import DryDb.Reader.Descent
import DryDb.Reader.PageKeys
/-!
# Trees by their keys

A tree whose leaves ascend and whose separators are the first keys below them is fenced for
every valid key (`Guarded.fenced`).
-/

namespace DryDb

open List

section

variable {ρ : Type} [LinearOrder ρ] {rank : Bytes → ρ} {t : Tree}

/-! ## Leaves -/

/-- The key of an entry, given the keys of each page. -/
def keyAt (keysOf : PagePin → List Bytes) (x : Place) : Bytes := (keysOf x.1).getD x.2 []

/-- The leaves of a tree by their keys. -/
structure LeafKeys (t : Tree) (rank : Bytes → ρ) (keysOf : PagePin → List Bytes) (leaves : List PagePin) : Prop where
  keys : ∀ pin ∈ leaves, pin.view.kind = .leaf ∧ PageKeys t pin.view (keysOf pin)
  ascending : (places leaves).Pairwise fun a b => rank (keyAt keysOf a) < rank (keyAt keysOf b)

variable {keysOf : PagePin → List Bytes} {leaves : List PagePin} {pin : PagePin} {segs : List (List PagePin)}
  {seg : List PagePin}

theorem pairwise_keysOf (hl : (keysOf pin).length = pin.view.entryCount) {R : Bytes → Bytes → Prop}
    (h : pin.places.Pairwise fun a b => R (keyAt keysOf a) (keyAt keysOf b)) : (keysOf pin).Pairwise R := by
  rw [pairwise_iff_getElem]
  intro i j hi hj hij
  rw [PagePin.places, pairwise_map] at h
  have hlen : (List.range pin.view.entryCount).length = pin.view.entryCount := length_range
  have := pairwise_iff_getElem.1 h i j (by omega) (by omega) hij
  simpa [keyAt, List.getD, getElem?_eq_getElem hi, getElem?_eq_getElem hj] using this

/-- Every valid key has its place among the leaves. -/
theorem LeafKeys.placed (h : LeafKeys t rank keysOf leaves) (ho : t.encoding.OrderedBy rank) {q : Bytes} {d : UInt64}
    (hq : t.encoding.Accepts q) (hd : t.encoding.digest q = .ok d) :
    Placed t q d leaves fun x => compare (rank (keyAt keysOf x)) (rank q) where
  sorted pin hp := by
    obtain ⟨hkind, hk⟩ := h.keys pin hp
    have hasc : (keysOf pin).Pairwise fun a b => rank a < rank b :=
      pairwise_keysOf hk.length ((pairwise_flatMap.1 h.ascending).1 pin hp)
    exact hk.sorted ho hasc hq hd fun i key hi => hk.leaf hkind i key hi q d hq hd
  rises := h.ascending.imp fun hab => rises_of_le hab.le

/-! ## Separators -/

/-- A run of leaves begins with this key. -/
def BeginsWith (keysOf : PagePin → List Bytes) (seg : List PagePin) (key : Bytes) : Prop :=
  ∃ x rest, places seg = x :: rest ∧ keyAt keysOf x = key

/-- An internal page whose separators are the first keys below it. -/
structure Guarded (t : Tree) (rank : Bytes → ρ) (keysOf : PagePin → List Bytes) (pin : PagePin)
    (segs : List (List PagePin)) : Prop where
  keys : ∃ seps, PageKeys t pin.view seps ∧ List.Forall₂ (BeginsWith keysOf) segs seps
  ascending : (places segs.flatten).Pairwise fun a b => rank (keyAt keysOf a) < rank (keyAt keysOf b)

/-- The entries of earlier parts are below what a later part begins with. -/
theorem Guarded.before (h : Guarded t rank keysOf pin segs) {i : Nat}
    {sep : Bytes} (hi : segs[i]? = some seg) (hb : BeginsWith keysOf seg sep) {x : Place}
    (hx : x ∈ places (segs.take i).flatten) : rank (keyAt keysOf x) < rank sep := by
  obtain ⟨y, rest, hy, rfl⟩ := hb
  have hasc := h.ascending
  rw [flatten_split hi, places_append, places_append, hy] at hasc
  exact (pairwise_append.1 (pairwise_append.1 hasc).1).2.2 x hx y mem_cons_self

/-- The entries from a part on are not below what it begins with. -/
theorem Guarded.after (h : Guarded t rank keysOf pin segs) {i : Nat}
    {sep : Bytes} (hi : segs[i]? = some seg) (hb : BeginsWith keysOf seg sep) {x : Place}
    (hx : x ∈ places (segs.drop i).flatten) : rank sep ≤ rank (keyAt keysOf x) := by
  obtain ⟨y, rest, hy, rfl⟩ := hb
  obtain ⟨hlt, rfl⟩ := List.getElem?_eq_some_iff.1 hi
  have hasc := h.ascending
  rw [← take_append_drop i segs, flatten_append, places_append] at hasc
  have hdrop := (pairwise_append.1 hasc).2.1
  rw [drop_eq_getElem_cons hlt, flatten_cons, places_append, hy] at hdrop hx
  rw [cons_append, pairwise_cons] at hdrop
  rw [cons_append, mem_cons] at hx
  rcases hx with rfl | hx
  · exact le_rfl
  · exact (hdrop.1 x hx).le

theorem Guarded.fenced (h : Guarded t rank keysOf pin segs)
    (ho : t.encoding.OrderedBy rank) (hkind : pin.view.kind = .internal) {q : Bytes} {d : UInt64}
    (hq : t.encoding.Accepts q) (hd : t.encoding.digest q = .ok d) :
    Fenced True t q d (fun x => compare (rank (keyAt keysOf x)) (rank q)) pin segs := by
  obtain ⟨seps, hk, hbegin⟩ := h.keys
  have hlen := hbegin.length_eq
  -- The part and the separator at an index.
  have hat : ∀ i, i < pin.view.entryCount → ∃ seg, segs[i]? = some seg ∧ BeginsWith keysOf seg (seps.getD i []) := by
    intro i hi
    have h1 : i < seps.length := by rw [hk.length]; exact hi
    refine ⟨segs[i], getElem?_eq_getElem (by omega), ?_⟩
    have := hbegin.get (i := i) (by omega) h1
    simpa [List.getD, getElem?_eq_getElem h1] using this
  have hasc : seps.Pairwise fun a b => rank a < rank b := by
    rw [pairwise_iff_getElem]
    intro i j hi hj hij
    obtain ⟨segj, hsj, hbj⟩ := hat j (by rw [← hk.length]; exact hj)
    obtain ⟨segi, hsi, x, rest, hx, hkx⟩ := hat i (by rw [← hk.length]; exact hi)
    have hmem : x ∈ places (segs.take j).flatten := by
      have hti : (segs.take j)[i]? = some segi := by rw [getElem?_take, if_pos hij, hsi]
      rw [flatten_split hti, places_append, places_append, hx]
      simp
    have := h.before hsj hbj hmem
    rw [hkx] at this
    simpa [List.getD, getElem?_eq_getElem hi, getElem?_eq_getElem hj] using this
  refine ⟨_, hk.sorted ho hasc hq hd fun i key hi => hk.internal hkind i key hi q d hq hd, ?_, ?_, ?_⟩
  · intro i hi hc x hx
    obtain ⟨seg, hs, hb⟩ := hat i hi
    have hle : rank (seps.getD i []) ≤ rank q := by
      rw [← compare_le_iff_le]
      rcases hc with hc | ⟨hc, -⟩ <;> rw [hc] <;> decide
    rw [compare_lt_iff_lt]
    exact lt_of_lt_of_le (h.before hs hb hx) hle
  · intro _ i hi hc x hx
    obtain ⟨seg, hs, hb⟩ := hat i hi
    rw [compare_gt_iff_gt] at hc
    rw [Ne, compare_eq_iff_eq]
    exact (lt_of_lt_of_le hc (h.after hs hb hx)).ne'
  · intro _ i hi hc _ x hx
    rw [compare_eq_iff_eq] at hc
    rw [Ne, compare_eq_iff_eq]
    by_cases hi' : i + 1 < pin.view.entryCount
    · obtain ⟨seg, hs, hb⟩ := hat (i + 1) hi'
      have h1 : i < seps.length := by rw [hk.length]; exact hi
      have h2 : i + 1 < seps.length := by rw [hk.length]; exact hi'
      have hlt := pairwise_iff_getElem.1 hasc i (i + 1) h1 h2 (by omega)
      have hge := h.after hs hb hx
      simp only [List.getD, getElem?_eq_getElem h1, getElem?_eq_getElem h2, Option.getD_some] at hc hge
      exact (lt_of_lt_of_le (hc ▸ hlt) hge).ne'
    · rw [drop_of_length_le (by rw [hlen, hk.length]; omega)] at hx
      simp at hx

end

end DryDb
