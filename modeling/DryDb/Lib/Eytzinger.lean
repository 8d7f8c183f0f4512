import Mathlib
/-!
# Complete binary trees stored level by level

Node `i` of such a tree has the children `2 * i` and `2 * i + 1`, and the root is node 1.
`inorder h i` lists the nodes of the subtree of height `h` below `i` from left to right.
A sorted sequence is stored along that list, and a search goes down from the root,
right at every node that lies below its target. `descend_spec` says where it comes out,
whatever the tree holds.
-/

namespace Eytzinger

/-- The nodes of the subtree of height `h` below `i`, left to right. -/
def inorder : Nat → Nat → List Nat
  | 0, _ => []
  | h + 1, i => inorder h (2 * i) ++ i :: inorder h (2 * i + 1)

@[simp] theorem length_inorder (h i : Nat) : (inorder h i).length = 2 ^ h - 1 := by
  induction h generalizing i with
  | zero => rfl
  | succ h ih =>
    have := Nat.one_le_two_pow (n := h)
    simp only [inorder, List.length_append, List.length_cons, ih, Nat.pow_succ]
    omega

variable {i n : Nat}

/-- A node of the subtree below `i` lies `d` levels under it, `d` below the height. -/
theorem mem_inorder {h : Nat} (hn : n ∈ inorder h i) : ∃ d < h, i * 2 ^ d ≤ n ∧ n < (i + 1) * 2 ^ d := by
  induction h generalizing i with
  | zero => simp [inorder] at hn
  | succ h ih =>
    rw [inorder, List.mem_append, List.mem_cons] at hn
    rcases hn with hn | rfl | hn
    · obtain ⟨d, hd, h1, h2⟩ := ih hn
      refine ⟨d + 1, by omega, ?_, ?_⟩ <;> rw [Nat.pow_succ] <;> nlinarith
    · exact ⟨0, by omega, by simp, by simp⟩
    · obtain ⟨d, hd, h1, h2⟩ := ih hn
      refine ⟨d + 1, by omega, ?_, ?_⟩ <;> rw [Nat.pow_succ] <;> nlinarith

theorem le_of_mem_inorder {h : Nat} (hn : n ∈ inorder h i) : i ≤ n := by
  obtain ⟨d, -, h1, -⟩ := mem_inorder hn
  exact le_trans (Nat.le_mul_of_pos_right i (by positivity)) h1

/-- The nodes of a tree of height `h` are numbered up to `2 ^ h - 1`. -/
theorem lt_of_mem_inorder {h : Nat} (hn : n ∈ inorder h 1) : n < 2 ^ h := by
  obtain ⟨d, hd, -, h2⟩ := mem_inorder hn
  calc n < (1 + 1) * 2 ^ d := h2
    _ = 2 ^ (d + 1) := by ring
    _ ≤ 2 ^ h := Nat.pow_le_pow_right (by norm_num) hd

/-- No node lies below both children of `i`. -/
private theorem children_disjoint {h : Nat} (hi : 0 < i) (hl : n ∈ inorder h (2 * i)) :
    n ∉ inorder h (2 * i + 1) := by
  intro hr
  obtain ⟨d, -, h1, h2⟩ := mem_inorder hl
  obtain ⟨e, -, h3, h4⟩ := mem_inorder hr
  have hle : 2 ^ d < 2 ^ (e + 1) := by
    by_contra hc
    have : 2 ^ (e + 1) ≤ 2 ^ d := by omega
    rw [Nat.pow_succ] at this
    nlinarith
  have hge : 2 ^ e < 2 ^ (d + 1) := by
    by_contra hc
    have : 2 ^ (d + 1) ≤ 2 ^ e := by omega
    rw [Nat.pow_succ] at this
    nlinarith
  have h1' := (Nat.pow_lt_pow_iff_right (by norm_num : 1 < 2)).1 hle
  have h2' := (Nat.pow_lt_pow_iff_right (by norm_num : 1 < 2)).1 hge
  have : d = e := by omega
  subst this
  omega

theorem nodup_inorder (h : Nat) (hi : 0 < i) : (inorder h i).Nodup := by
  induction h generalizing i with
  | zero => simp [inorder]
  | succ h ih =>
    rw [inorder, List.nodup_append]
    refine ⟨ih (by omega), List.nodup_cons.2 ⟨fun hn => ?_, ih (by omega)⟩, ?_⟩
    · have := le_of_mem_inorder hn
      omega
    · rintro a ha b hb rfl
      rcases List.mem_cons.1 hb with rfl | hb
      · have := le_of_mem_inorder ha
        omega
      · exact children_disjoint hi ha hb

/-- Every number of a node is there. -/
theorem mem_inorder_root {h : Nat} (h1 : 1 ≤ n) (h2 : n < 2 ^ h) : n ∈ inorder h 1 := by
  have hsub : inorder h 1 ⊆ List.range' 1 (2 ^ h - 1) := by
    intro m hm
    have hge := le_of_mem_inorder hm
    have hlt := lt_of_mem_inorder hm
    exact List.mem_range'_1.2 ⟨hge, by omega⟩
  have hperm := (List.subperm_of_subset (nodup_inorder h one_pos) hsub).perm_of_length_le (by simp [length_inorder])
  exact hperm.mem_iff.2 (List.mem_range'_1.2 ⟨h1, by omega⟩)

/-! ## The branch-free descent -/

/-- Goes down `h` levels from `i`, right where `below` holds. -/
def descend (below : Nat → Bool) : Nat → Nat → Nat
  | 0, i => i
  | h + 1, i => descend below h (2 * i + if below i then 1 else 0)

/-- The descent comes out at a gap of the in-order sequence: the node before it is below
the target and the node after it is not. The tree need not be sorted. -/
theorem descend_spec (below : Nat → Bool) (h i : Nat) :
    ∃ r, descend below h i = i * 2 ^ h + r ∧ r ≤ 2 ^ h - 1 ∧
      (∀ n, 0 < r → (inorder h i)[r - 1]? = some n → below n = true) ∧
      (∀ n, (inorder h i)[r]? = some n → below n = false) := by
  induction h generalizing i with
  | zero => exact ⟨0, by simp [descend], by simp, by simp, by simp [inorder]⟩
  | succ h ih =>
    have hpos := Nat.one_le_two_pow (n := h)
    have hlen := length_inorder h (2 * i)
    cases hb : below i with
    | true =>
      obtain ⟨r, he, hr, hlo, hhi⟩ := ih (2 * i + 1)
      refine ⟨2 ^ h + r, ?_, by rw [Nat.pow_succ]; omega, ?_, ?_⟩
      · simp only [descend, hb, if_true, he, Nat.pow_succ]
        ring
      · intro n _ hn
        rw [inorder, List.getElem?_append_right (by omega), hlen] at hn
        rcases Nat.eq_zero_or_pos r with rfl | h0
        · rw [show 2 ^ h + 0 - 1 - (2 ^ h - 1) = 0 by omega] at hn
          simp only [List.getElem?_cons_zero, Option.some.injEq] at hn
          exact hn ▸ hb
        · rw [show 2 ^ h + r - 1 - (2 ^ h - 1) = (r - 1) + 1 by omega, List.getElem?_cons_succ] at hn
          exact hlo n h0 hn
      · intro n hn
        rw [inorder, List.getElem?_append_right (by omega), hlen,
          show 2 ^ h + r - (2 ^ h - 1) = r + 1 by omega, List.getElem?_cons_succ] at hn
        exact hhi n hn
    | false =>
      obtain ⟨r, he, hr, hlo, hhi⟩ := ih (2 * i)
      refine ⟨r, ?_, by rw [Nat.pow_succ]; omega, ?_, ?_⟩
      · simp only [descend, hb, Bool.false_eq_true, if_false, Nat.add_zero, he, Nat.pow_succ]
        ring
      · intro n h0 hn
        rw [inorder, List.getElem?_append_left (by omega)] at hn
        exact hlo n h0 hn
      · intro n hn
        rcases Nat.lt_or_ge r (2 ^ h - 1) with hlt | hge
        · rw [inorder, List.getElem?_append_left (by omega)] at hn
          exact hhi n hn
        · rw [inorder, List.getElem?_append_right (by omega), hlen, show r - (2 ^ h - 1) = 0 by omega] at hn
          simp only [List.getElem?_cons_zero, Option.some.injEq] at hn
          exact hn ▸ hb

/-! ## Subtrees of a tree with `size` nodes -/

/-- `i` is a node of a complete tree of `size` nodes and the subtree below it has height
`h`; height zero is a place just past the leaves. -/
def Below (size h i : Nat) : Prop := size + 1 ≤ i * 2 ^ h ∧ (i + 1) * 2 ^ h ≤ 2 * (size + 1)

namespace Below

variable {size h i : Nat}

theorem root (h : Nat) : Below (2 ^ h - 1) h 1 := by
  have := Nat.one_le_two_pow (n := h)
  constructor <;> omega

theorem left (hb : Below size (h + 1) i) : Below size h (2 * i) := by
  obtain ⟨h1, h2⟩ := hb
  rw [Nat.pow_succ] at h1 h2
  have := Nat.one_le_two_pow (n := h)
  constructor <;> nlinarith

theorem right (hb : Below size (h + 1) i) : Below size h (2 * i + 1) := by
  obtain ⟨h1, h2⟩ := hb
  rw [Nat.pow_succ] at h1 h2
  constructor <;> nlinarith

theorem past (hb : Below size 0 i) : size < i := by
  have := hb.1
  simp only [Nat.pow_zero, Nat.mul_one] at this
  omega

theorem inside (hb : Below size (h + 1) i) : i ≤ size := by
  have h2 := hb.2
  rw [Nat.pow_succ] at h2
  have := Nat.one_le_two_pow (n := h)
  nlinarith

end Below

/-! ## Writing along the in-order sequence -/

section Scatter

variable {α : Type} {pairs : List (Nat × α)}

/-- Stores values at nodes; node `n` is slot `n - 1`. -/
def scatter (slots : List α) (pairs : List (Nat × α)) : List α :=
  pairs.foldl (fun s p => s.set (p.1 - 1) p.2) slots

@[simp] theorem length_scatter (slots : List α) (pairs : List (Nat × α)) :
    (scatter slots pairs).length = slots.length := by
  unfold scatter
  induction pairs generalizing slots with
  | nil => rfl
  | cons p pairs ih => rw [List.foldl_cons, ih, List.length_set]

theorem scatter_append (slots : List α) (a b : List (Nat × α)) :
    scatter slots (a ++ b) = scatter (scatter slots a) b := List.foldl_append

/-- A slot no pair names keeps its value. -/
theorem scatter_getElem?_of_notMem {s : List α} {n : Nat} (hn : 0 < n)
    (hp : ∀ p ∈ pairs, 0 < p.1) (h : n ∉ pairs.map Prod.fst) : (scatter s pairs)[n - 1]? = s[n - 1]? := by
  induction pairs generalizing s with
  | nil => rfl
  | cons p pairs ih =>
    rw [List.map_cons, List.mem_cons, not_or] at h
    have hpos := hp p List.mem_cons_self
    have hne : p.1 - 1 ≠ n - 1 := by
      have := h.1
      omega
    have := ih (s := s.set (p.1 - 1) p.2) (fun q hq => hp q (List.mem_cons_of_mem _ hq)) h.2
    rw [List.getElem?_set_ne hne] at this
    exact this

/-- A slot named once holds the value stored there. -/
theorem scatter_getElem?_of_mem {s : List α} {p : Nat × α} (hm : p ∈ pairs)
    (hp : ∀ q ∈ pairs, 0 < q.1) (hd : (pairs.map Prod.fst).Nodup) (hlen : p.1 - 1 < s.length) :
    (scatter s pairs)[p.1 - 1]? = some p.2 := by
  induction pairs generalizing s with
  | nil => simp at hm
  | cons q pairs ih =>
    rw [List.map_cons, List.nodup_cons] at hd
    have hrest : ∀ r ∈ pairs, 0 < r.1 := fun r hr => hp r (List.mem_cons_of_mem _ hr)
    rcases List.mem_cons.1 hm with rfl | hm
    · have := scatter_getElem?_of_notMem (s := s.set (p.1 - 1) p.2) (hp p List.mem_cons_self) hrest hd.1
      rw [List.getElem?_set_self hlen] at this
      exact this
    · exact ih (s := s.set (q.1 - 1) q.2) hm hrest hd.2 (by simpa using hlen)

end Scatter

end Eytzinger
