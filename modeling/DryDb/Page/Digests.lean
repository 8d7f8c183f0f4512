import DryDb.Lib.Eytzinger
import DryDb.Lib.Lists
import DryDb.Model.BTree
import DryDb.Page.Decode
/-!
# The digest array

A page stores its digests in entry order or as a padded complete tree in level order.
`PageView.slotOf` says in which slot the digest of an entry is; the rank search, the
scattering writer and the walk that checks a page all follow it.
-/

namespace DryDb

open Eytzinger List

theorem u64Max_not_lt (d : UInt64) : ¬ u64Max < d := by
  intro h
  have h1 := UInt64.lt_iff_toNat_lt.1 h
  have h2 := d.toNat_lt
  have : u64Max.toNat = 2 ^ 64 - 1 := rfl
  omega

/-! ## The stackless walk -/

/-- Where the walk goes from the last node below `i`. -/
def upFrom (i : Nat) : Option Nat := if climb i i = 1 then none else some (climb i i / 2)

variable {steps i size j : Nat} {sorted : List UInt64}

theorem climb_steps {steps' node : Nat} (h : node ≤ steps) (h' : node ≤ steps') :
    climb steps node = climb steps' node := by
  induction steps generalizing steps' node with
  | zero =>
    obtain rfl : node = 0 := by omega
    cases steps' <;> rfl
  | succ steps ih =>
    cases steps' with
    | zero =>
      obtain rfl : node = 0 := by omega
      rfl
    | succ steps' =>
      rw [climb, climb]
      split
      · apply ih <;> omega
      · rfl

/-- A left child is followed by its parent. -/
theorem upFrom_left (hi : 0 < i) : upFrom (2 * i) = some i := by
  have hc : climb (2 * i) (2 * i) = 2 * i := by
    obtain ⟨m, hm⟩ : ∃ m, 2 * i = m + 1 := ⟨2 * i - 1, by omega⟩
    rw [hm, climb, if_neg (by omega)]
  unfold upFrom
  rw [hc, if_neg (by omega), show 2 * i / 2 = i by omega]

/-- A right child is followed by whatever follows its parent. -/
theorem upFrom_right (hi : 0 < i) : upFrom (2 * i + 1) = upFrom i := by
  have hc : climb (2 * i + 1) (2 * i + 1) = climb i i := by
    rw [climb, if_pos (by omega), show (2 * i + 1) / 2 = i by omega]
    exact climb_steps (by omega) le_rfl
  unfold upFrom
  rw [hc]

/-- The leftmost node of a subtree comes first. -/
theorem leftmost_eq_head {h : Nat} (hb : Below size (h + 1) i) (hs : h ≤ steps) :
    (inorder (h + 1) i).head? = some (leftmost size steps i) := by
  induction h generalizing i steps with
  | zero =>
    have hpast : size < 2 * i := hb.left.past
    cases steps with
    | zero => rfl
    | succ steps =>
      rw [leftmost, if_neg (by omega)]
      rfl
  | succ h ih =>
    have hin : 2 * i ≤ size := hb.left.inside
    cases steps with
    | zero => omega
    | succ steps =>
      have hrec := ih hb.left (Nat.le_of_succ_le_succ hs)
      rw [leftmost, if_pos (by omega), Nat.mul_comm i 2, inorder, head?_append, hrec]
      rfl

/-- The successor of a node of a subtree is the next node of it, and after the last one
what follows the subtree. -/
theorem inorderSuccessor_eq {h : Nat} (hi : 0 < i) (hb : Below size h i) (hh : h ≤ size) {n : Nat}
    (hj : (inorder h i)[j]? = some n) :
    inorderSuccessor size n = (inorder h i ++ (upFrom i).toList)[j + 1]? := by
  induction h generalizing i j with
  | zero => simp [inorder] at hj
  | succ h ih =>
    have hlen := length_inorder h (2 * i)
    have hlen' := length_inorder h (2 * i + 1)
    have hpos := Nat.one_le_two_pow (n := h)
    rw [inorder] at hj ⊢
    rcases Nat.lt_trichotomy j (2 ^ h - 1) with hlt | heq | hgt
    · -- A node of the left subtree, which is followed by its parent `i`.
      rw [getElem?_append_left (by omega)] at hj
      rw [ih (by omega) hb.left (by omega) hj, upFrom_left hi]
      rcases Nat.lt_or_ge (j + 1) (2 ^ h - 1) with h1 | h1
      · rw [getElem?_append_left (by omega), append_assoc, getElem?_append_left (by omega)]
      · rw [getElem?_append_right (by omega), append_assoc, getElem?_append_right (by omega), hlen,
          show j + 1 - (2 ^ h - 1) = 0 by omega]
        rfl
    · -- The node itself: the right subtree comes next, when there is one.
      subst heq
      rw [getElem?_append_right (by omega), hlen, Nat.sub_self, getElem?_cons_zero, Option.some.injEq] at hj
      subst hj
      rw [append_assoc, getElem?_append_right (by omega), hlen,
        show 2 ^ h - 1 + 1 - (2 ^ h - 1) = 1 by omega, cons_append, getElem?_cons_succ]
      unfold inorderSuccessor
      cases h with
      | zero =>
        have hpast : size < 2 * i + 1 := hb.right.past
        rw [if_neg (by omega)]
        simp only [inorder, nil_append, upFrom]
        split <;> rfl
      | succ h =>
        have hin : 2 * i + 1 ≤ size := hb.right.inside
        have hsteps : h ≤ size := by omega
        have hhead := leftmost_eq_head hb.right hsteps
        rw [if_pos (by omega), Nat.mul_comm i 2, getElem?_append_left (by omega), ← hhead, head?_eq_getElem?]
    · -- A node of the right subtree, which is followed by whatever follows `i`.
      rw [getElem?_append_right (by omega), hlen, show j - (2 ^ h - 1) = j - 2 ^ h + 1 by omega,
        getElem?_cons_succ] at hj
      rw [ih (by omega) hb.right (by omega) hj, upFrom_right hi, append_assoc,
        getElem?_append_right (show (inorder h (2 * i)).length ≤ j + 1 by omega), hlen, show j + 1 - (2 ^ h - 1) = j - 2 ^ h + 1 + 1 by omega,
        cons_append, getElem?_cons_succ]

theorem upFrom_root : upFrom 1 = none := rfl

/-- The walk visits the nodes of a whole tree in order and then stops. -/
theorem inorderSuccessor_root {h n : Nat} (hj : (inorder h 1)[j]? = some n) :
    inorderSuccessor (2 ^ h - 1) n = (inorder h 1)[j + 1]? := by
  have hh : h ≤ 2 ^ h - 1 := by
    have := Nat.lt_two_pow_self (n := h)
    omega
  rw [inorderSuccessor_eq one_pos (Below.root h) hh hj, upFrom_root]
  simp

/-! ## Which slot belongs to which entry -/

namespace PageView

variable {v : PageView} {layout : NodeLayout} {bytes : Bytes}

/-- The slots in the order of the entries they belong to; on an Eytzinger page the padding
comes last. -/
def slotOrder (v : PageView) : List Nat :=
  if v.layout.eytzinger then (inorder (v.digestSlotCount + 1).log2 1).map (· - 1) else List.range v.entryCount

/-- The digest stored for entry `j` is `d`. -/
def HasDigest (v : PageView) (j : Nat) (d : UInt64) : Prop := ∃ s, v.slotOrder[j]? = some s ∧ v.digestSlot s = .ok d

/-- What parsing a page says about its digest area. -/
structure Digests (v : PageView) : Prop where
  slots : v.digestSlotCount = v.layout.digestSlots v.entryCount
  inside : digestBase + v.digestSlotCount * 8 ≤ v.bytes.length
  count : v.entryCount < 2 ^ 63

namespace Digests

theorem slot_ok (h : v.Digests) {s : Nat} (hs : s < v.digestSlotCount) : ∃ d, v.digestSlot s = .ok d := by
  have hin := h.inside
  have hpiece : slice v.bytes (digestBase + s * 8) 8 = some ((v.bytes.drop (digestBase + s * 8)).take 8) :=
    if_pos (by omega)
  refine ⟨UInt64.ofNat (ofLe ((v.bytes.drop (digestBase + s * 8)).take 8)), ?_⟩
  unfold digestSlot readU64
  rw [if_neg (by omega), readLe_of_slice hpiece]
  rfl

theorem slots_sorted (h : v.Digests) (he : v.layout.eytzinger = false) : v.digestSlotCount = v.entryCount := by
  rw [h.slots, NodeLayout.digestSlots, he]
  rfl

theorem slotOrder_sorted (he : v.layout.eytzinger = false) : v.slotOrder = List.range v.entryCount := by
  simp [slotOrder, he]

/-- The slots of an Eytzinger page are the nodes of a complete tree. -/
theorem height (h : v.Digests) (he : v.layout.eytzinger = true) :
    ∃ k, v.digestSlotCount = 2 ^ k - 1 ∧ v.slotOrder = (inorder k 1).map (· - 1) := by
  obtain ⟨k, hk, -⟩ := completeSize_eq h.count
  have hs : v.digestSlotCount = 2 ^ k - 1 := by
    rw [h.slots, NodeLayout.digestSlots, he, if_pos rfl, hk]
  refine ⟨k, hs, ?_⟩
  have := Nat.one_le_two_pow (n := k)
  rw [slotOrder, if_pos he, hs, show 2 ^ k - 1 + 1 = 2 ^ k by omega, Nat.log2_two_pow]

theorem length_slotOrder (h : v.Digests) : v.slotOrder.length = v.digestSlotCount := by
  cases he : v.layout.eytzinger with
  | false => rw [slotOrder_sorted he, length_range, h.slots_sorted he]
  | true =>
    obtain ⟨k, hk, ho⟩ := h.height he
    rw [ho, hk, length_map, length_inorder]

theorem count_le (h : v.Digests) : v.entryCount ≤ v.digestSlotCount := by
  rw [h.slots]
  unfold NodeLayout.digestSlots
  split
  · exact le_completeSize h.count
  · exact le_rfl

theorem lt_of_mem (h : v.Digests) {s : Nat} (hs : s ∈ v.slotOrder) : s < v.digestSlotCount := by
  cases he : v.layout.eytzinger with
  | false =>
    rw [slotOrder_sorted he, mem_range] at hs
    exact h.slots_sorted he ▸ hs
  | true =>
    obtain ⟨k, hk, ho⟩ := h.height he
    rw [ho, mem_map] at hs
    obtain ⟨n, hn, rfl⟩ := hs
    have := lt_of_mem_inorder hn
    have := le_of_mem_inorder hn
    omega

theorem exists_hasDigest (h : v.Digests) {j : Nat} (hj : j < v.digestSlotCount) : ∃ d, v.HasDigest j d := by
  have hlt : j < v.slotOrder.length := by rw [h.length_slotOrder]; exact hj
  obtain ⟨d, hd⟩ := h.slot_ok (h.lt_of_mem (getElem_mem hlt))
  exact ⟨d, _, getElem?_eq_getElem hlt, hd⟩

end Digests

theorem HasDigest.unique {j : Nat} {d d' : UInt64} (h : v.HasDigest j d) (h' : v.HasDigest j d') : d = d' := by
  obtain ⟨s, hs, hd⟩ := h
  obtain ⟨s', hs', hd'⟩ := h'
  rw [hs] at hs'
  cases hs'
  rw [hd] at hd'
  exact Except.ok.inj hd'

/-- Sorted digests are stored at their entry. -/
theorem hasDigest_sorted (h : v.Digests) (he : v.layout.eytzinger = false) {j : Nat} {d : UInt64} (hj : j < v.entryCount) :
    v.HasDigest j d ↔ v.digestAt j = .ok d := by
  have hslot : v.digestSlot j = v.digestAt j := by
    unfold digestSlot digestAt
    rw [h.slots_sorted he, if_neg (by omega), he]
    simp [Nat.not_le.2 hj]
  unfold HasDigest
  rw [Digests.slotOrder_sorted he, getElem?_range hj]
  simp [hslot]

/-! ## The rank search -/

/-- Where a rank search may stop: the digest before it is below the key's and the digest
at it is not. -/
structure Gap (v : PageView) (d : UInt64) (r : Nat) : Prop where
  before : ∀ x, 0 < r → v.HasDigest (r - 1) x → x < d
  after : ∀ x, v.HasDigest r x → ¬ x < d

theorem sortedDescend_spec (h : v.Digests) (he : v.layout.eytzinger = false) (d : UInt64) {steps lo hi : Nat}
    (hsteps : hi - lo ≤ steps) (hle : lo ≤ hi) (hhi : hi ≤ v.entryCount)
    (hbefore : ∀ x, 0 < lo → v.HasDigest (lo - 1) x → x < d) (hafter : ∀ x, v.HasDigest hi x → ¬ x < d) :
    ∃ r, v.sortedDescend d steps lo hi = .ok r ∧ r ≤ v.entryCount ∧ v.Gap d r := by
  induction steps generalizing lo hi with
  | zero =>
    obtain rfl : lo = hi := by omega
    exact ⟨lo, rfl, hhi, hbefore, hafter⟩
  | succ steps ih =>
    rw [sortedDescend]
    by_cases hlt : lo < hi
    · rw [if_pos hlt]
      have hmid : lo + (hi - lo) / 2 < v.entryCount := by omega
      obtain ⟨x, hx⟩ := h.exists_hasDigest (h.slots_sorted he ▸ hmid)
      have hslot : v.digestSlot (lo + (hi - lo) / 2) = .ok x := by
        obtain ⟨s, hs, hd⟩ := hx
        rw [Digests.slotOrder_sorted he, getElem?_range hmid] at hs
        cases hs
        exact hd
      simp only [hslot, ok_bind]
      by_cases hxd : x < d
      · rw [if_pos hxd]
        refine ih (by omega) (by omega) hhi (fun y _ hy => ?_) hafter
        rw [show lo + (hi - lo) / 2 + 1 - 1 = lo + (hi - lo) / 2 by omega] at hy
        exact hx.unique hy ▸ hxd
      · rw [if_neg hxd]
        exact ih (by omega) (by omega) (by omega) hbefore (fun y hy => hx.unique hy ▸ hxd)
    · obtain rfl : lo = hi := by omega
      rw [if_neg hlt]
      exact ⟨lo, rfl, hhi, hbefore, hafter⟩

/-- The descent on the page is the descent of the complete tree. -/
theorem eytzingerDescend_eq {size : Nat} {dig : Nat → UInt64} (d : UInt64) (hsize : v.digestSlotCount = size)
    (hdig : ∀ n, 0 < n → n ≤ size → v.digestSlot (n - 1) = .ok (dig n)) {steps h i : Nat} (hi : 0 < i)
    (hb : Below size h i) (hs : h ≤ steps) :
    v.eytzingerDescend d steps i = .ok (Eytzinger.descend (fun n => decide (dig n < d)) h i) := by
  induction h generalizing i steps with
  | zero =>
    have := hb.past
    cases steps with
    | zero => rfl
    | succ steps =>
      rw [eytzingerDescend, if_neg (by omega)]
      rfl
  | succ h ih =>
    have hin := hb.inside
    obtain ⟨steps, rfl⟩ : ∃ m, steps = m + 1 := ⟨steps - 1, by omega⟩
    rw [eytzingerDescend, if_pos (by omega), hdig i hi hin, ok_bind, Eytzinger.descend]
    by_cases hlt : dig i < d
    · simpa [hlt] using ih (by omega) hb.right (by omega)
    · simpa [hlt] using ih (by omega) hb.left (by omega)

/-- The rank search stops at a gap of the stored digests, sorted or not. -/
theorem lowerBoundRank_spec (h : v.Digests) (d : UInt64) :
    ∃ r, v.lowerBoundRank d = .ok r ∧ r ≤ v.digestSlotCount ∧ v.Gap d r := by
  unfold lowerBoundRank
  cases he : v.layout.eytzinger with
  | false =>
    have hlast : ∀ x, v.HasDigest v.entryCount x → ¬ x < d := by
      rintro x ⟨s, hs, -⟩
      rw [Digests.slotOrder_sorted he] at hs
      simp at hs
    obtain ⟨r, hr, hle, hgap⟩ := sortedDescend_spec h he d le_rfl (Nat.zero_le _) le_rfl
      (fun _ h0 => absurd h0 (by omega)) hlast
    exact ⟨r, hr, le_trans hle h.count_le, hgap⟩
  | true =>
    obtain ⟨k, hk, ho⟩ := h.height he
    have hpos := Nat.one_le_two_pow (n := k)
    have hlog := Nat.lt_two_pow_self (n := k)
    -- Every slot reads back, so the page is a tree of digests.
    have hex : ∀ n, ∃ x, 0 < n → n ≤ 2 ^ k - 1 → v.digestSlot (n - 1) = .ok x := by
      intro n
      by_cases hn : 0 < n ∧ n ≤ 2 ^ k - 1
      · obtain ⟨x, hx⟩ := h.slot_ok (s := n - 1) (by omega)
        exact ⟨x, fun _ _ => hx⟩
      · exact ⟨0, fun h1 h2 => absurd ⟨h1, h2⟩ hn⟩
    choose dig hdig using hex
    obtain ⟨r, hr, hle, hlo, hhi⟩ := descend_spec (fun n => decide (dig n < d)) k 1
    have hat : ∀ j x, v.HasDigest j x → ∃ n, (inorder k 1)[j]? = some n ∧ x = dig n := by
      rintro j x ⟨s, hs, hd⟩
      rw [ho, getElem?_map, Option.map_eq_some_iff] at hs
      obtain ⟨n, hn, rfl⟩ := hs
      have h1 := le_of_mem_inorder (mem_of_getElem? hn)
      have h2 := lt_of_mem_inorder (mem_of_getElem? hn)
      rw [hdig n (by omega) (by omega)] at hd
      exact ⟨n, hn, (Except.ok.inj hd).symm⟩
    refine ⟨r, ?_, hk ▸ hle, fun x h0 hx => ?_, fun x hx => ?_⟩
    · have hsteps : k ≤ v.digestSlotCount := by omega
      have hdesc := eytzingerDescend_eq d hk hdig one_pos (Below.root k) hsteps
      simp only [if_true, hdesc, ok_bind]
      rw [hr, hk]
      congr 1
      omega
    · obtain ⟨n, hn, rfl⟩ := hat _ _ hx
      simpa using hlo n h0 hn
    · obtain ⟨n, hn, rfl⟩ := hat _ _ hx
      simpa using hhi n hn

theorem areas_eq_ok {len : Nat} {kind : NodeKind} {count metaBase payloadBase : Nat} :
    areas len kind layout count = .ok (metaBase, payloadBase) →
      metaBase = digestBase + layout.digestSlots count * 8 ∧ metaBase ≤ payloadBase ∧ payloadBase ≤ len := by
  intro h
  simp only [areas, bind_eq_ok, okOr_eq_ok, guard_eq_ok, Except.ok.injEq, Prod.mk.injEq, checkedAdd, checkedMul,
    NodeLayout.digestAreaSize, Option.ite_none_right_eq_some, Option.some.injEq] at h
  obtain ⟨a, ⟨-, rfl⟩, b, ⟨-, rfl⟩, -, c, -, d, ⟨-, rfl⟩, hlen, rfl, rfl⟩ := h
  exact ⟨rfl, Nat.le_add_right _ _, by omega⟩

/-- A parsed page has its digest area, however it was made. -/
theorem digests_of_parse (h : parse bytes = .ok v) : v.Digests := by
  simp only [parse, bind_eq_ok, guard_eq_ok, Except.ok.injEq] at h
  obtain ⟨-, z, -, len, -, -, word, -, kind, -, layout, -, n, hn, count, hcount, zl, -, l, -, zr, -, r, -, ⟨m, p⟩, ha, rfl⟩ := h
  obtain ⟨rfl, hmp, hp⟩ := areas_eq_ok ha
  have hslots : (digestBase + layout.digestSlots count * 8 - digestBase) / 8 = layout.digestSlots count := by omega
  refine ⟨hslots, ?_, ?_⟩
  · unfold digestSlotCount
    simp only [hslots]
    omega
  · obtain ⟨-, rfl⟩ := checkedLen_eq_ok.1 hcount
    have := readI32_lt hn
    simp only [entryCount]
    omega

theorem ofWord_layout {word len : Nat} (h : NodeLayout.ofWord word len = .ok layout)
    (ho : layout.omittedKeys = true) : layout.compactMeta = true ∧ layout.eytzinger = false := by
  unfold NodeLayout.ofWord at h
  simp only [guard_eq_ok, Except.ok.injEq] at h
  obtain ⟨-, -, hcompact, heytzinger, -, rfl⟩ := h
  simp_all

/-- A page without keys is a compact one with sorted digests. -/
theorem layout_of_parse (h : parse bytes = .ok v) (ho : v.layout.omittedKeys = true) :
    v.layout.compactMeta = true ∧ v.layout.eytzinger = false := by
  simp only [parse, bind_eq_ok, guard_eq_ok, Except.ok.injEq] at h
  obtain ⟨-, z, -, len, -, -, word, -, kind, -, layout, hl, n, -, count, -, zl, -, l, -, zr, -, r, -, ⟨m, p⟩, -, rfl⟩ := h
  exact ofWord_layout hl ho

end PageView

/-! ## The digests of a written page -/

/-- The fill writes the digests along the in-order sequence of the subtree. -/
theorem fillEytzinger_eq {h : Nat} {slots : List UInt64} (hi : 0 < i) (hb : Below size h i)
    (hs : h ≤ steps) (hlen : slots.length = size) :
    fillEytzinger steps sorted slots i =
      (sorted.drop (2 ^ h - 1), scatter slots ((inorder h i).zip sorted)) := by
  induction h generalizing i steps sorted slots with
  | zero =>
    have := hb.past
    cases steps with
    | zero => simp [fillEytzinger, inorder, scatter]
    | succ steps =>
      rw [fillEytzinger, if_pos (by omega)]
      simp [inorder, scatter]
  | succ h ih =>
    have hin := hb.inside
    have hpos := Nat.one_le_two_pow (n := h)
    obtain ⟨steps, rfl⟩ : ∃ m, steps = m + 1 := ⟨steps - 1, by omega⟩
    have hzip : (inorder (h + 1) i).zip sorted =
        (inorder h (2 * i)).zip sorted ++ (i :: inorder h (2 * i + 1)).zip (sorted.drop (2 ^ h - 1)) := by
      rw [inorder, zip_append_left, length_inorder]
    rw [fillEytzinger, if_neg (by omega), ih (by omega) hb.left (by omega) hlen, hzip, scatter_append]
    simp only
    cases hrest : sorted.drop (2 ^ h - 1) with
    | nil =>
      have hshort := drop_eq_nil_iff.1 hrest
      rw [ih (by omega) hb.right (by omega) (by simpa using hlen)]
      simp only [drop_nil, zip_nil_right, Prod.mk.injEq, and_true]
      refine (drop_eq_nil_iff.2 ?_).symm
      rw [Nat.pow_succ]
      omega
    | cons d rest =>
      rw [ih (by omega) hb.right (by omega) (by simpa using hlen)]
      simp only [zip_cons_cons, Prod.mk.injEq]
      refine ⟨?_, rfl⟩
      have hd : rest = sorted.drop (2 ^ h - 1 + 1) := by
        rw [← drop_drop, hrest]
        rfl
      rw [hd, drop_drop, Nat.pow_succ]
      congr 1
      omega

theorem scatterEytzinger_eq {k : Nat} (hk : completeSize sorted.length = 2 ^ k - 1) :
    scatterEytzinger sorted = scatter (List.replicate (2 ^ k - 1) u64Max) ((inorder k 1).zip sorted) := by
  have hlog := Nat.lt_two_pow_self (n := k)
  simp only [scatterEytzinger]
  rw [fillEytzinger_eq one_pos (Below.root k) (by omega) (by simpa using hk), hk]

/-- The `j`-th digest goes into the slot of the `j`-th node; behind the last one comes padding. -/
theorem scatterEytzinger_getElem? {k node : Nat}
    (hk : completeSize sorted.length = 2 ^ k - 1) (hnode : (inorder k 1)[j]? = some node) :
    (scatterEytzinger sorted)[node - 1]? = some (sorted[j]?.getD u64Max) := by
  have hge := le_of_mem_inorder (mem_of_getElem? hnode)
  have hlt := lt_of_mem_inorder (mem_of_getElem? hnode)
  have hnodup := nodup_inorder k one_pos
  have hpos : ∀ p ∈ (inorder k 1).zip sorted, 0 < p.1 := fun p hp => le_of_mem_inorder (of_mem_zip hp).1
  have hfst : (((inorder k 1).zip sorted).map Prod.fst).Sublist (inorder k 1) := by
    rw [map_fst_zip_take]
    exact take_sublist _ _
  rw [scatterEytzinger_eq hk]
  cases hj : sorted[j]? with
  | some d =>
    have hmem : (node, d) ∈ (inorder k 1).zip sorted := by
      refine mem_of_getElem? (i := j) ?_
      rw [getElem?_zip_eq_some]
      exact ⟨hnode, hj⟩
    exact scatter_getElem?_of_mem hmem hpos (hnodup.sublist hfst) (by simp; omega)
  | none =>
    have hnot : node ∉ ((inorder k 1).zip sorted).map Prod.fst := by
      rw [map_fst_zip_take, mem_take_iff_getElem]
      rintro ⟨i, hi, rfl⟩
      have hlen := getElem?_eq_none_iff.1 hj
      have hieq : i = j := by
        have := getElem?_eq_getElem (l := inorder k 1) (i := i) (by omega)
        exact (getElem?_inj (by omega) hnodup).1 (this.trans hnode.symm)
      omega
    rw [scatter_getElem?_of_notMem (by omega) hpos hnot, getElem?_replicate, if_pos (by omega)]
    rfl

namespace Node

variable {n : Node} {j : Nat}

theorem digests (h : n.Fits) : n.view.Digests := PageView.digests_of_parse (parse_image h)

/-- The slots of a written page hold the digests in the order of the entries, then padding. -/
theorem slots_order (h : n.Fits) {s : Nat} (hs : n.view.slotOrder[j]? = some s) :
    n.slots[s]? = some ((n.items[j]?.map Item.digest).getD u64Max) := by
  have hd := digests h
  cases he : n.layout.eytzinger with
  | false =>
    rw [PageView.Digests.slotOrder_sorted (by simpa using he)] at hs
    obtain ⟨hlt, rfl⟩ := List.getElem?_eq_some_iff.1 hs
    simp only [getElem_range, view_entryCount, length_range] at hlt ⊢
    simp [slots, he, getElem?_eq_getElem hlt]
  | true =>
    obtain ⟨k, hk, ho⟩ := hd.height (by simpa using he)
    have hsize : completeSize n.items.length = 2 ^ k - 1 := by
      rw [← hk, digestSlotCount_eq, NodeLayout.digestSlots, if_pos he]
    rw [ho, getElem?_map, Option.map_eq_some_iff] at hs
    obtain ⟨node, hnode, rfl⟩ := hs
    rw [slots, if_pos he, scatterEytzinger_getElem? (by simpa using hsize) hnode, getElem?_map]

theorem hasDigest (h : n.Fits) {it : Item} (hj : n.items[j]? = some it) : n.view.HasDigest j it.digest := by
  have hd := digests h
  have hlt : j < n.view.slotOrder.length := by
    rw [hd.length_slotOrder]
    exact lt_of_lt_of_le (List.getElem?_eq_some_iff.1 hj).1 hd.count_le
  have hs := getElem?_eq_getElem hlt
  have := slots_order h hs
  rw [hj] at this
  exact ⟨_, hs, digestSlot_eq this⟩

theorem hasPadding (h : n.Fits) {s : Nat} (hj : n.items.length ≤ j) (hs : n.view.slotOrder[j]? = some s) :
    n.view.digestSlot s = .ok u64Max := by
  have := slots_order h hs
  rw [getElem?_eq_none hj] at this
  exact digestSlot_eq this

end Node

end DryDb
