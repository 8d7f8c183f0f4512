import DryDb.Page.Checked
import DryDb.Model.Verify
/-!
# Ranks and slots

Two readings of the padded digest array agree with the sorted list it was scattered from:
the descent returns the rank a binary search of the list returns, and the stackless walk
visits the slots in the order the digests were dealt to them.
-/

namespace DryDb

open Eytzinger List

/-! ## The rank of a digest -/

/-- A list that never falls changes once, where the count of the digests below says. -/
theorem countP_lt_eq {digests : List UInt64} (hs : digests.Pairwise (· ≤ ·)) {d : UInt64} {r : Nat}
    (hr : r ≤ digests.length) (hbefore : ∀ x, 0 < r → digests[r - 1]? = some x → x < d)
    (hafter : ∀ x, digests[r]? = some x → ¬ x < d) : digests.countP (· < d) = r := by
  have htake : (digests.take r).countP (· < d) = r := by
    have hall : ∀ x ∈ digests.take r, decide (x < d) = true := by
      intro x hx
      obtain ⟨i, hi, rfl⟩ := mem_take_iff_getElem.1 hx
      have hlast : digests[r - 1] < d := hbefore _ (by omega) (getElem?_eq_getElem (by omega))
      rcases Nat.lt_or_ge i (r - 1) with hlt | hge
      · have hle := pairwise_iff_getElem.1 hs i (r - 1) (by omega) (by omega) hlt
        exact decide_eq_true (UInt64.lt_of_le_of_lt hle hlast)
      · obtain rfl : i = r - 1 := by omega
        exact decide_eq_true hlast
    rw [countP_eq_length.2 hall, length_take, Nat.min_eq_left hr]
  have hdrop : (digests.drop r).countP (· < d) = 0 := by
    refine countP_eq_zero.2 fun x hx => ?_
    obtain ⟨i, hi, rfl⟩ := mem_iff_getElem.1 hx
    rw [length_drop] at hi
    rw [getElem_drop]
    have hfirst : ¬ digests[r] < d := hafter _ (getElem?_eq_getElem (by omega))
    rw [decide_eq_true_eq]
    intro hlt
    rcases Nat.eq_zero_or_pos i with rfl | hpos
    · exact hfirst hlt
    · have hle := pairwise_iff_getElem.1 hs r (r + i) (by omega) (by omega) (by omega)
      exact hfirst (UInt64.lt_of_le_of_lt hle hlt)
  rw [← take_append_drop r digests, countP_append, htake, hdrop, Nat.add_zero]

namespace PageView

/-- The digest area of the page holds `digests`, scattered or in order. -/
structure Stores (v : PageView) (eytzinger : Bool) (digests : List UInt64) : Prop where
  layout : v.layout.eytzinger = eytzinger
  count : v.entryCount = digests.length
  base : v.metaBase = digestBase + v.layout.digestSlots v.entryCount * 8
  area : PieceAt v.bytes digestBase
    ((if eytzinger then scatterEytzinger digests else digests).flatMap fun d => leBytes 8 d.toNat)

/-- A page of digests and nothing else. -/
def ofDigests (eytzinger : Bool) (digests : List UInt64) : PageView :=
  let slots := if eytzinger then scatterEytzinger digests else digests
  let layout : NodeLayout := ⟨eytzinger, false, false⟩
  let base := digestBase + layout.digestSlots digests.length * 8
  { bytes := List.replicate digestBase 0 ++ slots.flatMap fun d => leBytes 8 d.toNat
    header := { kind := .leaf, layout := layout, entryCount := digests.length, leftSibling := none, rightSibling := none }
    metaBase := base
    payloadBase := base }

namespace Stores

variable {v : PageView} {eytzinger : Bool} {digests : List UInt64}

theorem digestSlotCount_eq (h : v.Stores eytzinger digests) :
    v.digestSlotCount = if eytzinger then completeSize digests.length else digests.length := by
  unfold digestSlotCount
  rw [h.base, NodeLayout.digestSlots, h.layout, h.count]
  omega

theorem length_slots (h : v.Stores eytzinger digests) :
    (if eytzinger then scatterEytzinger digests else digests).length = v.digestSlotCount := by
  rw [h.digestSlotCount_eq]
  split <;> simp

theorem toDigests (h : v.Stores eytzinger digests) (hlen : digests.length < 2 ^ 63) : v.Digests := by
  refine ⟨?_, ?_, h.count ▸ hlen⟩
  · unfold digestSlotCount
    rw [h.base]
    omega
  · have hle := h.area.le_length
    rw [length_flatMap] at hle
    simp only [leBytes_length, map_const', sum_replicate, h.length_slots, smul_eq_mul] at hle
    exact hle

/-- The entries' digests come first, in order, and behind them padding. -/
theorem hasDigest_eq (h : v.Stores eytzinger digests) (hlen : digests.length < 2 ^ 63) {j : Nat} {d : UInt64}
    (hd : v.HasDigest j d) : d = digests[j]?.getD u64Max := by
  obtain ⟨s, hs, hslot⟩ := hd
  have hread : ∀ x, (if eytzinger then scatterEytzinger digests else digests)[s]? = some x → d = x := by
    intro x hx
    have hlt : s < v.digestSlotCount := by
      rw [← h.length_slots]
      exact (List.getElem?_eq_some_iff.1 hx).1
    have hok : v.digestSlot s = .ok x := by
      unfold digestSlot
      simp only
      rw [if_neg (by omega)]
      exact readU64_of_piece (h.area.trans (PieceAt.numbers (fun d : UInt64 => d.toNat) hx))
    rw [hslot] at hok
    exact Except.ok.inj hok
  apply hread
  cases eytzinger with
  | false =>
    rw [Digests.slotOrder_sorted h.layout, h.count] at hs
    obtain ⟨hlt, rfl⟩ := List.getElem?_eq_some_iff.1 hs
    rw [length_range] at hlt
    simp [getElem?_eq_getElem hlt]
  | true =>
    obtain ⟨k, hk, ho⟩ := (h.toDigests hlen).height h.layout
    rw [ho, getElem?_map, Option.map_eq_some_iff] at hs
    obtain ⟨node, hnode, rfl⟩ := hs
    exact scatterEytzinger_getElem? (h.digestSlotCount_eq.symm.trans hk) hnode

/-- Either search returns the number of digests below the key. Padding is never below one. -/
theorem lowerBoundRank_eq (h : v.Stores eytzinger digests) (hlen : digests.length < 2 ^ 63)
    (hs : digests.Pairwise (· ≤ ·)) (d : UInt64) : v.lowerBoundRank d = .ok (digests.countP (· < d)) := by
  have hdig := h.toDigests hlen
  obtain ⟨r, hr, hle, hgap⟩ := lowerBoundRank_spec hdig d
  have hcount : r ≤ digests.length := by
    by_contra hgt
    obtain ⟨x, hx⟩ := hdig.exists_hasDigest (j := r - 1) (by omega)
    have hlt := hgap.before x (by omega) hx
    rw [h.hasDigest_eq hlen hx, getElem?_eq_none (by omega)] at hlt
    exact absurd hlt (u64Max_not_lt d)
  have hat : ∀ j x, digests[j]? = some x → v.HasDigest j x := by
    intro j x hj
    have hlt := (List.getElem?_eq_some_iff.1 hj).1
    obtain ⟨y, hy⟩ := hdig.exists_hasDigest (lt_of_lt_of_le (h.count.symm ▸ hlt) hdig.count_le)
    have hxy := h.hasDigest_eq hlen hy
    rw [hj, Option.getD_some] at hxy
    exact hxy ▸ hy
  rw [hr, countP_lt_eq hs hcount (fun x h0 hx => hgap.before x h0 (hat _ _ hx)) (fun x hx => hgap.after x (hat _ _ hx))]

theorem ofDigests (eytzinger : Bool) (digests : List UInt64) : (ofDigests eytzinger digests).Stores eytzinger digests :=
  ⟨rfl, rfl, rfl, ⟨List.replicate digestBase 0, [], by simp [PageView.ofDigests], by simp⟩⟩

end Stores

/-- The descent of the scattered digests returns what a binary search of the sorted ones
returns: the number of digests strictly below the key. -/
theorem eytzinger_rank_eq_sorted_rank {digests : List UInt64} (hlen : digests.length < 2 ^ 63)
    (hs : digests.Pairwise (· ≤ ·)) (key : UInt64) {scattered inOrder : PageView}
    (hscattered : scattered.Stores true digests) (hsorted : inOrder.Stores false digests) :
    scattered.lowerBoundRank key = .ok (digests.countP (· < key)) ∧
      inOrder.lowerBoundRank key = .ok (digests.countP (· < key)) :=
  ⟨hscattered.lowerBoundRank_eq hlen hs key, hsorted.lowerBoundRank_eq hlen hs key⟩

theorem eytzinger_rank_eq_sorted_rank_repeated :
    (ofDigests true [3, 3, 7, u64Max]).lowerBoundRank 7 = .ok 2 ∧
      (ofDigests false [3, 3, 7, u64Max]).lowerBoundRank 7 = .ok 2 :=
  eytzinger_rank_eq_sorted_rank (show [3, 3, 7, u64Max].length < 2 ^ 63 by decide) (by decide) 7
    (Stores.ofDigests true _) (Stores.ofDigests false _)

end PageView

/-! ## The order of the walk -/

/-- The node at which the walk of `check_eytzinger_digests` is at step `r`, while it goes on. -/
def walk (complete : Nat) : Nat → Option Nat
  | 0 => some (leftmost complete complete 1)
  | r + 1 => (walk complete r).bind (inorderSuccessor complete)

variable {k : Nat} {v : PageView}

theorem walk_eq (hk : 1 ≤ k) (r : Nat) : walk (2 ^ k - 1) r = (inorder k 1)[r]? := by
  induction r with
  | zero =>
    obtain ⟨k, rfl⟩ : ∃ m, k = m + 1 := ⟨k - 1, by omega⟩
    have hlog := Nat.lt_two_pow_self (n := k + 1)
    rw [walk, ← leftmost_eq_head (Below.root (k + 1)) (by omega), head?_eq_getElem?]
  | succ r ih =>
    rw [walk, ih]
    cases hr : (inorder k 1)[r]? with
    | some node => exact inorderSuccessor_root hr
    | none =>
      have := getElem?_eq_none_iff.1 hr
      rw [getElem?_eq_none (by omega)]
      rfl

/-- Every node is visited at one step. -/
theorem exists_unique_walk {slot : Nat} (hk : 1 ≤ k) (hs : slot < 2 ^ k - 1) :
    ∃! r, walk (2 ^ k - 1) r = some (slot + 1) := by
  have hmem : slot + 1 ∈ inorder k 1 := mem_inorder_root (by omega) (by omega)
  obtain ⟨r, hr⟩ := mem_iff_getElem?.1 hmem
  refine ⟨r, (walk_eq hk r).trans hr, fun r' hr' => ?_⟩
  replace hr' := (walk_eq hk r').symm.trans hr'
  exact (getElem?_inj (List.getElem?_eq_some_iff.1 hr').1 (nodup_inorder k one_pos)).1 (hr'.trans hr.symm)

/-- What the walk checks: at step `r` the slot it is at against entry `r`, while there are
entries, and against the padding value behind them. -/
structure Tree.WalkChecked (t : Tree) (v : PageView) (keys : List Bytes) : Prop where
  length : keys.length = min v.digestSlotCount v.entryCount
  entries : ∀ r key, keys[r]? = some key → ∃ node d, walk v.digestSlotCount r = some node ∧
    v.digestSlot (node - 1) = .ok d ∧ t.KeyChecked v r key d
  ascending : keys.IsChain t.Ascends
  padding : ∀ r node, v.entryCount ≤ r → walk v.digestSlotCount r = some node → v.digestSlot (node - 1) = .ok u64Max

/-- With as many steps as there are slots the loop has left the tree, whatever the page
holds, and has counted all of them. -/
theorem Tree.checkEytzingerFrom_leftmost {t : Tree} {steps : Nat} (hk : 1 ≤ k) (hs : 2 ^ k - 1 ≤ steps) :
    t.checkEytzingerFrom v (2 ^ k - 1) steps (leftmost (2 ^ k - 1) (2 ^ k - 1) 1) 0 none =
      (fun _ => 2 ^ k - 1) <$> t.checkSlots v ((inorder k 1).map (· - 1)) 0 none := by
  have hlen := length_inorder k 1
  have hfirst := walk_eq hk 0
  rw [walk] at hfirst
  obtain ⟨node, rest, hnode⟩ : ∃ n r, inorder k 1 = n :: r := by
    have h2 : 2 ^ 1 ≤ 2 ^ k := Nat.pow_le_pow_right (by omega) hk
    exact exists_cons_of_ne_nil (ne_nil_of_length_pos (by omega))
  rw [hnode, getElem?_cons_zero, Option.some.injEq] at hfirst
  rw [hnode, length_cons] at hlen
  rw [hfirst, hnode]
  exact checkEytzingerFrom_eq (show (inorder k 1).drop 0 = node :: rest from hnode) (by omega)

theorem Tree.checkEytzingerDigests_eq_ok {t : Tree} (hk : 1 ≤ k) (hc : v.digestSlotCount = 2 ^ k - 1) :
    t.checkEytzingerDigests v = .ok () ↔ ∃ keys, t.WalkChecked v keys := by
  have hwalk : ∀ r, ((inorder k 1).map (· - 1))[r]? = (walk v.digestSlotCount r).map (· - 1) := by
    intro r
    rw [getElem?_map, hc, walk_eq hk]
  rw [checkEytzingerDigests_walk hc, checkSlots_eq_ok]
  refine exists_congr fun keys => ?_
  constructor
  · intro h
    have hlen := h.length
    rw [length_map, length_inorder, ← hc, Nat.sub_zero] at hlen
    refine ⟨hlen, fun r key hr => ?_, h.ascending, fun r node hr hnode => ?_⟩
    · obtain ⟨s, d, hs, hd, hkey⟩ := h.entries r key hr
      rw [hwalk, Option.map_eq_some_iff] at hs
      obtain ⟨node, hnode, rfl⟩ := hs
      exact ⟨node, d, hnode, hd, Nat.zero_add r ▸ hkey⟩
    · exact h.padding r (node - 1) (by omega) (by rw [hwalk, hnode]; rfl)
  · intro h
    refine ⟨?_, fun r key hr => ?_, h.ascending, fun r s hr hs => ?_⟩
    · rw [h.length, length_map, length_inorder, ← hc, Nat.sub_zero]
    · obtain ⟨node, d, hnode, hd, hkey⟩ := h.entries r key hr
      exact ⟨node - 1, d, by rw [hwalk, hnode]; rfl, hd, (Nat.zero_add r).symm ▸ hkey⟩
    · rw [hwalk, Option.map_eq_some_iff] at hs
      obtain ⟨node, hnode, rfl⟩ := hs
      exact h.padding r node (by omega) hnode

/-- The walk of a complete tree is over after as many steps as there are slots, is at every
slot once, and is at step `r` where the scatter puts the `r`-th digest. So the loop on a page
counts every slot, pairs the slot of rank `r` with entry `r`, and the first digest is read
from the slot of rank 0. -/
theorem eytzinger_walk_inorder {k : Nat} (hk : 1 ≤ k) :
    (∀ r, (walk (2 ^ k - 1) r).isSome ↔ r < 2 ^ k - 1) ∧
    (∀ slot < 2 ^ k - 1, ∃! r, walk (2 ^ k - 1) r = some (slot + 1)) ∧
    (∀ digests : List UInt64, completeSize digests.length = 2 ^ k - 1 → ∀ r node, walk (2 ^ k - 1) r = some node →
      (scatterEytzinger digests)[node - 1]? = some (digests[r]?.getD u64Max)) ∧
    ∀ (t : Tree) (v : PageView), v.digestSlotCount = 2 ^ k - 1 →
      (∀ steps, 2 ^ k - 1 ≤ steps → ∀ rank,
        t.checkEytzingerFrom v (2 ^ k - 1) steps (leftmost (2 ^ k - 1) (2 ^ k - 1) 1) 0 none = .ok rank →
        rank = 2 ^ k - 1) ∧
      (t.checkEytzingerDigests v = .ok () ↔ ∃ keys, t.WalkChecked v keys) ∧
      (v.layout.eytzinger = true →
        ∃ node, walk (2 ^ k - 1) 0 = some node ∧ firstDigest v = v.digestSlot (node - 1)) := by
  refine ⟨fun r => ?_, fun slot hs => exists_unique_walk hk hs, fun digests hd r node hnode => ?_, fun t v hc => ⟨?_, ?_, ?_⟩⟩
  · simp [walk_eq hk]
  · exact scatterEytzinger_getElem? hd ((walk_eq hk r).symm.trans hnode)
  · intro steps hsteps rank hrank
    rw [Tree.checkEytzingerFrom_leftmost hk hsteps, map_eq_ok] at hrank
    obtain ⟨u, -, rfl⟩ := hrank
    rfl
  · exact Tree.checkEytzingerDigests_eq_ok hk hc
  · intro he
    refine ⟨_, rfl, ?_⟩
    unfold firstDigest
    rw [he, hc]
    rfl

theorem eytzinger_walk_inorder_seven :
    1 ≤ 3 ∧ (List.range 8).map (walk 7) = [some 4, some 2, some 5, some 1, some 6, some 3, some 7, none] ∧
      ∀ slot < 2 ^ 3 - 1, ∃! r, walk (2 ^ 3 - 1) r = some (slot + 1) :=
  ⟨by decide, by decide, (eytzinger_walk_inorder (k := 3) (by decide)).2.1⟩

end DryDb
