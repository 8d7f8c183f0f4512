import DryDb.Keys.Order
import DryDb.Reader.Image
import DryDb.Reader.PageSearch
/-!
# Pages by their keys

The keys of an encoding are ordered by a rank (`OrderedBy`). A page with the keys `keys`,
stored or rebuilt, is then sorted for every valid key (`PageKeys.sorted`), although its digests
need not be: an entry's digest is never below the one its key has. So a search inside a page
that passed the digest check is a linear scan (`search_equals_scan`).
-/

namespace DryDb

open List

/-- The keys of a page, whether they are stored or stand in its digests. -/
structure PageKeys (t : Tree) (v : PageView) (keys : List Bytes) : Prop where
  area : v.Digests
  length : keys.length = v.entryCount
  valid : ∀ key ∈ keys, t.encoding.Accepts key
  digest : ∀ i key, keys[i]? = some key → ∃ d stored, t.encoding.digest key = .ok d ∧ v.HasDigest i stored ∧ d ≤ stored
  padding : ∀ j s, v.entryCount ≤ j → v.slotOrder[j]? = some s → v.digestSlot s = .ok u64Max
  leaf : v.kind = .leaf → ∀ i key, keys[i]? = some key → ∀ q d, t.encoding.Accepts q → t.encoding.digest q = .ok d →
    t.compareLeaf v q d i = t.encoding.compare key q
  internal : v.kind = .internal → ∀ i key, keys[i]? = some key → ∀ q d, t.encoding.Accepts q →
    t.encoding.digest q = .ok d → t.compareInternal v q d i = t.encoding.compare key q

section

variable {ρ : Type} [LinearOrder ρ] {rank : Bytes → ρ} {t : Tree} {v : PageView} {keys : List Bytes}
  {cmp : Nat → Result Ordering}

theorem rises_of_le {a b q : ρ} (h : a ≤ b) : Rises (compare a q) (compare b q) := by
  refine ⟨fun hb => ?_, fun ha => ?_⟩
  · rw [compare_lt_iff_lt] at hb ⊢
    exact lt_of_le_of_lt h hb
  · rw [compare_gt_iff_gt] at ha ⊢
    exact lt_of_lt_of_le ha h

/-- A page with ascending keys is sorted for every valid key. -/
theorem PageKeys.sorted (ho : t.encoding.OrderedBy rank) (hk : PageKeys t v keys)
    (hasc : keys.Pairwise fun a b => rank a < rank b) {q : Bytes} {d : UInt64} (hq : t.encoding.Accepts q)
    (hd : t.encoding.digest q = .ok d) (hcmp : ∀ i key, keys[i]? = some key → cmp i = t.encoding.compare key q) :
    Sorted cmp (v.lowerBoundRank d) v.entryCount fun i => compare (rank (keys.getD i [])) (rank q) := by
  have hget : ∀ i, i < v.entryCount → keys[i]? = some (keys.getD i []) := by
    intro i hi
    have hlt : i < keys.length := by rw [hk.length]; exact hi
    simp [List.getD, getElem?_eq_getElem hlt]
  have hlt : ∀ i j, i < j → j < v.entryCount → rank (keys.getD i []) < rank (keys.getD j []) := by
    intro i j hij hj
    have hj' : j < keys.length := by rw [hk.length]; exact hj
    have := pairwise_iff_getElem.1 hasc i j (by omega) hj' hij
    simpa [List.getD, getElem?_eq_getElem hj', getElem?_eq_getElem (show i < keys.length by omega)] using this
  refine ⟨fun i hi => ?_, fun i j hij hj => rises_of_le (hlt i j hij hj).le, ?_⟩
  · have hki := hget i hi
    rw [hcmp i _ hki, ho.compare _ _ (hk.valid _ (mem_of_getElem? hki)) hq]
  · obtain ⟨r, hr, hle, hgap⟩ := v.lowerBoundRank_spec hk.area d
    refine ⟨r, hr, fun i hir hi => ?_⟩
    have hrc : r ≤ v.entryCount := by
      by_contra hgt
      -- The search cannot go past the padding.
      obtain ⟨x, hx⟩ := hk.area.exists_hasDigest (j := r - 1) (by omega)
      obtain ⟨s, hs, hds⟩ := id hx
      rw [hk.padding (r - 1) s (by omega) hs, Except.ok.injEq] at hds
      exact u64Max_not_lt d (hds ▸ hgap.before x (by omega) hx)
    have hkr := hget (r - 1) (by omega)
    obtain ⟨x, stored, hdx, hstored, hle'⟩ := hk.digest _ _ hkr
    have hxd : x < d := UInt64.lt_of_le_of_lt hle' (hgap.before stored (by omega) hstored)
    have hbelow : rank (keys.getD (r - 1) []) < rank q := by
      by_contra hge
      have := ho.mono _ _ _ _ hq (hk.valid _ (mem_of_getElem? hkr)) hd hdx (not_lt.1 hge)
      exact absurd hxd (UInt64.not_lt.2 this)
    rw [compare_lt_iff_lt]
    rcases Nat.lt_or_eq_of_le (show i ≤ r - 1 by omega) with hlt' | heq
    · exact lt_trans (hlt i (r - 1) hlt' (by omega)) hbelow
    · exact heq ▸ hbelow

/-! ## Checked pages -/

/-- The keys of a page that passed the digest check. -/
theorem Tree.KeysChecked.pageKeys (ho : t.encoding.OrderedBy rank)
    (hk : t.KeysChecked v keys) (harea : v.Digests) (homit : v.layout.omittedKeys = false) : PageKeys t v keys where
  area := harea
  length := hk.length
  valid key hkey := by
    obtain ⟨i, hi⟩ := mem_iff_getElem?.1 hkey
    obtain ⟨stored, -, hc⟩ := hk.entries i key hi
    exact ⟨hc.valid, ho.digests key stored hc.accepted⟩
  digest i key hi := by
    obtain ⟨stored, hstored, hc⟩ := hk.entries i key hi
    obtain ⟨d, hd⟩ := ho.digests key stored hc.accepted
    exact ⟨d, stored, hd, hstored, ho.stored key d stored ⟨hc.valid, d, hd⟩ hd hc.accepted⟩
  padding := hk.padding
  leaf hkind i key hi q d _ _ := by
    obtain ⟨stored, -, hc⟩ := hk.entries i key hi
    have hentry := hc.entry
    unfold Tree.entryKey at hentry
    rw [hkind] at hentry
    obtain ⟨e, he, hkey⟩ := bind_eq_ok.1 hentry
    simp only [Tree.compareLeaf, homit, Bool.false_eq_true, if_false, he, ok_bind, hkey]
  internal hkind i key hi q d _ _ := by
    obtain ⟨stored, -, hc⟩ := hk.entries i key hi
    have hentry := hc.entry
    unfold Tree.entryKey at hentry
    rw [hkind] at hentry
    obtain ⟨e, he, hkey⟩ := bind_eq_ok.1 hentry
    simp only [Tree.compareInternal, homit, Bool.false_eq_true, if_false, he, ok_bind, hkey]

/-- Keys that ascend one by one ascend. -/
theorem Tree.KeysChecked.ascends (ho : t.encoding.OrderedBy rank)
    (hk : t.KeysChecked v keys) (hvalid : ∀ key ∈ keys, t.encoding.Accepts key) :
    keys.Pairwise fun a b => rank a < rank b := by
  have hchain : keys.IsChain fun a b => rank a < rank b := by
    apply hk.ascending.imp_of_mem_imp
    intro a b ha hb hab
    rw [Tree.Ascends, ho.compare a b (hvalid a ha) (hvalid b hb), Except.ok.injEq, compare_lt_iff_lt] at hab
    exact hab
  have : IsTrans Bytes fun a b => rank a < rank b := ⟨fun _ _ _ => lt_trans⟩
  exact isChain_iff_pairwise.1 hchain

/-- A page without keys is sorted by its digests. -/
theorem Tree.DigestsChecked.sorted {digests : List UInt64} (hk : t.DigestsChecked v digests)
    (harea : v.Digests) (he : v.layout.eytzinger = false) (d : UInt64)
    (hcmp : ∀ i, cmp i = v.digestAt i >>= fun x => .ok (Ord.compare x d)) :
    Sorted cmp (v.lowerBoundRank d) v.entryCount fun i => Ord.compare (digests.getD i 0) d := by
  have hget : ∀ i, i < v.entryCount → v.digestAt i = .ok (digests.getD i 0) := by
    intro i hi
    have hlt : i < digests.length := by rw [hk.length]; exact hi
    exact hk.entries i _ (by simp [List.getD, getElem?_eq_getElem hlt])
  have hle : ∀ i j, i < j → j < v.entryCount → (digests.getD i 0).toNat ≤ (digests.getD j 0).toNat := by
    intro i j hij hj
    have : IsTrans UInt64 (· ≤ ·) := ⟨fun _ _ _ => UInt64.le_trans⟩
    have hpair := isChain_iff_pairwise.1 (hk.ascending.imp fun _ _ h => h.1)
    have hj' : j < digests.length := by rw [hk.length]; exact hj
    have := pairwise_iff_getElem.1 hpair i j (by omega) hj' hij
    rw [UInt64.le_iff_toNat_le] at this
    simpa [List.getD, getElem?_eq_getElem hj', getElem?_eq_getElem (show i < digests.length by omega)] using this
  refine ⟨fun i hi => ?_, fun i j hij hj => ?_, ?_⟩
  · rw [hcmp, hget i hi, ok_bind]
  · rw [compare_uint64, compare_uint64]
    exact rises_of_le (hle i j hij hj)
  · obtain ⟨r, hr, hrange, hgap⟩ := v.lowerBoundRank_spec harea d
    refine ⟨r, hr, fun i hir hi => ?_⟩
    rw [harea.slots_sorted he] at hrange
    have hlast : (digests.getD (r - 1) 0).toNat < d.toNat := by
      rw [← UInt64.lt_iff_toNat_lt]
      exact hgap.before _ (by omega) ((PageView.hasDigest_sorted harea he (by omega)).2 (hget (r - 1) (by omega)))
    rw [compare_uint64, compare_lt_iff_lt]
    rcases Nat.lt_or_eq_of_le (show i ≤ r - 1 by omega) with hlt | rfl
    · exact Nat.lt_of_le_of_lt (hle i (r - 1) hlt (by omega)) hlast
    · exact hlast

end

/-! ## Searches are scans -/

/-- How entry `i` compares with the key: by its key, or by its digest on a page without keys. -/
def Tree.Compares (t : Tree) (v : PageView) (key : Bytes) (d : UInt64) (i : Nat) (o : Ordering) : Prop :=
  if v.layout.omittedKeys then ∃ x, v.digestAt i = .ok x ∧ o = Ord.compare x d
  else ∃ k, Tree.entryKey v i = .ok k ∧ t.encoding.compare k key = .ok o

/-- The last of `count` entries that is not above the key, or the first. -/
def lastNotAbove (c : Nat → Ordering) : Nat → Nat
  | 0 => 0
  | n + 1 => if c n = .gt then lastNotAbove c n else n

variable {c : Nat → Ordering}

theorem lastNotAbove_eq {i count : Nat} (hi : i < count) (hat : c i ≠ .gt)
    (habove : ∀ j, i < j → j < count → c j = .gt) : lastNotAbove c count = i := by
  induction count with
  | zero => omega
  | succ n ih =>
    rw [lastNotAbove]
    rcases Nat.lt_or_eq_of_le (Nat.le_of_lt_succ hi) with hlt | rfl
    · rw [if_pos (habove n hlt (Nat.lt_succ_self n))]
      exact ih hlt fun j hj hjn => habove j hj (Nat.lt_succ_of_lt hjn)
    · rw [if_neg hat]

theorem lastNotAbove_none {count : Nat} (h : ∀ j < count, c j = .gt) : lastNotAbove c count = 0 := by
  induction count with
  | zero => rfl
  | succ n ih =>
    rw [lastNotAbove, if_pos (h n (Nat.lt_succ_self n))]
    exact ih fun j hj => h j (Nat.lt_succ_of_lt hj)

/-- Where separators are known by their keys, a downward step takes the last one not above
the key. No two of them compare equal. -/
theorem internalChildIndex_scan {t : Tree} {v : PageView} {key : Bytes} {d : UInt64}
    (h : Sorted (t.compareInternal v key d) (v.lowerBoundRank d) v.entryCount c)
    (hstrict : ∀ i j, i < j → j < v.entryCount → c i = .eq → c j = .gt) (homit : v.layout.omittedKeys = false) :
    t.internalChildIndex v key d = .ok (lastNotAbove c v.entryCount, false) := by
  obtain ⟨i, hle, hbelow, hat, hchild⟩ := Tree.internalChildIndex_eq h
  have hexact : t.separatorsAreInexact v = false := by simp [Tree.separatorsAreInexact, homit]
  rw [hchild, hexact]
  simp only [Bool.false_eq_true, if_false]
  by_cases heq : i < v.entryCount ∧ c i = .eq
  · rw [if_pos heq, lastNotAbove_eq heq.1 (by simp [heq.2]) fun j hij hj => hstrict i j hij hj heq.2]
  · rw [if_neg heq]
    -- The entry the scan stops at is above the key, and so are all behind it.
    have habove : ∀ j, i ≤ j → j < v.entryCount → c j = .gt := by
      intro j hij hj
      have hi : c i = .gt := by
        have h1 := hat (by omega)
        have h2 : c i ≠ .eq := fun he => heq ⟨by omega, he⟩
        cases hc : c i
        · exact absurd hc h1
        · exact absurd hc h2
        · rfl
      rcases Nat.lt_or_eq_of_le hij with hlt | rfl
      · exact (h.rises i j hlt hj).2 hi
      · exact hi
    cases i with
    | zero => rw [lastNotAbove_none fun j hj => habove j (Nat.zero_le j) hj]
    | succ i =>
      rw [Nat.add_sub_cancel, lastNotAbove_eq (by omega) _ fun j hij hj => habove j hij hj]
      rw [hbelow i (Nat.lt_succ_self i)]
      simp

/-- The searches of a page find what a scan of all its entries finds. -/
def Tree.SearchesScan (t : Tree) (v : PageView) (key : Bytes) (d : UInt64) : Prop :=
  ∃ c : Nat → Ordering, (∀ i < v.entryCount, t.Compares v key d i (c i)) ∧
    (v.kind = .leaf → ∀ op, t.leafSearch v key d op = .ok ((List.range v.entryCount).find? fun i => op.finds (c i))) ∧
    (v.kind = .internal → v.layout.omittedKeys = false →
      t.internalChildIndex v key d = .ok (lastNotAbove c v.entryCount, false))

/-- On a page that passed the digest check every search is a linear scan. -/
theorem search_equals_scan (t : Tree)
    (henc : ∃ id source, builtin id = some source ∧ (t.encoding = source ∨ t.encoding = duplicateKeyEncoding source))
    (bytes : Bytes) (v : PageView) (hparse : PageView.parse bytes = .ok v) (hcheck : t.checkDigests v = .ok ())
    (key : Bytes) (d : UInt64) (hkey : t.encoding.validateKey key = .ok ()) (hd : t.encoding.digest key = .ok d) :
    t.SearchesScan v key d := by
  have hordered : t.encoding.Ordered := by
    obtain ⟨id, source, hid, h | h⟩ := henc
    · rw [h]
      exact builtin_ordered hid
    · rw [h]
      exact duplicate_ordered hid
  obtain ⟨ρ, inst, rank, ho⟩ := hordered
  have harea := PageView.digests_of_parse hparse
  have hacc : t.encoding.Accepts key := ⟨hkey, d, hd⟩
  cases homit : v.layout.omittedKeys with
  | false =>
    obtain ⟨keys, hkeys⟩ := (Tree.checkDigests_stored harea homit).1 hcheck
    have hpage := hkeys.pageKeys ho harea homit
    have hasc := hkeys.ascends ho hpage.valid
    refine ⟨fun i => compare (rank (keys.getD i [])) (rank key), fun i hi => ?_, fun hkind op => ?_, fun hkind _ => ?_⟩
    · have hki : keys[i]? = some (keys.getD i []) := by
        have hlt : i < keys.length := by rw [hpage.length]; exact hi
        simp [List.getD, getElem?_eq_getElem hlt]
      obtain ⟨stored, -, hc⟩ := hkeys.entries i _ hki
      rw [Tree.Compares, homit]
      exact ⟨_, hc.entry, ho.compare _ _ (hpage.valid _ (mem_of_getElem? hki)) hacc⟩
    · exact Tree.leafSearch_eq (hpage.sorted ho hasc hacc hd fun i k hi => hpage.leaf hkind i k hi key d hacc hd) op
    · apply internalChildIndex_scan (hpage.sorted ho hasc hacc hd fun i k hi => hpage.internal hkind i k hi key d hacc hd) _ homit
      intro i j hij hj heq
      have hj' : j < keys.length := by rw [hpage.length]; exact hj
      have hlt := pairwise_iff_getElem.1 hasc i j (by omega) hj' hij
      rw [compare_eq_iff_eq] at heq
      rw [compare_gt_iff_gt, ← heq]
      simpa [List.getD, getElem?_eq_getElem hj', getElem?_eq_getElem (show i < keys.length by omega)] using hlt
  | true =>
    have he := (PageView.layout_of_parse hparse homit).2
    obtain ⟨-, digests, hdigests⟩ := (Tree.checkDigests_omitted homit he).1 hcheck
    refine ⟨fun i => Ord.compare (digests.getD i 0) d, fun i hi => ?_, fun hkind op => ?_, fun _ h => ?_⟩
    · have hlt : i < digests.length := by rw [hdigests.length]; exact hi
      rw [Tree.Compares, homit]
      exact ⟨_, hdigests.entries i _ (by simp [List.getD, getElem?_eq_getElem hlt]), rfl⟩
    · apply Tree.leafSearch_eq (hdigests.sorted harea he d _) op
      intro i
      simp [Tree.compareLeaf, homit]
    · rw [homit] at h
      cases h

namespace Duplicates

/-- A leaf of a non-unique index with two rows for one key. The first digest is the one of the
whole composite key, the second the one of the source key, so they descend. -/
def leaf : Node where
  kind := .leaf
  layout := { compactMeta := true }
  items :=
    [{ key := [97, 1, 0, 0, 0], digest := asciiDigest [97, 1, 0, 0, 0], body := .inline [] },
     { key := [97, 2, 0, 0, 0], digest := asciiDigest [97], body := .inline [] }]

def tree : Tree := { Lone.tree with encoding := duplicateKeyEncoding asciiEncoding }

theorem search_equals_scan_duplicates :
    asciiDigest [97] < asciiDigest [97, 1, 0, 0, 0] ∧ tree.SearchesScan leaf.view [97, 2, 0, 0, 0] (asciiDigest [97]) :=
  ⟨by decide +kernel, search_equals_scan tree ⟨"ascii", asciiEncoding, rfl, .inr rfl⟩ leaf.image leaf.view
    (by decide +kernel) (by decide +kernel) _ _ (by decide +kernel) (by decide +kernel)⟩

end Duplicates

end DryDb
