import DryDb.Page.Digests
/-!
# What the digest check says

`Tree.checkDigests` walks a page with keys in entry order, whichever way its digests are
stored. `KeysChecked` and `DigestsChecked` say what it accepts: on a page with keys every
entry's key is well formed, its digest is accepted and the keys ascend; on a page without
keys the digests ascend.
-/

namespace DryDb

open Eytzinger List

/-- What the check says about one stored entry. -/
structure Tree.KeyChecked (t : Tree) (v : PageView) (i : Nat) (key : Bytes) (stored : UInt64) : Prop where
  entry : Tree.entryKey v i = .ok key
  valid : t.encoding.validateKey key = .ok ()
  accepted : t.encoding.acceptsDigest key stored = .ok true

/-- `b` follows `a` the way keys of one page do. -/
def Tree.Ascends (t : Tree) (a b : Bytes) : Prop := t.encoding.compare a b = .ok .lt

/-- A page with keys as a search assumes it. -/
structure Tree.KeysChecked (t : Tree) (v : PageView) (keys : List Bytes) : Prop where
  length : keys.length = v.entryCount
  entries : ∀ i key, keys[i]? = some key → ∃ d, v.HasDigest i d ∧ t.KeyChecked v i key d
  ascending : keys.IsChain t.Ascends
  padding : ∀ j s, v.entryCount ≤ j → v.slotOrder[j]? = some s → v.digestSlot s = .ok u64Max

/-- A page without keys as a search assumes it. -/
structure Tree.DigestsChecked (t : Tree) (v : PageView) (digests : List UInt64) : Prop where
  length : digests.length = v.entryCount
  entries : ∀ i d, digests[i]? = some d → v.digestAt i = .ok d
  ascending : digests.IsChain fun a b => a ≤ b ∧ (t.encoding.isDigestExact = true → a ≠ b)

namespace Tree

variable {t : Tree} {v : PageView} {index rank : Nat} {key : Bytes} {stored : UInt64} {previous : Option Bytes} {strict : Bool}

/-! ## One entry -/

theorem checkStoredKey_eq_ok :
    t.checkStoredKey index key = .ok () ↔ t.encoding.validateKey key = .ok () := by
  unfold checkStoredKey
  exact mapError_eq_ok

theorem checkAccepted_eq_ok :
    t.checkAccepted index key stored = .ok () ↔ t.encoding.acceptsDigest key stored = .ok true := by
  unfold checkAccepted
  cases h : t.encoding.acceptsDigest key stored with
  | error e => simp
  | ok b =>
    cases b with
    | true => simp
    | false => simp [bind_eq_ok]

theorem checkAscending_eq_ok {a b : Bytes} : t.checkAscending index a b = .ok () ↔ t.Ascends a b := by
  unfold checkAscending Ascends
  cases h : t.encoding.compare a b with
  | error e => simp
  | ok o => cases o <;> simp

theorem checkAfter_eq_ok :
    t.checkAfter index previous key = .ok () ↔ ∀ p ∈ previous, t.Ascends p key := by
  cases previous with
  | none => simp [checkAfter]
  | some p => simp [checkAfter, checkAscending_eq_ok]

theorem checkEntry_eq_ok :
    t.checkEntry v index stored previous = .ok key ↔
      t.KeyChecked v index key stored ∧ ∀ p ∈ previous, t.Ascends p key := by
  simp only [checkEntry, bind_eq_ok, Except.ok.injEq]
  constructor
  · rintro ⟨k, hk, ⟨⟩, hvalid, ⟨⟩, hacc, ⟨⟩, hafter, rfl⟩
    exact ⟨⟨hk, checkStoredKey_eq_ok.1 hvalid, checkAccepted_eq_ok.1 hacc⟩, checkAfter_eq_ok.1 hafter⟩
  · rintro ⟨⟨hk, hvalid, hacc⟩, hafter⟩
    exact ⟨key, hk, (), checkStoredKey_eq_ok.2 hvalid, (), checkAccepted_eq_ok.2 hacc, (),
      checkAfter_eq_ok.2 hafter, rfl⟩

/-! ## The walk in entry order -/

/-- The checks of the slots of `slots` in turn, the first of them of rank `rank`. -/
def checkSlots (t : Tree) (v : PageView) : List Nat → Nat → Option Bytes → Result Unit
  | [], _, _ => .ok ()
  | s :: slots, rank, previous => do
    let previous ← t.checkSlot v (s + 1) rank previous
    checkSlots t v slots (rank + 1) previous

/-- What a walk over `slots` from `rank` on found, after the key `previous`. -/
structure SlotsChecked (t : Tree) (v : PageView) (slots : List Nat) (rank : Nat) (previous : Option Bytes)
    (keys : List Bytes) : Prop where
  length : keys.length = min slots.length (v.entryCount - rank)
  entries : ∀ i key, keys[i]? = some key → ∃ s d, slots[i]? = some s ∧ v.digestSlot s = .ok d ∧
    t.KeyChecked v (rank + i) key d
  ascending : (previous.toList ++ keys).IsChain t.Ascends
  padding : ∀ i s, v.entryCount ≤ rank + i → slots[i]? = some s → v.digestSlot s = .ok u64Max

theorem checkSlot_eq_ok {s : Nat} {next : Option Bytes} :
    t.checkSlot v (s + 1) rank previous = .ok next ↔ ∃ d, v.digestSlot s = .ok d ∧
      if rank < v.entryCount then ∃ key, next = some key ∧ t.KeyChecked v rank key d ∧ ∀ p ∈ previous, t.Ascends p key
      else d = u64Max ∧ next = previous := by
  unfold checkSlot
  rw [Nat.add_sub_cancel, bind_eq_ok]
  refine exists_congr fun d => and_congr_right fun _ => ?_
  by_cases hr : rank < v.entryCount
  · rw [if_pos hr, if_pos hr, map_eq_ok]
    simp only [checkEntry_eq_ok]
    constructor
    · rintro ⟨key, ⟨hk, hp⟩, rfl⟩
      exact ⟨key, rfl, hk, hp⟩
    · rintro ⟨key, rfl, hk, hp⟩
      exact ⟨key, ⟨hk, hp⟩, rfl⟩
  · rw [if_neg hr, if_neg hr, guard_eq_ok, not_not, Except.ok.injEq, eq_comm (a := previous)]

theorem checkSlots_eq_ok {slots : List Nat} :
    t.checkSlots v slots rank previous = .ok () ↔ ∃ keys, t.SlotsChecked v slots rank previous keys := by
  induction slots generalizing rank previous with
  | nil =>
    simp only [checkSlots, true_iff]
    refine ⟨[], by simp, by simp, ?_, by simp⟩
    cases previous <;> simp
  | cons s slots ih =>
    simp only [checkSlots, bind_eq_ok, checkSlot_eq_ok, ih]
    by_cases hr : rank < v.entryCount
    · simp only [if_pos hr]
      constructor
      · rintro ⟨next, ⟨d, hd, key, rfl, hkey, hafter⟩, keys, hkeys⟩
        refine ⟨key :: keys, ?_, ?_, ?_, ?_⟩
        · rw [length_cons, hkeys.length, length_cons]
          omega
        · rintro (_ | i) k hk
          · obtain rfl : key = k := by simpa using hk
            exact ⟨s, d, rfl, hd, hkey⟩
          · have := hkeys.entries i k (by simpa using hk)
            rwa [show rank + 1 + i = rank + (i + 1) by omega] at this
        · have hc := hkeys.ascending
          cases previous with
          | none => exact hc
          | some p => exact isChain_cons_cons.2 ⟨hafter p rfl, hc⟩
        · rintro (_ | i) x hx hs
          · omega
          · exact hkeys.padding i x (by omega) (by simpa using hs)
      · rintro ⟨keys, hkeys⟩
        have hlen := hkeys.length
        rw [length_cons] at hlen
        obtain ⟨key, keys, rfl⟩ : ∃ k ks, keys = k :: ks :=
          exists_cons_of_ne_nil (ne_nil_of_length_pos (by omega))
        obtain ⟨x, d, hx, hd, hkey⟩ := hkeys.entries 0 key rfl
        obtain rfl : s = x := by simpa using hx
        refine ⟨some key, ⟨d, hd, key, rfl, hkey, ?_⟩, keys, ?_, ?_, ?_, ?_⟩
        · rintro p rfl
          exact (isChain_cons_cons.1 hkeys.ascending).1
        · rw [length_cons] at hlen
          omega
        · intro i k hk
          have := hkeys.entries (i + 1) k (by simpa using hk)
          rwa [show rank + (i + 1) = rank + 1 + i by omega] at this
        · cases previous with
          | none => exact hkeys.ascending
          | some p => exact (isChain_cons_cons.1 hkeys.ascending).2
        · intro i x hx hs
          exact hkeys.padding (i + 1) x (by omega) (by simpa using hs)
    · simp only [if_neg hr]
      constructor
      · rintro ⟨next, ⟨d, hd, rfl, rfl⟩, keys, hkeys⟩
        refine ⟨keys, ?_, ?_, hkeys.ascending, ?_⟩
        · rw [hkeys.length]
          omega
        · intro i k hk
          have hlt := (List.getElem?_eq_some_iff.1 hk).1
          have := hkeys.length
          omega
        · rintro (_ | i) x hx hs
          · obtain rfl : s = x := by simpa using hs
            exact hd
          · exact hkeys.padding i x (by omega) (by simpa using hs)
      · rintro ⟨keys, hkeys⟩
        have hlen := hkeys.length
        refine ⟨previous, ⟨u64Max, hkeys.padding 0 s (by omega) rfl, rfl, rfl⟩, keys, ?_, ?_, hkeys.ascending, ?_⟩
        · omega
        · intro i k hk
          have hlt := (List.getElem?_eq_some_iff.1 hk).1
          omega
        · intro i x hx hs
          exact hkeys.padding (i + 1) x (by omega) (by simpa using hs)

/-! ## Both storage orders -/

theorem checkSortedDigests_eq (h : v.Digests) (he : v.layout.eytzinger = false) {n : Nat} (hn : index + n ≤ v.entryCount) :
    t.checkSortedDigests v n index previous = t.checkSlots v (List.range' index n) index previous := by
  induction n generalizing index previous with
  | zero => rfl
  | succ n ih =>
    have hlt : index < v.entryCount := by omega
    have hat : v.digestAt index = v.digestSlot index := by
      unfold PageView.digestSlot PageView.digestAt
      rw [h.slots_sorted he, if_neg (Nat.not_le.2 hlt), he]
      simp [Nat.not_le.2 hlt]
    rw [checkSortedDigests, range'_succ, checkSlots, checkSlot, Nat.add_sub_cancel, hat]
    cases hd : v.digestSlot index with
    | error e => rfl
    | ok d =>
      simp only [ok_bind, if_pos hlt]
      cases hk : t.checkEntry v index d previous with
      | error e => rfl
      | ok key => exact ih (by omega)

theorem checkEytzingerFrom_eq {k steps node : Nat} {rest : List Nat}
    (hnode : (inorder k 1).drop rank = node :: rest) (hs : rest.length < steps) :
    t.checkEytzingerFrom v (2 ^ k - 1) steps node rank previous =
      (fun _ => 2 ^ k - 1) <$> t.checkSlots v ((node :: rest).map (· - 1)) rank previous := by
  induction rest generalizing steps rank node previous with
  | nil =>
    obtain ⟨steps, rfl⟩ : ∃ m, steps = m + 1 := ⟨steps - 1, by omega⟩
    have hat : (inorder k 1)[rank]? = some node := by rw [← Nat.add_zero rank, ← getElem?_drop, hnode]; rfl
    have hpos := le_of_mem_inorder (mem_of_getElem? hat)
    have hlen : rank + 1 = 2 ^ k - 1 := by
      have := congrArg List.length hnode
      rw [length_drop, length_inorder] at this
      simp at this
      omega
    have hnext : inorderSuccessor (2 ^ k - 1) node = none := by
      rw [inorderSuccessor_root hat, hlen]
      simp
    rw [checkEytzingerFrom, hnext, map_cons, checkSlots, Nat.sub_add_cancel hpos]
    cases t.checkSlot v node rank previous with
    | error e => rfl
    | ok next => simp [checkSlots, hlen]
  | cons next rest ih =>
    obtain ⟨steps, rfl⟩ : ∃ m, steps = m + 1 := ⟨steps - 1, by omega⟩
    have hat : (inorder k 1)[rank]? = some node := by rw [← Nat.add_zero rank, ← getElem?_drop, hnode]; rfl
    have hpos := le_of_mem_inorder (mem_of_getElem? hat)
    have hdrop : (inorder k 1).drop (rank + 1) = next :: rest := by
      rw [← drop_drop, hnode]
      rfl
    have hnext : inorderSuccessor (2 ^ k - 1) node = some next := by
      rw [inorderSuccessor_root hat, ← Nat.add_zero (rank + 1), ← getElem?_drop, hdrop]
      rfl
    rw [checkEytzingerFrom, hnext, map_cons, checkSlots, Nat.sub_add_cancel hpos]
    cases t.checkSlot v node rank previous with
    | error e => rfl
    | ok p =>
      simp only [ok_bind]
      exact ih hdrop (by simp at hs; omega)

/-- The walk pairs the slots in order with the entries, and its count of slots is right. -/
theorem checkEytzingerDigests_walk {k : Nat} (hk : v.digestSlotCount = 2 ^ k - 1) :
    t.checkEytzingerDigests v = t.checkSlots v ((inorder k 1).map (· - 1)) 0 none := by
  unfold checkEytzingerDigests
  rw [hk]
  cases k with
  | zero => rfl
  | succ k =>
    have hpos := Nat.one_le_two_pow (n := k)
    have hlen := length_inorder (k + 1) 1
    have hlog := Nat.lt_two_pow_self (n := k + 1)
    have hsteps : k ≤ 2 ^ (k + 1) - 1 := by omega
    have hhead := leftmost_eq_head (Below.root (k + 1)) hsteps
    obtain ⟨node, rest, hnode⟩ : ∃ n r, inorder (k + 1) 1 = n :: r :=
      exists_cons_of_ne_nil (ne_nil_of_length_pos (by rw [hlen, Nat.pow_succ]; omega))
    rw [hnode, head?_cons, Option.some.injEq] at hhead
    rw [hnode, length_cons] at hlen
    have hdrop : (inorder (k + 1) 1).drop 0 = node :: rest := hnode
    have hfrom : t.checkEytzingerFrom v (2 ^ (k + 1) - 1) (2 ^ (k + 1) - 1 + 1) node 0 none = _ :=
      checkEytzingerFrom_eq hdrop (by omega)
    have hne : 2 ^ (k + 1) - 1 ≠ 0 := by rw [Nat.pow_succ]; omega
    simp only [if_neg hne]
    rw [← hhead, hnode, hfrom]
    cases t.checkSlots v (List.map (· - 1) (node :: rest)) 0 none with
    | error e => rfl
    | ok u => simp

theorem checkEytzingerDigests_eq (h : v.Digests) (he : v.layout.eytzinger = true) :
    t.checkEytzingerDigests v = t.checkSlots v v.slotOrder 0 none := by
  obtain ⟨k, hk, ho⟩ := h.height he
  rw [ho, checkEytzingerDigests_walk hk]

/-- The check of a page with keys. -/
theorem checkDigests_stored (h : v.Digests) (ho : v.layout.omittedKeys = false) :
    t.checkDigests v = .ok () ↔ ∃ keys, t.KeysChecked v keys := by
  have hwalk : t.checkDigests v = t.checkSlots v v.slotOrder 0 none := by
    unfold checkDigests
    cases he : v.layout.eytzinger with
    | true => exact checkEytzingerDigests_eq h he
    | false =>
      rw [ho, PageView.Digests.slotOrder_sorted he, range_eq_range']
      exact checkSortedDigests_eq h he (by omega)
  rw [hwalk, checkSlots_eq_ok]
  refine exists_congr fun keys => ?_
  have hle := h.count_le
  constructor
  · intro hk
    refine ⟨?_, fun i key hi => ?_, hk.ascending, fun j s hj hs => hk.padding j s (by omega) hs⟩
    · rw [hk.length, h.length_slotOrder]
      omega
    · obtain ⟨s, d, hs, hd, hc⟩ := hk.entries i key hi
      exact ⟨d, ⟨s, hs, hd⟩, Nat.zero_add i ▸ hc⟩
  · intro hk
    refine ⟨?_, fun i key hi => ?_, hk.ascending, fun j s hj hs => hk.padding j s (by omega) hs⟩
    · rw [hk.length, h.length_slotOrder]
      omega
    · obtain ⟨d, ⟨s, hs, hd⟩, hc⟩ := hk.entries i key hi
      exact ⟨s, d, hs, hd, (Nat.zero_add i).symm ▸ hc⟩

/-! ## Pages without keys -/

theorem checkDigestAfter_eq_ok {previous : Option UInt64} :
    checkDigestAfter strict index previous stored = .ok () ↔
      ∀ p ∈ previous, p ≤ stored ∧ (strict = true → p ≠ stored) := by
  cases previous with
  | none => simp [checkDigestAfter]
  | some p =>
    simp only [checkDigestAfter, guard_eq_ok, and_true, Option.mem_def, Option.some.injEq, forall_eq', not_or,
      UInt64.not_lt, not_and, ne_eq, eq_comm (a := stored)]

theorem checkOmittedDigests_eq_ok {n : Nat} {previous : Option UInt64} :
    checkOmittedDigests v strict n index previous = .ok () ↔ ∃ ds : List UInt64, ds.length = n ∧
      (∀ i d, ds[i]? = some d → v.digestAt (index + i) = .ok d) ∧
      (previous.toList ++ ds).IsChain fun a b => a ≤ b ∧ (strict = true → a ≠ b) := by
  induction n generalizing index previous with
  | zero =>
    simp only [checkOmittedDigests, true_iff]
    refine ⟨[], rfl, by simp, ?_⟩
    cases previous <;> simp
  | succ n ih =>
    simp only [checkOmittedDigests, bind_eq_ok]
    constructor
    · rintro ⟨d, hd, ⟨⟩, hafter, hrest⟩
      obtain ⟨ds, hlen, hat, hc⟩ := ih.1 hrest
      refine ⟨d :: ds, by simp [hlen], ?_, ?_⟩
      · rintro (_ | i) x hx
        · obtain rfl : d = x := by simpa using hx
          exact hd
        · have := hat i x (by simpa using hx)
          rwa [show index + 1 + i = index + (i + 1) by omega] at this
      · cases previous with
        | none => exact hc
        | some p => exact isChain_cons_cons.2 ⟨checkDigestAfter_eq_ok.1 hafter p rfl, hc⟩
    · rintro ⟨ds, hlen, hat, hc⟩
      obtain ⟨d, ds, rfl⟩ : ∃ x xs, ds = x :: xs :=
        exists_cons_of_ne_nil (ne_nil_of_length_pos (by omega))
      refine ⟨d, hat 0 d rfl, (), checkDigestAfter_eq_ok.2 ?_, ih.2 ⟨ds, by simpa using hlen, ?_, ?_⟩⟩
      · rintro p rfl
        exact (isChain_cons_cons.1 hc).1
      · intro i x hx
        have := hat (i + 1) x (by simpa using hx)
        rwa [show index + (i + 1) = index + 1 + i by omega] at this
      · cases previous with
        | none => exact hc
        | some p => exact (isChain_cons_cons.1 hc).2

/-- The check of a page without keys. -/
theorem checkDigests_omitted (ho : v.layout.omittedKeys = true) (he : v.layout.eytzinger = false) :
    t.checkDigests v = .ok () ↔ t.encoding.maxRebuiltKeyLen.isSome ∧ ∃ ds, t.DigestsChecked v ds := by
  unfold checkDigests rebuiltKeyCapacity
  rw [ho, he]
  simp only [Bool.false_eq_true, if_false, if_true, bind_eq_ok, okOr_eq_ok, checkOmittedDigests_eq_ok,
    Option.toList_none, nil_append, Nat.zero_add]
  constructor
  · rintro ⟨n, hn, ds, hlen, hat, hc⟩
    exact ⟨by simp [hn], ds, hlen, hat, hc⟩
  · rintro ⟨hs, ds, hlen, hat, hc⟩
    obtain ⟨n, hn⟩ := Option.isSome_iff_exists.1 hs
    exact ⟨n, hn, ds, hlen, hat, hc⟩

end Tree

end DryDb
