import DryDb.Lib.Retry
import DryDb.Model.Words
import DryDb.Page.Digests
/-!
# No page can cause an access out of range

The decoder on machine words (`Model.Words`) computes what the one on unbounded numbers
does, for every byte string given as a page: no sum or product leaves the word, no
difference is negative, no slice is indexed out of range and no loop runs on. What carries
this is `PageView.Bounded`: a page is as long as a positive `i32` says, so a parsed page has
fewer than `2 ^ 31` entries and all its areas lie inside it.
-/

namespace DryDb

open Machine

/-! ## What parsing leaves behind -/

/-- The sizes of a parsed page. -/
structure PageView.Bounded (v : PageView) : Prop where
  length : v.bytes.length ≤ i32Max
  count : v.entryCount ≤ i32Max
  digests : v.metaBase = digestBase + v.layout.digestSlots v.entryCount * 8
  meta_le : v.metaBase ≤ v.payloadBase
  payload_le : v.payloadBase ≤ v.bytes.length

variable {bytes : Bytes} {offset : Nat} {v : PageView}

theorem checkedLen_le {n : Nat} {z : Int} {what : String} (hz : readI32 bytes offset = .ok z)
    (h : checkedLen z what = .ok n) : n ≤ i32Max := by
  obtain ⟨-, rfl⟩ := checkedLen_eq_ok.1 h
  have := readI32_lt hz
  unfold i32Max
  omega

theorem readU16_le {n : Nat} (h : readU16 bytes offset = .ok n) : n ≤ u16Max := by
  obtain ⟨s, hs, rfl⟩ := readLe_eq_ok.1 h
  have hlt := ofLe_lt s
  rw [slice_length hs] at hlt
  unfold u16Max
  omega

theorem bounded_of_parse (h : PageView.parse bytes = .ok v) : v.Bounded := by
  simp only [PageView.parse, bind_eq_ok, guard_eq_ok, Except.ok.injEq] at h
  obtain ⟨-, zlen, hzlen, len, hlen, hsame, word, -, kind, -, layout, -, n, hn, count, hcount, zl, -, l, -, zr, -, r, -,
    ⟨m, p⟩, hareas, rfl⟩ := h
  obtain ⟨hbase, hmeta, hpayload⟩ := PageView.areas_eq_ok hareas
  have hstored := checkedLen_le hzlen hlen
  constructor
  · show bytes.length ≤ i32Max
    omega
  · exact checkedLen_le hn hcount
  · exact hbase
  · exact hmeta
  · exact hpayload

theorem PageView.Bounded.prefix_le (h : v.Bounded) : pagePrefixLen ≤ v.bytes.length := by
  have hbase := h.digests
  have hmeta := h.meta_le
  have hpayload := h.payload_le
  have hsame : pagePrefixLen = digestBase := rfl
  omega

namespace Words

/-! ## Reads -/

theorem get_eq_slice (buf : Bytes) (offset len : Nat) : get buf offset (offset + len) = slice buf offset len := by
  unfold get slice
  simp

variable {offset count : Nat}

theorem readLe_lift {w : Nat} {ty : String} {buf : Bytes} (h : buf.length < usizeLimit ∨ offset + w < usizeLimit) :
    readLe w ty buf offset = lift (DryDb.readLe w ty buf offset) := by
  unfold readLe DryDb.readLe
  by_cases hs : offset + w < usizeLimit
  · rw [checkedAdd, if_pos hs, okOr_some, lift_ok, ok_bind, get_eq_slice]
    cases hp : slice buf offset w with
    | none => simp [hs, fail]
    | some s => simp [copyFromSlice_of_eq (slice_length hp)]
  · have hnone : slice buf offset w = none := if_neg (by omega)
    rw [checkedAdd, if_neg hs, hnone]
    simp [hs, fail]

theorem readSlice_lift {len : Nat} {buf : Bytes} (h : buf.length < usizeLimit) :
    readSlice buf offset len = lift (DryDb.readSlice buf offset len) := by
  unfold readSlice DryDb.readSlice
  by_cases hs : offset + len < usizeLimit
  · rw [checkedAdd, if_pos hs, okOr_some, lift_ok, ok_bind, get_eq_slice]
    cases slice buf offset len with
    | none => simp [hs]
    | some s => rfl
  · have hnone : slice buf offset len = none := if_neg (by omega)
    rw [checkedAdd, if_neg hs, hnone]
    simp [hs, fail]

section Reads

variable {offset : Nat} {buf : Bytes} (h : buf.length < usizeLimit ∨ offset + 8 < usizeLimit)

include h

theorem readU16_lift : readU16 buf offset = lift (DryDb.readU16 buf offset) := readLe_lift (by omega)

theorem readI32Bits_lift : readI32Bits buf offset = lift (DryDb.readI32Bits buf offset) := readLe_lift (by omega)

theorem readI32_lift : readI32 buf offset = lift (DryDb.readI32 buf offset) := by
  rw [DryDb.readI32, lift_map, ← readI32Bits_lift h]
  rfl

theorem readI64_lift : readI64 buf offset = lift (DryDb.readI64 buf offset) := by
  rw [DryDb.readI64, lift_map, ← readLe_lift h]
  rfl

theorem readU64_lift : readU64 buf offset = lift (DryDb.readU64 buf offset) := by
  rw [DryDb.readU64, lift_map, ← readLe_lift h]
  rfl

end Reads

/-! ## Parsing -/

/-- The doubling loop ends before its one leaves the word. -/
theorem completeSizeFrom_lift {m b : Nat} (hm : 0 < m) (hb : count + 1 ≤ m * 2 ^ b) (hword : m * 2 ^ b < usizeLimit)
    {turns : Nat} (ht : b < turns) : completeSizeFrom count m turns = .ok (DryDb.completeSizeFrom count m (b + 1)) := by
  have hsat : saturatingAdd count 1 = count + 1 := by
    unfold saturatingAdd
    omega
  induction b generalizing m turns with
  | zero =>
    obtain ⟨turns, rfl⟩ : ∃ n, turns = n + 1 := ⟨turns - 1, by omega⟩
    rw [completeSizeFrom, hsat, if_neg (by omega), DryDb.completeSizeFrom, if_neg (by omega), sub_of_le hm]
  | succ b ih =>
    obtain ⟨turns, rfl⟩ : ∃ n, turns = n + 1 := ⟨turns - 1, by omega⟩
    have hdouble : 2 * m * 2 ^ b = m * 2 ^ (b + 1) := by ring
    have hpos := Nat.one_le_two_pow (n := b)
    have hfits : 2 * m < usizeLimit := by nlinarith
    rw [completeSizeFrom, hsat, DryDb.completeSizeFrom]
    by_cases hmore : m < count + 1
    · rw [if_pos hmore, if_pos hmore, Nat.mod_eq_of_lt hfits]
      simp only
      rw [if_pos (by omega)]
      exact ih (by omega) (by omega) (by omega) (by omega)
    · rw [if_neg hmore, if_neg hmore, sub_of_le hm]

theorem completeSize_lift (h : count ≤ i32Max) : completeSize count = .ok (DryDb.completeSize count) := by
  unfold i32Max at h
  exact completeSizeFrom_lift (b := 63) one_pos (by omega) (by decide) (by omega)

theorem areas_lift {len : Nat} {kind : NodeKind} {layout : NodeLayout} (h : count ≤ i32Max) :
    areas len kind layout count = lift (PageView.areas len kind layout count) := by
  have hslots : digestAreaSize layout count = .ok (layout.digestAreaSize count) := by
    unfold digestAreaSize digestSlots NodeLayout.digestAreaSize NodeLayout.digestSlots
    cases layout.eytzinger with
    | false => rfl
    | true =>
      simp only [if_true]
      rw [completeSize_lift h]
      rfl
  unfold areas PageView.areas
  rw [hslots, ok_bind]
  apply bind_lift rfl
  intro digestArea _
  apply bind_lift rfl
  intro metaBase _
  apply guard_lift
  intro _
  apply bind_lift rfl
  intro metaArea _
  apply bind_lift rfl
  intro payloadBase _
  apply guard_lift
  intro _
  rfl

/-- Parsing never traps. -/
theorem parse_lift (bytes : Bytes) : parse bytes = lift (PageView.parse bytes) := by
  have hsmall : ∀ offset, offset ≤ pagePrefixLen → bytes.length < usizeLimit ∨ offset + 8 < usizeLimit := by
    intro offset ho
    unfold pagePrefixLen at ho
    unfold usizeLimit
    omega
  unfold parse PageView.parse
  apply guard_lift
  intro _
  apply bind_lift (readI32_lift (hsmall 0 (by decide)))
  intro zlen _
  apply bind_lift rfl
  intro storedLen _
  apply guard_lift
  intro _
  apply bind_lift (readI32Bits_lift (hsmall _ (by decide)))
  intro word _
  apply bind_lift rfl
  intro kind _
  apply bind_lift rfl
  intro layout _
  apply bind_lift (readI32_lift (hsmall _ (by decide)))
  intro zcount hzcount
  apply bind_lift rfl
  intro count hcount
  apply bind_lift (readI64_lift (hsmall _ (by decide)))
  intro zleft _
  apply bind_lift rfl
  intro left _
  apply bind_lift (readI64_lift (hsmall _ (by decide)))
  intro zright _
  apply bind_lift rfl
  intro right _
  apply bind_lift (areas_lift (checkedLen_le hzcount hcount))
  intro bases _
  rfl

/-! ## Digests -/

section Accessors

variable {v : PageView} (h : v.Bounded) {i turns words width offset keyLen : Nat}

include h

theorem bytes_lt : v.bytes.length < usizeLimit := by
  have := h.length
  unfold i32Max at this
  unfold usizeLimit
  omega

theorem slots_le : v.digestSlotCount ≤ i32Max := by
  have h1 := h.length
  have h2 := h.meta_le
  have h3 := h.payload_le
  unfold PageView.digestSlotCount
  omega

theorem digestSlotCount_eq : digestSlotCount v = .ok v.digestSlotCount := by
  have hbase := h.digests
  unfold digestSlotCount
  rw [sub_of_le (by omega), ok_bind]
  rfl

/-- The digest of a slot below `2 ^ 31` is read at an offset that is a word. -/
theorem digestRead_lift {slot : Nat} (hs : slot ≤ i32Max) :
    (do let skipped ← times slot 8
        let offset ← plus digestBase skipped
        readU64 v.bytes offset) = lift (DryDb.readU64 v.bytes (digestBase + slot * 8)) := by
  have hbase : digestBase = 28 := rfl
  have hword : usizeLimit = 2 ^ 64 := rfl
  unfold i32Max at hs
  rw [times, mul_of_lt (by omega), ok_bind, plus, add_of_lt (by omega), ok_bind]
  exact readU64_lift (.inl (bytes_lt h))

theorem digestSlot_lift (slot : Nat) : digestSlot v slot = lift (v.digestSlot slot) := by
  unfold digestSlot PageView.digestSlot
  rw [digestSlotCount_eq h, ok_bind]
  apply guard_lift
  intro hlt
  have := slots_le h
  exact digestRead_lift h (by omega)

theorem digestAt_lift (i : Nat) : digestAt v i = lift (v.digestAt i) := by
  unfold digestAt PageView.digestAt
  apply guard_lift
  intro _
  apply guard_lift
  intro hlt
  have := h.count
  exact digestRead_lift h (by omega)

omit h in
/-- A turn of the descent at least doubles the node. -/
theorem lt_of_turn {slots : Nat} (bit : Nat) (ht : slots < i * 2 ^ (turns + 1)) :
    slots < (2 * i + bit) * 2 ^ turns := by
  calc slots < i * 2 ^ (turns + 1) := ht
    _ = 2 * i * 2 ^ turns := by ring
    _ ≤ (2 * i + bit) * 2 ^ turns := Nat.mul_le_mul_right _ (Nat.le_add_right _ _)

/-- The descent leaves the tree in time. -/
theorem eytzingerDescend_lift (d : UInt64) (hi : 0 < i) (ht : v.digestSlotCount < i * 2 ^ turns) :
    eytzingerDescend v v.digestSlotCount d turns i = lift (v.eytzingerDescend d turns i) := by
  have hslots := slots_le h
  unfold i32Max at hslots
  have hword : usizeLimit = 2 ^ 64 := rfl
  induction turns generalizing i with
  | zero =>
    rw [eytzingerDescend, if_neg (by omega)]
    rfl
  | succ turns ih =>
    rw [eytzingerDescend, PageView.eytzingerDescend]
    apply ite_lift
    · intro hle
      rw [sub_of_le hi, ok_bind]
      apply bind_lift (digestSlot_lift h (i - 1))
      intro digest _
      have hbit : (if digest < d then 1 else 0) ≤ 1 := by split <;> omega
      rw [times, mul_of_lt (by omega), ok_bind, plus, add_of_lt (by omega), ok_bind]
      exact ih (by omega) (lt_of_turn _ ht)
    · intro _
      rfl

omit h in
/-- Where the descent comes out. -/
theorem lt_of_eytzingerDescend {d : UInt64} {j : Nat} (ht : v.digestSlotCount < i * 2 ^ turns)
    (hj : v.eytzingerDescend d turns i = .ok j) : v.digestSlotCount < j := by
  induction turns generalizing i with
  | zero =>
    cases hj
    simpa using ht
  | succ turns ih =>
    rw [PageView.eytzingerDescend] at hj
    by_cases hle : i ≤ v.digestSlotCount
    · rw [if_pos hle] at hj
      obtain ⟨digest, -, hrest⟩ := bind_eq_ok.1 hj
      exact ih (lt_of_turn _ ht) hrest
    · rw [if_neg hle] at hj
      cases hj
      omega

/-- The window of the binary search halves, so it is empty in time. -/
theorem sortedDescend_lift (d : UInt64) {lo hi : Nat} (ht : hi - lo ≤ turns) (hhi : hi ≤ i32Max) :
    sortedDescend v d turns lo hi = lift (v.sortedDescend d turns lo hi) := by
  have hword : usizeLimit = 2 ^ 64 := rfl
  unfold i32Max at hhi
  induction turns generalizing lo hi with
  | zero =>
    rw [sortedDescend, if_neg (by omega)]
    rfl
  | succ turns ih =>
    rw [sortedDescend, PageView.sortedDescend]
    apply ite_lift
    · intro hlt
      rw [sub_of_le (by omega), ok_bind, plus, add_of_lt (by omega), ok_bind]
      apply bind_lift (digestSlot_lift h _)
      intro digest _
      apply ite_lift
      · intro _
        rw [plus, add_of_lt (by omega), ok_bind]
        exact ih (by omega) (by omega)
      · intro _
        exact ih (by omega) (by omega)
    · intro _
      rfl

theorem lowerBoundRank_lift (d : UInt64) : lowerBoundRank v d = lift (v.lowerBoundRank d) := by
  unfold lowerBoundRank PageView.lowerBoundRank
  apply ite_lift
  · intro _
    have ht : v.digestSlotCount < 1 * 2 ^ v.digestSlotCount := by
      rw [Nat.one_mul]
      exact Nat.lt_two_pow_self
    rw [digestSlotCount_eq h, ok_bind]
    apply bind_lift (eytzingerDescend_lift h d one_pos ht)
    intro i hi
    have hlt := lt_of_eytzingerDescend ht hi
    rw [sub_of_le (by omega), ok_bind, sub_of_le (by omega)]
    rfl
  · intro _
    exact sortedDescend_lift h d (by omega) h.count

/-! ## Entries -/

/-- An offset of the metadata area is a word: the area starts below `2 ^ 31`, and what is
added to it is less than ten times that. -/
theorem metaOffset_lt {extra : Nat} (hw : words ≤ i32Max + 1) (hwidth : width ≤ 8) (he : extra ≤ i32Max + 1) :
    v.metaBase + words * width + extra * 2 < usizeLimit := by
  have h1 := h.length
  have h2 := h.meta_le
  have h3 := h.payload_le
  have hmul : words * width ≤ (i32Max + 1) * 8 := Nat.mul_le_mul hw hwidth
  unfold i32Max at *
  unfold usizeLimit
  omega

omit h in
theorem times_eq (hw : words ≤ i32Max + 1) (hwidth : width ≤ 8) :
    times words width = .ok (words * width) := by
  have hmul : words * width ≤ (i32Max + 1) * 8 := Nat.mul_le_mul hw hwidth
  apply mul_of_lt
  unfold i32Max at hmul
  unfold usizeLimit
  omega

theorem plusMeta_eq (hw : words ≤ i32Max + 1) (hwidth : width ≤ 8) :
    plus v.metaBase (words * width) = .ok (v.metaBase + words * width) := by
  have := metaOffset_lt h hw hwidth (Nat.zero_le _)
  exact add_of_lt (by omega)

theorem plusMeta_extra {extra : Nat} (hw : words ≤ i32Max + 1) (hwidth : width ≤ 8) (he : extra ≤ i32Max + 1) :
    plus (v.metaBase + words * width) extra = .ok (v.metaBase + words * width + extra) := by
  have := metaOffset_lt h hw hwidth he
  exact add_of_lt (by omega)

theorem compactKeyLen_lift (hi : i < v.entryCount) : compactKeyLen v i = lift (v.compactKeyLen i) := by
  have hcount := h.count
  have hword : v.entryCount + 1 < usizeLimit := by
    unfold i32Max at hcount
    unfold usizeLimit
    omega
  have hplace : v.metaBase + (v.entryCount + 1) * 2 + i * 2 < usizeLimit :=
    metaOffset_lt h (by omega) (by omega) (by omega)
  unfold compactKeyLen PageView.compactKeyLen
  apply ite_lift
  · intro _
    rfl
  · intro _
    rw [plus, add_of_lt hword, ok_bind, times_eq (by omega) (by omega), ok_bind, plusMeta_eq h (by omega) (by omega), ok_bind,
      times_eq (by omega) (by omega), ok_bind, plus, add_of_lt hplace, ok_bind]
    exact readU16_lift (.inl (bytes_lt h))

theorem compactWords_eq (hi : i < v.entryCount) :
    compactWords v i = (do
      let raw ← lift (DryDb.readU16 v.bytes (v.metaBase + i * 2))
      let next ← lift (DryDb.readU16 v.bytes (v.metaBase + (i + 1) * 2))
      .ok (raw, next)) := by
  have hcount := h.count
  have hword : i + 1 < usizeLimit := by
    unfold i32Max at hcount
    unfold usizeLimit
    omega
  have hread : ∀ place, readU16 v.bytes place = lift (DryDb.readU16 v.bytes place) :=
    fun _ => readU16_lift (.inl (bytes_lt h))
  have hnext : plus i 1 = .ok (i + 1) := add_of_lt hword
  have hskip : times (i + 1) 2 = .ok ((i + 1) * 2) := times_eq (by omega) (by omega)
  have hplace : plus v.metaBase ((i + 1) * 2) = .ok (v.metaBase + (i + 1) * 2) := plusMeta_eq h (by omega) (by omega)
  unfold compactWords
  rw [times_eq (by omega) (by omega), ok_bind, plusMeta_eq h (by omega) (by omega), ok_bind]
  simp only [hread, hnext, hskip, hplace, ok_bind]

theorem compactLeafMeta_lift (hi : i < v.entryCount) : compactLeafMeta v i = lift (v.compactLeafMeta i) := by
  unfold compactLeafMeta PageView.compactLeafMeta
  rw [compactWords_eq h hi]
  simp only [bind_assoc, ok_bind]
  apply bind_lift rfl
  intro raw _
  apply bind_lift rfl
  intro next _
  apply bind_lift (compactKeyLen_lift h hi)
  intro keyLen _
  apply guard_lift
  intro hmono
  rw [sub_of_le (by omega), ok_bind]
  apply guard_lift
  intro hspan
  rw [sub_of_le (by omega), ok_bind]
  split <;> rfl

theorem classicLeafMeta_lift (hi : i < v.entryCount) : classicLeafMeta v i = lift (v.classicLeafMeta i) := by
  have hcount := h.count
  unfold classicLeafMeta PageView.classicLeafMeta
  rw [times_eq (by omega) (by omega), ok_bind, plusMeta_eq h (by omega) (by omega), ok_bind]
  apply bind_lift (readI32_lift (.inl (bytes_lt h)))
  intro z _
  apply bind_lift rfl
  intro offset _
  rw [plusMeta_extra h (by omega) (by omega) (by decide), ok_bind]
  apply bind_lift (readU16_lift (.inl (bytes_lt h)))
  intro keyLen _
  rw [plusMeta_extra h (by omega) (by omega) (by decide), ok_bind]
  apply bind_lift (readU16_lift (.inl (bytes_lt h)))
  intro valueLen _
  rfl

theorem leafMeta_lift (hi : i < v.entryCount) : leafMeta v i = lift (v.leafMeta i) := by
  unfold leafMeta PageView.leafMeta
  apply ite_lift
  · intro _
    exact compactLeafMeta_lift h hi
  · intro _
    exact classicLeafMeta_lift h hi

theorem internalMeta_lift (hi : i < v.entryCount) : internalMeta v i = lift (v.internalMeta i) := by
  have hcount := h.count
  unfold internalMeta PageView.internalMeta
  apply ite_lift
  · intro _
    apply ite_lift
    · intro _
      rw [times_eq (by omega) (by omega), ok_bind, plusMeta_eq h (by omega) (by omega), ok_bind]
      rfl
    · intro _
      rw [compactWords_eq h hi]
      simp only [bind_assoc, ok_bind]
      apply bind_lift rfl
      intro raw hraw
      apply bind_lift rfl
      intro next _
      have hsmall := readU16_le hraw
      have hword : raw + 8 < usizeLimit := by
        unfold u16Max at hsmall
        unfold usizeLimit
        omega
      rw [plus, add_of_lt hword, ok_bind]
      apply guard_lift
      intro hroom
      rw [sub_of_le (by omega), ok_bind, sub_of_le (by omega), ok_bind]
      rfl
  · intro _
    rw [times_eq (by omega) (by omega), ok_bind, plusMeta_eq h (by omega) (by omega), ok_bind]
    apply bind_lift (readI32_lift (.inl (bytes_lt h)))
    intro z _
    apply bind_lift rfl
    intro offset _
    rw [plusMeta_extra h (by omega) (by omega) (by decide), ok_bind]
    apply bind_lift (readU16_lift (.inl (bytes_lt h)))
    intro keyLen _
    rfl

omit h in
/-- The numbers of an entry's metadata are small, whatever they say. -/
theorem leafMeta_le {valueLen : Nat} (hm : v.leafMeta i = .ok (offset, keyLen, valueLen)) :
    offset ≤ i32Max ∧ keyLen ≤ u16Max ∧ valueLen ≤ u16Max := by
  unfold PageView.leafMeta at hm
  split at hm
  · simp only [PageView.compactLeafMeta, bind_eq_ok, guard_eq_ok, Except.ok.injEq, Prod.mk.injEq] at hm
    obtain ⟨raw, hraw, next, -, k, hk, hmono, hspan, rfl, rfl, rfl⟩ := hm
    have h1 : raw % compactOverflowBit < 0x8000 := Nat.mod_lt _ (by decide)
    have h2 : next % compactOverflowBit < 0x8000 := Nat.mod_lt _ (by decide)
    have hmax : u16Max = 0xFFFF := rfl
    refine ⟨?_, ?_, ?_⟩
    · unfold i32Max
      omega
    · omega
    · split
      · exact le_refl _
      · omega
  · simp only [PageView.classicLeafMeta, bind_eq_ok, Except.ok.injEq, Prod.mk.injEq] at hm
    obtain ⟨z, hz, o, ho, k, hk, l, hl, rfl, rfl, rfl⟩ := hm
    exact ⟨checkedLen_le hz ho, readU16_le hk, readU16_le hl⟩

theorem internalMeta_le (hi : i < v.entryCount) (hm : v.internalMeta i = .ok (offset, keyLen)) :
    offset ≤ 9 * (i32Max + 1) ∧ keyLen ≤ u16Max := by
  have hcount := h.count
  have h1 := h.length
  have h2 := h.meta_le
  have h3 := h.payload_le
  unfold PageView.internalMeta at hm
  split at hm
  · split at hm
    · cases hm
      exact ⟨by omega, Nat.zero_le _⟩
    · simp only [bind_eq_ok, guard_eq_ok, Except.ok.injEq, Prod.mk.injEq] at hm
      obtain ⟨raw, hraw, next, hnext, -, rfl, rfl⟩ := hm
      have hr := readU16_le hraw
      have hn := readU16_le hnext
      have hle : u16Max ≤ i32Max := by decide
      exact ⟨by omega, by omega⟩
  · simp only [bind_eq_ok, Except.ok.injEq, Prod.mk.injEq] at hm
    obtain ⟨z, hz, o, ho, k, hk, rfl, rfl⟩ := hm
    have := checkedLen_le hz ho
    exact ⟨by omega, readU16_le hk⟩

omit h in
theorem checkIndex_eq_ok : v.checkIndex i = .ok () ↔ i < v.entryCount := by
  unfold PageView.checkIndex
  rw [guard_eq_ok]
  simp

theorem leafEntry_lift (i : Nat) : leafEntry v i = lift (v.leafEntry i) := by
  unfold leafEntry PageView.leafEntry
  apply guard_lift
  intro _
  apply bind_lift rfl
  intro _ hindex
  have hi := checkIndex_eq_ok.1 hindex
  apply bind_lift (leafMeta_lift h hi)
  rintro ⟨offset, keyLen, valueLen⟩ hm
  obtain ⟨ho, hk, hv⟩ := leafMeta_le hm
  have hword : offset + keyLen < usizeLimit ∧ keyLen + 8 < usizeLimit ∧ keyLen + valueLen < usizeLimit := by
    unfold i32Max at ho
    unfold u16Max at hk hv
    unfold usizeLimit
    omega
  apply guard_lift
  intro _
  apply ite_lift
  · intro _
    rw [plus, add_of_lt hword.2.1, ok_bind]
    apply bind_lift rfl
    intro _ _
    rw [plus, add_of_lt hword.1, ok_bind]
    apply bind_lift (readI64_lift (.inl (bytes_lt h)))
    intro z _
    apply bind_lift rfl
    intro ordinal _
    apply bind_lift rfl
    intro page _
    rfl
  · intro _
    rw [plus, add_of_lt hword.2.2, ok_bind]
    apply bind_lift rfl
    intro _ _
    rw [plus, add_of_lt hword.1, ok_bind]
    rfl

theorem internalEntry_lift (i : Nat) : internalEntry v i = lift (v.internalEntry i) := by
  unfold internalEntry PageView.internalEntry
  apply guard_lift
  intro _
  apply bind_lift rfl
  intro _ hindex
  have hi := checkIndex_eq_ok.1 hindex
  apply bind_lift (internalMeta_lift h hi)
  rintro ⟨offset, keyLen⟩ hm
  obtain ⟨ho, hk⟩ := internalMeta_le h hi hm
  have hword : offset + keyLen < usizeLimit ∧ keyLen + 8 < usizeLimit := by
    unfold i32Max at ho
    unfold u16Max at hk
    unfold usizeLimit
    omega
  apply guard_lift
  intro _
  rw [plus, add_of_lt hword.2, ok_bind]
  apply bind_lift rfl
  intro _ _
  rw [plus, add_of_lt hword.1, ok_bind]
  apply bind_lift (readI64_lift (.inl (bytes_lt h)))
  intro z _
  apply bind_lift rfl
  intro ordinal _
  apply bind_lift rfl
  intro child _
  rfl

theorem validate_lift : validate v = lift v.validate := by
  unfold validate PageView.validate
  have hentries : validateEntries v = lift v.validateEntries := by
    unfold validateEntries PageView.validateEntries
    cases v.kind with
    | leaf => exact forRange_lift (leafEntry_lift h) 0 v.entryCount
    | internal => exact forRange_lift (internalEntry_lift h) 0 v.entryCount
  apply bind_lift hentries
  intro _ _
  apply ite_lift
  · intro _
    rw [completeSize_lift h.count, ok_bind]
    apply bind_lift rfl
    intro area _
    apply bind_lift rfl
    intro stop _
    apply guard_lift
    intro _
    rfl
  · intro _
    rfl

end Accessors

/-- Every accessor of the page, at every index, computes what it does on unbounded numbers:
a value or an error, never a trap. -/
structure Untrapped (v : PageView) : Prop where
  validate : validate v = lift v.validate
  digestSlotCount : digestSlotCount v = .ok v.digestSlotCount
  digestSlot (slot : Nat) : digestSlot v slot = lift (v.digestSlot slot)
  digestAt (i : Nat) : digestAt v i = lift (v.digestAt i)
  lowerBoundRank (d : UInt64) : lowerBoundRank v d = lift (v.lowerBoundRank d)
  leafEntry (i : Nat) : leafEntry v i = lift (v.leafEntry i)
  internalEntry (i : Nat) : internalEntry v i = lift (v.internalEntry i)
  leafKey (e : LeafEntry) : leafKey v e = lift (v.leafKey e)
  internalKey (e : InternalEntry) : internalKey v e = lift (v.internalKey e)
  inlineValue (offset len : Nat) : inlineValue v offset len = lift (v.inlineValue offset len)
  blobPayload : blobPayload v = .ok v.blobPayload

theorem untrapped {v : PageView} (h : v.Bounded) : Untrapped v := by
  have hslice : ∀ offset len, readSlice v.bytes offset len = lift (DryDb.readSlice v.bytes offset len) :=
    fun _ _ => readSlice_lift (bytes_lt h)
  constructor
  · exact validate_lift h
  · exact digestSlotCount_eq h
  · exact digestSlot_lift h
  · exact digestAt_lift h
  · exact lowerBoundRank_lift h
  · exact leafEntry_lift h
  · exact internalEntry_lift h
  · intro e
    exact hslice e.keyOffset e.keyLen
  · intro e
    exact hslice e.keyOffset e.keyLen
  · exact hslice
  · unfold blobPayload PageView.blobPayload
    rw [index_of_le h.prefix_le (le_refl _), List.take_of_length_le (by simp)]

end Words

/-! ## Entries lie inside the payload -/

/-- The bytes `offset .. offset + len` are payload bytes of the page. -/
def PageView.InPayload (v : PageView) (offset len : Nat) : Prop := v.payloadBase ≤ offset ∧ offset + len ≤ v.bytes.length

/-- The key of a leaf entry and its inline value, or the ordinal of its blob page, are payload
bytes. -/
structure PageView.LeafInside (v : PageView) (e : LeafEntry) : Prop where
  key : v.InPayload e.keyOffset e.keyLen
  value : match e.value with
    | .inline offset len => v.InPayload offset len
    | .overflow _ => v.InPayload (e.keyOffset + e.keyLen) 8

/-- The separator key of an internal entry and its child ordinal are payload bytes. -/
structure PageView.InternalInside (v : PageView) (e : InternalEntry) : Prop where
  key : v.InPayload e.keyOffset e.keyLen
  child : v.InPayload (e.keyOffset + e.keyLen) 8

/-- What a valid page offers. -/
structure PageView.EntriesInside (v : PageView) : Prop where
  leaf : v.kind = .leaf → ∀ i < v.entryCount, ∃ e, v.leafEntry i = .ok e ∧ v.LeafInside e
  internal : v.kind = .internal → ∀ i < v.entryCount, ∃ e, v.internalEntry i = .ok e ∧ v.InternalInside e
  rank : ∀ d, ∃ r, v.lowerBoundRank d = .ok r ∧ r ≤ v.digestSlotCount

namespace PageView

variable {v : PageView} {offset : Nat}

theorem payloadRange_eq_ok {len : Nat} (h : v.payloadRange offset len = .ok ()) : v.InPayload offset len := by
  simp only [payloadRange, guard_eq_ok, bind_eq_ok, okOr_eq_ok, checkedAdd, Option.ite_none_right_eq_some,
    Option.some.injEq] at h
  obtain ⟨hbase, stop, ⟨-, rfl⟩, hstop, -⟩ := h
  exact ⟨by omega, by omega⟩

theorem InPayload.split {a b : Nat} (h : v.InPayload offset (a + b)) :
    v.InPayload offset a ∧ v.InPayload (offset + a) b := by
  obtain ⟨hbase, hend⟩ := h
  exact ⟨⟨hbase, by omega⟩, ⟨by omega, by omega⟩⟩

theorem leafInside {i : Nat} {e : LeafEntry} (h : v.leafEntry i = .ok e) : v.LeafInside e := by
  simp only [leafEntry, guard_eq_ok, bind_eq_ok] at h
  obtain ⟨-, -, -, ⟨offset, keyLen, valueLen⟩, -, -, h⟩ := h
  split at h
  · simp only [bind_eq_ok, Except.ok.injEq] at h
    obtain ⟨⟨⟩, hrange, z, -, o, -, page, -, rfl⟩ := h
    obtain ⟨hkey, hvalue⟩ := (payloadRange_eq_ok hrange).split
    exact ⟨hkey, hvalue⟩
  · simp only [bind_eq_ok, Except.ok.injEq] at h
    obtain ⟨⟨⟩, hrange, rfl⟩ := h
    obtain ⟨hkey, hvalue⟩ := (payloadRange_eq_ok hrange).split
    exact ⟨hkey, hvalue⟩

theorem internalInside {i : Nat} {e : InternalEntry} (h : v.internalEntry i = .ok e) : v.InternalInside e := by
  simp only [internalEntry, guard_eq_ok, bind_eq_ok, Except.ok.injEq] at h
  obtain ⟨-, -, -, ⟨offset, keyLen⟩, -, -, ⟨⟩, hrange, z, -, o, -, child, -, rfl⟩ := h
  obtain ⟨hkey, hchild⟩ := (payloadRange_eq_ok hrange).split
  exact ⟨hkey, hchild⟩

theorem entriesInside {bytes : Bytes} (hp : parse bytes = .ok v) (hv : v.validate = .ok ()) : v.EntriesInside := by
  obtain ⟨⟨⟩, hentries, -⟩ := bind_eq_ok.1 hv
  constructor
  · intro hk i hi
    simp only [validateEntries, hk] at hentries
    obtain ⟨e, he⟩ := forRange_eq_ok.1 hentries i (Nat.zero_le i) (by omega)
    exact ⟨e, he, leafInside he⟩
  · intro hk i hi
    simp only [validateEntries, hk] at hentries
    obtain ⟨e, he⟩ := forRange_eq_ok.1 hentries i (Nat.zero_le i) (by omega)
    exact ⟨e, he, internalInside he⟩
  · intro d
    obtain ⟨r, hr, hle, -⟩ := lowerBoundRank_spec (digests_of_parse hp) d
    exact ⟨r, hr, hle⟩

end PageView

/-! ## Slices taken later -/

theorem bytes_of_parse (h : PageView.parse bytes = .ok v) : v.bytes = bytes := by
  simp only [PageView.parse, bind_eq_ok, guard_eq_ok, Except.ok.injEq] at h
  obtain ⟨-, z, -, len, -, -, word, -, kind, -, layout, -, n, -, count, -, zl, -, l, -, zr, -, r, -, ⟨m, p⟩, -, rfl⟩ := h
  rfl

namespace Words

/-- What cursors and value guards later slice from a page without checking. -/
structure SlicesSafe (v : PageView) : Prop where
  key {i : Nat} {e : LeafEntry} (h : v.leafEntry i = .ok e) :
    keyBytes v.bytes e.keyOffset e.keyLen = .ok ((v.bytes.drop e.keyOffset).take e.keyLen)
  value {i offset len : Nat} {e : LeafEntry} (h : v.leafEntry i = .ok e) (hv : e.value = .inline offset len) :
    inlineRange offset len = .ok (offset, offset + len) ∧
      rangeBytes v.bytes offset (offset + len) = .ok ((v.bytes.drop offset).take len) ∧ rangeLen offset (offset + len) = .ok len
  blob : rangeBytes v.bytes pagePrefixLen v.bytes.length = .ok v.blobPayload ∧
    rangeLen pagePrefixLen v.bytes.length = .ok (v.bytes.length - pagePrefixLen)

section

variable {v : PageView} (h : v.Bounded) {offset len : Nat}

include h

theorem plus_inside (hin : v.InPayload offset len) : plus offset len = .ok (offset + len) := by
  have := bytes_lt h
  have := hin.2
  exact add_of_lt (by omega)

omit h in
theorem index_inside (hin : v.InPayload offset len) :
    (index v.bytes offset (offset + len) : Code Bytes) = .ok ((v.bytes.drop offset).take len) := by
  rw [index_of_le (Nat.le_add_right _ _) hin.2, Nat.add_sub_cancel_left]

theorem keyBytes_inside (hin : v.InPayload offset len) :
    keyBytes v.bytes offset len = .ok ((v.bytes.drop offset).take len) := by
  unfold keyBytes
  rw [plus_inside h hin, ok_bind, index_inside hin]

omit h in
theorem inline_inside {i : Nat} {e : LeafEntry} (he : v.leafEntry i = .ok e) (hv : e.value = .inline offset len) :
    v.InPayload offset len := by
  have hvalue := (PageView.leafInside he).value
  rw [hv] at hvalue
  exact hvalue

theorem slicesSafe : SlicesSafe v := by
  constructor
  · intro i e he
    exact keyBytes_inside h (PageView.leafInside he).key
  · intro i offset len e he hv
    have hin := inline_inside he hv
    refine ⟨?_, index_inside hin, ?_⟩
    · unfold inlineRange
      rw [plus_inside h hin, ok_bind]
    · unfold rangeLen
      rw [sub_of_le (Nat.le_add_right _ _), Nat.add_sub_cancel_left]
  · refine ⟨(untrapped h).blobPayload, ?_⟩
    exact sub_of_le h.prefix_le

end

/-- A guard was checked when it was made. -/
theorem guard_safe {pin : PagePin} {start stop : Nat} {g : ValueGuard} (hg : pin.intoGuard start stop = .ok g) :
    rangeBytes g.pin.bytes g.start g.stop = .ok g.asBytes ∧ rangeLen g.start g.stop = .ok (g.stop - g.start) := by
  unfold PagePin.intoGuard PagePin.len at hg
  rw [guard_eq_ok] at hg
  obtain ⟨hin, hg⟩ := hg
  cases hg
  have horder : start ≤ stop := by omega
  have hend : stop ≤ pin.bytes.length := by omega
  exact ⟨index_of_le horder hend, sub_of_le horder⟩

/-! ## Cursors -/

section

variable {may : (op : ReadOp) → op.Answer → Prop} {c c' : Cursor} {page : PagePin} {entry : LeafEntry}

/-- A key that is not rebuilt is the key of the entry. -/
theorem readKey_page {buf : KeyBuffer} {offset len : Nat}
    (h : (c.readKey page entry).Comes may (.ok (buf, .ok (.page offset len)))) :
    offset = entry.keyOffset ∧ len = entry.keyLen := by
  unfold Cursor.readKey at h
  split at h
  · cases h
    exact ⟨rfl, rfl⟩
  · cases hcap : c.tree.rebuiltKeyCapacity with
    | error e =>
      simp only [hcap] at h
      cases h
    | ok capacity =>
      simp only [hcap, Program.comes_bind, Program.comes_attempt] at h
      obtain ⟨r, -, h⟩ | ⟨e, -, h⟩ := h
      · cases r with
        | error e => cases h
        | ok buf =>
          cases hr : c.tree.rebuildKey page.view c.index with
          | error e =>
            simp only [hr] at h
            cases h
          | ok rebuilt =>
            cases rebuilt with
            | none =>
              simp only [hr] at h
              cases h
              exact ⟨rfl, rfl⟩
            | some key =>
              simp only [hr, Program.comes_bind, Program.comes_attempt] at h
              obtain ⟨r, -, h⟩ | ⟨e, -, h⟩ := h
              · cases r <;> cases h
              · cases h
      · cases h

/-- The range of a value lies inside the page it is on. -/
theorem readValue_inside {i start stop : Nat} {blob : Option PagePin}
    (he : page.view.leafEntry i = .ok entry) (h : (Cursor.readValue entry).Comes may (.ok (start, stop, blob))) :
    start ≤ stop ∧ stop ≤ (blob.getD page).bytes.length := by
  unfold Cursor.readValue at h
  cases hv : entry.value with
  | inline offset len =>
    simp only [hv] at h
    cases h
    have hin := inline_inside he hv
    have hbytes := bytes_of_parse page.parsed
    refine ⟨Nat.le_add_right _ _, ?_⟩
    show start + len ≤ page.bytes.length
    rw [← hbytes]
    exact hin.2
  | overflow o =>
    simp only [hv, Read.blob, Program.comes_bind, Program.comes_lift, Program.comes_pure] at h
    obtain ⟨⟨pin, a, b⟩, ⟨p, -, hblob⟩ | ⟨e, -, hblob⟩, hr⟩ | ⟨e, -, hr⟩ := h
    · unfold blobFromPin at hblob
      rw [eq_comm, guard_eq_ok] at hblob
      obtain ⟨-, hblob⟩ := hblob
      cases hblob
      cases hr
      refine ⟨?_, le_refl _⟩
      have hprefix := (bounded_of_parse pin.parsed).prefix_le
      rw [bytes_of_parse pin.parsed] at hprefix
      exact hprefix
    · cases hblob
    · cases hr

theorem currentRow_none (h : c.current = none) : currentRow c = .ok c.currentRow := by
  unfold currentRow Cursor.currentRow
  simp [h]

/-- The row a cursor shows: its key is the rebuilt one or lies on the leaf, its value lies on
the blob page if there is one. -/
theorem currentRow_some {pin : PagePin} {m : Materialized} (hm : c.current = some m)
    (hp : c.page = some page) (hpin : (if m.valueOnBlob then c.blob else some page) = some pin)
    (hkey : ∀ offset len, m.key = .page offset len → page.view.InPayload offset len)
    (hvalue : m.start ≤ m.stop ∧ m.stop ≤ pin.bytes.length) : currentRow c = .ok c.currentRow := by
  have hvalueBytes : rangeBytes pin.bytes m.start m.stop = .ok ((pin.bytes.drop m.start).take (m.stop - m.start)) :=
    index_of_le hvalue.1 hvalue.2
  have hkeyBytes : ∀ offset len, m.key = .page offset len →
      keyBytes page.bytes offset len = .ok ((page.bytes.drop offset).take len) := by
    intro offset len hk
    have hbytes := keyBytes_inside (bounded_of_parse page.parsed) (hkey offset len hk)
    rw [bytes_of_parse page.parsed] at hbytes
    exact hbytes
  have hrow : ∀ key, (∀ offset len, m.key = .page offset len → key = (page.bytes.drop offset).take len) →
      (m.key = .rebuilt → key = c.keyBuf.contents) →
      c.currentRow = some (key, (pin.bytes.drop m.start).take (m.stop - m.start)) := by
    intro key hpage hrebuilt
    unfold Cursor.currentRow
    cases hb : m.valueOnBlob with
    | false =>
      rw [hb] at hpin
      cases hpin
      cases hk : m.key <;> simp_all
    | true =>
      rw [hb, if_pos rfl] at hpin
      cases hk : m.key <;> simp_all
  unfold currentRow
  simp only [hm, hp, hpin]
  cases hk : m.key with
  | page offset len =>
    rw [sourceBytes, hkeyBytes offset len hk, ok_bind, hvalueBytes, ok_bind,
      hrow _ (fun _ _ h => by rw [hk] at h; cases h; rfl) (fun h => by rw [hk] at h; cases h)]
  | rebuilt =>
    rw [sourceBytes, ok_bind, hvalueBytes, ok_bind, hrow _ (fun _ _ h => by rw [hk] at h; cases h) fun _ => rfl]

/-- Reading an entry leaves ranges inside the pages the cursor holds. -/
theorem materialize_safe (h : c.materialize.Comes may (.ok (c', .ok ()))) :
    currentRow c' = .ok c'.currentRow := by
  unfold Cursor.materialize at h
  cases hp : c.page with
  | none =>
    simp only [hp] at h
    cases h
  | some page =>
    cases he : page.view.leafEntry c.index with
    | error e =>
      simp only [hp, he] at h
      cases h
    | ok entry =>
      simp only [hp, he, Program.comes_bind] at h
      obtain ⟨⟨buf, key⟩, hkey, h⟩ | ⟨e, -, h⟩ := h
      · cases key with
        | error e => cases h
        | ok key =>
          simp only [Program.comes_bind, Program.comes_attempt] at h
          obtain ⟨r, ⟨x, hvalue, hx⟩, h⟩ | ⟨e, -, h⟩ := h
          · cases hx
            cases r with
            | error e => cases h
            | ok value =>
              obtain ⟨start, stop, blob⟩ := value
              cases h
              have hin := readValue_inside he hvalue
              have hpin : (if blob.isSome then blob.or c.blob else some page) = some (blob.getD page) := by
                cases blob <;> rfl
              refine currentRow_some rfl hp hpin ?_ hin
              · intro offset len hk
                cases hk
                obtain ⟨rfl, rfl⟩ := readKey_page hkey
                exact (PageView.leafInside he).key
          · cases h
      · cases h

theorem stepAndRead_safe {more : Bool} (h : c.stepAndRead.Comes may (.ok (c', .ok more))) :
    currentRow c' = .ok c'.currentRow := by
  unfold Cursor.stepAndRead at h
  simp only [Program.comes_bind, Program.comes_attempt] at h
  obtain ⟨r, -, h⟩ | ⟨e, -, h⟩ := h
  · obtain e | ⟨found, moved⟩ := r
    · cases h
    · cases found with
      | false =>
        cases h
        exact currentRow_none rfl
      | true =>
        simp only [Program.comes_bind] at h
        obtain ⟨⟨c'', read⟩, hread, h⟩ | ⟨e, -, h⟩ := h
        · obtain e | ⟨⟩ := read
          · cases h
          · cases h
            exact materialize_safe hread
        · cases h
  · cases h

/-- After every step of a cursor, whatever the store answered, its entry can be sliced. -/
theorem advance_safe {r : Result Bool} (h : c.advance.Comes may (.ok (c', r))) :
    currentRow c' = .ok c'.currentRow := by
  unfold Cursor.advance at h
  dsimp only at h
  split at h
  · cases h
    exact currentRow_none rfl
  · simp only [Program.comes_bind] at h
    obtain ⟨⟨moved, result⟩, hstep, h⟩ | ⟨e, -, h⟩ := h
    · cases result with
      | error e =>
        cases h
        exact currentRow_none rfl
      | ok more =>
        cases h
        exact stepAndRead_safe hstep
    · cases h

end

end Words

/-- No byte string given as a page makes the decoder trap, the entries of a valid page lie in
its payload, and neither a value guard nor a cursor can then slice a page out of bounds,
whatever the store answers. -/
theorem page_access_in_bounds :
    (∀ bytes, Words.parse bytes = lift (PageView.parse bytes)) ∧
    (∀ bytes v, PageView.parse bytes = .ok v → Words.Untrapped v) ∧
    (∀ bytes v, PageView.parse bytes = .ok v → v.validate = .ok () → v.EntriesInside ∧ Words.SlicesSafe v) ∧
    (∀ (pin : PagePin) (start stop : Nat) (g : ValueGuard), pin.intoGuard start stop = .ok g →
      Words.rangeBytes g.pin.bytes g.start g.stop = .ok g.asBytes ∧ Words.rangeLen g.start g.stop = .ok (g.stop - g.start)) ∧
    (∀ (c c' : Cursor) (r : Result Bool), c.advance.Comes (fun _ _ => True) (.ok (c', r)) →
      Words.currentRow c' = .ok c'.currentRow) := by
  refine ⟨Words.parse_lift, ?_, ?_, ?_, ?_⟩
  · intro bytes v hp
    exact Words.untrapped (bounded_of_parse hp)
  · intro bytes v hp hv
    exact ⟨PageView.entriesInside hp hv, Words.slicesSafe (bounded_of_parse hp)⟩
  · intro pin start stop g hg
    exact Words.guard_safe hg
  · intro c c' r h
    exact Words.advance_safe h

/-- A classic leaf with the one row `k`, `v`. -/
def oneRowLeaf : Bytes :=
  leBytes 4 46 ++ leBytes 4 0 ++ leBytes 4 1 ++ ordinalBytes none ++ ordinalBytes none ++
    leBytes 8 (0x6B * 2 ^ 56) ++ (leBytes 4 44 ++ leBytes 2 1 ++ leBytes 2 1) ++ [0x6B, 0x76]

theorem page_access_in_bounds_leaf : ∃ v, PageView.parse oneRowLeaf = .ok v ∧ v.entryCount = 1 ∧ v.EntriesInside := by
  obtain ⟨v, hparse, hvalid, hcount⟩ :
      ∃ v, PageView.parse oneRowLeaf = .ok v ∧ v.validate = .ok () ∧ v.entryCount = 1 := ⟨_, rfl, rfl, rfl⟩
  exact ⟨v, hparse, hcount, (page_access_in_bounds.2.2.1 oneRowLeaf v hparse hvalid).1⟩

end DryDb
