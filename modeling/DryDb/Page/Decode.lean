import DryDb.Page.Codec
/-!
# Reading back a written page

`Node.parse_image` parses the buffer of a page, and the accessors then return the entries
that went in: their keys, values, blob pages, children and digests.
-/

namespace DryDb

open List

/-! ## The padded digest array -/

variable {count : Nat} {columns : List ((Nat × Nat) × Option PageRef)} {c : (Nat × Nat) × Option PageRef}

theorem completeSizeFrom_eq {m b : Nat} (h : count + 1 ≤ m * 2 ^ b) :
    ∃ k, completeSizeFrom count m (b + 1) = m * 2 ^ k - 1 ∧ count + 1 ≤ m * 2 ^ k ∧ k ≤ b := by
  induction b generalizing m with
  | zero =>
    rw [Nat.pow_zero, Nat.mul_one] at h
    exact ⟨0, by rw [completeSizeFrom, if_neg (by omega)]; simp, by simpa using h, le_refl _⟩
  | succ b ih =>
    rw [completeSizeFrom]
    split
    · obtain ⟨k, he, hk, hb⟩ := ih (m := 2 * m) (by rw [Nat.pow_succ] at h; linarith)
      have hp : 2 * m * 2 ^ k = m * 2 ^ (k + 1) := by ring
      exact ⟨k + 1, by rw [he, hp], by rw [← hp]; exact hk, by omega⟩
    · exact ⟨0, by simp, by omega, by omega⟩

/-- The padded array is a complete tree that holds all digests. -/
theorem completeSize_eq (h : count < 2 ^ 63) :
    ∃ k, completeSize count = 2 ^ k - 1 ∧ count ≤ 2 ^ k - 1 := by
  obtain ⟨k, he, hk, -⟩ := completeSizeFrom_eq (m := 1) (b := 63) (show count + 1 ≤ 1 * 2 ^ 63 by omega)
  rw [Nat.one_mul] at he hk
  exact ⟨k, he, by omega⟩

theorem le_completeSize (h : count < 2 ^ 63) : count ≤ completeSize count := by
  obtain ⟨k, he, hk⟩ := completeSize_eq h
  rw [he]
  exact hk

/-! ## The header -/

section Prefix

variable (len word count : Nat) (left right : Option Nat)

theorem prefix_len : PieceAt (pagePrefix len word count left right) 0 (leBytes 4 len) :=
  ⟨[], leBytes 4 word ++ leBytes 4 count ++ ordinalBytes left ++ ordinalBytes right, by simp [pagePrefix], rfl⟩

theorem prefix_word : PieceAt (pagePrefix len word count left right) kindOffset (leBytes 4 word) :=
  ⟨leBytes 4 len, leBytes 4 count ++ ordinalBytes left ++ ordinalBytes right, by simp [pagePrefix], by simp [kindOffset]⟩

theorem prefix_count : PieceAt (pagePrefix len word count left right) entryCountOffset (leBytes 4 count) :=
  ⟨leBytes 4 len ++ leBytes 4 word, ordinalBytes left ++ ordinalBytes right, by simp [pagePrefix], by
    simp [entryCountOffset]⟩

theorem prefix_left : PieceAt (pagePrefix len word count left right) leftSiblingOffset (ordinalBytes left) :=
  ⟨leBytes 4 len ++ leBytes 4 word ++ leBytes 4 count, ordinalBytes right, by simp [pagePrefix], by
    simp [leftSiblingOffset]⟩

theorem prefix_right : PieceAt (pagePrefix len word count left right) rightSiblingOffset (ordinalBytes right) :=
  ⟨leBytes 4 len ++ leBytes 4 word ++ leBytes 4 count ++ ordinalBytes left, [], by simp [pagePrefix], by
    simp [rightSiblingOffset, ordinalBytes]⟩

end Prefix

theorem kindWord_lt (kind : NodeKind) (layout : NodeLayout) : kindWord kind layout < 2 ^ 12 := by
  rcases layout with ⟨_ | _, _ | _, _ | _⟩ <;> cases kind <;> decide

theorem NodeKind.ofWord_kindWord (kind : NodeKind) (layout : NodeLayout) :
    NodeKind.ofWord (kindWord kind layout) = .ok kind := by
  rcases layout with ⟨_ | _, _ | _, _ | _⟩ <;> cases kind <;> rfl

theorem NodeLayout.ofWord_kindWord {kind : NodeKind} {layout : NodeLayout} {len : Nat}
    (hl : layout.omittedKeys = true → layout.compactMeta = true ∧ layout.eytzinger = false)
    (hc : layout.compactMeta = true → len ≤ maxCompactPageSize) :
    NodeLayout.ofWord (kindWord kind layout) len = .ok layout := by
  have hlen : (layout.compactMeta && decide (maxCompactPageSize < len)) = false := by
    cases h : layout.compactMeta with
    | false => rfl
    | true => simpa using hc h
  have hbits : (kindWord kind layout).testBit 8 = false ∧ kindWord kind layout &&& 0xFFFFF100 = 0 ∧
      (kindWord kind layout).testBit 9 = layout.eytzinger ∧ (kindWord kind layout).testBit 10 = layout.compactMeta ∧
      (kindWord kind layout).testBit 11 = layout.omittedKeys := by
    clear hl hc hlen
    rcases layout with ⟨_ | _, _ | _, _ | _⟩ <;> cases kind <;> decide
  obtain ⟨h8, hu, h9, h10, h11⟩ := hbits
  have ho1 : (layout.omittedKeys && !layout.compactMeta) = false := by
    cases h : layout.omittedKeys with
    | false => rfl
    | true => simp [(hl h).1]
  have ho2 : (layout.omittedKeys && layout.eytzinger) = false := by
    cases h : layout.omittedKeys with
    | false => rfl
    | true => simp [(hl h).2]
  unfold NodeLayout.ofWord
  simp only [h8, hu, h9, h10, h11, ho1, ho2, hlen, Bool.false_eq_true, if_false, ne_eq, not_true_eq_false]

namespace Node

variable {n : Node} {i : Nat}

/-! ## The areas of the buffer -/

theorem piece_header (n : Node) :
    PieceAt n.image 0 (pagePrefix n.len (kindWord n.kind n.layout) n.items.length n.left n.right) :=
  ⟨[], n.digestBytes ++ n.metaBytes ++ n.payload, by simp [image], rfl⟩

theorem piece_digests (n : Node) : PieceAt n.image digestBase n.digestBytes :=
  ⟨_, n.metaBytes ++ n.payload, by rw [image]; simp only [append_assoc]; rfl, by simp [digestBase, pagePrefixLen]⟩

theorem piece_meta (n : Node) : PieceAt n.image n.view.metaBase n.metaBytes :=
  ⟨_, n.payload, rfl, by simp [view, digestBase, pagePrefixLen]⟩

theorem piece_payload (n : Node) : PieceAt n.image n.base n.payload :=
  ⟨_, [], by rw [append_nil]; rfl, by simp [base, NodeLayout.payloadStart, Nat.add_assoc]⟩

/-- The bytes of entry `i`. -/
theorem piece_chunk (n : Node) (hi : i < n.items.length) :
    PieceAt n.image (n.offset i) ((n.items[i]).chunk n.layout) := by
  have h := PieceAt.flatten (l := n.items.map (Item.chunk n.layout)) (i := i) (by simpa using hi)
  rw [getElem_map, ← map_take] at h
  exact n.piece_payload.trans h

theorem piece_key (n : Node) (hi : i < n.items.length) :
    PieceAt n.image (n.offset i) (n.layout.storedKey n.items[i].key) :=
  (n.piece_chunk hi).trans ⟨[], _, rfl, rfl⟩

theorem piece_body (n : Node) (hi : i < n.items.length) :
    PieceAt n.image (n.offset i + n.layout.storedKeyLen n.items[i].key.length) n.items[i].body.bytes :=
  (n.piece_chunk hi).trans ⟨_, [], by rw [append_nil]; rfl, by simp⟩

theorem offset_succ (n : Node) (hi : i < n.items.length) :
    n.offset (i + 1) = n.offset i + (n.layout.storedKeyLen n.items[i].key.length + n.items[i].body.bytes.length) := by
  unfold offset
  rw [take_succ_eq_append_getElem hi, map_append, flatten_append, length_append]
  simp [Item.chunk, Nat.add_assoc]

theorem base_le_offset (n : Node) (i : Nat) : n.base ≤ n.offset i := Nat.le_add_right _ _

/-- Entries end inside the page. -/
theorem offset_le_len (n : Node) (i : Nat) : n.offset i ≤ n.len := by
  unfold offset len payload
  rw [← take_append_drop i n.items, flatMap_append, List.flatMap, take_append_drop, length_append]
  omega

/-! ## Parsing -/

section Sizes

theorem checkedAdd_of_lt {a b : Nat} (h : a + b < usizeLimit) : checkedAdd a b = some (a + b) := if_pos h

theorem checkedMul_of_lt {a b : Nat} (h : a * b < usizeLimit) : checkedMul a b = some (a * b) := if_pos h

variable {layout : NodeLayout} {count : Nat}

theorem digestAreaSize_eq (h : layout.digestArea count ≤ i32Max) :
    layout.digestAreaSize count = some (layout.digestArea count) := by
  simp only [NodeLayout.digestArea, i32Max] at h
  exact checkedMul_of_lt (by simp only [usizeLimit]; omega)

theorem leafMetaSize_eq (h : layout.leafMeta count ≤ i32Max) :
    layout.leafMetaSize count = some (layout.leafMeta count) := by
  unfold NodeLayout.leafMetaSize NodeLayout.leafMeta at *
  simp only [i32Max] at h
  split at h
  · rename_i hc
    have hslots : count + 1 + (if layout.omittedKeys = true then 0 else count) < 2 ^ 31 := by omega
    rw [if_pos hc, if_pos hc, checkedAdd_of_lt (by simp only [usizeLimit]; omega), Option.bind_eq_bind,
      Option.bind_some, checkedAdd_of_lt (by simp only [usizeLimit]; omega), Option.bind_some,
      checkedMul_of_lt (by simp only [usizeLimit]; omega)]
  · rename_i hc
    rw [if_neg hc, if_neg hc, checkedMul_of_lt (by simp only [usizeLimit]; omega)]

theorem internalMetaSize_eq (h : layout.internalMeta count ≤ i32Max) :
    layout.internalMetaSize count = some (layout.internalMeta count) := by
  unfold NodeLayout.internalMetaSize NodeLayout.internalMeta at *
  simp only [i32Max] at h
  split at h
  · rename_i hc
    rw [if_pos hc, if_pos hc]
    split at h
    · rename_i ho
      rw [if_pos ho, if_pos ho]
    · rename_i ho
      rw [if_neg ho, if_neg ho, checkedAdd_of_lt (by simp only [usizeLimit]; omega), Option.bind_eq_bind,
        Option.bind_some, checkedMul_of_lt (by simp only [usizeLimit]; omega)]
  · rename_i hc
    rw [if_neg hc, if_neg hc, checkedMul_of_lt (by simp only [usizeLimit]; omega)]

theorem metaSize_eq {kind : NodeKind} (h : layout.metaArea kind count ≤ i32Max) :
    layout.metaSize kind count = some (layout.metaArea kind count) := by
  cases kind with
  | leaf => exact leafMetaSize_eq h
  | internal => exact internalMetaSize_eq h

end Sizes

/-- Every entry takes at least a byte, of digests or of metadata. -/
theorem count_le (h : n.Fits) : n.items.length ≤ i32Max := by
  have hl := h.length
  have hbase : pagePrefixLen + n.layout.digestArea n.items.length + n.layout.metaArea n.kind n.items.length ≤ i32Max :=
    le_trans (Nat.le_add_right _ _) hl
  cases he : n.layout.eytzinger with
  | false =>
    have : n.layout.digestArea n.items.length = n.items.length * 8 := by
      simp [NodeLayout.digestArea, NodeLayout.digestSlots, he]
    omega
  | true =>
    have ho : n.layout.omittedKeys = false := by
      by_contra hc
      have := (h.layout (by simpa using hc)).2
      simp [he] at this
    have : n.items.length ≤ n.layout.metaArea n.kind n.items.length := by
      unfold NodeLayout.metaArea NodeLayout.leafMeta NodeLayout.internalMeta
      rw [ho]
      cases n.kind <;> cases n.layout.compactMeta <;> simp <;> omega
    omega

theorem areas_eq (h : n.Fits) :
    PageView.areas n.len n.kind n.layout n.items.length = .ok (n.view.metaBase, n.base) := by
  have hl := h.length
  have hbase : n.base = digestBase + n.layout.digestArea n.items.length + n.layout.metaArea n.kind n.items.length := rfl
  have hlen : n.base ≤ n.len := Nat.le_add_right _ _
  have hu : n.len < usizeLimit := by
    simp only [i32Max] at hl
    simp only [usizeLimit]
    omega
  unfold PageView.areas
  rw [digestAreaSize_eq (by omega), metaSize_eq (by omega)]
  simp only [okOr_some, ok_bind]
  rw [checkedAdd_of_lt (by omega), okOr_some, ok_bind, if_neg (by omega), checkedAdd_of_lt (by omega), okOr_some,
    ok_bind, if_neg (by omega), hbase]
  rfl

/-- Parsing the buffer of a page gives the page back. -/
theorem parse_image (h : n.Fits) : PageView.parse n.image = .ok n.view := by
  have piece {off : Nat} {s : Bytes}
      (hs : PieceAt (pagePrefix n.len (kindWord n.kind n.layout) n.items.length n.left n.right) off s) :
      PieceAt n.image off s := Nat.zero_add off ▸ n.piece_header.trans hs
  have hword : readI32Bits n.image kindOffset = .ok (kindWord n.kind n.layout) := by
    rw [readI32Bits, readLe_of_piece (piece (prefix_word ..)), Nat.mod_eq_of_lt]
    have := kindWord_lt n.kind n.layout
    omega
  have hle : pagePrefixLen ≤ n.len := by
    unfold len base NodeLayout.payloadStart
    omega
  unfold PageView.parse
  simp only
  rw [length_image, readI32_of_piece (piece (prefix_len ..)) h.length, hword,
    readI32_of_piece (piece (prefix_count ..)) (count_le h), readI64_of_piece (piece (prefix_left ..)) h.left,
    readI64_of_piece (piece (prefix_right ..)) h.right, if_neg (by omega)]
  simp only [ok_bind, checkedLen_natCast, fromI64_toI64, NodeKind.ofWord_kindWord,
    NodeLayout.ofWord_kindWord h.layout h.compact, areas_eq h, ne_eq, not_true_eq_false, if_false]
  rfl

end Node

/-! ## The metadata columns -/

/-- Where the entry at `i` begins, by the sizes of the entries before it. -/
def columnOffset (start : Nat) (columns : List ((Nat × Nat) × Option PageRef)) (i : Nat) : Nat :=
  start + ((columns.take i).map fun c => c.1.1 + c.1.2).sum

theorem columnOffset_cons (start : Nat) (c : (Nat × Nat) × Option PageRef) (cs : List ((Nat × Nat) × Option PageRef))
    (i : Nat) : columnOffset start (c :: cs) (i + 1) = columnOffset (start + (c.1.1 + c.1.2)) cs i := by
  simp [columnOffset, Nat.add_assoc]

theorem compactWords_getElem? (kind : NodeKind) (start : Nat) {i : Nat} (hi : columns[i]? = some c) :
    (compactWords kind start columns)[i]? = some (columnOffset start columns i % 2 ^ 16 |||
      if kind = .leaf ∧ c.2.isSome then compactOverflowBit else 0) := by
  induction columns generalizing start i with
  | nil => simp at hi
  | cons d cs ih =>
    cases i with
    | zero =>
      obtain rfl : d = c := by simpa using hi
      simp [compactWords, columnOffset]
    | succ i =>
      rw [columnOffset_cons]
      exact ih _ hi

theorem compactWords_last (kind : NodeKind) (start : Nat) (columns : List ((Nat × Nat) × Option PageRef)) :
    (compactWords kind start columns)[columns.length]? = some (columnOffset start columns columns.length % 2 ^ 16) := by
  induction columns generalizing start with
  | nil => simp [compactWords, columnOffset]
  | cons c cs ih =>
    rw [length_cons, columnOffset_cons]
    simp only [compactWords, getElem?_cons_succ]
    exact ih _

theorem classicRecords_getElem? (kind : NodeKind) (start : Nat) {i : Nat} (hi : columns[i]? = some c) :
    (classicRecords kind start columns)[i]? = some (leBytes 4 (columnOffset start columns i) ++ leBytes 2 c.1.1 ++
      match kind with
      | .leaf => leBytes 2 (if c.2.isSome then overflowSentinel else c.1.2)
      | .internal => []) := by
  induction columns generalizing start i with
  | nil => simp at hi
  | cons d cs ih =>
    cases i with
    | zero =>
      obtain rfl : d = c := by simpa using hi
      cases kind <;> simp [classicRecords, columnOffset]
    | succ i =>
      rw [columnOffset_cons]
      exact ih _ hi

/-- What the two low fields of a compact offset word are. -/
theorem compactWord_fields {offset : Nat} (flag : Bool) (h : offset ≤ maxCompactPageSize) :
    let word := offset % 2 ^ 16 ||| if flag then compactOverflowBit else 0
    word % compactOverflowBit = offset ∧ (compactOverflowBit ≤ word ↔ flag = true) ∧ word ≤ u16Max := by
  simp only [maxCompactPageSize] at h
  have hlt : offset < 2 ^ 15 := by omega
  have hmod : offset % 2 ^ 16 = offset := Nat.mod_eq_of_lt (by omega)
  cases flag with
  | false =>
    simp only [hmod, Bool.false_eq_true, if_false, Nat.or_zero, compactOverflowBit, u16Max, iff_false]
    omega
  | true =>
    have hor : offset ||| 2 ^ 15 = offset + 2 ^ 15 := by
      have hadd := Nat.two_pow_add_eq_or_of_lt hlt 1
      rw [Nat.mul_one] at hadd
      rw [Nat.or_comm, ← hadd, Nat.add_comm]
    simp only [hmod, if_true, compactOverflowBit, u16Max, iff_true]
    rw [show (0x8000 : Nat) = 2 ^ 15 from rfl, hor]
    omega

namespace Node

variable {n : Node} {i : Nat} {it : Item}

theorem offset_eq (n : Node) (i : Nat) : n.offset i = columnOffset n.base n.columns i := by
  unfold offset columnOffset columns
  rw [length_flatten, map_map, ← map_take, map_map]
  congr 2
  refine map_congr_left fun it _ => ?_
  simp [Item.length_chunk]

/-- The length a leaf stores for a value. -/
def storedLen : Body → Nat
  | .inline value => value.length
  | _ => overflowSentinel

theorem storedLen_of_leaf {body : Body} (h : body.Fits .leaf) :
    (body.blobRef.isSome = true → storedLen body = overflowSentinel ∧ body.bytes.length = 8) ∧
      (body.blobRef.isSome = false → storedLen body = body.bytes.length ∧ body.bytes.length < overflowSentinel) := by
  cases body with
  | inline value =>
    have hlt : value.length < overflowSentinel := h
    simpa [Body.blobRef, storedLen, Body.bytes] using hlt
  | blob page length => simp [Body.blobRef, storedLen, Body.bytes, ordinalBytes]
  | child page => exact h.elim

theorem getElem?_columns (hi : n.items[i]? = some it) :
    n.columns[i]? = some (it.size n.layout, it.body.blobRef) := by
  simp [columns, hi]

/-- The word at `i` of the compact offsets, the end of the last entry included. -/
theorem word_fields (h : n.Fits) (hc : n.layout.compactMeta = true) (hm : PieceAt n.metaBytes 0
    ((compactWords n.kind n.base n.columns).flatMap (leBytes 2))) (hi : i ≤ n.items.length) :
    ∃ word, readU16 n.image (n.view.metaBase + i * 2) = .ok word ∧ word % compactOverflowBit = n.offset i ∧
      (compactOverflowBit ≤ word ↔ ∃ it, n.items[i]? = some it ∧ n.kind = .leaf ∧ it.body.blobRef.isSome = true) := by
  have hoff : n.offset i ≤ maxCompactPageSize := le_trans (n.offset_le_len i) (h.compact hc)
  obtain ⟨flag, hget, hflag⟩ : ∃ flag : Bool, (compactWords n.kind n.base n.columns)[i]? =
      some (n.offset i % 2 ^ 16 ||| if flag then compactOverflowBit else 0) ∧
      (flag = true ↔ ∃ it, n.items[i]? = some it ∧ n.kind = .leaf ∧ it.body.blobRef.isSome = true) := by
    cases hit : n.items[i]? with
    | some it =>
      refine ⟨decide (n.kind = .leaf ∧ it.body.blobRef.isSome = true), ?_, by simp⟩
      rw [compactWords_getElem? n.kind n.base (getElem?_columns hit), offset_eq]
      simp only [decide_eq_true_eq]
    | none =>
      have he : i = n.columns.length := by
        rw [length_columns]
        have := getElem?_eq_none_iff.1 hit
        omega
      refine ⟨false, ?_, by simp⟩
      rw [offset_eq, he, compactWords_last]
      simp
  obtain ⟨hword, hbit, hle⟩ := compactWord_fields flag hoff
  refine ⟨_, ?_, hword, hbit.trans hflag⟩
  have hpiece := n.piece_meta.trans (hm.trans (PieceAt.numbers id hget))
  rw [Nat.zero_add] at hpiece
  exact readU16_of_piece hpiece hle

/-- The words of a compact page that has them come first in its metadata. -/
theorem piece_words (hc : n.layout.compactMeta = true) (hk : n.kind = .leaf ∨ n.layout.omittedKeys = false) :
    PieceAt n.metaBytes 0 ((compactWords n.kind n.base n.columns).flatMap (leBytes 2)) := by
  cases hkind : n.kind with
  | leaf => exact ⟨[], _, by rw [nil_append]; exact n.metaBytes_leaf hc hkind, rfl⟩
  | internal =>
    have ho : n.layout.omittedKeys = false := by simpa [hkind] using hk
    exact ⟨[], [], by rw [nil_append, append_nil, n.metaBytes_internal hc hkind, ho]; rfl, rfl⟩

theorem compactKeyLen_eq (h : n.Fits) (hc : n.layout.compactMeta = true) (hk : n.kind = .leaf)
    (hi : n.items[i]? = some it) : n.view.compactKeyLen i = .ok (n.layout.storedKeyLen it.key.length) := by
  unfold PageView.compactKeyLen
  cases ho : n.layout.omittedKeys with
  | true => simp [ho, NodeLayout.storedKeyLen]
  | false =>
    have hle : n.layout.storedKeyLen it.key.length ≤ u16Max := by
      simpa [NodeLayout.storedKeyLen, ho] using (h.items it (mem_of_getElem? hi)).1
    have hrow := PieceAt.numbers (fun it : Item => n.layout.storedKeyLen it.key.length) (w := 2) hi
    have hmeta := n.metaBytes_leaf hc hk
    rw [ho] at hmeta
    have hpiece := n.piece_meta
    rw [hmeta] at hpiece
    have hw := length_flatMap_leBytes 2 (fun w : Nat => w) (compactWords .leaf n.base n.columns)
    rw [length_compactWords, length_columns] at hw
    have := hpiece.trans (hrow.append_right ((compactWords .leaf n.base n.columns).flatMap (leBytes 2)))
    rw [hw, ← Nat.add_assoc] at this
    simp only [view_layout, view_entryCount, view_bytes, ho, Bool.false_eq_true, if_false]
    exact readU16_of_piece this hle

/-- The metadata record of an entry of a classic page. -/
theorem piece_record (hc : n.layout.compactMeta = false) (hi : n.items[i]? = some it) :
    PieceAt n.image (n.view.metaBase + i * classicWidth n.kind)
      (leBytes 4 (n.offset i) ++ leBytes 2 (n.layout.storedKeyLen it.key.length) ++
        match n.kind with
        | .leaf => leBytes 2 (if it.body.blobRef.isSome then overflowSentinel else it.body.bytes.length)
        | .internal => []) := by
  have hrow := PieceAt.records (classicRecords_width n.kind n.base n.columns)
    (classicRecords_getElem? n.kind n.base (getElem?_columns hi))
  rw [← n.metaBytes_classic hc, ← offset_eq] at hrow
  exact n.piece_meta.trans hrow

theorem readI32_offset (h : n.Fits) (hc : n.layout.compactMeta = false) (hi : n.items[i]? = some it) :
    readI32 n.image (n.view.metaBase + i * classicWidth n.kind) = .ok (n.offset i : Int) := by
  refine readI32_of_piece ?_ (le_trans (n.offset_le_len i) h.length)
  exact (piece_record hc hi).trans (k := 0) ⟨[], _, by rw [nil_append, append_assoc], rfl⟩

theorem readU16_keyLen (h : n.Fits) (hc : n.layout.compactMeta = false) (hi : n.items[i]? = some it) :
    readU16 n.image (n.view.metaBase + i * classicWidth n.kind + 4) = .ok (n.layout.storedKeyLen it.key.length) := by
  have hle := (h.items it (mem_of_getElem? hi)).1
  refine readU16_of_piece ((piece_record hc hi).trans ⟨leBytes 4 (n.offset i), _, rfl, by simp⟩) ?_
  unfold NodeLayout.storedKeyLen
  split <;> omega

theorem classicLeafMeta_eq (h : n.Fits) (hc : n.layout.compactMeta = false) (hk : n.kind = .leaf) (hi : n.items[i]? = some it) :
    n.view.classicLeafMeta i = .ok (n.offset i, n.layout.storedKeyLen it.key.length, storedLen it.body) := by
  obtain ⟨hblob, hinline⟩ := storedLen_of_leaf (hk ▸ (h.items it (mem_of_getElem? hi)).2)
  have hoff := readI32_offset h hc hi
  have hkey := readU16_keyLen h hc hi
  have hval : readU16 n.image (n.view.metaBase + i * 8 + 6) = .ok (storedLen it.body) := by
    have hp := piece_record hc hi
    rw [hk] at hp
    have hlen : storedLen it.body = if it.body.blobRef.isSome then overflowSentinel else it.body.bytes.length := by
      cases hb : it.body.blobRef.isSome with
      | true => simp [(hblob hb).1]
      | false => simp [(hinline hb).1]
    rw [hlen]
    refine readU16_of_piece (hp.trans ⟨leBytes 4 (n.offset i) ++ leBytes 2 (n.layout.storedKeyLen it.key.length), [],
      by simp, by simp⟩) ?_
    cases hb : it.body.blobRef.isSome with
    | true => simp [overflowSentinel, u16Max]
    | false =>
      have := (hinline hb).2
      simp only [Bool.false_eq_true, if_false, overflowSentinel, u16Max] at this ⊢
      omega
  rw [hk] at hoff hkey
  unfold PageView.classicLeafMeta
  simp only [view_bytes, classicWidth] at hoff hkey hval ⊢
  rw [hoff, ok_bind, checkedLen_natCast, ok_bind, hkey, ok_bind, hval, ok_bind]

theorem compactLeafMeta_eq (h : n.Fits) (hc : n.layout.compactMeta = true) (hk : n.kind = .leaf) (hi : n.items[i]? = some it) :
    n.view.compactLeafMeta i = .ok (n.offset i, n.layout.storedKeyLen it.key.length, storedLen it.body) := by
  obtain ⟨hlt, hval⟩ := List.getElem?_eq_some_iff.1 hi
  obtain ⟨hblob, hinline⟩ := storedLen_of_leaf (hk ▸ (h.items it (mem_of_getElem? hi)).2)
  have hsucc := n.offset_succ hlt
  rw [hval] at hsucc
  obtain ⟨raw, hraw, hoff, hbit⟩ := word_fields h hc (piece_words hc (.inl hk)) (i := i) (by omega)
  obtain ⟨next, hnext, hoff', -⟩ := word_fields h hc (piece_words hc (.inl hk)) (i := i + 1) (by omega)
  simp only [hi, hk, Option.some.injEq, exists_eq_left', true_and] at hbit
  have hlen : (if compactOverflowBit ≤ raw then overflowSentinel
      else n.offset (i + 1) - n.offset i - n.layout.storedKeyLen it.key.length) = storedLen it.body := by
    cases hb : it.body.blobRef.isSome with
    | true => rw [if_pos (hbit.2 hb), (hblob hb).1]
    | false =>
      rw [if_neg (by rw [hbit, hb]; simp), (hinline hb).1]
      omega
  unfold PageView.compactLeafMeta
  simp only [view_bytes]
  rw [hraw, ok_bind, hnext, ok_bind, compactKeyLen_eq h hc hk hi, ok_bind, hoff, hoff', if_neg (by omega),
    if_neg (by omega), hlen]

/-- What the metadata of a leaf entry says. -/
theorem leafMeta_eq (h : n.Fits) (hk : n.kind = .leaf) (hi : n.items[i]? = some it) :
    n.view.leafMeta i = .ok (n.offset i, n.layout.storedKeyLen it.key.length, storedLen it.body) := by
  unfold PageView.leafMeta
  rw [view_layout]
  cases hc : n.layout.compactMeta with
  | true => exact compactLeafMeta_eq h hc hk hi
  | false => exact classicLeafMeta_eq h hc hk hi

/-! ## Entries -/

theorem payloadRange_ok (h : n.Fits) {len : Nat} (hle : n.offset i + len ≤ n.len) :
    n.view.payloadRange (n.offset i) len = .ok () := by
  have hl := h.length
  have hb := n.base_le_offset i
  unfold PageView.payloadRange
  simp only [view_payloadBase, view_bytes, length_image]
  rw [if_neg (by omega), checkedAdd_of_lt (by simp only [i32Max] at hl; simp only [usizeLimit]; omega), okOr_some,
    ok_bind, if_neg (by omega)]

theorem checkIndex_ok (hi : i < n.items.length) : n.view.checkIndex i = .ok () := by
  exact if_neg (show ¬ n.items.length ≤ i by omega)

theorem storedKeyLen_check (layout : NodeLayout) (keyLen : Nat) :
    (layout.omittedKeys && decide (layout.storedKeyLen keyLen ≠ 0)) = false := by
  unfold NodeLayout.storedKeyLen
  cases layout.omittedKeys <;> simp

theorem readI64_ordinal {page : Nat} (hi : n.items[i]? = some it)
    (hb : it.body.bytes = ordinalBytes (some page)) (hp : page < 2 ^ 63) :
    readI64 n.image (n.offset i + n.layout.storedKeyLen it.key.length) = .ok (PageOrdinal.toI64 (some page)) := by
  obtain ⟨hlt, rfl⟩ := List.getElem?_eq_some_iff.1 hi
  exact readI64_of_piece (hb ▸ n.piece_body hlt) (by simpa using hp)

/-- The entry the reader decodes at `i`. -/
theorem leafEntry_eq (h : n.Fits) (hk : n.kind = .leaf) (hi : n.items[i]? = some it) :
    n.view.leafEntry i = .ok
      { keyOffset := n.offset i
        keyLen := n.layout.storedKeyLen it.key.length
        value := it.body.leafValue (n.offset i + n.layout.storedKeyLen it.key.length) } := by
  obtain ⟨hlt, hval⟩ := List.getElem?_eq_some_iff.1 hi
  have hfit := (h.items it (mem_of_getElem? hi)).2
  rw [hk] at hfit
  have hsucc := n.offset_succ hlt
  rw [hval] at hsucc
  have hend := n.offset_le_len (i + 1)
  unfold PageView.leafEntry
  rw [view_kind, if_neg (by simp [hk]), checkIndex_ok hlt, ok_bind, leafMeta_eq h hk hi, ok_bind]
  simp only [view_layout, storedKeyLen_check, Bool.false_eq_true, if_false]
  cases hb : it.body with
  | inline value =>
    rw [hb] at hfit hsucc
    have hv : value.length < overflowSentinel := hfit
    simp only [Body.bytes] at hsucc
    rw [if_neg (show storedLen (.inline value) ≠ overflowSentinel by simp only [storedLen]; omega),
      show storedLen (.inline value) = value.length from rfl, payloadRange_ok h (by omega), ok_bind]
    rfl
  | blob page length =>
    rw [hb] at hsucc hfit
    have hp : page < 2 ^ 63 := hfit
    simp only [Body.bytes, ordinalBytes, leBytes_length] at hsucc
    rw [if_pos (show storedLen (.blob page length) = overflowSentinel from rfl), view_bytes, payloadRange_ok h (by omega),
      ok_bind, readI64_ordinal hi (by rw [hb]; rfl) hp, ok_bind, fromI64_toI64, ok_bind, okOr_some, ok_bind]
    rfl
  | child page =>
    rw [hb] at hfit
    exact hfit.elim

/-- Its key bytes, when they are stored. -/
theorem leafKey_eq (hi : n.items[i]? = some it) (value : LeafValue) :
    n.view.leafKey { keyOffset := n.offset i, keyLen := n.layout.storedKeyLen it.key.length, value } =
      .ok (n.layout.storedKey it.key) := by
  obtain ⟨hlt, rfl⟩ := List.getElem?_eq_some_iff.1 hi
  have := readSlice_of_piece (n.piece_key hlt)
  rw [Item.length_storedKey] at this
  exact this

theorem inlineValue_eq {value : Bytes} (hi : n.items[i]? = some it) (hb : it.body = .inline value) :
    n.view.inlineValue (n.offset i + n.layout.storedKeyLen it.key.length) value.length = .ok value := by
  obtain ⟨hlt, rfl⟩ := List.getElem?_eq_some_iff.1 hi
  have hp := n.piece_body hlt
  rw [hb] at hp
  exact readSlice_of_piece hp

/-- What the metadata of a separator says. -/
theorem internalMeta_eq (h : n.Fits) (hk : n.kind = .internal) (hi : n.items[i]? = some it) :
    n.view.internalMeta i = .ok (n.offset i, n.layout.storedKeyLen it.key.length) := by
  obtain ⟨hlt, hval⟩ := List.getElem?_eq_some_iff.1 hi
  have hbody : ∀ it ∈ n.items, it.body.bytes.length = 8 := by
    intro it hit
    have hfit := (h.items it hit).2
    rw [hk] at hfit
    cases hb : it.body with
    | child page => simp [Body.bytes, ordinalBytes]
    | _ => rw [hb] at hfit; exact hfit.elim
  have hsucc := n.offset_succ hlt
  rw [hval, hbody it (mem_of_getElem? hi)] at hsucc
  unfold PageView.internalMeta
  rw [view_layout]
  cases hc : n.layout.compactMeta with
  | false =>
    have hoff := readI32_offset h hc hi
    have hkey := readU16_keyLen h hc hi
    rw [hk] at hoff hkey
    simp only [view_bytes, classicWidth] at hoff hkey ⊢
    rw [if_neg (by simp), hoff, ok_bind, checkedLen_natCast, ok_bind, hkey, ok_bind]
  | true =>
    cases ho : n.layout.omittedKeys with
    | true =>
      -- Without keys every payload is a child ordinal, right behind the digests.
      have hrows : n.offset i = n.base + i * 8 := by
        unfold offset
        rw [length_flatten_of_width (w := 8), length_map, length_take, Nat.min_eq_left hlt.le]
        intro r hr
        obtain ⟨it, hit, rfl⟩ := mem_map.1 hr
        simp [Item.chunk, NodeLayout.storedKeyLen, ho, hbody it (mem_of_mem_take hit)]
      have hbase : n.base = n.view.metaBase := by
        simp [base, view, NodeLayout.payloadStart, NodeLayout.metaArea, hk, NodeLayout.internalMeta, hc, ho,
          digestBase, pagePrefixLen]
      simp [NodeLayout.storedKeyLen, ho, hrows, hbase]
    | false =>
      obtain ⟨raw, hraw, hoff, hbit⟩ := word_fields h hc (piece_words hc (.inr ho)) (i := i) (by omega)
      obtain ⟨next, hnext, hoff', hbit'⟩ := word_fields h hc (piece_words hc (.inr ho)) (i := i + 1) (by omega)
      have hlow : ∀ w, ¬ compactOverflowBit ≤ w → w % compactOverflowBit = w := fun w hw => Nat.mod_eq_of_lt (by omega)
      rw [hlow raw (by simp [hbit, hk])] at hoff
      rw [hlow next (by simp [hbit', hk])] at hoff'
      simp only [view_bytes]
      rw [if_pos trivial, if_neg (by simp), hraw, ok_bind, hnext, ok_bind, hoff, hoff', if_neg (by omega)]
      congr 2
      omega

/-- The separator the reader decodes at `i`. -/
theorem internalEntry_eq (h : n.Fits) (hk : n.kind = .internal) {page : Nat} (hi : n.items[i]? = some it)
    (hb : it.body = .child page) :
    n.view.internalEntry i = .ok
      { keyOffset := n.offset i, keyLen := n.layout.storedKeyLen it.key.length, child := page } := by
  obtain ⟨hlt, hval⟩ := List.getElem?_eq_some_iff.1 hi
  have hfit := (h.items it (mem_of_getElem? hi)).2
  rw [hk, hb] at hfit
  have hp : page < 2 ^ 63 := hfit
  have hsucc := n.offset_succ hlt
  rw [hval, hb] at hsucc
  simp only [Body.bytes, ordinalBytes, leBytes_length] at hsucc
  have hend := n.offset_le_len (i + 1)
  unfold PageView.internalEntry
  rw [view_kind, if_neg (by simp [hk]), checkIndex_ok hlt, ok_bind, internalMeta_eq h hk hi, ok_bind]
  simp only [view_layout, storedKeyLen_check, Bool.false_eq_true, if_false, view_bytes]
  rw [payloadRange_ok h (by omega), ok_bind, readI64_ordinal hi (by rw [hb]; rfl) hp, ok_bind, fromI64_toI64, ok_bind,
    okOr_some, ok_bind]

theorem internalKey_eq (hi : n.items[i]? = some it) (child : Nat) :
    n.view.internalKey { keyOffset := n.offset i, keyLen := n.layout.storedKeyLen it.key.length, child } =
      .ok (n.layout.storedKey it.key) := by
  obtain ⟨hlt, rfl⟩ := List.getElem?_eq_some_iff.1 hi
  have := readSlice_of_piece (n.piece_key hlt)
  rw [Item.length_storedKey] at this
  exact this

/-- Every body of an internal page is a child. -/
theorem child_of_internal (h : n.Fits) (hk : n.kind = .internal) (hit : it ∈ n.items) :
    ∃ page, it.body = .child page := by
  have hfit := (h.items it hit).2
  rw [hk] at hfit
  cases hb : it.body with
  | child page => exact ⟨page, rfl⟩
  | _ => rw [hb] at hfit; exact hfit.elim

/-! ## Digests -/

theorem digestSlotCount_eq (n : Node) : n.view.digestSlotCount = n.layout.digestSlots n.items.length := by
  simp [PageView.digestSlotCount, view, NodeLayout.digestArea]

/-- The digest array as it stands on the page. -/
def slots (n : Node) : List UInt64 :=
  if n.layout.eytzinger then scatterEytzinger (n.items.map Item.digest) else n.items.map Item.digest

theorem length_slots (n : Node) : n.slots.length = n.layout.digestSlots n.items.length := by
  unfold slots NodeLayout.digestSlots
  split <;> simp

theorem digestSlot_eq {d : UInt64} (hi : n.slots[i]? = some d) : n.view.digestSlot i = .ok d := by
  have hlt : i < n.layout.digestSlots n.items.length := by
    rw [← length_slots]
    exact (List.getElem?_eq_some_iff.1 hi).1
  unfold PageView.digestSlot
  simp only [digestSlotCount_eq, view_bytes]
  rw [if_neg (by omega)]
  exact readU64_of_piece (n.piece_digests.trans (PieceAt.numbers (fun d : UInt64 => d.toNat) hi))

theorem digestAt_eq (he : n.layout.eytzinger = false) (hi : n.items[i]? = some it) :
    n.view.digestAt i = .ok it.digest := by
  obtain ⟨hlt, -⟩ := List.getElem?_eq_some_iff.1 hi
  have hs : n.slots[i]? = some it.digest := by simp [slots, he, hi]
  unfold PageView.digestAt
  rw [view_layout, he, if_neg (by simp), if_neg (by rw [view_entryCount]; omega)]
  exact readU64_of_piece (n.piece_digests.trans (PieceAt.numbers (fun d : UInt64 => d.toNat) hs))

/-- A written page passes the entry walk. -/
theorem validate_image (h : n.Fits) : n.view.validate = .ok () := by
  have hentries : n.view.validateEntries = .ok () := by
    unfold PageView.validateEntries
    rw [view_kind, view_entryCount]
    cases hk : n.kind with
    | leaf =>
      refine forRange_eq_ok.2 fun i _ hi => ?_
      exact ⟨_, leafEntry_eq h hk (getElem?_eq_getElem (by omega))⟩
    | internal =>
      refine forRange_eq_ok.2 fun i _ hi => ?_
      obtain ⟨page, hp⟩ := child_of_internal h hk (getElem_mem (l := n.items) (n := i) (by omega))
      exact ⟨_, internalEntry_eq h hk (getElem?_eq_getElem (by omega)) hp⟩
  unfold PageView.validate
  rw [hentries, ok_bind, view_layout]
  cases he : n.layout.eytzinger with
  | false => rfl
  | true =>
    have hl := h.length
    have harea : n.layout.digestArea n.items.length = completeSize n.items.length * 8 := by
      simp [NodeLayout.digestArea, NodeLayout.digestSlots, he]
    have hbase : digestBase + completeSize n.items.length * 8 ≤ n.len := by
      unfold len base NodeLayout.payloadStart
      rw [harea]
      simp only [digestBase, pagePrefixLen]
      omega
    have hu : n.len < usizeLimit := by
      simp only [i32Max] at hl
      simp only [usizeLimit]
      omega
    rw [if_pos rfl]
    simp only [view_entryCount, view_bytes, length_image]
    rw [checkedMul_of_lt (by omega), okOr_some, ok_bind, checkedAdd_of_lt (by omega), okOr_some, ok_bind,
      if_neg (by omega)]

end Node

end DryDb
