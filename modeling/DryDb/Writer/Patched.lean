import DryDb.Page.InBounds
import DryDb.Writer.Pages
/-!
# A patched page is still a page

The right sibling is the last field of the page prefix, and nothing the entry walk reads is in
the prefix. A page whose right sibling is overwritten with an ordinal therefore parses and
validates as it did, with that sibling.
-/

namespace DryDb

/-- The buffers differ in the page prefix at most. -/
structure SameBody (a b : Bytes) : Prop where
  length : a.length = b.length
  body : a.drop pagePrefixLen = b.drop pagePrefixLen

namespace SameBody

variable {a b : Bytes} {off : Nat}

theorem slice_eq (h : SameBody a b) (len : Nat) (ho : pagePrefixLen ≤ off) : slice a off len = slice b off len := by
  have hdrop : ∀ c : Bytes, c.drop off = (c.drop pagePrefixLen).drop (off - pagePrefixLen) := by
    intro c
    rw [List.drop_drop, Nat.add_sub_cancel' ho]
  unfold slice
  rw [hdrop a, hdrop b, h.body, h.length]

theorem readLe_eq (h : SameBody a b) (w : Nat) (ty : String) (ho : pagePrefixLen ≤ off) :
    readLe w ty a off = readLe w ty b off := by
  unfold readLe
  rw [h.slice_eq w ho]

theorem readU16_eq (h : SameBody a b) (ho : pagePrefixLen ≤ off) : readU16 a off = readU16 b off := h.readLe_eq 2 _ ho

theorem readI32_eq (h : SameBody a b) (ho : pagePrefixLen ≤ off) : readI32 a off = readI32 b off :=
  congrArg (signed 4 <$> ·) (h.readLe_eq 4 _ ho)

theorem readI64_eq (h : SameBody a b) (ho : pagePrefixLen ≤ off) : readI64 a off = readI64 b off :=
  congrArg (signed 8 <$> ·) (h.readLe_eq 8 _ ho)

end SameBody

/-- The view of a page with another right sibling. -/
def PageView.patched (v : PageView) (bytes : Bytes) (right : Option Nat) : PageView :=
  { v with bytes, header := { v.header with rightSibling := right } }

/-- Two sequences that go on alike from every result of the first part. -/
theorem bind_congr_ok {ε α β : Type} {x : Except ε α} {f g : α → Except ε β} (h : ∀ a, x = .ok a → f a = g a) :
    (x >>= f) = (x >>= g) := by
  cases x with
  | ok a => exact h a rfl
  | error e => rfl

namespace PageView

variable {v : PageView} {bytes : Bytes} {right : Option Nat} {i : Nat}

theorem Bounded.base_le (h : v.Bounded) : pagePrefixLen ≤ v.metaBase := by
  rw [h.digests]
  exact Nat.le_add_right _ _

theorem compactKeyLen_patched (hb : v.Bounded) (h : SameBody bytes v.bytes) :
    (v.patched bytes right).compactKeyLen i = v.compactKeyLen i := by
  have hbase := hb.base_le
  unfold compactKeyLen
  show (if v.layout.omittedKeys = true then _ else readU16 bytes _) = _
  rw [h.readU16_eq (by show _ ≤ v.metaBase + _ + _; omega)]
  rfl

theorem leafMeta_patched (hb : v.Bounded) (h : SameBody bytes v.bytes) :
    (v.patched bytes right).leafMeta i = v.leafMeta i := by
  have hbase := hb.base_le
  have hcompact : (v.patched bytes right).compactLeafMeta i = v.compactLeafMeta i := by
    unfold compactLeafMeta
    rw [compactKeyLen_patched hb h]
    show (readU16 bytes (v.metaBase + i * 2) >>= fun raw => readU16 bytes (v.metaBase + (i + 1) * 2) >>= _) = _
    rw [h.readU16_eq (by omega), h.readU16_eq (by omega)]
  have hclassic : (v.patched bytes right).classicLeafMeta i = v.classicLeafMeta i := by
    unfold classicLeafMeta
    show (readI32 bytes (v.metaBase + i * 8) >>= fun z => checkedLen z "entry payload offset" >>= fun offset =>
      readU16 bytes (v.metaBase + i * 8 + 4) >>= fun keyLen => readU16 bytes (v.metaBase + i * 8 + 6) >>= _) = _
    rw [h.readI32_eq (by omega), h.readU16_eq (by omega), h.readU16_eq (by omega)]
  unfold leafMeta
  rw [hcompact, hclassic]
  rfl

theorem internalMeta_patched (hb : v.Bounded) (h : SameBody bytes v.bytes) :
    (v.patched bytes right).internalMeta i = v.internalMeta i := by
  have hbase := hb.base_le
  have hword : ∀ k, readU16 bytes (v.metaBase + k) = readU16 v.bytes (v.metaBase + k) :=
    fun k => h.readU16_eq (by omega)
  have hlong : ∀ k, readI32 bytes (v.metaBase + k) = readI32 v.bytes (v.metaBase + k) :=
    fun k => h.readI32_eq (by omega)
  unfold internalMeta
  simp only [patched, hword, hlong, Nat.add_assoc]
  rfl

theorem payloadRange_patched (h : SameBody bytes v.bytes) (offset len : Nat) :
    (v.patched bytes right).payloadRange offset len = v.payloadRange offset len := by
  unfold payloadRange
  simp only [patched, h.length]

theorem payloadRange_base {offset len : Nat} (h : v.payloadRange offset len = .ok ()) : v.payloadBase ≤ offset := by
  unfold payloadRange at h
  simp only [guard_eq_ok] at h
  exact Nat.not_lt.1 h.1

theorem leafEntry_patched (hb : v.Bounded) (h : SameBody bytes v.bytes) :
    (v.patched bytes right).leafEntry i = v.leafEntry i := by
  have hbase := hb.base_le
  have hmeta := hb.meta_le
  unfold leafEntry
  rw [leafMeta_patched hb h]
  simp only [payloadRange_patched h]
  -- The ordinal of a blob page is read after its range has been checked.
  refine if_congr Iff.rfl rfl (bind_congr_ok fun _ _ => bind_congr_ok fun m _ => ?_)
  obtain ⟨offset, keyLen, valueLen⟩ := m
  refine if_congr Iff.rfl rfl (if_congr Iff.rfl (bind_congr_ok fun _ hrange => ?_) rfl)
  have hoffset := payloadRange_base hrange
  show (readI64 bytes (offset + keyLen) >>= _) = _
  rw [h.readI64_eq (by omega)]

theorem internalEntry_patched (hb : v.Bounded) (h : SameBody bytes v.bytes) :
    (v.patched bytes right).internalEntry i = v.internalEntry i := by
  have hbase := hb.base_le
  have hmeta := hb.meta_le
  unfold internalEntry
  rw [internalMeta_patched hb h]
  simp only [payloadRange_patched h]
  refine if_congr Iff.rfl rfl (bind_congr_ok fun _ _ => bind_congr_ok fun m _ => ?_)
  obtain ⟨offset, keyLen⟩ := m
  refine if_congr Iff.rfl rfl (bind_congr_ok fun _ hrange => ?_)
  have hoffset := payloadRange_base hrange
  show (readI64 bytes (offset + keyLen) >>= _) = _
  rw [h.readI64_eq (by omega)]

theorem validate_patched (hb : v.Bounded) (h : SameBody bytes v.bytes) :
    (v.patched bytes right).validate = v.validate := by
  have hleaf : (v.patched bytes right).leafEntry = v.leafEntry := funext fun _ => leafEntry_patched hb h
  have hinternal : (v.patched bytes right).internalEntry = v.internalEntry := funext fun _ => internalEntry_patched hb h
  unfold validate validateEntries
  rw [hleaf, hinternal]
  simp only [patched, h.length]
  rfl

end PageView

/-! ## Patching a right sibling -/

variable {page : Bytes} {v : PageView} {right : Option Nat}

theorem sameBody_setRight (h : pagePrefixLen ≤ page.length) (right : Option Nat) :
    SameBody (setRight page right) page := by
  refine ⟨length_setRight h right, ?_⟩
  obtain ⟨len, header, r, rest, rfl, hl, hh, hr⟩ := exists_fields h
  have hdrop : ∀ m : Bytes, m.length = 8 → (len ++ header ++ m ++ rest).drop pagePrefixLen = rest := by
    intro m hm
    have h28 : (len ++ header ++ m).length = pagePrefixLen := by simp [hl, hh, hm, pagePrefixLen]
    rw [← h28]
    exact List.drop_left
  rw [setRight_fields hl hh hr, hdrop _ (by simp [ordinalBytes]), hdrop _ hr]

/-- Of several patches the last one counts. -/
theorem setRight_setRight (h : pagePrefixLen ≤ page.length) (right right' : Option Nat) :
    setRight (setRight page right) right' = setRight page right' := by
  obtain ⟨len, header, r, rest, rfl, hl, hh, hr⟩ := exists_fields h
  rw [setRight_fields hl hh hr, setRight_fields hl hh (by simp [ordinalBytes]), setRight_fields hl hh hr]

/-- What is before the sibling stays. -/
theorem slice_setRight (h : pagePrefixLen ≤ page.length) (right : Option Nat) {off len : Nat}
    (hbefore : off + len ≤ rightSiblingOffset) : slice (setRight page right) off len = slice page off len := by
  obtain ⟨size, header, r, rest, rfl, hl, hh, hr⟩ := exists_fields h
  have hab : (size ++ header).length = rightSiblingOffset := by simp [hl, hh, rightSiblingOffset]
  have hslice : ∀ m : Bytes, slice (size ++ header ++ m ++ rest) off len = slice (size ++ header) off len := by
    intro m
    rw [List.append_assoc (size ++ header), slice_append_left (by omega)]
  rw [setRight_fields hl hh hr, hslice, hslice]

theorem parse_setRight (hp : PageView.parse page = .ok v)
    (hr : ∀ p ∈ right, p < 2 ^ 63) : PageView.parse (setRight page right) = .ok (v.patched (setRight page right) right) := by
  simp only [PageView.parse, bind_eq_ok, guard_eq_ok, Except.ok.injEq] at hp
  obtain ⟨hlen, zlen, hzlen, len, hstored, hsame, word, hword, kind, hkind, layout, hlayout, n, hn, count, hcount, zl, hzl, l,
    hleft, zr, -, r, -, ⟨m, p⟩, hareas, rfl⟩ := hp
  have hlead := Nat.not_lt.1 hlen
  have hread : ∀ w ty off, off + w ≤ rightSiblingOffset → readLe w ty (setRight page right) off = readLe w ty page off := by
    intro w ty off hbefore
    unfold readLe
    rw [slice_setRight hlead right hbefore]
  have hright : readI64 (setRight page right) rightSiblingOffset = .ok (PageOrdinal.toI64 right) := by
    refine readI64_of_piece ?_ hr
    obtain ⟨a, b, c, d, rfl, ha, hb, hc⟩ := exists_fields hlead
    rw [setRight_fields ha hb hc]
    exact ⟨a ++ b, d, by simp, by simp [ha, hb, rightSiblingOffset]⟩
  simp only [PageView.parse, bind_eq_ok, guard_eq_ok, Except.ok.injEq, length_setRight hlead]
  refine ⟨hlen, zlen, ?_, len, hstored, hsame, word, ?_, kind, hkind, layout, hlayout, n, ?_, count, hcount, zl, ?_, l, hleft,
    _, hright, right, fromI64_toI64 right, (m, p), hareas, rfl⟩
  · rw [readI32, readI32Bits, hread 4 _ 0 (by decide)]
    exact hzlen
  · rw [readI32Bits, hread 4 _ kindOffset (by decide)]
    exact hword
  · rw [readI32, readI32Bits, hread 4 _ entryCountOffset (by decide)]
    exact hn
  · rw [readI64, hread 8 _ leftSiblingOffset (by decide)]
    exact hzl

/-- The page checks pass again after a patch. -/
theorem valid_setRight (hp : PageView.parse page = .ok v) (hv : v.validate = .ok ()) (hr : ∀ p ∈ right, p < 2 ^ 63) :
    ∃ v', PageView.parse (setRight page right) = .ok v' ∧ v'.validate = .ok () := by
  have hb := bounded_of_parse hp
  have hbytes := bytes_of_parse hp
  refine ⟨_, parse_setRight hp hr, ?_⟩
  rw [PageView.validate_patched hb (hbytes ▸ sameBody_setRight (hbytes ▸ hb.prefix_le) right)]
  exact hv

end DryDb
