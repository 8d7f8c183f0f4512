import DryDb.Lib.Lists
import DryDb.Memory.Loading
import DryDb.Writer.Files
import DryDb.Writer.Patched
/-!
# Pages load back as they were written

A finished file is its front (header and catalog), the stored pages and the page directory. A
store over such a file finds page `o` at the offset its slot holds, and what it decodes there is
the page that was handed to the sink. `WriteRun` follows the writes of a build (pages, right
siblings of earlier pages, root ordinals) in any order they can be made.
-/

namespace DryDb

open List

/-! ## A finished file -/

/-- The store reads a file of these stored pages. -/
structure PageStore.HoldsPages (store : PageStore) (front : Bytes) (stored : List Bytes) : Prop where
  source : store.source = front ++ stored.flatten ++ (pageOffsets front.length stored).flatMap (leBytes directorySlotLen)
  base : store.directoryBase = front.length + stored.flatten.length
  count : store.pageCount = stored.length
  header : headerLen ≤ front.length
  pages : ∀ st ∈ stored, pagePrefixLen ≤ st.length
  small : store.source.length < 2 ^ 63

/-- Where page `o` begins. -/
def startOf (front : Bytes) (stored : List Bytes) (o : Nat) : Nat := front.length + (stored.take o).flatten.length

variable {o offset : Nat} {store : PageStore} {front : Bytes} {p : WrittenPage} {s : PageSink} {pages : List Bytes}
  {limits : Limits}

theorem startOf_succ (front : Bytes) {stored : List Bytes} {st : Bytes} (ho : stored[o]? = some st) :
    startOf front stored (o + 1) = startOf front stored o + st.length := by
  unfold startOf
  rw [take_add_one, ho, flatten_append, length_append]
  simp [Nat.add_assoc]

theorem startOf_le (front : Bytes) (stored : List Bytes) (o : Nat) :
    startOf front stored o ≤ front.length + stored.flatten.length := by
  have hsplit := congrArg (List.length ∘ List.flatten) (take_append_drop o stored)
  simp only [Function.comp_apply, flatten_append, length_append] at hsplit
  unfold startOf
  omega

namespace PageStore.HoldsPages

variable {store : PageStore} {front : Bytes} {stored : List Bytes} {o : Nat} {st : Bytes}

theorem length_source (h : store.HoldsPages front stored) :
    store.source.length = store.directoryBase + store.pageCount * directorySlotLen := by
  rw [h.source, h.base, h.count]
  simp only [length_append, length_flatMap, leBytes_length, map_const', sum_replicate,
    length_pageOffsets, smul_eq_mul]

theorem directoryInside (h : store.HoldsPages front stored) : store.DirectoryInside :=
  ⟨h.length_source.symm.le, h.small.trans (by decide)⟩

/-- Slot `o` of the directory holds where page `o` begins. -/
theorem slot (h : store.HoldsPages front stored) (ho : o < stored.length) :
    PieceAt store.source (store.directoryBase + o * directorySlotLen) (leBytes directorySlotLen (startOf front stored o)) := by
  have hpiece := (PieceAt.numbers (w := directorySlotLen) (fun n : Nat => n)
    (pageOffsets_getElem? front.length ho)).append_right (front ++ stored.flatten)
  rw [length_append, ← h.base, ← h.source] at hpiece
  exact hpiece

/-- Page `o` stands where it begins. -/
theorem page (h : store.HoldsPages front stored) (ho : stored[o]? = some st) :
    PieceAt store.source (startOf front stored o) st := by
  obtain ⟨hlt, rfl⟩ := List.getElem?_eq_some_iff.1 ho
  rw [h.source, append_assoc]
  exact ((PieceAt.flatten hlt).append_left _).append_right front

theorem start_lt (h : store.HoldsPages front stored) (ho : stored[o]? = some st) :
    startOf front stored o < store.directoryBase := by
  have hsucc := startOf_succ front ho
  have hle := startOf_le front stored (o + 1)
  have hpage := h.pages st (mem_of_getElem? ho)
  simp only [pagePrefixLen] at hpage
  rw [h.base]
  omega

theorem offsetOf (h : store.HoldsPages front stored) (ho : stored[o]? = some st) :
    store.offsetOf o = .ok (startOf front stored o) := by
  have hlt := (List.getElem?_eq_some_iff.1 ho).1
  have hstart := h.start_lt ho
  have hsmall := h.small
  have hlen := h.length_source
  have hheader : headerLen ≤ startOf front stored o := h.header.trans (Nat.le_add_right _ _)
  have hslot := readExactAt_eq_ok.2 (h.slot hlt).slice_eq
  rw [leBytes_length] at hslot
  have hword : startOf front stored o < 256 ^ 8 := by omega
  have hraw : readI64 (leBytes directorySlotLen (startOf front stored o)) 0 = .ok (startOf front stored o : Int) := by
    show signed 8 <$> readLe 8 "i64" (leBytes 8 (startOf front stored o)) 0 = _
    rw [readLe_of_piece (PieceAt.refl _), Nat.mod_eq_of_lt hword, map_ok]
    unfold signed
    rw [if_pos (by omega)]
  refine PageStore.offsetOf_of_slot (by rw [h.count]; exact hlt) hslot hraw ?_
  have hfile : fileOffsetFromI64 (startOf front stored o : Int) = .ok (startOf front stored o) :=
    (if_neg (by omega)).trans rfl
  unfold PageStore.validateOffset
  simp only [hfile, mapError_ok, ok_bind]
  rw [if_neg (by omega)]

/-- The pages follow one another without a gap, and the directory follows the last. -/
theorem pageLimit (h : store.HoldsPages front stored) (ho : stored[o]? = some st) :
    store.pageLimit o (startOf front stored o) = .ok (startOf front stored o + st.length) := by
  have hlt := (List.getElem?_eq_some_iff.1 ho).1
  have hsucc := startOf_succ front ho
  have hpage := h.pages st (mem_of_getElem? ho)
  simp only [pagePrefixLen] at hpage
  unfold PageStore.pageLimit
  rw [h.count]
  by_cases hlast : stored.length ≤ o + 1
  · rw [if_pos hlast, h.base, ← hsucc]
    unfold startOf
    rw [take_of_length_le hlast]
  · rw [if_neg hlast]
    have hnext := getElem?_eq_getElem (Nat.lt_of_not_le hlast)
    rw [h.offsetOf hnext, ok_bind, hsucc, if_pos (by omega), Nat.min_eq_left (hsucc ▸ (h.start_lt hnext).le)]

end PageStore.HoldsPages

/-! ## Decoding a stored page -/

/-- Decoding gives back what was encoded. -/
def PageFilter.Inverts (f : PageFilter) : Prop := ∀ plain encoded, f.encode plain = .ok encoded → f.decode encoded = .ok plain

/-- The page is within what the reader accepts: its stored form, its decoded form, and the size
its filter announces. -/
structure Limits.Admit (limits : Limits) (filter : Option PageFilter) (page stored : Bytes) : Prop where
  stored_le : stored.length ≤ limits.maxStoredPageBytes
  decoded_le : filter.isSome → page.length - pagePrefixLen ≤ limits.maxDecodedPageBytes
  hint_le : ∀ f ∈ filter, ∀ size ∈ f.decodedSizeHint (stored.drop pagePrefixLen),
    page.length - pagePrefixLen ≤ size ∧ size ≤ limits.maxDecodedPageBytes

/-- A page passes the checks of a load. -/
def PassesChecks (page : Bytes) : Prop := ∃ v, PageView.parse page = .ok v ∧ v.validate = .ok ()

theorem PassesChecks.length_le {page : Bytes} (h : PassesChecks page) :
    pagePrefixLen ≤ page.length ∧ page.length ≤ i32Max := by
  obtain ⟨v, hp, -⟩ := h
  have hb := bounded_of_parse hp
  have hbytes := bytes_of_parse hp
  exact ⟨hbytes ▸ hb.prefix_le, hbytes ▸ hb.length⟩

/-- The first field of a page is its length. -/
theorem PassesChecks.length_field {page : Bytes} (h : PassesChecks page) : page.take 4 = leBytes 4 page.length := by
  have hlen := h.length_le.1
  obtain ⟨v, hp, -⟩ := h
  simp only [PageView.parse, bind_eq_ok, guard_eq_ok, Except.ok.injEq] at hp
  obtain ⟨-, z, hz, len, hl, hsame, -⟩ := hp
  obtain ⟨n, hn, rfl⟩ := map_eq_ok.1 hz
  obtain ⟨s, hs, rfl⟩ := readLe_eq_ok.1 hn
  have hs4 := slice_length hs
  obtain ⟨-, rfl⟩ := slice_eq_some.1 hs
  rw [drop_zero] at hl hs4
  obtain ⟨hpos, hnat⟩ := checkedLen_eq_ok.1 hl
  have hlt := ofLe_lt (page.take 4)
  rw [hs4] at hlt
  -- A length that is not negative is the bytes as they stand.
  have hvalue : ofLe (page.take 4) = page.length := by
    unfold signed at hpos hnat
    split at hpos
    · rw [if_pos ‹_›] at hnat
      omega
    · omega
  rw [← hvalue]
  have hback := leBytes_ofLe (page.take 4)
  rw [hs4] at hback
  exact hback.symm

variable {filter : Option PageFilter} {page stored : Bytes}

theorem stored_length_field (h : PassesChecks page) (hs : PageSink.storedPage filter page = .ok stored) :
    stored.take 4 = leBytes 4 stored.length ∧ stored.length ≤ i32Max := by
  cases filter with
  | none =>
    obtain rfl : page = stored := by simpa [PageSink.storedPage] using hs
    exact ⟨h.length_field, h.length_le.2⟩
  | some f =>
    have hlen := h.length_le.1
    simp only [pagePrefixLen] at hlen
    simp only [PageSink.storedPage, PageSink.filteredPage, bind_eq_ok, guard_eq_ok, Except.ok.injEq] at hs
    obtain ⟨payload, -, hle, rfl⟩ := hs
    have htotal : (leBytes 4 (pagePrefixLen + payload.length) ++ (page.take pagePrefixLen).drop 4 ++ payload).length =
        pagePrefixLen + payload.length := by
      simp only [length_append, leBytes_length, length_drop, length_take, pagePrefixLen]
      omega
    rw [htotal]
    refine ⟨?_, Nat.not_lt.1 hle⟩
    rw [append_assoc, take_append_of_le_length (by simp), take_of_length_le (by simp)]

/-- A page around the part of its prefix that a filter keeps. -/
theorem prefix_parts {a m : Bytes} (ha : a.length = 4) (hm : m.length = 24) (rest : Bytes) :
    (a ++ m ++ rest).drop pagePrefixLen = rest ∧ ((a ++ m ++ rest).take pagePrefixLen).drop 4 = m ∧
      ((a ++ m ++ rest).drop 4).take (pagePrefixLen - 4) = m := by
  have h28 : (a ++ m).length = pagePrefixLen := by simp [ha, hm, pagePrefixLen]
  have h24 : pagePrefixLen - 4 = m.length := hm.symm
  refine ⟨?_, ?_, ?_⟩
  · rw [← h28]
    exact drop_left
  · rw [← h28, take_left, ← ha]
    exact drop_left
  · rw [append_assoc, ← ha, drop_left, ha, h24]
    exact take_left

/-- Undoing the filter gives back the page. -/
theorem decoded_storedPage (h : PassesChecks page) (hf : store.filter = filter)
    (hs : PageSink.storedPage filter page = .ok stored) (hinv : ∀ f ∈ filter, f.Inverts)
    (hlimits : store.limits.Admit filter page stored) : store.decoded stored = .ok page := by
  unfold PageStore.decoded
  rw [hf]
  cases filter with
  | none =>
    obtain rfl : page = stored := by simpa [PageSink.storedPage] using hs
    rfl
  | some f =>
    obtain ⟨hlen, hmax⟩ := h.length_le
    have hfield := h.length_field
    have hroom := hlimits.decoded_le rfl
    have hhint := hlimits.hint_le f rfl
    obtain ⟨a, header, right, rest, rfl, ha, hh, hr⟩ := exists_fields hlen
    rw [append_assoc a] at hlen hmax hfield hroom hhint hs ⊢
    have hm : (header ++ right).length = 24 := by simp [hh, hr]
    generalize header ++ right = m at *
    have hsize : (a ++ m ++ rest).length = pagePrefixLen + rest.length := by
      rw [length_append, length_append, ha, hm]
      rfl
    rw [hsize, Nat.add_sub_cancel_left] at hroom
    rw [hsize] at hmax hfield
    obtain ⟨hdrop, hkeep, -⟩ := prefix_parts ha hm rest
    simp only [PageSink.storedPage, PageSink.filteredPage, bind_eq_ok, guard_eq_ok, Except.ok.injEq, hdrop, hkeep] at hs
    obtain ⟨payload, hencode, -, rfl⟩ := hs
    obtain ⟨hpayload, -, hmiddle⟩ := prefix_parts (leBytes_length 4 (pagePrefixLen + payload.length)) hm payload
    simp only [hpayload, hsize, Nat.add_sub_cancel_left] at hhint
    have hcapacity : ∃ capacity, PageStore.decodeCapacity store.limits.maxDecodedPageBytes f payload = .ok capacity ∧
        rest.length ≤ capacity := by
      unfold PageStore.decodeCapacity
      cases hhinted : f.decodedSizeHint payload with
      | none => exact ⟨_, rfl, hroom⟩
      | some size =>
        obtain ⟨hle, hlimit⟩ := hhint size hhinted
        exact ⟨size, if_pos hlimit, hle⟩
    obtain ⟨capacity, hcap, hfits⟩ := hcapacity
    have htotal : checkedAdd pagePrefixLen rest.length = some (pagePrefixLen + rest.length) :=
      if_pos (hmax.trans_lt (by decide))
    have hhead : leBytes 4 (pagePrefixLen + rest.length) = a := by
      rw [← hfield, append_assoc, take_append_of_le_length ha.ge, take_of_length_le ha.le]
    unfold PageStore.decodePage
    simp only [hpayload, hcap, ok_bind, hinv f rfl _ _ hencode]
    rw [if_neg (Nat.not_lt.2 hfits), if_neg (Nat.not_lt.2 hroom), htotal, okOr_some, ok_bind, hmiddle, hhead]

/-- A page of the file is loaded as it was handed to the sink. -/
theorem PageStore.HoldsPages.load {all : List Bytes}
    (h : store.HoldsPages front all) (ho : all[o]? = some stored) (hf : store.filter = filter)
    (hs : PageSink.storedPage filter page = .ok stored) (hinv : ∀ f ∈ filter, f.Inverts) (hp : PassesChecks page)
    (hlimits : store.limits.Admit filter page stored) :
    ∃ pin, store.load o = .ok pin ∧ pin.ordinal = o ∧ pin.bytes = page := by
  obtain ⟨hfield, hlen⟩ := stored_length_field hp hs
  have hlead := h.pages stored (mem_of_getElem? ho)
  have hpiece := h.page ho
  have hsmall := h.small
  have hinside := hpiece.le_length
  have hstored := readExactAt_eq_ok.2 hpiece.slice_eq
  have hfirst : PieceAt stored 0 (leBytes 4 stored.length) := by
    rw [← hfield]
    exact ⟨[], stored.drop 4, by simp, rfl⟩
  have hlength := readExactAt_eq_ok.2 (hpiece.trans hfirst).slice_eq
  rw [leBytes_length, Nat.add_zero] at hlength
  have hword := readI32_of_piece (PieceAt.refl (leBytes 4 stored.length)) hlen
  obtain ⟨v, hparse, hvalid⟩ := hp
  have hdecoded := decoded_storedPage ⟨v, hparse, hvalid⟩ hf hs hinv hlimits
  refine ⟨{ ordinal := o, bytes := page, view := v, parsed := hparse, valid := hvalid }, ?_, rfl, rfl⟩
  have hnew : PagePin.new o page = .ok { ordinal := o, bytes := page, view := v, parsed := hparse, valid := hvalid } :=
    PagePin.new_eq_ok.2 ⟨rfl, rfl⟩
  have hstop : checkedAdd (startOf front all o) stored.length = some (startOf front all o + stored.length) :=
    if_pos (by unfold usizeLimit; omega)
  unfold PageStore.load
  simp only [h.offsetOf ho, pageLengthLen, hlength, hword, checkedLen_natCast, h.pageLimit ho, hstop, okOr_some, hstored,
    hdecoded, hnew, ok_bind]
  rw [if_neg (Nat.not_lt.2 hlead), if_neg (Nat.not_lt.2 hlimits.stored_le), if_neg (Nat.lt_irrefl _)]

/-! ## The writes of a build -/

/-- A page written so far: where it was begun, what was handed to the sink, and the last right
sibling patched into it. -/
structure WrittenPage where
  offset : Nat
  bytes : Bytes
  right : Option Nat := none

/-- The page with its last patch. -/
def WrittenPage.current (p : WrittenPage) : Bytes :=
  match p.right with
  | none => p.bytes
  | some next => setRight p.bytes (some next)

/-- Writes made one after another, on a sink that has been given the header and the catalog:
pages, right siblings of earlier pages, and root ordinals in the catalog. -/
inductive WriteRun (filter : Option PageFilter) (threshold : Nat) (front : Bytes) : FileSink → List WrittenPage → Prop
  | start : WriteRun filter threshold front ((FileSink.new filter (.new threshold)).writeRaw front) []
  | page {f mid f' : FileSink} {pages : List WrittenPage} {ordinal offset : Nat} {bytes : Bytes} :
      WriteRun filter threshold front f pages → f.beginPage = .ok (ordinal, offset, mid) →
      mid.writePage bytes = .ok f' → PassesChecks bytes →
      WriteRun filter threshold front f' (pages ++ [⟨offset, bytes, none⟩])
  | right {f : FileSink} {pages : List WrittenPage} {o next : Nat} {p : WrittenPage} :
      WriteRun filter threshold front f pages → pages[o]? = some p → next < 2 ^ 63 →
      WriteRun filter threshold front (f.patchAt (p.offset + rightSiblingOffset) (ordinalBytes (some next)))
        (pages.set o { p with right := some next })
  | root {f : FileSink} {pages : List WrittenPage} {offset : Nat} {bytes : Bytes} :
      WriteRun filter threshold front f pages → offset + bytes.length ≤ front.length →
      WriteRun filter threshold front (f.patchAt offset bytes) pages

theorem WrittenPage.current_right (hp : pagePrefixLen ≤ p.bytes.length) (next : Nat) :
    ({ p with right := some next } : WrittenPage).current = setRight p.current (some next) := by
  unfold current
  cases p.right with
  | none => rfl
  | some old => exact (setRight_setRight hp _ _).symm

theorem PassesChecks.current (h : PassesChecks p.bytes) (hr : ∀ n ∈ p.right, n < 2 ^ 63) :
    PassesChecks p.current := by
  obtain ⟨v, hp, hv⟩ := h
  unfold WrittenPage.current
  cases hright : p.right with
  | none => exact ⟨v, hp, hv⟩
  | some next =>
    refine valid_setRight hp hv fun n hn => ?_
    exact hr n (hright ▸ hn)

/-- A patch inside the front leaves the pages as they are. -/
theorem PageSink.Holds.patchFront (h : s.Holds front pages) {bytes : Bytes} (hin : offset + bytes.length ≤ front.length) :
    (s.patchAt offset bytes).Holds (overwrite front offset bytes) pages := by
  obtain ⟨stored, hf, hfile, hd⟩ := h.ex
  refine ⟨⟨stored, hf, ?_, ?_⟩, h.prefixed, h.limit⟩
  · show overwrite s.file offset bytes = _
    rw [hfile, overwrite_append_left hin]
  · show s.directory = _
    rw [overwrite_length hin]
    exact hd

/-- The right sibling of a page is inside its stored form. -/
theorem PageSink.Holds.sibling_inside (h : s.Holds front pages) {right : Option Nat} (ho : s.directory[o]? = some offset) :
    offset + rightSiblingOffset + (ordinalBytes right).length ≤ s.file.length := by
  obtain ⟨stored, hf, hfile, hd⟩ := h.ex
  have hlt : o < stored.length := by
    have := (List.getElem?_eq_some_iff.1 ho).1
    rwa [hd, length_pageOffsets] at this
  rw [hd, pageOffsets_getElem? _ hlt, Option.some.injEq] at ho
  have hlt' : o < pages.length := hf.length_eq.symm ▸ hlt
  have hstored : pagePrefixLen ≤ stored[o].length := by
    have hst : PageSink.storedPage s.filter pages[o] = .ok stored[o] := (forall₂_iff_get.1 hf).2 o hlt' hlt
    exact length_storedPage (h.prefixed _ (getElem_mem hlt')) hst
  have hinside := ((PieceAt.flatten hlt).append_right front).le_length
  simp only [pagePrefixLen] at hstored
  simp only [rightSiblingOffset, ordinalBytes, leBytes_length]
  rw [hfile]
  omega

/-- What holds after every run of writes. -/
structure WritesHold (filter : Option PageFilter) (front : Bytes) (f : FileSink) (pages : List WrittenPage) (s : PageSink)
    (front' : Bytes) : Prop where
  refines : f.Refines s
  holds : s.Holds front' (pages.map WrittenPage.current)
  front_length : front'.length = front.length
  filter_eq : s.filter = filter
  offsets : s.directory = pages.map WrittenPage.offset
  checked : ∀ p ∈ pages, PassesChecks p.bytes ∧ ∀ n ∈ p.right, n < 2 ^ 63
  encoded : ∀ p ∈ pages, ∃ stored, PageSink.storedPage filter p.bytes = .ok stored

theorem WriteRun.holds {filter : Option PageFilter} {threshold : Nat} {f : FileSink}
    {pages : List WrittenPage} (h : WriteRun filter threshold front f pages) :
    ∃ s front', WritesHold filter front f pages s front' := by
  induction h with
  | start =>
    refine ⟨({ filter } : PageSink).writeRaw front, front, (FileSink.Refines.new filter threshold).writeRaw front, ?_, rfl, rfl,
      rfl, by simp, by simp⟩
    exact ⟨⟨[], .nil, by simp [PageSink.writeRaw], rfl⟩, by simp, Nat.zero_le _⟩
  | page _ hb hw hp ih =>
    obtain ⟨s, front', hs⟩ := ih
    obtain ⟨mid, hmid, hrefines⟩ := hs.refines.beginPage hb
    obtain ⟨s', hs', hrefines'⟩ := hrefines.writePage hw
    obtain ⟨-, -, hfilter, hholds, -⟩ := hs.holds.addPage hmid hs' hp.length_le.1
    obtain ⟨st, hst, rfl⟩ := map_eq_ok.1 hs'
    unfold PageSink.beginPage at hmid
    obtain ⟨-, hmid⟩ := guard_eq_ok.1 hmid
    simp only [Except.ok.injEq, Prod.mk.injEq] at hmid
    obtain ⟨-, rfl, rfl⟩ := hmid
    refine ⟨_, front', hrefines', ?_, hs.front_length, hfilter.trans hs.filter_eq, ?_, ?_, ?_⟩
    · rw [map_append]
      exact hholds
    · simp [PageSink.writeRaw, hs.offsets]
    · intro p hmem
      rcases mem_append.1 hmem with hmem | hmem
      · exact hs.checked p hmem
      · rw [mem_singleton] at hmem
        exact hmem ▸ ⟨hp, by simp⟩
    · intro p hmem
      rcases mem_append.1 hmem with hmem | hmem
      · exact hs.encoded p hmem
      · rw [mem_singleton] at hmem
        exact hmem ▸ ⟨st, hs.filter_eq ▸ hst⟩
  | right _ ho hnext ih =>
    rename_i f pages o next p _
    obtain ⟨s, front', hs⟩ := ih
    have hmem := mem_of_getElem? ho
    obtain ⟨hchecks, hright⟩ := hs.checked p hmem
    have hoffset : s.directory[o]? = some p.offset := by rw [hs.offsets, getElem?_map, ho, Option.map_some]
    have hpage : (pages.map WrittenPage.current)[o]? = some p.current := by rw [getElem?_map, ho, Option.map_some]
    have hholds := hs.holds.patchRight hoffset hpage (some next)
    refine ⟨_, front', hs.refines.patchAt ?_, ?_, hs.front_length, hs.filter_eq, ?_, ?_, ?_⟩
    · exact hs.holds.sibling_inside hoffset
    · rw [map_set, WrittenPage.current_right hchecks.length_le.1]
      exact hholds
    · show s.directory = _
      obtain ⟨hlt, rfl⟩ := List.getElem?_eq_some_iff.1 ho
      have hself := congrArg (List.map WrittenPage.offset) (set_getElem_self hlt)
      rw [map_set] at hself ⊢
      exact hs.offsets.trans hself.symm
    · intro q hq
      rcases mem_or_eq_of_mem_set hq with hq | rfl
      · exact hs.checked q hq
      · refine ⟨hchecks, fun n hn => ?_⟩
        cases hn
        exact hnext
    · intro q hq
      rcases mem_or_eq_of_mem_set hq with hq | rfl
      · exact hs.encoded q hq
      · exact hs.encoded p hmem
  | root _ hin ih =>
    obtain ⟨s, front', hs⟩ := ih
    have hin' := hs.front_length ▸ hin
    refine ⟨_, _, hs.refines.patchAt ?_, hs.holds.patchFront hin', ?_, hs.filter_eq, hs.offsets, hs.checked, hs.encoded⟩
    · obtain ⟨stored, -, hfile, -⟩ := hs.holds.ex
      rw [hfile, length_append]
      exact hin'.trans (Nat.le_add_right _ _)
    · rw [overwrite_length hin', hs.front_length]

/-- The limits hold of a page whatever its right sibling. -/
theorem Limits.Admit.setRight (h : limits.Admit filter page stored) (hp : pagePrefixLen ≤ page.length)
    (hs : pagePrefixLen ≤ stored.length) (right : Option Nat) :
    limits.Admit filter (DryDb.setRight page right) (DryDb.setRight stored right) := by
  refine ⟨?_, ?_, ?_⟩
  · rw [length_setRight hs]
    exact h.stored_le
  · rw [length_setRight hp]
    exact h.decoded_le
  · rw [length_setRight hp, (sameBody_setRight hs right).body]
    exact h.hint_le

/-- The stored form of a page with its last patch is within the limits its page was. -/
theorem WrittenPage.withinLimits {st : Bytes} (hp : pagePrefixLen ≤ p.bytes.length)
    (hst : PageSink.storedPage filter p.bytes = .ok st) (h : limits.Admit filter p.bytes st)
    (hs : PageSink.storedPage filter p.current = .ok stored) : limits.Admit filter p.current stored := by
  unfold current at hs ⊢
  cases hright : p.right with
  | none =>
    simp only [hright, hst, Except.ok.injEq] at hs
    exact hs ▸ h
  | some next =>
    simp only [hright, storedPage_setRight hp hst, Except.ok.injEq] at hs
    exact hs ▸ h.setRight hp (length_storedPage hp hst) (some next)

/-- A finished file as its store sees it. -/
theorem WritesHold.finished {front' file : Bytes} {f : FileSink} {pages : List WrittenPage}
    {base count : Nat} (h : WritesHold filter front f pages s front') (hheader : headerLen ≤ front.length)
    (hfinish : f.finishFile = .ok (base, count, file)) (hsmall : file.length < 2 ^ 63) (limits : Limits) :
    ∃ front'' stored, front''.length = front.length ∧
      List.Forall₂ (fun p st => PageSink.storedPage filter (WrittenPage.current p) = .ok st) pages stored ∧
      s.directory = pageOffsets front''.length stored ∧
      ({ source := file, directoryBase := base, pageCount := count, filter, limits } : PageStore).HoldsPages front'' stored := by
  obtain ⟨stored, hf, hfile, hd⟩ := h.holds.ex
  obtain ⟨⟨position, n, f'⟩, hdir, hfinish⟩ := bind_eq_ok.1 hfinish
  obtain ⟨hposition, hn, hrefines⟩ := h.refines.finishDirectory hdir
  obtain ⟨-, hfinish⟩ := guard_eq_ok.1 hfinish
  simp only [Except.ok.injEq, Prod.mk.injEq] at hfinish
  obtain ⟨rfl, rfl, rfl⟩ := hfinish
  have hpatch : pageCountFieldOffset + (leBytes 4 n ++ leBytes 8 position).length ≤ front'.length := by
    rw [h.front_length]
    simp only [length_append, leBytes_length]
    exact hheader
  generalize leBytes 4 n ++ leBytes 8 position = patch at hpatch hsmall ⊢
  have hflat : s.finishDirectory.2.2.file = front' ++ (stored.flatten ++ s.directory.flatMap (leBytes directorySlotLen)) := by
    show s.file ++ _ = _
    rw [hfile, append_assoc]
  have hinside : front'.length ≤ s.finishDirectory.2.2.file.length := by
    rw [hflat, length_append]
    exact Nat.le_add_right _ _
  have hsource : (f'.patchAt pageCountFieldOffset patch).flush.writer.file =
      overwrite front' pageCountFieldOffset patch ++ (stored.flatten ++ s.directory.flatMap (leBytes directorySlotLen)) := by
    rw [(hrefines.patchAt (hpatch.trans hinside)).flushed]
    show overwrite s.finishDirectory.2.2.file _ _ = _
    rw [hflat, overwrite_append_left hpatch]
  have hlength := overwrite_length hpatch
  refine ⟨overwrite front' pageCountFieldOffset patch, stored, ?_, ?_, ?_, ⟨?_, ?_, ?_, ?_, ?_, hsmall⟩⟩
  · rw [hlength, h.front_length]
  · rw [h.filter_eq] at hf
    exact forall₂_map_left_iff.1 hf
  · rw [hlength]
    exact hd
  · rw [hlength, ← hd, append_assoc]
    exact hsource
  · show position = _
    rw [hlength, ← hposition, ← length_append, ← hfile]
    rfl
  · show n = _
    rw [← hn, ← hf.length_eq]
    exact h.holds.length_directory
  · rw [hlength, h.front_length]
    exact hheader
  · intro st hst
    obtain ⟨page, hmem, hpage⟩ := exists_of_mem_left hf.flip hst
    exact length_storedPage (h.holds.prefixed page hmem) hpage

/-- For every run of writes, spill threshold, chunking of the directory and filter whose decoding
inverts its encoding: in the finished file slot `o` holds where page `o` was begun, a load gives
the bytes handed to the sink with the last right sibling patched in, and a page ends where the
next one begins. -/
theorem pages_load_back {threshold : Nat} {front file : Bytes} {f : FileSink} {pages : List WrittenPage}
    {base count : Nat} (hrun : WriteRun filter threshold front f pages) (hheader : headerLen ≤ front.length)
    (hfinish : f.finishFile = .ok (base, count, file)) (hsmall : file.length < 2 ^ 63) (hinv : ∀ g ∈ filter, g.Inverts)
    (limits : Limits) (hlimits : ∀ p ∈ pages, ∀ stored, PageSink.storedPage filter p.bytes = .ok stored →
      limits.Admit filter p.bytes stored) :
    let store : PageStore := { source := file, directoryBase := base, pageCount := count, filter, limits }
    count = pages.length ∧ ∀ o p, pages[o]? = some p →
      slice file (base + o * directorySlotLen) directorySlotLen = some (leBytes directorySlotLen p.offset) ∧
      (∀ cfg, (store.loadCached cfg o).Delivers store cfg fun r => r.1.ordinal = o ∧ r.1.bytes = p.current) ∧
      ∃ stored, PageSink.storedPage filter p.current = .ok stored ∧ slice file p.offset stored.length = some stored ∧
        (pages.map WrittenPage.offset ++ [base])[o + 1]? = some (p.offset + stored.length) := by
  intro store
  obtain ⟨s, front', h⟩ := hrun.holds
  obtain ⟨front'', stored, -, hf, hd, hstore⟩ := h.finished hheader hfinish hsmall limits
  have hlen : pages.length = stored.length := hf.length_eq
  refine ⟨hstore.count.trans hlen.symm, fun o p ho => ?_⟩
  obtain ⟨hlt, rfl⟩ := List.getElem?_eq_some_iff.1 ho
  have hlt' : o < stored.length := hlen ▸ hlt
  have hst : PageSink.storedPage filter pages[o].current = .ok stored[o] := (forall₂_iff_get.1 hf).2 o hlt hlt'
  have hget := getElem?_eq_getElem hlt'
  have hoffset : ∀ i (hi : i < pages.length), pages[i].offset = startOf front'' stored i := by
    intro i hi
    have := pageOffsets_getElem? front''.length (hlen ▸ hi)
    rw [← hd, h.offsets, getElem?_map, getElem?_eq_getElem hi, Option.map_some, Option.some.injEq] at this
    exact this
  have hmem := getElem_mem hlt
  obtain ⟨hchecks, hright⟩ := h.checked _ hmem
  obtain ⟨st, hencoded⟩ := h.encoded _ hmem
  have hwithin := WrittenPage.withinLimits hchecks.length_le.1 hencoded (hlimits _ hmem st hencoded) hst
  obtain ⟨pin, hload, hordinal, hbytes⟩ := hstore.load hget rfl hst hinv (hchecks.current hright) hwithin
  refine ⟨?_, fun cfg => ?_, stored[o], hst, ?_, ?_⟩
  · rw [hoffset o hlt]
    have := (hstore.slot hlt').slice_eq
    rwa [leBytes_length] at this
  · exact (PageStore.delivers_loadCached hstore.directoryInside hload).mono fun r hr => hr ▸ ⟨hordinal, hbytes⟩
  · rw [hoffset o hlt]
    exact (hstore.page hget).slice_eq
  · rw [hoffset o hlt, ← startOf_succ front'' hget]
    by_cases hnext : o + 1 < pages.length
    · rw [getElem?_append_left (by simpa using hnext), getElem?_map, getElem?_eq_getElem hnext,
        Option.map_some, hoffset _ hnext]
    · have hlast : o + 1 = pages.length := by omega
      rw [hlast, getElem?_append_right (by simp)]
      have hbase : base = front''.length + stored.flatten.length := hstore.base
      simp [hbase, startOf, hlen]

namespace TwoPages

/-- A filter whose stored form is one byte longer. -/
def marked : PageFilter where
  id := "marked"
  encode plain := .ok (1 :: plain)
  decode encoded := .ok encoded.tail

/-- A page without entries. -/
def emptyPage : Bytes := leBytes 4 28 ++ leBytes 4 0 ++ leBytes 4 0 ++ ordinalBytes none ++ ordinalBytes none

theorem emptyPage_passes : PassesChecks emptyPage := by
  refine ⟨⟨emptyPage, ⟨.leaf, ⟨false, false, false⟩, 0, none, none⟩, 28, 28⟩, ?_, ?_⟩
  · decide +kernel
  · decide +kernel

theorem marked_inverts : marked.Inverts := by
  intro plain encoded h
  cases h
  rfl

theorem emptyPage_admitted (stored : Bytes) (h : PageSink.storedPage (some marked) emptyPage = .ok stored) :
    ({} : Limits).Admit (some marked) emptyPage stored := by
  have hlen : stored.length = 29 := by
    cases h
    rfl
  refine ⟨hlen ▸ by decide, fun _ => by decide, fun f hf size hsize => ?_⟩
  cases hf
  cases hsize

end TwoPages

/-- Two pages through a filter, with the directory spilled: both come back, the first with the
right sibling patched into it. -/
theorem pages_load_back_two : ∃ f pages file, WriteRun (some TwoPages.marked) 8 (List.replicate 34 0) f pages ∧
    pages.map WrittenPage.current = [setRight TwoPages.emptyPage (some 1), TwoPages.emptyPage] ∧
    f.finishFile = .ok (92, 2, file) ∧ ∀ cfg,
      (PageStore.loadCached cfg ⟨file, 92, 2, some TwoPages.marked, {}⟩ 0).Delivers
        ⟨file, 92, 2, some TwoPages.marked, {}⟩ cfg fun r => r.1.ordinal = 0 ∧ r.1.bytes = setRight TwoPages.emptyPage (some 1) := by
  have hstart : WriteRun (some TwoPages.marked) 8 (List.replicate 34 0) _ _ := .start
  have hpages := (hstart.page rfl rfl TwoPages.emptyPage_passes).page rfl rfl TwoPages.emptyPage_passes
  have hlinked := hpages.right (o := 0) rfl (show 1 < 2 ^ 63 by decide)
  have hrun := hlinked.root (show 26 + (leBytes 8 1).length ≤ 34 by decide)
  refine ⟨_, _, _, hrun, rfl, rfl, fun cfg => ?_⟩
  have hback := (pages_load_back hrun (by decide) rfl ?_ ?_ {} ?_).2 0 _ rfl
  · exact hback.2.1 cfg
  · decide +kernel
  · intro g hg
    cases hg
    exact TwoPages.marked_inverts
  · intro p hp
    have hbytes : p.bytes ∈ [TwoPages.emptyPage, TwoPages.emptyPage] := mem_map_of_mem hp
    have hsame : p.bytes = TwoPages.emptyPage := by simpa using hbytes
    rw [hsame]
    exact TwoPages.emptyPage_admitted

end DryDb
