import DryDb.Memory.Directory
/-!
# A load that is answered returns

The other half of `Memory.Directory`: where a direct load comes to a page, so does a load through
the cached chunks, whichever chunks are cached, as long as the file can be read and nothing it
reserves is refused.
-/

namespace DryDb

open Program

variable {store : PageStore} {cfg : DirectoryConfig}

/-- The whole directory section is in the file. -/
structure PageStore.DirectoryInside (store : PageStore) : Prop where
  inside : store.directoryBase + store.pageCount * directorySlotLen ≤ store.source.length
  small : store.source.length < usizeLimit

/-- Answers without a refusal: lookups from chunks of the file, reads from the file. -/
def StoreOp.Answered (store : PageStore) (cfg : DirectoryConfig) : (op : StoreOp) → op.Answer → Prop
  | .lookup chunkIndex slot, r => ∃ chunks, store.ChunksOk cfg chunks ∧ r = lookupChunk chunks chunkIndex slot
  | .read offset len, r => r = readExactAt store.source offset len
  | .reserve _, r => r = .ok ()
  | .reserveWorking, r => r = .ok ()
  | .tick, _ => True
  | .insert _, _ => True

/-- The load returns, and what it returns meets `P`. -/
abbrev Shared.Delivers {α : Type} (store : PageStore) (cfg : DirectoryConfig) (P : α → Prop) (p : Shared α) : Prop :=
  Program.Delivers (StoreOp.Answered store cfg) P p

namespace PageStore

variable {offset o : Nat}

theorem delivers_read {len : Nat} {bytes : Bytes} (h : readExactAt store.source offset len = .ok bytes) :
    (Shared.read offset len).Delivers store cfg fun b => b = bytes :=
  (delivers_question (StoreOp.read offset len)).bind fun _ hr => delivers_lift (hr.trans h)

theorem delivers_reserve (bytes : Nat) : (Shared.reserve bytes).Delivers store cfg fun _ => True :=
  (delivers_question (StoreOp.reserve bytes)).bind fun r hr => by
    rw [show r = .ok () from hr]
    trivial

theorem delivers_reserveWorking : Shared.reserveWorking.Delivers store cfg fun _ => True :=
  (delivers_question StoreOp.reserveWorking).bind fun r hr => by
    rw [show r = .ok () from hr]
    trivial

/-! ## Chunks -/

/-- The slot of a page lies in the chunk of its ordinal. -/
theorem ChunkOk.readI64_slot {c : CachedChunk} (h : store.ChunkOk cfg c) (ho : o < store.pageCount)
    (hindex : c.index = o / cfg.entriesPerChunk) :
    ∃ raw, readI64 c.data (o % cfg.entriesPerChunk * directorySlotLen) = .ok raw := by
  have hlen := slice_length (readExactAt_eq_ok.1 h)
  have hpos := cfg.entries_pos
  have hmod := Nat.mod_lt o hpos
  have hdiv := Nat.div_add_mod' o cfg.entriesPerChunk
  rw [hindex] at hlen
  have hin : o % cfg.entriesPerChunk + 1 ≤
      min (store.pageCount - o / cfg.entriesPerChunk * cfg.entriesPerChunk) cfg.entriesPerChunk := by
    omega
  have hslot : o % cfg.entriesPerChunk * directorySlotLen + 8 ≤ c.data.length := by
    rw [hlen]
    simp only [directorySlotLen]
    omega
  exact ⟨_, by rw [readI64, readLe_of_slice (slice_of_le hslot), map_ok]⟩

/-- The slot of a page as a direct read finds it. -/
def Slot (store : PageStore) (o : Nat) (raw : Int) : Prop :=
  ∃ slot, readExactAt store.source (store.directoryBase + o * directorySlotLen) directorySlotLen = .ok slot ∧
    readI64 slot 0 = .ok raw

theorem Slot.unique {raw raw' : Int} (h : store.Slot o raw) (h' : store.Slot o raw') : raw = raw' := by
  obtain ⟨slot, hslot, hraw⟩ := h
  obtain ⟨slot', hslot', hraw'⟩ := h'
  rw [hslot, Except.ok.injEq] at hslot'
  subst hslot'
  rw [hraw, Except.ok.injEq] at hraw'
  exact hraw'

theorem slot_of_offsetOf (h : store.offsetOf o = .ok offset) :
    o < store.pageCount ∧ ∃ raw, store.Slot o raw ∧ store.validateOffset raw o = .ok offset := by
  unfold offsetOf at h
  simp only [guard_eq_ok] at h
  obtain ⟨ho, h⟩ := h
  obtain ⟨slot, hslot, h⟩ := bind_eq_ok.1 h
  obtain ⟨raw, hraw, h⟩ := bind_eq_ok.1 h
  exact ⟨Nat.not_le.1 ho, raw, ⟨slot, hslot, hraw⟩, h⟩

/-- A cached chunk answers with the slot, or no chunk does. -/
theorem ChunksOk.lookup {chunks : List CachedChunk} (h : store.ChunksOk cfg chunks) {raw : Int}
    (ho : o < store.pageCount) (hraw : store.Slot o raw) :
    lookupChunk chunks (o / cfg.entriesPerChunk) (o % cfg.entriesPerChunk * directorySlotLen) = .ok none ∨
      lookupChunk chunks (o / cfg.entriesPerChunk) (o % cfg.entriesPerChunk * directorySlotLen) = .ok (some raw) := by
  unfold lookupChunk
  cases hfind : chunks.find? (·.index == o / cfg.entriesPerChunk) with
  | none => exact .inl rfl
  | some c =>
    have hc := h.data c (List.mem_of_find?_eq_some hfind)
    have hindex : c.index = o / cfg.entriesPerChunk := by simpa using List.find?_some hfind
    obtain ⟨raw', hraw'⟩ := hc.readI64_slot ho hindex
    have hsame := hraw.unique (hc.slot hindex hraw')
    refine .inr ?_
    show some <$> readI64 c.data _ = _
    rw [hraw', map_ok, hsame]

theorem delivers_readChunk (hd : store.DirectoryInside) (ho : o < store.pageCount) :
    (store.readChunk cfg (o / cfg.entriesPerChunk)).Delivers store cfg fun c =>
      store.ChunkOk cfg c ∧ c.index = o / cfg.entriesPerChunk := by
  have hinside := hd.inside
  have hsmall := hd.small
  have hfirst := Nat.div_mul_le_self o cfg.entriesPerChunk
  simp only [directorySlotLen] at hinside
  unfold readChunk
  have hmul : checkedMul (o / cfg.entriesPerChunk) cfg.entriesPerChunk =
      some (o / cfg.entriesPerChunk * cfg.entriesPerChunk) := if_pos (by omega)
  rw [hmul, okOr_some]
  refine (delivers_lift rfl).bind fun first hf => ?_
  subst hf
  generalize hfirstEq : o / cfg.entriesPerChunk * cfg.entriesPerChunk = first at hfirst ⊢
  simp only
  have hentries : first + min (store.pageCount - first) cfg.entriesPerChunk ≤ store.pageCount := by omega
  have hlen : checkedMul (min (store.pageCount - first) cfg.entriesPerChunk) directorySlotLen =
      some (min (store.pageCount - first) cfg.entriesPerChunk * directorySlotLen) :=
    if_pos (by simp only [directorySlotLen]; omega)
  have hadd : checkedAdd store.directoryBase (first * directorySlotLen) =
      some (store.directoryBase + first * directorySlotLen) := if_pos (by simp only [directorySlotLen]; omega)
  rw [hlen, hadd, okOr_some, okOr_some]
  refine (delivers_lift rfl).bind fun len hl => (delivers_lift rfl).bind fun offset hoff => ?_
  subst hl hoff
  refine (delivers_reserve _).bind fun _ _ => ?_
  have hread : readExactAt store.source (store.directoryBase + first * directorySlotLen)
      (min (store.pageCount - first) cfg.entriesPerChunk * directorySlotLen) = .ok _ :=
    readExactAt_eq_ok.2 (slice_of_le (by simp only [directorySlotLen]; omega))
  refine (delivers_read hread).bind fun data hdata => ?_
  subst hdata
  refine (delivers_question StoreOp.tick).bind fun used _ => ⟨?_, rfl⟩
  unfold ChunkOk
  simp only [hfirstEq]
  exact hread

/-! ## Pages -/

theorem delivers_offsetOfCached (hd : store.DirectoryInside) (h : store.offsetOf o = .ok offset) :
    (store.offsetOfCached cfg o).Delivers store cfg fun n => n = offset := by
  obtain ⟨ho, raw, hraw, hvalid⟩ := slot_of_offsetOf h
  unfold offsetOfCached
  simp only [if_neg (Nat.not_le.2 ho)]
  refine (show (Shared.lookup (o / cfg.entriesPerChunk) (o % cfg.entriesPerChunk * directorySlotLen)).Delivers store cfg
    fun found => found = none ∨ found = some raw from ?_).bind fun found hfound => ?_
  · refine (delivers_question (StoreOp.lookup _ _)).bind fun r hr => ?_
    obtain ⟨chunks, hchunks, rfl⟩ := hr
    rcases hchunks.lookup ho hraw with hnone | hsome
    · rw [hnone]
      exact .inl rfl
    · rw [hsome]
      exact .inr rfl
  · rcases hfound with rfl | rfl
    · unfold offsetThroughChunk
      refine (delivers_readChunk hd ho).bind fun c hc => ?_
      obtain ⟨raw', hraw'⟩ := hc.1.readI64_slot ho hc.2
      have hsame := hraw.unique (hc.1.slot hc.2 hraw')
      refine (delivers_lift hraw').bind fun n hn => (delivers_question (StoreOp.insert c)).bind fun _ _ => ?_
      subst hn hsame
      exact delivers_lift hvalid
    · exact delivers_lift hvalid

theorem delivers_pageLimitCached (hd : store.DirectoryInside) {limit : Nat} (h : store.pageLimit o offset = .ok limit) :
    (store.pageLimitCached cfg o offset).Delivers store cfg fun n => n = limit := by
  unfold pageLimit at h
  unfold pageLimitCached
  by_cases hlast : store.pageCount ≤ o + 1
  · rw [if_pos hlast, Except.ok.injEq] at h
    rw [if_pos hlast]
    exact h
  · rw [if_neg hlast] at h ⊢
    obtain ⟨next, hnext, h⟩ := bind_eq_ok.1 h
    refine (delivers_offsetOfCached hd hnext).bind fun n hn => ?_
    subst hn
    rw [Except.ok.injEq] at h
    exact h

theorem delivers_decodedCached {stored data : Bytes} (h : store.decoded stored = .ok data) :
    (store.decodedCached stored).Delivers store cfg fun d => d = data := by
  unfold decoded at h
  unfold decodedCached
  cases hf : store.filter with
  | none =>
    simp only [hf, Except.ok.injEq] at h
    exact h
  | some filter =>
    simp only [hf] at h
    obtain ⟨capacity, hcapacity, -⟩ := bind_eq_ok.1 h
    refine (delivers_lift hcapacity).bind fun _ _ => (delivers_reserve _).bind fun _ _ => ?_
    refine delivers_reserveWorking.bind fun _ _ => (delivers_lift h).bind fun page hpage => ?_
    exact (delivers_reserve _).bind fun _ _ => hpage

/-- Where a direct load comes to a page, a load through the cached chunks comes to it too. -/
theorem delivers_loadCached (hd : store.DirectoryInside) {pin : PagePin} (h : store.load o = .ok pin) :
    (store.loadCached cfg o).Delivers store cfg fun r => r.1 = pin := by
  unfold load at h
  obtain ⟨offset, hoffset, h⟩ := bind_eq_ok.1 h
  obtain ⟨lengthBytes, hlength, h⟩ := bind_eq_ok.1 h
  obtain ⟨word, hword, h⟩ := bind_eq_ok.1 h
  obtain ⟨storedLen, hstored, h⟩ := bind_eq_ok.1 h
  simp only [guard_eq_ok] at h
  obtain ⟨hlead, hlimit, h⟩ := h
  obtain ⟨stop, hstop, h⟩ := bind_eq_ok.1 h
  obtain ⟨boundary, hboundary, h⟩ := bind_eq_ok.1 h
  rw [guard_eq_ok] at h
  obtain ⟨hfits, h⟩ := h
  obtain ⟨stored, hread, h⟩ := bind_eq_ok.1 h
  obtain ⟨data, hdata, hpin⟩ := bind_eq_ok.1 h
  unfold loadCached
  refine (delivers_offsetOfCached hd hoffset).bind fun n hn => ?_
  subst hn
  refine (delivers_read hlength).bind fun b hb => ?_
  subst hb
  refine (delivers_lift hword).bind fun w hw => ?_
  subst hw
  refine (delivers_lift hstored).bind fun len hl => ?_
  subst hl
  simp only [if_neg hlead, if_neg hlimit]
  refine (delivers_lift hstop).bind fun e he => (delivers_pageLimitCached hd hboundary).bind fun l hl => ?_
  subst he hl
  simp only [if_neg hfits]
  refine (delivers_reserve _).bind fun _ _ => (delivers_read hread).bind fun s hs => ?_
  subst hs
  refine (delivers_decodedCached hdata).bind fun d hd' => ?_
  subst hd'
  exact (delivers_lift hpin).bind fun p hp => hp

end PageStore

end DryDb
