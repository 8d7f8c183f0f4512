import DryDb.Model.Directory
/-!
# What the directory cache answers

Every cached chunk is a piece of the directory section of the file, so a slot read through a
chunk is the slot read directly. A load that goes through the cached chunks therefore comes to
the page a direct load comes to, if it comes to one at all.
-/

namespace DryDb

open Program List

/-! ## The list of chunks -/

/-- Removing by swapping leaves the other elements, each once. -/
theorem swapRemove_perm {α : Type} {xs : List α} (h : xs ≠ []) (i : Nat) :
    ∃ ys, ys.Sublist xs ∧ (swapRemove xs i).Perm ys ∧ ys.length + 1 = xs.length := by
  obtain ⟨init, last, rfl⟩ := eq_nil_or_concat xs |>.resolve_left h
  rw [concat_eq_append]
  have hlast : (init ++ [last]).getLast? = some last := by simp
  simp only [swapRemove, hlast]
  by_cases hi : i < init.length
  · rw [set_append_left _ _ hi, dropLast_concat]
    refine ⟨init.eraseIdx i ++ [last], (eraseIdx_sublist init i).append (List.Sublist.refl _), ?_, ?_⟩
    · exact (set_perm_cons_eraseIdx hi last).trans (perm_append_singleton last _).symm
    · rw [length_append, length_append, length_eraseIdx_of_lt hi]
      simp only [length_cons, length_nil]
      omega
  · refine ⟨init, sublist_append_left init [last], ?_, by simp⟩
    rw [set_append_right _ _ (by omega)]
    cases hk : i - init.length with
    | zero => simp
    | succ k => simp

section Chunks
variable {chunks : List CachedChunk}

theorem evictChunk_perm (chunks : List CachedChunk) :
    ∃ ys, ys.Sublist chunks ∧ (evictChunk chunks).Perm ys ∧ (oldest chunks ≠ none → ys.length + 1 = chunks.length) := by
  unfold evictChunk
  cases hold : oldest chunks with
  | none => exact ⟨chunks, List.Sublist.refl _, List.Perm.refl _, fun h => absurd rfl h⟩
  | some pos =>
    have hne : chunks ≠ [] := by
      rintro rfl
      cases hold
    obtain ⟨ys, hsub, hperm, hlen⟩ := swapRemove_perm hne pos
    exact ⟨ys, hsub, hperm, fun _ => hlen⟩

theorem oldestFrom_isSome {chunks : List CachedChunk} {i : Nat} {best : Option (Nat × Nat)}
    (h : chunks ≠ [] ∨ best ≠ none) : oldestFrom chunks i best ≠ none := by
  induction chunks generalizing i best with
  | nil =>
    cases best with
    | none => simp at h
    | some b => simp [oldestFrom]
  | cons c cs ih =>
    cases best with
    | none => exact ih (.inr (by simp))
    | some b => exact ih (.inr (by simp))

theorem touchChunk_map {β : Type} (f : CachedChunk → β) (hf : ∀ c used, f { c with lastUsed := used } = f c)
    (tick chunkIndex : Nat) (chunks : List CachedChunk) : (touchChunk tick chunkIndex chunks).map f = chunks.map f := by
  induction chunks with
  | nil => rfl
  | cons c cs ih =>
    unfold touchChunk
    split
    · rw [map_cons, map_cons, hf]
    · rw [map_cons, map_cons, ih]

end Chunks

/-! ## Chunks of the file -/

section
variable {store : PageStore} {cfg : DirectoryConfig}

/-- The chunk is what the file holds there. -/
def PageStore.ChunkOk (store : PageStore) (cfg : DirectoryConfig) (c : CachedChunk) : Prop :=
  readExactAt store.source (store.directoryBase + c.index * cfg.entriesPerChunk * directorySlotLen)
    (min (store.pageCount - c.index * cfg.entriesPerChunk) cfg.entriesPerChunk * directorySlotLen) = .ok c.data

/-- The cached chunks: pieces of the file, no two of one index, no more than configured. -/
structure PageStore.ChunksOk (store : PageStore) (cfg : DirectoryConfig) (chunks : List CachedChunk) : Prop where
  data : ∀ c ∈ chunks, store.ChunkOk cfg c
  once : (chunks.map (·.index)).Nodup
  bounded : chunks.length ≤ cfg.maxChunks

variable {chunks : List CachedChunk} {chunk : CachedChunk} {offset : Nat}

theorem PageStore.ChunksOk.empty : store.ChunksOk cfg [] := ⟨by simp, nodup_nil, Nat.zero_le _⟩

theorem PageStore.ChunksOk.perm {ys zs : List CachedChunk} (h : store.ChunksOk cfg chunks) (hsub : ys.Sublist chunks)
    (hperm : zs.Perm ys) : store.ChunksOk cfg zs where
  data c hc := h.data c (hsub.subset (hperm.subset hc))
  once := (hperm.map _).nodup_iff.2 (h.once.sublist (hsub.map _))
  bounded := hperm.length_eq ▸ hsub.length_le.trans h.bounded

theorem PageStore.ChunksOk.evict (h : store.ChunksOk cfg chunks) : store.ChunksOk cfg (evictChunk chunks) := by
  obtain ⟨ys, hsub, hperm, -⟩ := evictChunk_perm chunks
  exact h.perm hsub hperm

theorem PageStore.ChunksOk.touch (h : store.ChunksOk cfg chunks) (tick chunkIndex : Nat) :
    store.ChunksOk cfg (touchChunk tick chunkIndex chunks) where
  data c hc := by
    have hsame := touchChunk_map (fun c => (c.index, c.data)) (fun _ _ => rfl) tick chunkIndex chunks
    have hmem : (c.index, c.data) ∈ chunks.map fun c => (c.index, c.data) := by
      rw [← hsame]
      exact mem_map_of_mem hc
    obtain ⟨c', hc', heq⟩ := mem_map.1 hmem
    have hok := h.data c' hc'
    obtain ⟨hindex, hdata⟩ := Prod.mk.inj heq
    rw [PageStore.ChunkOk, hindex, hdata] at hok
    exact hok
  once := (touchChunk_map (·.index) (fun _ _ => rfl) tick chunkIndex chunks).symm ▸ h.once
  bounded := by
    have := congrArg List.length (touchChunk_map (·.index) (fun _ _ => rfl) tick chunkIndex chunks)
    rw [length_map, length_map] at this
    exact this ▸ h.bounded

/-- A chunk of a new index at the end. -/
theorem PageStore.ChunksOk.push (h : store.ChunksOk cfg chunks) (hc : store.ChunkOk cfg chunk)
    (hnew : ∀ c ∈ chunks, c.index ≠ chunk.index) (hroom : chunks.length < cfg.maxChunks) :
    store.ChunksOk cfg (chunks ++ [chunk]) where
  data c hmem := by
    rcases mem_append.1 hmem with hmem | hmem
    · exact h.data c hmem
    · exact mem_singleton.1 hmem ▸ hc
  once := by
    rw [map_append, nodup_append]
    refine ⟨h.once, nodup_singleton _, fun i hi j hj => ?_⟩
    obtain ⟨c, hmem, rfl⟩ := mem_map.1 hi
    rw [mem_singleton.1 hj]
    exact hnew c hmem
  bounded := by
    rw [length_append]
    exact hroom

theorem PageStore.ChunksOk.insert (h : store.ChunksOk cfg chunks) (hc : store.ChunkOk cfg chunk) :
    store.ChunksOk cfg (insertChunk cfg chunks chunk) := by
  unfold insertChunk
  by_cases hany : chunks.any (·.index == chunk.index) = true
  · rw [if_pos hany]
    exact h
  · have hnew : ∀ c ∈ chunks, c.index ≠ chunk.index := by simpa using hany
    rw [if_neg hany]
    by_cases hfull : cfg.maxChunks ≤ chunks.length
    · -- The cache is full, so the eviction makes room for exactly one.
      rw [if_pos hfull]
      have hpos := cfg.chunks_pos
      have hne : chunks ≠ [] := by
        rintro rfl
        simp only [length_nil] at hfull
        omega
      obtain ⟨ys, hsub, hperm, hlen⟩ := evictChunk_perm chunks
      have hlen := hlen (oldestFrom_isSome (.inl hne))
      have hbounded := h.bounded
      refine h.evict.push hc (fun c hmem => hnew c (hsub.subset (hperm.subset hmem))) ?_
      rw [hperm.length_eq]
      omega
    · rw [if_neg hfull]
      exact h.push hc hnew (Nat.not_le.1 hfull)

/-! ## Slots -/

theorem readExactAt_eq_ok {source bytes : Bytes} {len : Nat} :
    readExactAt source offset len = .ok bytes ↔ slice source offset len = some bytes := by
  unfold readExactAt
  cases slice source offset len <;> simp

/-- A slot read through its chunk is the slot read directly. -/
theorem PageStore.ChunkOk.slot {c : CachedChunk} {o : Nat} {raw : Int} (h : store.ChunkOk cfg c)
    (hindex : c.index = o / cfg.entriesPerChunk)
    (hraw : readI64 c.data (o % cfg.entriesPerChunk * directorySlotLen) = .ok raw) :
    ∃ slot, readExactAt store.source (store.directoryBase + o * directorySlotLen) directorySlotLen = .ok slot ∧
      readI64 slot 0 = .ok raw := by
  obtain ⟨n, hn, rfl⟩ := map_eq_ok.1 hraw
  obtain ⟨slot, hslot, rfl⟩ := readLe_eq_ok.1 hn
  have hlen := slice_length hslot
  have hchunk := readExactAt_eq_ok.1 h
  rw [← slice_length hchunk] at hchunk
  rw [← hlen] at hslot
  have hpiece := (pieceAt_iff_slice.2 hchunk).trans (pieceAt_iff_slice.2 hslot)
  have hoffset : store.directoryBase + c.index * cfg.entriesPerChunk * directorySlotLen +
      o % cfg.entriesPerChunk * directorySlotLen = store.directoryBase + o * directorySlotLen := by
    rw [hindex, Nat.add_assoc, ← Nat.add_mul, Nat.div_add_mod' o cfg.entriesPerChunk]
  rw [hoffset] at hpiece
  refine ⟨slot, readExactAt_eq_ok.2 ?_, ?_⟩
  · have := hpiece.slice_eq
    rwa [hlen] at this
  · refine map_eq_ok.2 ⟨ofLe slot, readLe_of_slice ?_, rfl⟩
    have := (PieceAt.refl slot).slice_eq
    rwa [hlen] at this

/-- The offset of a page is its slot, checked. -/
theorem PageStore.offsetOf_of_slot {o : Nat} {slot : Bytes} {raw : Int} (ho : o < store.pageCount)
    (hslot : readExactAt store.source (store.directoryBase + o * directorySlotLen) directorySlotLen = .ok slot)
    (hraw : readI64 slot 0 = .ok raw) (hvalid : store.validateOffset raw o = .ok offset) :
    store.offsetOf o = .ok offset := by
  unfold PageStore.offsetOf
  simp only [if_neg (Nat.not_le.2 ho), hslot, hraw, ok_bind]
  exact hvalid

/-! ## Loads through the chunks -/

/-- What a load owes the others: the chunks it keeps are pieces of the file. -/
def StoreOp.Owed (store : PageStore) (cfg : DirectoryConfig) : StoreOp → Prop
  | .insert chunk => store.ChunkOk cfg chunk
  | _ => True

/-- What a load may rely on: slots come from such chunks, and reads from the file. -/
def StoreOp.Granted (store : PageStore) (cfg : DirectoryConfig) : (op : StoreOp) → op.Answer → Prop
  | .lookup chunkIndex slot, r => ∀ raw, r = .ok (some raw) →
    ∃ c, store.ChunkOk cfg c ∧ c.index = chunkIndex ∧ readI64 c.data slot = .ok raw
  | .read offset len, r => ∀ bytes, r = .ok bytes → readExactAt store.source offset len = .ok bytes
  | _, _ => True

/-- A load's code, whatever the others do meanwhile. -/
abbrev Shared.Upholds {α : Type} (store : PageStore) (cfg : DirectoryConfig) (P : α → Prop) (p : Shared α) : Prop :=
  Program.Upholds (StoreOp.Owed store cfg) (StoreOp.Granted store cfg) P p

namespace PageStore

theorem upholds_lookup (chunkIndex slot : Nat) :
    (Shared.lookup chunkIndex slot).Upholds store cfg fun found => ∀ raw, found = some raw →
      ∃ c, store.ChunkOk cfg c ∧ c.index = chunkIndex ∧ readI64 c.data slot = .ok raw :=
  (upholds_question (StoreOp.lookup chunkIndex slot) trivial).bind fun r hr =>
    (upholds_lift r).mono fun _ hfound raw hraw => hr raw (hraw ▸ hfound)

theorem upholds_read (offset len : Nat) :
    (Shared.read offset len).Upholds store cfg fun bytes => readExactAt store.source offset len = .ok bytes :=
  (upholds_question (StoreOp.read offset len) trivial).bind fun r hr => (upholds_lift r).mono fun bytes hb => hr bytes hb

theorem upholds_reserve (bytes : Nat) : (Shared.reserve bytes).Upholds store cfg fun _ => True :=
  (upholds_question (StoreOp.reserve bytes) trivial).bind fun r _ => (upholds_lift r).mono fun _ _ => trivial

theorem upholds_reserveWorking : Shared.reserveWorking.Upholds store cfg fun _ => True :=
  (upholds_question StoreOp.reserveWorking trivial).bind fun r _ => (upholds_lift r).mono fun _ _ => trivial

theorem upholds_readChunk (chunkIndex : Nat) :
    (store.readChunk cfg chunkIndex).Upholds store cfg fun c => store.ChunkOk cfg c ∧ c.index = chunkIndex := by
  unfold readChunk
  refine (upholds_lift _).bind fun first hfirst => (upholds_lift _).bind fun len hlen => ?_
  refine (upholds_lift _).bind fun offset hoffset => (upholds_reserve _).bind fun _ _ => ?_
  refine (upholds_read offset len).bind fun data hdata => ?_
  refine (upholds_question StoreOp.tick trivial).bind fun used _ => ⟨?_, rfl⟩
  -- The checked products and sums are the plain ones wherever the code went on.
  have hmul : ∀ {a b n : Nat}, checkedMul a b = some n → n = a * b := by
    intro a b n h
    unfold checkedMul at h
    split at h <;> simp_all
  have hadd : ∀ {a b n : Nat}, checkedAdd a b = some n → n = a + b := by
    intro a b n h
    unfold checkedAdd at h
    split at h <;> simp_all
  have hfirst := hmul (okOr_eq_ok.1 hfirst)
  have hlen := hmul (okOr_eq_ok.1 hlen)
  have hoffset := hadd (okOr_eq_ok.1 hoffset)
  subst hfirst hlen hoffset
  exact hdata

theorem upholds_offsetOfCached (o : Nat) :
    (store.offsetOfCached cfg o).Upholds store cfg fun offset => store.offsetOf o = .ok offset := by
  unfold offsetOfCached
  refine Upholds.ite (fun _ => (upholds_lift _).mono fun _ h => by cases h) fun hlt => ?_
  have ho : o < store.pageCount := Nat.not_le.1 hlt
  refine (upholds_lookup _ _).bind fun found hfound => ?_
  cases found with
  | some raw =>
    obtain ⟨c, hc, hindex, hraw⟩ := hfound raw rfl
    obtain ⟨slot, hslot, hslotRaw⟩ := hc.slot hindex hraw
    exact (upholds_lift _).mono fun offset hvalid => offsetOf_of_slot ho hslot hslotRaw hvalid
  | none =>
    unfold offsetThroughChunk
    refine (upholds_readChunk _).bind fun c hc => (upholds_lift _).bind fun raw hraw => ?_
    refine (upholds_question (StoreOp.insert c) hc.1).bind fun _ _ => ?_
    obtain ⟨slot, hslot, hslotRaw⟩ := hc.1.slot hc.2 hraw
    exact (upholds_lift _).mono fun offset hvalid => offsetOf_of_slot ho hslot hslotRaw hvalid

theorem upholds_pageLimitCached (o offset : Nat) :
    (store.pageLimitCached cfg o offset).Upholds store cfg fun limit => store.pageLimit o offset = .ok limit := by
  unfold pageLimitCached pageLimit
  refine Upholds.ite (fun hlast => ?_) fun hmore => ?_
  · rw [if_pos hlast]
    exact rfl
  · refine (upholds_offsetOfCached (o + 1)).bind fun next hnext => ?_
    rw [if_neg hmore, hnext]
    exact rfl

theorem upholds_decodedCached (stored : Bytes) :
    (store.decodedCached stored).Upholds store cfg fun data => store.decoded stored = .ok data := by
  unfold decodedCached decoded
  cases store.filter with
  | none => exact rfl
  | some filter =>
    refine (upholds_lift _).bind fun _ _ => (upholds_reserve _).bind fun _ _ => upholds_reserveWorking.bind fun _ _ => ?_
    refine (upholds_lift _).bind fun page hpage => (upholds_reserve _).bind fun _ _ => ?_
    exact hpage

/-- A load through the cached chunks comes to the page a direct load comes to. -/
theorem upholds_loadCached (o : Nat) :
    (store.loadCached cfg o).Upholds store cfg fun r => store.load o = .ok r.1 := by
  unfold loadCached
  refine (upholds_offsetOfCached o).bind fun offset hoffset => ?_
  refine (upholds_read _ _).bind fun lengthBytes hlength => (upholds_lift _).bind fun word hword => ?_
  refine (upholds_lift _).bind fun storedLen hstored => ?_
  refine Upholds.ite (fun _ => (upholds_lift _).mono fun _ h => by cases h) fun hprefix => ?_
  refine Upholds.ite (fun _ => (upholds_lift _).mono fun _ h => by cases h) fun hlimit => ?_
  refine (upholds_lift _).bind fun stop hstop => (upholds_pageLimitCached o offset).bind fun boundary hboundary => ?_
  refine Upholds.ite (fun _ => (upholds_lift _).mono fun _ h => by cases h) fun hfits => ?_
  refine (upholds_reserve _).bind fun _ _ => (upholds_read _ _).bind fun stored hread => ?_
  refine (upholds_decodedCached stored).bind fun data hdata => (upholds_lift _).bind fun pin hpin => ?_
  change store.load o = .ok pin
  unfold load
  simp only [hoffset, hlength, hword, hstored, if_neg hprefix, if_neg hlimit, hstop, hboundary, if_neg hfits, hread,
    hdata, hpin, ok_bind]

end PageStore

end

end DryDb
