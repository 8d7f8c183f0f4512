import DryDb.Writer.Levels
/-!
# Rotating a level

`rotate` writes the open page of a level and hands its separator to the level above,
which is rotated first when it is full. `rotate_rotates` proves by induction on the room
above a level that this keeps the invariant of all levels, and that the level limit is
out of reach when every key passed `checkKeyFits`: a full internal page then holds two
separators, so every level has at most half the pages of the level below.
-/

namespace DryDb

open List TreeWriter

variable {E σ : Type} {cfg : WriterConfig E} {fits : Prop} {full : Nat → Prop} {values : List Bytes}
  {onValueRef : σ → E → PageRef → Result σ} {front : Bytes} {l : Level E} {es items : List Item} {w : Nat × List Item}
  {k room : Nat} {kind : NodeKind} {ws below : Written} {out : Output σ} {pages : List Bytes} {tag : Nat → Option Nat}
  {s : PageSink} {rotateParent : TreeWriter.Rotation E σ}

/-! ## Sizes -/

theorem completeSize_zero : completeSize 0 = 0 := rfl

theorem payloadStart_zero_le (layout : NodeLayout) (kind : NodeKind) : layout.payloadStart kind 0 ≤ minPageSize := by
  unfold NodeLayout.payloadStart NodeLayout.digestArea NodeLayout.digestSlots minPageSize
  rw [completeSize_zero]
  rcases layout with ⟨e, c, o⟩
  cases kind <;> cases e <;> cases c <;> cases o <;> decide

/-- An empty page always fits. -/
theorem len_nil_le (hmin : minPageSize ≤ cfg.pageSize) (kind : NodeKind) :
    Node.len { kind, layout := cfg.layout, items := [] } ≤ cfg.pageSize := by
  have := payloadStart_zero_le cfg.layout kind
  simp [Node.len, Node.base, Node.payload]
  omega

theorem payloadStart_internal_le (layout : NodeLayout) :
    layout.payloadStart .internal 1 ≤ layout.payloadStart .leaf 1 := by
  unfold NodeLayout.payloadStart NodeLayout.metaArea NodeLayout.internalMeta NodeLayout.leafMeta
  rcases layout with ⟨e, c, o⟩
  cases c <;> cases o <;> simp

theorem length_separator_chunk (layout : NodeLayout) (w : Nat × List Item) :
    ((separatorOf w).chunk layout).length = layout.storedKeyLen (separatorOf w).key.length + 8 := by
  simp [Item.chunk, separatorOf, Body.bytes, ordinalBytes]

/-- What `internalNeeds` computes is the page with the separator on it. -/
theorem internalNeeds_eq (h : l.Holds cfg.layout es) (w : Nat × List Item) :
    internalNeeds cfg l (cfg.layout.storedKeyLen (separatorOf w).key.length) =
      Node.len { kind := .internal, layout := cfg.layout, items := es ++ [separatorOf w] } := by
  have hc := length_separator_chunk cfg.layout w
  simp only [internalNeeds, Node.len, Node.base, Node.payload, Level.entryCount, h.sizes, h.payload,
    length_append, length_map, length_singleton, flatMap_append, flatMap_singleton, hc]
  omega

/-- One separator fits on an empty page. -/
theorem len_single_le {it : Item} (hk : KeyOk cfg fits it) (hw : (separatorOf w).key = it.key) :
    Node.len { kind := .internal, layout := cfg.layout, items := [separatorOf w] } ≤ cfg.pageSize := by
  have hc := length_separator_chunk cfg.layout w
  have hm := hk.minimum
  have hp := payloadStart_internal_le cfg.layout
  rw [hw] at hc
  simp only [Node.len, Node.base, Node.payload, length_singleton, flatMap_singleton, hc]
  omega

/-- Two separators fit on one page, whatever their lengths. -/
theorem len_pair_le (hf : fits) {a b : Item} {v : Nat × List Item} (ha : KeyOk cfg fits a) (hb : KeyOk cfg fits b)
    (hv : (separatorOf v).key = a.key) (hw : (separatorOf w).key = b.key) :
    Node.len { kind := .internal, layout := cfg.layout, items := [separatorOf v, separatorOf w] } ≤ cfg.pageSize := by
  have hcv := length_separator_chunk cfg.layout v
  have hcw := length_separator_chunk cfg.layout w
  have h1 := ha.two hf
  have h2 := hb.two hf
  rw [hv] at hcv
  rw [hw] at hcw
  simp only [Node.len, Node.base, Node.payload, length_cons, length_nil, flatMap_cons, flatMap_nil,
    length_append, hcv, hcw, Nat.zero_add, Nat.reduceAdd]
  omega

/-! ## The level after its page has been written -/

theorem LevelWritten.levelOk (hmin : minPageSize ≤ cfg.pageSize) {out' : Output σ} {pages' : List Bytes}
    {ordinal offset : Nat} (hl : LevelOk cfg out.sink pages tag k kind items l ws es)
    (hw : LevelWritten cfg onValueRef front k kind l ws es out pages tag ordinal offset out' pages') (hne : es ≠ []) :
    LevelOk cfg out'.sink pages' (Function.update tag ordinal (some k)) k kind items (Level.after ordinal offset)
      (ws ++ [(ordinal, es)]) [] where
  split := by simp [hl.split]
  holds := ⟨rfl, rfl, rfl, rfl⟩
  firstKey := by simp
  prevOrdinal := by simp [Level.after]
  prevOffset := by simp [Level.after, hw.begins]
  ascending := by
    rw [map_append, pairwise_append]
    refine ⟨hl.ascending, pairwise_singleton .., ?_⟩
    intro a ha b hb
    obtain ⟨w, hmem, rfl⟩ := mem_map.1 ha
    have hlt := hl.lt_length hmem
    have hnext := hw.next
    simp only [map_cons, map_nil, mem_singleton] at hb
    omega
  nonempty w hmem := by
    rcases mem_append.1 hmem with hmem | hmem
    · exact hl.nonempty w hmem
    · rw [mem_singleton] at hmem
      exact hmem ▸ hne
  tagged w hmem := by
    rcases mem_append.1 hmem with hmem | hmem
    · have hlt := hl.lt_length hmem
      have hnext := hw.next
      rw [Function.update_of_ne (by omega)]
      exact hl.tagged w hmem
    · rw [mem_singleton] at hmem
      simp [hmem]
  size w hmem := by
    rcases mem_append.1 hmem with hmem | hmem
    · exact hl.size w hmem
    · rw [mem_singleton] at hmem
      exact hmem ▸ hl.openSize
  linked := hw.linked
  openSize := len_nil_le hmin kind

/-! ## The parent level -/

/-- A level one above another: what it was given are the separators of the pages below. -/
structure ParentOk (cfg : WriterConfig E) (fits : Prop) (s : PageSink) (pages : List Bytes) (tag : Nat → Option Nat)
    (k : Nat) (below : Written) (parent : Level E) (above : List (Level E)) (ws : Written) (es : List Item) : Prop where
  level : LevelOk cfg s pages tag k .internal (below.map separatorOf) parent ws es
  half : fits → 2 * ws.length ≤ (ws.flatMap Prod.snd).length
  upper : UpperOk cfg fits s pages tag (k + 1) (ws.map separatorOf) above

theorem parentOf_meets (hmin : minPageSize ≤ cfg.pageSize) {filter : Option PageFilter} {ls : List (Level E)}
    (hu : UpperOk cfg fits s pages tag k (below.map separatorOf) ls) (hroom : ls.length ≤ room) (hfit : fits → room ≠ 0) :
    Meets (WriterFault cfg fits full values filter onValueRef)
      (fun r => r.2.length + 1 ≤ room ∧ ∃ ws es, ParentOk cfg fits s pages tag k below r.1 r.2 ws es)
      (parentOf room ls) := by
  cases ls with
  | cons parent above =>
    obtain ⟨-, ws, es, hl, hhalf, hup⟩ := hu
    exact ⟨hroom, ws, es, hl, hhalf, hup⟩
  | nil =>
    have hnil : below = [] := map_eq_nil_iff.1 hu
    subst hnil
    rw [parentOf]
    split
    · rename_i h0
      exact .levels fun hf => hfit hf h0
    · rename_i h0
      refine ⟨by simp; omega, [], [], ⟨⟨rfl, ⟨rfl, rfl, rfl, rfl⟩, by simp, rfl, rfl, by simp, by simp, by simp, by simp,
        trivial, len_nil_le hmin _⟩, by simp, rfl⟩⟩

/-- Remembering the first key of an empty page changes nothing else. -/
theorem LevelOk.withFirstKey (h : LevelOk cfg s pages tag k kind items l ws es) (key : Bytes) :
    LevelOk cfg s pages tag k kind items (withFirstKey key l) ws es ∧
      (es = [] → (withFirstKey key l).firstKey = some key) := by
  have hc := h.entryCount_eq
  unfold TreeWriter.withFirstKey
  split
  · rename_i h0
    have hes : es = [] := eq_nil_of_length_eq_zero (by omega)
    subst hes
    exact ⟨{ h with holds := ⟨h.holds.payload, h.holds.sizes, h.holds.overflow, h.holds.digests⟩,
                    firstKey := by simp }, fun _ => rfl⟩
  · rename_i h0
    exact ⟨h, fun hes => absurd (by rw [hc, hes]; rfl) h0⟩

theorem Level.Holds.addSeparator (h : l.Holds cfg.layout es) (key : Bytes) (digest : UInt64) (child : Nat) :
    Level.Holds { l with
      digests := l.digests ++ [digest]
      payload := l.payload ++ cfg.layout.storedKey key ++ ordinalBytes (some child)
      sizes := l.sizes ++ [(cfg.layout.storedKeyLen key.length, 8)]
      overflow := l.overflow ++ [none] } cfg.layout (es ++ [{ key, digest, body := .child child }]) := by
  constructor
  · simp [h.payload, Item.chunk, Body.bytes]
  · simp [h.sizes, Item.size, Body.bytes, ordinalBytes]
  · simp [h.overflow, Body.blobRef]
  · simp [h.digests]

/-- A separator that fits is added to the open page. -/
theorem addSeparator_ok (h : LevelOk cfg s pages tag k .internal items l ws es)
    (hfirst : es = [] → l.firstKey = some (separatorOf w).key)
    (hd : cfg.encoding.digest (separatorOf w).key = .ok (separatorOf w).digest)
    (hsize : Node.len { kind := .internal, layout := cfg.layout, items := es ++ [separatorOf w] } ≤ cfg.pageSize) :
    ∃ l', addSeparator cfg l (separatorOf w).key w.1 = .ok l' ∧
      LevelOk cfg s pages tag k .internal (items ++ [separatorOf w]) l' ws (es ++ [separatorOf w]) := by
  unfold addSeparator
  rw [hd, ok_bind]
  refine ⟨_, rfl, ⟨by simp [h.split], h.holds.addSeparator _ _ _, ?_, h.prevOrdinal, h.prevOffset, h.ascending, h.nonempty,
    h.tagged, h.size, h.linked, hsize⟩⟩
  · intro it hit
    cases hes : es with
    | nil =>
      rw [hes, nil_append, head?_cons, Option.mem_some_iff] at hit
      exact hit ▸ hfirst hes
    | cons e rest =>
      rw [hes] at hit
      exact h.firstKey it (by rw [hes]; simpa using hit)

/-- The first key of a page whose entries are known. -/
theorem separatorOf_key {it : Item} {rest : List Item} (h : w.2 = it :: rest) :
    (separatorOf w).key = it.key ∧ (separatorOf w).digest = it.digest := by
  simp [separatorOf, h]

/-- The separators of written pages are keys of this tree. -/
theorem KeyOk.separator (hne : w.2 ≠ []) (h : ∀ it ∈ w.2, KeyOk cfg fits it) :
    KeyOk cfg fits (separatorOf w) := by
  cases hw : w.2 with
  | nil => exact absurd hw hne
  | cons it rest =>
    have hit := h it (by rw [hw]; exact mem_cons_self)
    obtain ⟨hk, hd⟩ := separatorOf_key hw
    exact ⟨by rw [hk, hd]; exact hit.digest, by rw [hk]; exact hit.length, by rw [hk]; exact hit.minimum,
      by rw [hk]; exact hit.two⟩

theorem LevelOk.keys_separators (h : LevelOk cfg s pages tag k kind items l ws es)
    (hk : ∀ it ∈ items, KeyOk cfg fits it) : ∀ it ∈ ws.map separatorOf, KeyOk cfg fits it := by
  intro it hit
  obtain ⟨w, hw, rfl⟩ := mem_map.1 hit
  refine KeyOk.separator (h.nonempty w hw) fun it hit => hk it ?_
  rw [h.split]
  exact mem_append_left _ (mem_flatMap.2 ⟨w, hw, hit⟩)

/-! ## What a rotation does -/

/-- A rotation of level `k` with `room` levels above it writes its open page, adds the
separator of that page one level up, and hands over the extras of a leaf. It writes no
more than a page a level. -/
def Rotates (cfg : WriterConfig E) (onValueRef : σ → E → PageRef → Result σ) (fits : Prop) (full : Nat → Prop) (values : List Bytes)
    (front : Bytes) (room k : Nat) (kind : NodeKind) (rotation : TreeWriter.Rotation E σ) : Prop :=
  ∀ (items es : List Item) (l : Level E) (ws : Written) (ls : List (Level E)) (out : Output σ) (pages : List Bytes)
    (tag : Nat → Option Nat), out.sink.Holds front pages → LevelOk cfg out.sink pages tag k kind items l ws es → es ≠ [] →
    (∀ it ∈ items, KeyOk cfg fits it) → UpperOk cfg fits out.sink pages tag (k + 1) (ws.map separatorOf) ls →
    ls.length ≤ room → (fits → room ≠ 0 ∧ ws.length + 1 ≤ 2 ^ (room - 1)) → (∀ n ≤ pages.length + room, full n) →
    Meets (WriterFault cfg fits full values out.sink.filter onValueRef)
      (fun r => ∃ pages' tag' ordinal, r.2.2.sink.Holds front pages' ∧
        Grows (k ≤ ·) out.sink pages tag r.2.2.sink pages' tag' ∧
        LevelOk cfg r.2.2.sink pages' tag' k kind items r.1 (ws ++ [(ordinal, es)]) [] ∧ r.1.extras = [] ∧
        UpperOk cfg fits r.2.2.sink pages' tag' (k + 1) ((ws ++ [(ordinal, es)]).map separatorOf) r.2.1 ∧
        r.2.1.length ≤ room ∧ pages'.length ≤ pages.length + room + 1 ∧
        handOver onValueRef ordinal (cfg.layout.payloadStart kind es.length) (handed cfg.layout kind es)
          l.extras out.caller = .ok r.2.2.caller)
      (rotation l ls out)

/-- A level with a separator to add has room for it after `makeRoom`. -/
theorem makeRoom_meets (hrot : Rotates cfg onValueRef fits full values front room k .internal rotateParent)
    {parent : Level E} {above : List (Level E)} (hs : out.sink.Holds front pages)
    (hp : ParentOk cfg fits out.sink pages tag k below parent above ws es)
    (hkeys : ∀ it ∈ below.map separatorOf, KeyOk cfg fits it) (hw : KeyOk cfg fits (separatorOf w))
    (habove : above.length ≤ room) (hfit : fits → below.length + 1 ≤ 2 ^ room) (hmay : ∀ n ≤ pages.length + room, full n) :
    Meets (WriterFault cfg fits full values out.sink.filter onValueRef)
      (fun r => ∃ pages' tag' ws' es', r.2.2.sink.Holds front pages' ∧
        Grows (k ≤ ·) out.sink pages tag r.2.2.sink pages' tag' ∧
        ParentOk cfg fits r.2.2.sink pages' tag' k below r.1 r.2.1 ws' es' ∧
        Node.len { kind := .internal, layout := cfg.layout, items := es' ++ [separatorOf w] } ≤ cfg.pageSize ∧
        r.2.1.length ≤ room ∧ pages'.length ≤ pages.length + room + 1 ∧ r.2.2.caller = out.caller)
      (makeRoom cfg rotateParent (separatorOf w).key parent above out) := by
  unfold makeRoom
  rw [internalNeeds_eq hp.level.holds]
  split
  · rename_i hfull
    have hlen : below.length = (ws.flatMap Prod.snd).length + es.length := by
      have := congrArg List.length hp.level.split
      simpa using this
    have hmem : ∀ it ∈ es, ∃ v ∈ below, it = separatorOf v := by
      intro it hit
      have : it ∈ below.map separatorOf := by
        rw [hp.level.split]
        exact mem_append_right _ hit
      obtain ⟨v, hv, rfl⟩ := mem_map.1 this
      exact ⟨v, hv, rfl⟩
    -- One separator always fits, so a full page is not empty.
    have hne : es ≠ [] := by
      rintro rfl
      have := len_single_le hw rfl
      rw [nil_append] at hfull
      omega
    -- Two always fit when every key passed the check.
    have htwo : fits → 2 ≤ es.length := by
      intro hf
      by_contra hlt
      obtain ⟨a, rfl⟩ : ∃ a, es = [a] := by
        match es, hne with
        | [a], _ => exact ⟨a, rfl⟩
        | a :: b :: rest, _ => simp at hlt
      obtain ⟨v, hv, rfl⟩ := hmem a mem_cons_self
      have := len_pair_le hf (hkeys _ (mem_map_of_mem hv)) hw rfl rfl
      simp only [singleton_append] at hfull
      omega
    have hnum : fits → room ≠ 0 ∧ ws.length + 1 ≤ 2 ^ (room - 1) := by
      intro hf
      have h1 := hp.half hf
      have h2 := htwo hf
      have h3 := hfit hf
      have hr : room ≠ 0 := by
        rintro rfl
        rw [Nat.pow_zero] at h3
        omega
      refine ⟨hr, ?_⟩
      have : 2 ^ room = 2 * 2 ^ (room - 1) := by
        conv_lhs => rw [show room = room - 1 + 1 by omega, Nat.pow_succ]
        omega
      omega
    refine Meets.mono (hrot _ es parent ws above out pages tag hs hp.level hne hkeys hp.upper habove hnum hmay) ?_
    rintro ⟨l', ls', out'⟩ ⟨pages', tag', ordinal, h1, h2, h3, -, h5, h6, hgrown, h7⟩
    refine ⟨pages', tag', _, [], h1, h2, ⟨h3, ?_, h5⟩, by simpa using len_single_le hw rfl, h6, hgrown, ?_⟩
    · intro hf
      have := hp.half hf
      have := htwo hf
      simp only [length_append, length_singleton, flatMap_append, flatMap_singleton]
      omega
    · simpa [handed, handOver] using h7.symm
  · rename_i hroom
    exact ⟨pages, tag, ws, es, hs, Grows.refl .., hp, by omega, habove, by omega, rfl⟩

/-- Promoting the page of a level, given a rotation of the level above. -/
theorem promote_rotates (hmin : minPageSize ≤ cfg.pageSize)
    (hrot : room ≠ 0 → Rotates cfg onValueRef fits full values front (room - 1) (k + 1) .internal rotateParent) (kind : NodeKind) :
    Rotates cfg onValueRef fits full values front room k kind (promote cfg onValueRef room rotateParent kind) := by
  intro items es l ws ls out pages tag hs hl hne hkeys hu hroom hfit hmay
  unfold promote
  refine Meets.bind (writeLevel_meets hs hl (hmay _ (Nat.le_add_right ..))) ?_
  rintro ⟨ordinal, offset, out₁⟩ - ⟨pages₁, hw⟩
  simp only at hw ⊢
  obtain ⟨it, rest, rfl⟩ : ∃ it rest, es = it :: rest := exists_cons_of_ne_nil hne
  rw [hl.firstKey it rfl, okOr_some, ok_bind]
  obtain ⟨hkey, -⟩ := separatorOf_key (w := (ordinal, it :: rest)) rfl
  have hl₁ := hw.levelOk hmin hl hne
  have hu₁ := hu.grow hw.grows (fun j hj he => by omega)
  have hsep : KeyOk cfg fits (separatorOf (ordinal, it :: rest)) := by
    refine KeyOk.separator hne fun e he => hkeys e ?_
    rw [hl.split]
    exact mem_append_right _ he
  refine Meets.bind (parentOf_meets hmin hu₁ hroom fun hf => (hfit hf).1) ?_
  rintro ⟨parent, above⟩ - ⟨habove, ws₁, es₁, hp⟩
  simp only at habove hp ⊢
  rw [← hkey]
  have hfilter := hw.grows.filter
  have hp' : ParentOk cfg fits out₁.sink pages₁ (Function.update tag ordinal (some k)) (k + 1) ws
      (withFirstKey (separatorOf (ordinal, it :: rest)).key parent) above ws₁ es₁ :=
    ⟨(hp.level.withFirstKey _).1, hp.half, hp.upper⟩
  have hlen := hw.length
  have hmk := makeRoom_meets (hrot (by omega)) hw.holds hp' (hl.keys_separators hkeys) hsep (by omega) (fun hf => (hfit hf).2)
    fun n hn => hmay n (by omega)
  rw [hfilter] at hmk
  refine Meets.bind hmk ?_
  rintro ⟨parent₂, above₂, out₂⟩ - ⟨pages₂, tag₂, ws₂, es₂, hs₂, hg₂, hp₂, hsize, habove₂, hgrown, hcaller⟩
  simp only at hs₂ hg₂ hp₂ habove₂ hcaller ⊢
  obtain ⟨hlev, hfirst⟩ := hp₂.level.withFirstKey (separatorOf (ordinal, it :: rest)).key
  obtain ⟨parent₃, hadd, hlev₃⟩ := addSeparator_ok hlev hfirst hsep.digest hsize
  rw [hadd, ok_bind]
  have hg : Grows (k ≤ ·) out.sink pages tag out₂.sink pages₂ tag₂ :=
    (hw.grows.mono fun j hj => hj.ge).trans (hg₂.mono fun j hj => by omega)
  refine ⟨pages₂, tag₂, ordinal, hs₂, hg, hl₁.grow hg₂ (by omega), rfl, ⟨by simp, ws₂, es₂ ++ [separatorOf (ordinal, it :: rest)], ?_, hp₂.half,
    hp₂.upper⟩, ?_, by omega, ?_⟩
  · rw [map_append]
    exact hlev₃
  · simp only [length_cons]
    omega
  · rw [hcaller]
    exact hw.caller

/-- Every rotation of the writer is one. -/
theorem rotate_rotates (hmin : minPageSize ≤ cfg.pageSize) (room k : Nat) (kind : NodeKind) :
    Rotates cfg onValueRef fits full values front room k kind (TreeWriter.rotate cfg onValueRef room kind) := by
  -- By induction on the room above the level: the parent is rotated with one less.
  induction room generalizing k kind with
  | zero =>
    rw [TreeWriter.rotate]
    exact promote_rotates hmin (fun h => absurd rfl h) kind
  | succ room ih =>
    rw [TreeWriter.rotate]
    exact promote_rotates hmin (fun _ => ih (k + 1) .internal) kind

end DryDb
