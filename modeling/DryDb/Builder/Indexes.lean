import DryDb.Builder.Answers
import DryDb.Reader.Indexed
import DryDb.Writer.References
/-!
# Index trees

While a primary tree is written, every index is handed the row's index key and a reference to its
value (`spoolIndexKeys`), in primary key order. `TableRead.index`: the tree of the index is
then written from exactly those pairs, sorted by index key and, for one key, by primary key.
-/

namespace DryDb

open DatabaseBuilder List

/-! ## What the index spools take -/

/-- What index `j` is handed, row by row. -/
def indexRows (j : Nat) (pairs : List (List IndexKey × PageRef)) : List (Bytes × Bytes) :=
  pairs.filterMap fun p => (p.1[j]?).map fun key => (key.1, p.2.encode)

/-- Every index spool took its rows. -/
structure SpoolsTake (secondaries : List SecondarySpec) (rows : Nat → List (Bytes × Bytes)) (spools : List RecordSpool) :
    Prop where
  length : secondaries.length = spools.length
  takes : ∀ (j : Nat) index spool, secondaries[j]? = some index → spools[j]? = some spool →
    SpoolTakes index.encoding (rows j) spool
  sound : ∀ spool ∈ spools, spool.Sound

section

variable {secondaries : List SecondarySpec} {rows : Nat → List (Bytes × Bytes)} {spools spools' : List RecordSpool}
  {spoolBudget : Nat}

theorem spoolsTake_new (secondaries : List SecondarySpec) (budget : Nat) : SpoolsTake secondaries (fun _ => [])
    (secondaries.map fun index => RecordSpool.new index.encoding budget index.fate) where
  length := by simp
  takes j index spool hj hs := by
    rw [getElem?_map, hj, Option.map_some, Option.some.injEq] at hs
    subst hs
    exact .new ..
  sound spool hs := by
    obtain ⟨index, -, rfl⟩ := mem_map.1 hs
    exact fun _ _ => rfl

theorem SpoolsTake.step {keys : List IndexKey} {ref : PageRef} (h : SpoolsTake secondaries rows spools)
    (hlen : keys.length = secondaries.length) (hshort : ∀ key ∈ keys, key.1.length < 2 ^ 32)
    (hrun : spoolIndexKeys spoolBudget spools keys ref = .ok spools') :
    SpoolsTake secondaries (fun j => rows j ++ indexRows j [(keys, ref)]) spools' := by
  obtain ⟨pushed, hpushed, hrun⟩ := bind_eq_ok.1 hrun
  obtain ⟨⟨⟨⟩, kept⟩, hkept, hrun⟩ := bind_eq_ok.1 hrun
  cases hrun
  have hpush := mapM_eq_ok.1 hpushed
  have hcount : (pushed.map Prod.snd).length = spools.length := by
    rw [length_map, ← hpush.length_eq, length_zip, hlen, h.length, Nat.min_self]
  -- Each spool after its push, before the flushes.
  have hat : ∀ (j : Nat) t, (pushed.map Prod.snd)[j]? = some t → ∃ key spool, keys[j]? = some key ∧ spools[j]? = some spool ∧
      (RecordSpool.push key.1 ref.encode).run spool = (.ok (), t) := by
    intro j t ht
    rw [getElem?_map] at ht
    obtain ⟨⟨⟨⟩, t'⟩, hp, rfl⟩ := Option.map_eq_some_iff.1 ht
    obtain ⟨⟨key, spool⟩, hz, hp⟩ := forall₂_getElem? hpush hp
    obtain ⟨hk, hs⟩ := getElem?_zip_eq_some.1 hz
    exact ⟨key, spool, hk, hs, outcome_eq_ok.1 hp⟩
  have hsound : ∀ t ∈ pushed.map Prod.snd, t.Sound := by
    intro t ht
    obtain ⟨j, hj⟩ := mem_iff_getElem?.1 ht
    obtain ⟨key, spool, -, hs, hp⟩ := hat j t hj
    have := RecordSpool.sound_push (h.sound spool (mem_of_getElem? hs)) key.1 ref.encode
    rwa [hp] at this
  obtain ⟨hflush, -⟩ := RecordSpool.keepInside_eq_ok hsound (outcome_eq_ok.1 hkept)
  refine ⟨by rw [h.length, ← hcount, hflush.length_eq], fun j index spool' hj hs' => ?_, fun spool' hs' => ?_⟩
  · obtain ⟨t, ht, hto⟩ := forall₂_getElem? hflush hs'
    obtain ⟨key, spool, hk, hs, hp⟩ := hat j t ht
    have hrow : indexRows j [(keys, ref)] = [(key.1, ref.encode)] := by simp [indexRows, hk]
    rw [hrow]
    exact (((h.takes j index spool hj hs).push (hshort key (mem_of_getElem? hk)) (by simp [PageRef.encode])).post hp).flushed hto
  · obtain ⟨t, ht, hto⟩ := exists_of_mem_left hflush.flip hs'
    exact RecordSpool.FlushesTo.sound hto (hsound t ht)

theorem SpoolsTake.run {pairs : List (List IndexKey × PageRef)} (h : SpoolsTake secondaries rows spools)
    (hlen : ∀ p ∈ pairs, p.1.length = secondaries.length ∧ ∀ key ∈ p.1, key.1.length < 2 ^ 32)
    (hrun : handAll (spoolIndexKeys spoolBudget) pairs spools = .ok spools') :
    SpoolsTake secondaries (fun j => rows j ++ indexRows j pairs) spools' := by
  induction pairs generalizing rows spools with
  | nil =>
    cases hrun
    simpa [indexRows] using h
  | cons p pairs ih =>
    simp only [handAll, foldlM_cons] at hrun
    obtain ⟨mid, hmid, hrun⟩ := bind_eq_ok.1 hrun
    obtain ⟨hl, hs⟩ := hlen p mem_cons_self
    have hrest := ih (h.step hl hs hmid) (fun q hq => hlen q (mem_cons_of_mem _ hq)) hrun
    have hrows : (fun j => rows j ++ indexRows j [p] ++ indexRows j pairs) = fun j => rows j ++ indexRows j (p :: pairs) := by
      funext j
      rw [append_assoc]
      exact congrArg (rows j ++ ·) (filterMap_append (l := [p])).symm
    rwa [hrows] at hrest

end

/-! ## The rows of an index -/

/-- The index keys of these rows are shorter than a run can tell. -/
def SecondarySpec.KeysFit (index : SecondarySpec) (rows : List (Bytes × Bytes)) : Prop :=
  ∀ row ∈ rows, ∀ found, index.keyFn row.1 row.2 = .ok found → found.1.length < 2 ^ 32

/-- What an index holds for a record: its index key, and a reference to its value. -/
structure IndexRow (index : SecondarySpec) (pages : List Bytes) (row : Bytes × Bytes) (r : Record) : Prop where
  key : ∃ capacity, index.keyFn r.key r.value = .ok (row.1, capacity)
  ref : ∃ ref : PageRef, row.2 = ref.encode ∧ ref.LeadsTo pages r.value

variable {secondaries : List SecondarySpec} {pages : List Bytes} {rs : List Record}

theorem rowEntry_eq_ok {r : Record} {e : Bytes × Bytes × List IndexKey}
    (h : rowEntry secondaries r = .ok e) : e.1 = r.key ∧ e.2.1 = r.value ∧
      List.Forall₂ (fun (index : SecondarySpec) key => index.keyFn r.key r.value = .ok key) secondaries e.2.2 := by
  obtain ⟨keys, hkeys, h⟩ := bind_eq_ok.1 h
  cases h
  exact ⟨rfl, rfl, mapM_eq_ok.1 hkeys⟩

theorem indexRows_of_entries {index : SecondarySpec} {j : Nat}
    (hj : secondaries[j]? = some index) {entries : List (Bytes × Bytes × List IndexKey)}
    {refs : List PageRef} (hentries : List.Forall₂ (fun r e => rowEntry secondaries r = .ok e) rs entries)
    (hrefs : List.Forall₂ (fun (ref : PageRef) e => ref.LeadsTo pages e.2.1) refs entries) :
    List.Forall₂ (IndexRow index pages) (indexRows j ((entries.map fun e => e.2.2).zip refs)) rs := by
  induction hentries generalizing refs with
  | nil =>
    cases hrefs
    exact .nil
  | @cons r e rs entries he _ ih =>
    cases hrefs with
    | @cons ref _ refs _ hlead hrest =>
      obtain ⟨-, hvalue, hkeys⟩ := rowEntry_eq_ok he
      obtain ⟨key, hkey, hfn⟩ := forall₂_getElem? hkeys.flip hj
      have hrow : indexRows j (((e :: entries).map fun e => e.2.2).zip (ref :: refs)) =
          (key.1, ref.encode) :: indexRows j ((entries.map fun e => e.2.2).zip refs) := by
        simp [indexRows, hkey]
      rw [hrow]
      exact .cons ⟨⟨key.2, hfn⟩, ref, rfl, hvalue ▸ hlead⟩ (ih hrest)

/-! ## How many rows there can be -/

/-- A leaf is at least as long as it has entries. -/
theorem Node.length_items_le (layout : NodeLayout) (items : List Item) :
    items.length ≤ Node.len { kind := .leaf, layout, items } := by
  have hmeta : items.length ≤ layout.leafMeta items.length := by
    unfold NodeLayout.leafMeta
    split <;> omega
  have hbase : layout.leafMeta items.length ≤ Node.len { kind := .leaf, layout, items } := by
    simp only [Node.len, Node.base, NodeLayout.payloadStart, NodeLayout.metaArea]
    omega
  exact hmeta.trans hbase

theorem Finished.length_given {E σ : Type} {cfg : WriterConfig E} {onValueRef : σ → E → PageRef → Result σ} {fits : Prop}
    {front : Bytes} {s₀ : PageSink} {pages₀ : List Bytes} {c₀ : σ} {given : List (Bytes × Bytes × E)} {root : Nat}
    {out : Output σ} {tag : Nat → Option Nat} {items : List Item} {leaves : Written} {upper : List Written}
    (h : Finished cfg onValueRef fits front s₀ pages₀ c₀ given root out pages tag items leaves upper)
    (hmax : cfg.pageSize ≤ i32Max) : given.length ≤ 2 ^ 64 := by
  obtain ⟨ws, rest, hws, hflat⟩ := h.stack.flatMap_succ
  obtain ⟨rfl, rfl⟩ := List.cons.inj hws
  have hleaf : ∀ n ∈ leaves.map fun w => w.2.length, n ≤ i32Max := by
    intro n hn
    obtain ⟨w, hw, rfl⟩ := mem_map.1 hn
    exact (Node.length_items_le cfg.layout w.2).trans ((h.stack.size 0 leaves rfl w hw).trans hmax)
  have hsum := sum_le_card_nsmul _ _ hleaf
  rw [← h.items.length_eq, ← hflat, length_flatMap]
  rw [length_map, smul_eq_mul] at hsum
  have hwide := h.stack.width_le.trans h.sink.limit
  calc (leaves.map fun w => w.2.length).sum ≤ leaves.length * i32Max := hsum
    _ ≤ i32Max * i32Max := Nat.mul_le_mul_right _ hwide
    _ ≤ 2 ^ 64 := by decide

/-! ## The records of an index tree -/

/-- The records `rs'` of an index are those of its table: each `found` with its index key, in the order
of the index keys and, for one key, of the table. -/
structure IndexRead (index : SecondarySpec) (pages : List Bytes) (rs rs' found : List Record) : Prop where
  rows : List.Forall₂ (fun r' r => IndexRow index pages r'.row r) rs' found
  perm : found.Perm rs
  accepted : ∀ r' ∈ rs', index.encoding.Accepts r'.key
  stable : ∀ {R : Record → Record → Prop}, rs.Pairwise R → index.encoding.Ranks →
    (rs'.zip found).Pairwise fun a b => index.encoding.compare a.1.key b.1.key = .ok .lt ∨
      index.encoding.compare a.1.key b.1.key = .ok .eq ∧ R a.2 b.2

theorem ReadRows.indexRead {index : SecondarySpec} {irows : List (Bytes × Bytes)} {rs' : List Record}
    (h : ReadRows index.encoding irows rs') (hrows : List.Forall₂ (IndexRow index pages) irows rs) (hmany : rs.length ≤ 2 ^ 64)
    (henc : index.encoding.Ranks) : ∃ found, IndexRead index pages rs rs' found := by
  obtain ⟨hperm, hstable⟩ := h.stable henc (by rw [hrows.length_eq]; exact hmany)
  -- A record of the index is the row at its number.
  have hnumbered : List.Forall₂ (fun (r' : Record) (x : Record × Nat) => r'.seq = x.2 ∧ IndexRow index pages r'.row x.1)
      (numbered irows) rs.zipIdx := by
    rw [forall₂_iff_get]
    refine ⟨by simp [numbered, hrows.length_eq], fun i hi hi' => ?_⟩
    have hi₁ : i < irows.length := by simpa [numbered] using hi
    have hi₂ : i < rs.length := by simpa using hi'
    have := hrows.get hi₁ hi₂
    simpa [numbered, Record.row] using this
  obtain ⟨xs, hxs, hto⟩ := perm_comp_forall₂ hperm hnumbered
  refine ⟨xs.map Prod.fst, forall₂_map_right_iff.2 (hxs.imp fun _ _ hx => hx.2), ?_, h.accepted, ?_⟩
  · have := hto.map Prod.fst
    rwa [zipIdx_map_fst] at this
  · intro R hR _
    have hzip : ((rs'.zip xs).map Prod.fst).Pairwise fun a b =>
        index.encoding.compare a.key b.key = .ok .lt ∨ index.encoding.compare a.key b.key = .ok .eq ∧ a.seq < b.seq := by
      rw [map_fst_zip hxs.length_eq.le]
      exact hstable
    have hat : ∀ x ∈ rs'.zip xs, rs[x.1.seq]? = some x.2.1 := by
      intro x hx
      have hmem : x.2 ∈ rs.zipIdx := hto.mem_iff.1 (of_mem_zip hx).2
      rw [(forall₂_zip hxs hx).1]
      exact mem_zipIdx_iff_getElem?.1 hmem
    rw [zip_map_right]
    refine pairwise_map.2 ((pairwise_map.1 hzip).imp_of_mem fun {a b} ha hb hab => hab.imp_right fun h => ⟨h.1, ?_⟩)
    obtain ⟨hi, hra⟩ := List.getElem?_eq_some_iff.1 (hat a ha)
    obtain ⟨hj, hrb⟩ := List.getElem?_eq_some_iff.1 (hat b hb)
    have := pairwise_iff_getElem.1 hR _ _ hi hj h.2
    rwa [hra, hrb] at this

/-! ## The keys of an index tree -/

/-- A source encoding whose keys also order with a record id behind them. -/
structure KeyEncoding.Composes {ρ : Type} [LinearOrder ρ] (source : KeyEncoding) (rank : Bytes → ρ) : Prop where
  serves : source.Serves rank
  extend : source.Extends
  length : ∀ key n, source.Accepts key → source.fixedKeyLen = some n → key.length = n
  digests : ∀ key, source.Valid key → ∃ d, source.digest key = .ok d

theorem duplicateRank_encode {ρ : Type} {rank : Bytes → ρ} (key : Bytes) {rid : Nat} (hrid : rid ≤ i32Max) :
    duplicateRank rank (DuplicateKeyEncoding.encode key rid) = toLex (rank key, (rid : Int)) := by
  obtain ⟨hs, hr⟩ := parts_composite key hrid
  rw [duplicateRank, hs, hr]

section

variable {ρ : Type} [LinearOrder ρ] {rank : Bytes → ρ} {source : KeyEncoding} {table : String}
  {entries : List (Bytes × Bytes × Unit)}

theorem KeyEncoding.Composes.valid_encode (hc : source.Composes rank) {key : Bytes} (hkey : source.Accepts key) (rid : Nat) :
    (duplicateKeyEncoding source).Valid (DuplicateKeyEncoding.encode key rid) := by
  refine duplicate_validateKey.2 fun n hn => ?_
  rw [DuplicateKeyEncoding.encode, length_append, hc.length key n hkey hn]
  simp

theorem KeyEncoding.Composes.accepts_encode (hc : source.Composes rank) {key : Bytes} (hkey : source.Accepts key) {rid : Nat}
    (hrid : rid ≤ i32Max) : (duplicateKeyEncoding source).Accepts (DuplicateKeyEncoding.encode key rid) := by
  obtain ⟨d, hd⟩ := hkey.2
  obtain ⟨hs, hr⟩ := parts_composite key hrid
  refine ⟨hc.valid_encode hkey rid, d, (duplicate_digest ?_).2 (by rwa [hs])⟩
  rw [hs, hr]
  exact split_composite key hrid

/-- An entry of an index tree and the record it was made from. -/
def EntryFrom (unique : Bool) (e : Bytes × Bytes × Unit) (r : Record) : Prop :=
  e.2.1 = r.value ∧ Index.KeyFor unique r.key e.1

/-- Records in order get composite keys in strict order: the id counts up inside a run of one key. -/
theorem duplicateEntries_ascend (ho : source.OrderedBy rank) {name : String} {rs : List Record}
    (hacc : ∀ r ∈ rs, source.Accepts r.key) (hsorted : rs.Pairwise fun a b => rank a.key ≤ rank b.key) {previous : Option Bytes}
    {rid : Nat} (hrid : rid ≤ i32Max) (hprevious : ∀ p ∈ previous, source.Accepts p ∧ ∀ r ∈ rs, rank p ≤ rank r.key)
    (h : duplicateEntries source table name previous rid rs = .ok entries) :
    List.Forall₂ (EntryFrom false) entries rs ∧
      ((previous.map fun p => DuplicateKeyEncoding.encode p rid).toList ++ entries.map Prod.fst).IsChain
        fun a b => duplicateRank rank a < duplicateRank rank b := by
  induction rs generalizing previous rid entries with
  | nil =>
    cases h
    refine ⟨.nil, ?_⟩
    cases previous with
    | none => exact .nil
    | some p => exact .singleton _
  | cons r rs ih =>
    obtain ⟨rid', hnext, h⟩ := bind_eq_ok.1 h
    obtain ⟨rest, hrest, h⟩ := bind_eq_ok.1 h
    cases h
    have hr := hacc r mem_cons_self
    rw [pairwise_cons] at hsorted
    -- The new id is in range, and behind an equal key it is one more.
    have hstep : rid' ≤ i32Max ∧ ∀ p ∈ previous, toLex (rank p, (rid : Int)) < toLex (rank r.key, (rid' : Int)) := by
      unfold nextRid at hnext
      cases previous with
      | none =>
        cases hnext
        exact ⟨Nat.zero_le _, nofun⟩
      | some p =>
        obtain ⟨hp, hle⟩ := hprevious p rfl
        simp only [ho.compare p r.key hp hr, ok_bind, compare_eq_iff_eq] at hnext
        simp only [Option.mem_some_iff, forall_eq', Prod.Lex.toLex_lt_toLex]
        split at hnext
        · rename_i heq
          split at hnext
          · cases hnext
          · cases hnext
            exact ⟨by omega, .inr ⟨heq, by omega⟩⟩
        · rename_i hne
          cases hnext
          exact ⟨Nat.zero_le _, .inl (lt_of_le_of_ne (hle r mem_cons_self) hne)⟩
    obtain ⟨hentries, hchain⟩ := ih (fun r' hr' => hacc r' (mem_cons_of_mem _ hr')) hsorted.2 hstep.1
      (fun p hp => Option.some.inj hp ▸ ⟨hr, hsorted.1⟩) hrest
    refine ⟨.cons ⟨rfl, rid', hstep.1, rfl⟩ hentries, ?_⟩
    cases previous with
    | none => exact hchain
    | some p =>
      refine isChain_cons_cons.2 ⟨?_, hchain⟩
      rw [duplicateRank_encode p hrid, duplicateRank_encode r.key hstep.1]
      exact hstep.2 p rfl

/-- The entries of an index tree: in strict order of the tree's keys, one for each record. -/
structure IndexEntries (index : SecondarySpec) (rank : Bytes → ρ) (rs' : List Record) (entries : List (Bytes × Bytes × Unit)) :
    Prop where
  accepted : ∀ e ∈ entries, index.treeEncoding.Accepts e.1
  unique : index.unique = true → entries.Pairwise fun a b => rank a.1 < rank b.1
  composite : index.unique = false → entries.Pairwise fun a b => duplicateRank rank a.1 < duplicateRank rank b.1
  records : List.Forall₂ (EntryFrom index.unique) entries rs'

theorem indexEntries_of {index : SecondarySpec} (hc : index.encoding.Composes rank) {rs' : List Record}
    (hacc : ∀ r ∈ rs', index.encoding.Accepts r.key) (hsorted : rs'.Pairwise fun a b => rank a.key ≤ rank b.key)
    (hascends : index.unique → AscendsFrom index.encoding none (rs'.map Record.key))
    (h : index.entries table rs' = .ok entries) : IndexEntries index rank rs' entries := by
  unfold SecondarySpec.entries at h
  cases hun : index.unique with
  | true =>
    rw [hun, if_pos rfl] at h
    cases h
    have hkeys := forall_mem_map.2 hacc
    refine ⟨fun e he => ?_, fun _ => ?_, by simp [hun], ?_⟩
    · obtain ⟨r, hr, rfl⟩ := mem_map.1 he
      rw [SecondarySpec.treeEncoding, if_pos hun]
      exact hacc r hr
    · have hpair := hc.serves.ordered.pairwise_of_ascends hkeys (hascends hun)
      exact pairwise_map.2 ((pairwise_map (f := Record.key)).1 hpair)
    · rw [hun, forall₂_map_left_iff]
      exact forall₂_same.2 fun r _ => ⟨rfl, rfl⟩
  | false =>
    rw [hun, if_neg (by simp)] at h
    obtain ⟨hfrom, hchain⟩ := duplicateEntries_ascend hc.serves.ordered hacc hsorted (Nat.zero_le _)
      (by simp) h
    refine ⟨fun e he => ?_, by simp [hun], fun _ => ?_, hun ▸ hfrom⟩
    · obtain ⟨r, hr, -, rid, hrid, heq⟩ := exists_of_mem_left hfrom he
      rw [SecondarySpec.treeEncoding, if_neg (by simp [hun]), heq]
      exact hc.accepts_encode (hacc r hr) hrid
    · have hpair : (entries.map Prod.fst).Pairwise fun a b => duplicateRank rank a < duplicateRank rank b :=
        isChain_iff_pairwise.1 hchain
      exact (pairwise_map (f := Prod.fst)).1 hpair

end

/-! ## The indexes of a table -/

/-- The tree of an index: written from the records of its table, with a reference to the value of each. -/
structure IndexTreeRead (b : DatabaseBuilder) {ρ : Type} [LinearOrder ρ] (index : SecondarySpec) (rank : Bytes → ρ) (pages : List Bytes)
    (rs rs' found : List Record) (root : Nat) (entries : List (Bytes × Bytes × Unit)) : Prop where
  read : IndexRead index pages rs rs' found
  keys : IndexEntries index rank rs' entries
  made : ∃ front sink pages₀ sink' pages₁, TreeMade b index.treeEncoding index.unique (fun _ => 0) discard front ⟨sink, ()⟩ pages₀
    entries root ⟨sink', ()⟩ pages₁ ∧ Extends pages₁ pages

section

variable {b : DatabaseBuilder} {pages : List Bytes} {spec : TableSpec} {rows : List (Bytes × Bytes)} {t : BuiltTable}
  {rs : List Record} {spools : List RecordSpool} {ρ : Type} [LinearOrder ρ] {rank : Bytes → ρ} {root : Nat} {front : Bytes}
  {sink : PageSink} {pages₀ pages₁ : List Bytes} {rs' found : List Record} {entries : List (Bytes × Bytes × Unit)}
  {opts : OpenOptions} {store : PageStore} {x : Index} {limits : Limits}

/-- What the spool of an index took while the primary tree was written. -/
theorem PrimaryMade.spool {waiting : Nat}
    {out : Output (List RecordSpool)} (h : PrimaryMade b spec waiting front sink pages₀ rs root out pages₁)
    (hext : Extends pages₁ pages) (hrows : (rs.map Record.row).Perm rows) (hmax : b.pageSize ≤ i32Max)
    (hlen : ∀ row ∈ rows, pagePrefixLen + row.2.length ≤ i32Max) (hfit : ∀ index ∈ spec.secondaries, index.KeysFit rows) {j : Nat}
    {index : SecondarySpec} (hj : spec.secondaries[j]? = some index) {spool : RecordSpool} (hspool : out.caller[j]? = some spool) :
    rs.length ≤ 2 ^ 64 ∧ ∃ irows, SpoolTakes index.encoding irows spool ∧ List.Forall₂ (IndexRow index pages) irows rs := by
  obtain ⟨entries, spoolBudget, hmap, htree⟩ := h.tree
  obtain ⟨cfg, _, tag, items, leaves, upper, hnew, hfin⟩ := htree.finished
  obtain ⟨-, hsize, -, hlayout⟩ := treeWriter_new_eq_ok hnew
  have hlay : LayoutOk cfg.layout cfg.pageSize := by
    rw [hlayout, hsize]
    exact chooseLayout_ok hmax ..
  have hentries := mapM_eq_ok.1 hmap
  have hvalues : ∀ e ∈ entries, pagePrefixLen + e.2.1.length ≤ i32Max := by
    intro e he
    obtain ⟨r, hr, hrow⟩ := exists_of_mem_left hentries.flip he
    rw [(rowEntry_eq_ok hrow).2.1]
    exact hlen r.row (hrows.mem_iff.1 (mem_map_of_mem hr))
  have hpairs : ∀ p ∈ (entries.map fun e => e.2.2).zip (leaves.flatMap (pageRefs cfg.layout)),
      p.1.length = spec.secondaries.length ∧ ∀ key ∈ p.1, key.1.length < 2 ^ 32 := by
    intro p hp
    obtain ⟨e, he, hpe⟩ := mem_map.1 (of_mem_zip hp).1
    obtain ⟨r, hr, hrow⟩ := exists_of_mem_left hentries.flip he
    obtain ⟨-, -, hkeys⟩ := rowEntry_eq_ok hrow
    rw [← hpe]
    refine ⟨hkeys.length_eq.symm, fun key hkey => ?_⟩
    obtain ⟨index, hindex, hfn⟩ := exists_of_mem_left hkeys.flip hkey
    exact hfit index hindex r.row (hrows.mem_iff.1 (mem_map_of_mem hr)) _ hfn
  have htake := (spoolsTake_new spec.secondaries b.sortBuffer).run hpairs hfin.caller
  have hrefs := (hfin.refs hlay hvalues).imp fun ref e hlead => hlead.extend hext.keep
  refine ⟨?_, _, htake.takes j index spool hj hspool, indexRows_of_entries hj hentries hrefs⟩
  rw [hentries.length_eq]
  exact hfin.length_given (hsize ▸ hmax)

theorem TableRead.index (h : TableRead b pages spec rows t rs spools) (hmax : b.pageSize ≤ i32Max)
    (hlen : ∀ row ∈ rows, pagePrefixLen + row.2.length ≤ i32Max) (hfit : ∀ index ∈ spec.secondaries, index.KeysFit rows) {j : Nat}
    {index : SecondarySpec} (hj : spec.secondaries[j]? = some index) (hc : index.encoding.Composes rank)
    (hroot : t.secondaries[j]? = some root) :
    ∃ rs' found entries, IndexTreeRead b index rank pages rs rs' found root entries := by
  obtain ⟨spool, root', hspool, hroot', hbuilt⟩ :=
    getElem?_of_zip (R := fun index spool root => IndexBuilt b index spool spec.name root pages) h.count h.indexes hj
  obtain rfl : root' = root := Option.some.inj (hroot'.symm.trans hroot)
  obtain ⟨front, sink, pages₀, rs', sink', pages₁, hmade, hext⟩ := hbuilt
  obtain ⟨_, _, _, _, _, _, _, hprimary, hkept⟩ := h.primary
  obtain ⟨hmany, irows, htakes, hirows⟩ := hprimary.spool hkept h.read.perm hmax hlen hfit hj hspool
  obtain ⟨src, s, hsorted, hread⟩ := hmade.stream
  obtain ⟨entries, hentries, htree⟩ := hmade.tree
  have hranks := hc.serves.ordered.ranks
  have hrows := htakes.readOut hsorted hread
  obtain ⟨found, hfound⟩ := hrows.indexRead hirows hmany hranks
  have hascending : rs'.Pairwise fun a b => rank a.key ≤ rank b.key := by
    obtain ⟨-, hstable⟩ := hrows.stable hranks (by rw [hirows.length_eq]; exact hmany)
    refine hstable.imp_of_mem fun {a b} ha hb hab => ?_
    rw [hc.serves.ordered.compare _ _ (hrows.accepted a ha) (hrows.accepted b hb), Except.ok.injEq, Except.ok.injEq,
      compare_lt_iff_lt, compare_eq_iff_eq] at hab
    exact hab.elim le_of_lt fun h => h.1.le
  exact ⟨rs', found, entries, hfound, indexEntries_of hc hrows.accepted hascending hmade.ascends hentries,
    front, sink, pages₀, sink', pages₁, htree, hext⟩

/-- The rows of an index, as its cursors show them. -/
def shownRows (rs' found : List Record) : List (Bytes × Bytes) := (rs'.zip found).map fun x => (x.1.key, x.2.value)

theorem IndexTreeRead.entryOf {index : SecondarySpec}
    (h : IndexTreeRead b index rank pages rs rs' found root entries) (hpages : pages.length ≤ i32Max)
    (hx : IndexOpened opts store index root x) (hstore : store.Serves limits pages) :
    List.Forall₂ (Index.EntryOf x.isUnique fun env => env.Ready x.tree) (entries.map entryRow)
      (shownRows rs' found) := by
  have hentry : ∀ (e : Bytes × Bytes × Unit) (r' r : Record), EntryFrom index.unique e r' → IndexRow index pages r'.row r →
      Index.EntryOf x.isUnique (fun env => env.Ready x.tree) (entryRow e) (r'.key, r.value) := by
    rintro e r' r ⟨hvalue, hkey⟩ ⟨-, ref, href, hlead⟩
    have hbytes : e.2.1 = ref.encode := hvalue.trans href
    obtain ⟨hpage, hrange⟩ := hlead.bounds
    refine ⟨by rw [Index.isUnique, hx.unique]; exact hkey, ref, ?_, ?_, fun env hready => ?_⟩
    · rw [entryRow, hbytes]
      simp [PageRef.encode, pageRefLen]
    · rw [entryRow, hbytes]
      simp only [i32Max] at hpages
      exact PageRef.parse_encode (by omega) (by omega) (by omega)
    · have hreads := hready.reads
      rw [hx.tree.store] at hreads
      exact hlead.resolves (hstore.delivers env hreads)
  have hfrom := h.keys.records
  have hrows := h.read.rows
  clear h
  induction hfrom generalizing found with
  | nil =>
    cases hrows
    exact .nil
  | cons he _ ih =>
    cases hrows with
    | cons hr hrest => exact .cons (hentry _ _ _ he hr) (ih hrest)

/-- The tree of an opened index lists its entries, if its encoding orders them. -/
theorem IndexEntries.sorts {index : SecondarySpec}
    (h : IndexEntries index rank rs' entries) (hacc : ∀ r ∈ rs', index.encoding.Accepts r.key)
    (hlen : ∀ e ∈ entries, pagePrefixLen + e.2.1.length ≤ i32Max) {sink' : PageSink}
    (hmade : TreeMade b index.treeEncoding index.unique (fun _ => 0) discard front ⟨sink, ()⟩ pages₀ entries root
      ⟨sink', ()⟩ pages₁) (hext : Extends pages₁ pages) (hmax : b.pageSize ≤ i32Max) (hc : index.encoding.Composes rank)
    (hx : IndexOpened opts store index root x) (hstore : store.Serves limits pages) :
    x.tree.WithinDepth limits pages (x.Sorts rank index.encoding.Accepts (entries.map entryRow)) := by
  have hsource := hx.source
  have htree := hx.tree.encoding
  have hun : x.isUnique = index.unique := hx.unique
  have hcompare : ∀ a b, index.encoding.Accepts a → index.encoding.Accepts b →
      x.sourceEncoding.compare a b = .ok (Ord.compare (rank a) (rank b)) := by
    rw [hsource]
    exact hc.serves.ordered.compare
  have hkeys : ∀ e ∈ entries.map entryRow, ∃ key, index.encoding.Accepts key ∧ Index.KeyFor x.isUnique key e.1 := by
    rw [hun, forall_mem_map]
    intro e he
    obtain ⟨r, hr, -, hkey⟩ := exists_of_mem_left h.records he
    exact ⟨_, hacc r hr, hkey⟩
  cases hu : index.unique with
  | true =>
    have henc : index.treeEncoding = index.encoding := by rw [SecondarySpec.treeEncoding, if_pos hu]
    rw [henc] at htree hmade
    have hlists := hmade.lists hext hmax hc.serves (henc ▸ h.accepted) (h.unique hu) hlen (henc ▸ hx.tree) hstore
    refine hlists.mono fun hlists => ⟨hcompare, hc.serves.ordered.inj, hkeys, fun _ => ⟨htree.trans hsource.symm, ?_⟩,
      fun hno => absurd (hun.symm.trans hno) (by simp [hu])⟩
    rwa [htree] at hlists
  | false =>
    have henc : index.treeEncoding = duplicateKeyEncoding index.encoding := by
      rw [SecondarySpec.treeEncoding, if_neg (by simp [hu])]
    rw [henc] at htree hmade
    have hlists := hmade.lists hext hmax (duplicate_serves hc.serves.ordered hc.extend) (henc ▸ h.accepted)
      (h.composite hu) hlen (henc ▸ hx.tree) hstore
    refine hlists.mono fun hlists => ⟨hcompare, hc.serves.ordered.inj, hkeys,
      fun hyes => absurd (hun.symm.trans hyes) (by simp [hu]), fun _ => ⟨by rw [htree, hsource], _, hlists, fun key rid hkey hrid => ?_⟩⟩
    rw [htree]
    exact ⟨hc.accepts_encode hkey hrid, fun _ => hc.valid_encode hkey rid⟩

/-- The opened index holds the rows of its table. -/
theorem IndexTreeRead.holds {index : SecondarySpec}
    (h : IndexTreeRead b index rank pages rs rs' found root entries) (hmax : b.pageSize ≤ i32Max) (hpages : pages.length ≤ i32Max)
    (hc : index.encoding.Composes rank) (hx : IndexOpened opts store index root x) (hstore : store.Serves limits pages) :
    x.tree.WithinDepth limits pages (x.Holds rank index.encoding.Accepts (entries.map entryRow) (shownRows rs' found)) := by
  obtain ⟨_, _, _, _, _, hmade, hext⟩ := h.made
  have hlen : ∀ e ∈ entries, pagePrefixLen + e.2.1.length ≤ i32Max := by
    intro e he
    obtain ⟨r', hr', hvalue, -⟩ := exists_of_mem_left h.keys.records he
    obtain ⟨r, -, -, ref, href, -⟩ := exists_of_mem_left h.read.rows hr'
    have hbytes : e.2.1 = ref.encode := hvalue.trans href
    rw [hbytes, show ref.encode.length = 16 by simp [PageRef.encode]]
    decide
  exact (h.keys.sorts h.read.accepted hlen hmade hext hmax hc hx hstore).mono fun hsorts => ⟨hsorts, h.entryOf hpages hx hstore⟩

end

end DryDb
