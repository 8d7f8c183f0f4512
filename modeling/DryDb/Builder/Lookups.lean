import DryDb.Builder.Indexes
/-!
# Indexes of a finished file

Every index of an opened file shows the rows of its table, each once, by index key and then by primary
key; a unique one is refused when two rows share a key.
-/

namespace DryDb

open DatabaseBuilder List

/-! ## The rows of an index, sorted -/

/-- A row under its index key. -/
def SecondarySpec.keyed (index : SecondarySpec) (row : Bytes × Bytes) : Bytes × Bytes × Bytes :=
  (((index.keyFn row.1 row.2).toOption.map Prod.fst).getD [], row)

/-- The order of an index: by index key, and then by primary key unless the index is unique. -/
def SecondarySpec.Before (index : SecondarySpec) (primary : KeyEncoding) (a b : Bytes × Bytes × Bytes) : Prop :=
  index.encoding.compare a.1 b.1 = .ok .lt ∨
    index.unique = false ∧ index.encoding.compare a.1 b.1 = .ok .eq ∧ primary.compare a.2.1 b.2.1 = .ok .lt

instance (index : SecondarySpec) (primary : KeyEncoding) (a b : Bytes × Bytes × Bytes) : Decidable (index.Before primary a b) :=
  inferInstanceAs (Decidable (_ ∨ _))

/-- The rows of a table in the order of an index, each under its key. -/
structure IndexSorted (index : SecondarySpec) (primary : KeyEncoding) (rows : List (Bytes × Bytes))
    (found : List (Bytes × Bytes × Bytes)) : Prop where
  perm : found.Perm (rows.map index.keyed)
  keys : ∀ row ∈ rows, ∃ key, index.keyFn row.1 row.2 = .ok key
  ascending : found.Pairwise (index.Before primary)

variable {primary : KeyEncoding} {rows : List (Bytes × Bytes)} {found : List (Bytes × Bytes × Bytes)} {rs : List Record}
  {ρ : Type}

/-- Key and value, as a cursor shows them. -/
def shown (found : List (Bytes × Bytes × Bytes)) : List (Bytes × Bytes) := found.map fun f => (f.1, f.2.2)

section

variable {b : DatabaseBuilder} {pages : List Bytes} {spec : TableSpec} {rows : List (Bytes × Bytes)} {t : BuiltTable}
  {rs : List Record} {spools : List RecordSpool} {ρ : Type} [LinearOrder ρ] {rank : Bytes → ρ}

/-- The records of an index tree, sorted as they are, are its rows. -/
theorem IndexTreeRead.sorted {index : SecondarySpec} {rs' found : List Record} {root : Nat} {entries : List (Bytes × Bytes × Unit)}
    (h : IndexTreeRead b index rank pages rs rs' found root entries) (hread : TableRead b pages spec rows t rs spools)
    (hc : index.encoding.Composes rank) {τ : Type} [LinearOrder τ] {primary : Bytes → τ} (ho : spec.encoding.OrderedBy primary) :
    ∃ sorted, IndexSorted index spec.encoding rows sorted ∧ shown sorted = shownRows rs' found := by
  have hlength := h.read.rows.length_eq
  have hkey : ∀ x ∈ rs'.zip found, ∃ n, index.keyFn x.2.key x.2.value = .ok (x.1.key, n) := fun x hx =>
    (forall₂_zip h.read.rows hx).key
  have hkeyed : (rs'.zip found).map (fun x => (x.1.key, x.2.row)) = (found.map Record.row).map index.keyed := by
    have hsnd : found = (rs'.zip found).map Prod.snd := (map_snd_zip hlength.ge).symm
    conv_rhs => rw [hsnd]
    rw [map_map, map_map]
    refine map_congr_left fun x hx => ?_
    obtain ⟨n, hn⟩ := hkey x hx
    simp [SecondarySpec.keyed, Record.row, hn, Except.toOption]
  have hpairwise := (pairwise_map (f := Record.row)).1 (hread.rows_compare ho)
  refine ⟨(rs'.zip found).map fun x => (x.1.key, x.2.row), ⟨?_, fun row hrow => ?_, ?_⟩, ?_⟩
  · rw [hkeyed]
    exact ((h.read.perm.map Record.row).trans hread.read.perm).map index.keyed
  · obtain ⟨r, hr, rfl⟩ := mem_map.1 (hread.read.perm.mem_iff.2 hrow)
    obtain ⟨r', -, hof⟩ := exists_of_mem_left h.read.rows.flip (h.read.perm.mem_iff.2 hr)
    exact ⟨_, hof.key.choose_spec⟩
  · refine pairwise_map.2 ?_
    cases hun : index.unique with
    | false => exact (h.read.stable hpairwise hc.serves.ordered.ranks).imp fun hab => hab.imp_right fun h => ⟨hun, h⟩
    | true =>
      -- The tree's keys are the index keys, in strict order.
      have hstrict : (rs'.map Record.key).Pairwise fun a b => rank a < rank b := by
        have hsame : entries.map Prod.fst = rs'.map Record.key := by
          have hfrom := h.keys.records
          rw [hun] at hfrom
          clear * - hfrom
          induction hfrom with
          | nil => rfl
          | cons he _ ih => rw [map_cons, map_cons, ih, show _ = _ from he.2]
        rw [← hsame]
        exact pairwise_map.2 (h.keys.unique hun)
      have hzip : ((rs'.zip found).map Prod.fst).Pairwise fun a b => rank a.key < rank b.key := by
        rw [map_fst_zip hlength.le]
        exact (pairwise_map (f := Record.key)).1 hstrict
      refine (pairwise_map.1 hzip).imp_of_mem fun {a b} ha hb hlt => .inl ?_
      rw [hc.serves.ordered.compare _ _ (h.read.accepted _ (of_mem_zip ha).1) (h.read.accepted _ (of_mem_zip hb).1),
        compare_lt_iff_lt.2 hlt]
  · rw [shown, shownRows, map_map]
    rfl

end

/-! ## Shared keys -/

/-- An opened index shows these rows of its table. -/
structure IndexServed {ρ : Type} [LinearOrder ρ] (index : SecondarySpec) (rank : Bytes → ρ) (primary : KeyEncoding)
    (rows : List (Bytes × Bytes)) (limits : Limits) (pages : List Bytes) (x : Index) (found : List (Bytes × Bytes × Bytes)) :
    Prop where
  name : x.descriptor.name = index.name
  unique : x.isUnique = index.unique
  source : x.sourceEncoding = index.encoding
  sorted : IndexSorted index primary rows found
  keys : ∀ f ∈ found, index.encoding.Accepts f.1
  holds : ∃ entries, x.tree.WithinDepth limits pages (x.Holds rank index.encoding.Accepts entries (shown found))

theorem IndexServed.probes [LinearOrder ρ] {index : SecondarySpec} {rank : Bytes → ρ}
    {limits : Limits} {pages : List Bytes} {x : Index}
    (h : IndexServed index rank primary rows limits pages x found) (hc : index.encoding.Composes rank) :
    ∀ key, x.sourceEncoding.Valid key → index.encoding.Accepts key := by
  intro key hkey
  rw [h.source] at hkey
  exact ⟨hkey, hc.digests key hkey⟩

section

variable {past : List (Event DatabaseBuilder BuilderCall)} {b : DatabaseBuilder} {report : BuildReport} {file : Bytes}
  {built : List BuiltTable} {pages : List Bytes} {sink : PageSink} {opts : OpenOptions} {i : Nat} {spec : TableSpec}
  {limits : Limits} {found : List (Bytes × Bytes × Bytes)}

theorem BuildDone.index (h : BuildDone past b report file built pages sink) (hfits : ∀ e ∈ past, e.label.Fits)
    (hi : b.tables[i]? = some spec) {τ : Type} [LinearOrder τ] {primary : Bytes → τ}
    (ho : spec.encoding.OrderedBy primary) (hfit : ∀ index ∈ spec.secondaries, index.KeysFit (acceptedRows i past)) {t : BuiltTable} (ht : built[i]? = some t)
    {store : PageStore} (hstore : store.Serves limits pages) {table : Table} (hopened : TableOpened opts store spec t table) {j : Nat}
    {index : SecondarySpec} (hj : spec.secondaries[j]? = some index) {ρ : Type} [LinearOrder ρ] {rank : Bytes → ρ}
    (hc : index.encoding.Composes rank) :
    ∃ x found, table.secondaries[j]? = some x ∧
      IndexServed index rank spec.encoding (acceptedRows i past) limits pages x found := by
  obtain ⟨t', rs, spools, ht', hread⟩ := h.table hi
  obtain rfl : t' = t := Option.some.inj (ht'.symm.trans ht)
  obtain ⟨root, x, hroot, hx, hindex⟩ := getElem?_of_zip hopened.count hopened.secondaries hj
  obtain ⟨rs', found, entries, htree⟩ := hread.index h.ok.pageSize.2 (fun row hrow => fits_of_accepted hfits hrow) hfit hj hc hroot
  obtain ⟨sorted, hsorted, hshown⟩ := htree.sorted hread hc ho
  obtain ⟨sink₀, specs, htrees⟩ := h.trees
  have hholds := htree.holds h.ok.pageSize.2 htrees.holds.limit hc hindex hstore
  refine ⟨x, sorted, hx, hindex.name, hindex.unique, hindex.source, hsorted, fun f hf => ?_, _, hshown ▸ hholds⟩
  have hmem : (f.1, f.2.2) ∈ shownRows rs' found := hshown ▸ mem_map_of_mem hf
  obtain ⟨y, hy, heq⟩ := mem_map.1 hmem
  exact (Prod.mk.inj heq).1 ▸ htree.read.accepted _ (of_mem_zip hy).1

/-- A unique index over the same keys shows the same rows. -/
theorem IndexServed.same {ρ : Type} [LinearOrder ρ] {index index' : SecondarySpec} {rank : Bytes → ρ} (ho : index.encoding.OrderedBy rank)
    {primary : KeyEncoding} {rows : List (Bytes × Bytes)} {x x' : Index}
    {found' : List (Bytes × Bytes × Bytes)} (h : IndexServed index rank primary rows limits pages x found)
    (h' : IndexServed index' rank primary rows limits pages x' found')
    (henc : index'.encoding = index.encoding) (hunique : index'.unique = true)
    (hkeyed : ∀ row ∈ rows, index'.keyed row = index.keyed row) : found' = found := by
  have hmap : rows.map index'.keyed = rows.map index.keyed := map_congr_left hkeyed
  have hperm : found'.Perm found := (h'.sorted.perm.trans (.of_eq hmap)).trans h.sorted.perm.symm
  have hacc := h.keys
  have hacc' : ∀ f ∈ found', index.encoding.Accepts f.1 := fun f hf => hacc f (hperm.mem_iff.1 hf)
  have hstrict : found'.Pairwise fun a b => rank a.1 < rank b.1 := by
    refine h'.sorted.ascending.imp_of_mem fun {a b} ha hb hab => ?_
    obtain hlt | ⟨hno, -⟩ := hab
    · rw [henc, ho.compare _ _ (hacc' a ha) (hacc' b hb), Except.ok.injEq, compare_lt_iff_lt] at hlt
      exact hlt
    · rw [hunique] at hno
      cases hno
  have hsorted : found.Pairwise fun a b => rank a.1 ≤ rank b.1 := by
    refine h.sorted.ascending.imp_of_mem fun {a b} ha hb hab => ?_
    rw [SecondarySpec.Before, ho.compare _ _ (hacc a ha) (hacc b hb), Except.ok.injEq, Except.ok.injEq, compare_lt_iff_lt,
      compare_eq_iff_eq] at hab
    exact hab.elim le_of_lt fun heq => heq.2.1.le
  have hnodup : (found'.map Prod.fst).Nodup :=
    pairwise_map.2 (hstrict.imp fun hlt heq => hlt.ne (congrArg rank heq))
  refine hperm.eq_of_pairwise (fun a b ha hb hab hba => ?_) (hstrict.imp le_of_lt) hsorted
  have hkey := ho.inj _ _ (hacc' a ha) (hacc b hb) (le_antisymm hab hba)
  exact inj_on_of_nodup_map hnodup ha (hperm.mem_iff.2 hb) hkey

end

end DryDb
