import DryDb.Builder.Finished
import DryDb.Writer.Served
/-!
# A built file opens

What a build writes, `openBytes` accepts: the handles it returns are the declared tables and
indexes over the trees that were written, and every page of the file loads as it was written.
-/

namespace DryDb

open DryDb.Parser List

/-! ## The catalog -/

/-- The descriptors end where parsing them stopped. -/
theorem Catalog.descriptorEnd_eq {h : Header} {buf : Bytes} {c : Catalog} {stop : Nat}
    (hparse : Catalog.parse h buf = .ok (.complete c stop)) : c.descriptorEnd = stop := by
  unfold Catalog.parse Catalog.parser at hparse
  obtain ⟨filters, mid, -, hparse⟩ := bind_eq_complete.1 hparse
  obtain ⟨tables, mid', -, hparse⟩ := bind_eq_complete.1 hparse
  obtain ⟨_, mid'', -, hparse⟩ := bind_eq_complete.1 hparse
  cases hparse
  rfl

/-- Descriptors that end within the limit are found. -/
theorem readCatalog_within {file : Bytes} {h : Header} {maxBytes : Nat} (hheader : headerLen ≤ file.length) (hlimit : headerLen ≤ maxBytes)
    {c : Catalog} {stop : Nat} (hparse : Catalog.parse h (file.take maxBytes) = .ok (.complete c stop)) :
    readCatalog file h maxBytes = .ok c := by
  obtain ⟨r, hr⟩ := growCatalog_starts (fun n => .ok (file.take n)) h maxBytes
  have hrun := hr (maxBytes + 1) (Nat.lt_succ_self _)
  have hread : readCatalog file h maxBytes = r := readCatalogFrom_eq hrun
  rw [hread]
  exact (growCatalog_answers (Nat.le_max_right ..) (Nat.max_le.2 ⟨Nat.min_le_right .., hlimit⟩) hrun c).2 ⟨hheader, stop, hparse⟩

/-! ## What the reader has to bring along -/

/-- The limits admit the file: the front, which ends with the descriptors, and every page as it is stored. -/
structure Limits.AdmitFile (limits : Limits) (filter : Option PageFilter) (front : Bytes) (pages : List Bytes) : Prop where
  catalog : front.length ≤ limits.maxCatalogBytes
  pages : ∀ page ∈ pages, ∀ stored, PageSink.storedPage filter page = .ok stored → limits.Admit filter page stored

/-- The reader knows the filter and the encodings the file was built with, and the filter gives back what it was given. -/
structure OpenOptions.Knows (opts : OpenOptions) (b : DatabaseBuilder) : Prop where
  filter : ∀ f ∈ b.filter, opts.filters.resolve f.id = .ok f ∧ f.Inverts
  primaries : ∀ spec ∈ b.tables, opts.encodings.resolve spec.encoding.id = .ok spec.encoding
  secondaries : ∀ spec ∈ b.tables, ∀ index ∈ spec.secondaries, opts.encodings.resolve index.encoding.id = .ok index.encoding

/-! ## The handles -/

/-- A tree as it is opened. -/
structure TreeOpened (opts : OpenOptions) (store : PageStore) (encoding : KeyEncoding) (root : Nat) (t : Tree) : Prop where
  store : t.store = store
  root : t.root = some root
  encoding : t.encoding = encoding
  validateDigests : t.validateDigests = opts.validateDigests

section

variable {α β γ : Type} {R : α → β → γ → Prop} {as : List α} {bs : List β} {cs : List γ}

/-- The elements of lists that belong together. -/
theorem getElem?_of_zip (hlen : as.length = bs.length) (h : List.Forall₂ (fun (x : α × β) c => R x.1 x.2 c) (as.zip bs) cs) {i : Nat}
    {a : α} (hi : as[i]? = some a) : ∃ b c, bs[i]? = some b ∧ cs[i]? = some c ∧ R a b c := by
  have hb := getElem?_eq_getElem (hlen ▸ (List.getElem?_eq_some_iff.1 hi).1 : i < bs.length)
  obtain ⟨c, hc, hr⟩ := forall₂_getElem? h.flip (getElem?_zip_eq_some (z := (a, _)).2 ⟨hi, hb⟩)
  exact ⟨_, c, hb, hc, hr⟩

end

structure IndexOpened (opts : OpenOptions) (store : PageStore) (index : SecondarySpec) (root : Nat) (x : Index) : Prop where
  name : x.descriptor.name = index.name
  unique : x.descriptor.isUnique = index.unique
  source : x.sourceEncoding = index.encoding
  tree : TreeOpened opts store index.treeEncoding root x.tree

structure TableOpened (opts : OpenOptions) (store : PageStore) (spec : TableSpec) (t : BuiltTable) (x : Table) : Prop where
  name : x.descriptor.name = spec.name
  primary : TreeOpened opts store spec.encoding t.primary x.primary
  count : spec.secondaries.length = t.secondaries.length
  secondaries : List.Forall₂ (fun (i : SecondarySpec × Nat) y => IndexOpened opts store i.1 i.2 y)
    (spec.secondaries.zip t.secondaries) x.secondaries

section

variable {opts : OpenOptions} (store : PageStore)

theorem index_opens {index : SecondarySpec} {root : Nat} {d : IndexDescriptor} (hd : index.decl.Describes root d)
    (hknows : opts.encodings.resolve index.encoding.id = .ok index.encoding) (id : Nat) :
    ∃ x, Index.build d store opts id = .ok x ∧ IndexOpened opts store index root x := by
  unfold Index.build
  rw [if_neg (by rw [hd.valueKind]; simp [SecondarySpec.decl]), hd.keyEncodingId, show index.decl.keyEncodingId = index.encoding.id from rfl,
    hknows, ok_bind]
  refine ⟨_, rfl, hd.name, hd.isUnique, rfl, rfl, hd.root, ?_, rfl⟩
  rw [hd.isUnique]
  rfl

theorem indexes_open {indexes : List SecondarySpec} {roots : List Nat} {ds : List IndexDescriptor}
    (hd : List.Forall₂ (fun (d : IndexDecl × Nat) x => d.1.Describes d.2 x) ((indexes.map SecondarySpec.decl).zip roots) ds)
    (hlen : indexes.length = roots.length)
    (hknows : ∀ index ∈ indexes, opts.encodings.resolve index.encoding.id = .ok index.encoding) (id : Nat) :
    ∃ xs, Index.buildAll store opts id ds = .ok xs ∧
      List.Forall₂ (fun (i : SecondarySpec × Nat) y => IndexOpened opts store i.1 i.2 y) (indexes.zip roots) xs := by
  induction indexes generalizing roots ds id with
  | nil =>
    cases hd
    exact ⟨[], rfl, .nil⟩
  | cons index indexes ih =>
    cases roots with
    | nil => cases hlen
    | cons root roots =>
      cases hd with
      | cons hfirst hrest =>
        obtain ⟨x, hx, hopened⟩ := index_opens store hfirst (hknows index mem_cons_self) id
        obtain ⟨xs, hxs, hall⟩ := ih hrest (by simpa using hlen) (fun i hi => hknows i (mem_cons_of_mem _ hi)) (id + 1)
        refine ⟨x :: xs, ?_, .cons hopened hall⟩
        rw [Index.buildAll, hx, ok_bind, hxs, ok_bind]

theorem table_opens {spec : TableSpec} {t : BuiltTable} {d : TableDescriptor} (hd : spec.Describes t d)
    (hprimary : opts.encodings.resolve spec.encoding.id = .ok spec.encoding)
    (hsecondaries : ∀ index ∈ spec.secondaries, opts.encodings.resolve index.encoding.id = .ok index.encoding) (id : Nat) :
    ∃ x, Table.build d store opts id = .ok x ∧ TableOpened opts store spec t x := by
  obtain ⟨xs, hxs, hall⟩ := indexes_open store hd.secondaries hd.count hsecondaries (id + 1)
  unfold Table.build
  rw [if_neg (by rw [hd.primary.valueKind]; simp [TableSpec.primaryDecl]), hd.primary.keyEncodingId,
    show spec.primaryDecl.keyEncodingId = spec.encoding.id from rfl, hprimary, ok_bind, hxs, ok_bind]
  exact ⟨_, rfl, hd.name, ⟨rfl, hd.primary.root, rfl, rfl⟩, hd.count, hall⟩

theorem tables_open {specs : List TableSpec} {built : List BuiltTable} {ds : List TableDescriptor}
    (hd : List.Forall₂ (fun (s : TableSpec × BuiltTable) x => s.1.Describes s.2 x) (specs.zip built) ds)
    (hlen : specs.length = built.length)
    (hprimary : ∀ spec ∈ specs, opts.encodings.resolve spec.encoding.id = .ok spec.encoding)
    (hsecondaries : ∀ spec ∈ specs, ∀ index ∈ spec.secondaries,
      opts.encodings.resolve index.encoding.id = .ok index.encoding) (id : Nat) :
    ∃ xs, Table.buildAll store opts id ds = .ok xs ∧
      List.Forall₂ (fun (s : TableSpec × BuiltTable) x => TableOpened opts store s.1 s.2 x) (specs.zip built) xs := by
  induction specs generalizing built ds id with
  | nil =>
    cases hd
    exact ⟨[], rfl, .nil⟩
  | cons spec specs ih =>
    cases built with
    | nil => cases hlen
    | cons t built =>
      cases hd with
      | @cons _ d _ _ hfirst hrest =>
        obtain ⟨x, hx, hopened⟩ := table_opens store hfirst (hprimary spec mem_cons_self)
          (hsecondaries spec mem_cons_self) id
        obtain ⟨xs, hxs, hall⟩ := ih hrest (by simpa using hlen) (fun s hs => hprimary s (mem_cons_of_mem _ hs))
          (fun s hs => hsecondaries s (mem_cons_of_mem _ hs)) (id + 1 + d.secondaries.length)
        refine ⟨x :: xs, ?_, .cons hopened hall⟩
        rw [Table.buildAll, hx, ok_bind, hxs, ok_bind]

end

/-! ## Opening the file -/

theorem openFilter_known {opts : OpenOptions} {b : DatabaseBuilder} (h : opts.Knows b) :
    openFilter opts.filters (b.filter.toList.map PageFilter.id) = .ok b.filter := by
  cases hf : b.filter with
  | none => rfl
  | some f =>
    show some <$> opts.filters.resolve f.id = _
    rw [(h.filter f (by rw [hf]; rfl)).1]
    rfl

namespace DatabaseBuilder.FileDone

variable {b : DatabaseBuilder} {built : List BuiltTable} {pages : List Bytes} {sink : PageSink} {file : Bytes}
  {opts : OpenOptions}

/-- The store a reader reads the pages from. -/
def store (b : DatabaseBuilder) (pages : List Bytes) (sink : PageSink) (file : Bytes) (limits : Limits) : PageStore :=
  { source := file, directoryBase := sink.pos, pageCount := pages.length, filter := b.filter, limits }

theorem length_file (h : b.FileDone built pages sink file) :
    file.length = sink.pos + pages.length * directorySlotLen ∧ (b.front built pages.length sink.pos).length ≤ sink.pos := by
  obtain ⟨stored, -, hfile, -⟩ := h.holds.ex
  constructor
  · rw [h.file, length_append, length_flatMap_leBytes, h.holds.length_directory]
    rfl
  · show _ ≤ sink.file.length
    rw [hfile, length_append]
    omega

theorem opens (h : b.FileDone built pages sink file) (hok : b.Ok) (hfits : b.Fits)
    (ht : List.Forall₂ TableSpec.RootsOk b.tables built) (hlen : file.length < 2 ^ 63)
    (hlimit : (b.front built pages.length sink.pos).length ≤ opts.limits.maxCatalogBytes) (hknows : opts.Knows b) :
    ∃ db, openBytes opts file = .ok db ∧ db.store = store b pages sink file opts.limits ∧
      List.Forall₂ (fun (s : TableSpec × BuiltTable) x => TableOpened opts db.store s.1 s.2 x) (b.tables.zip built) db.tables := by
  obtain ⟨hsize, hfront⟩ := h.length_file
  obtain ⟨stored, -, hfile, -⟩ := h.holds.ex
  have hencode : (b.finalHeader pages.length sink.pos).encode.length = headerLen := by simp [Header.encode, magic, headerLen]
  have hwhole : file = (b.finalHeader pages.length sink.pos).encode ++
      ((filterImage b.filter ++ tablesImage b.tables (built.map BuiltTable.fields)) ++
        (stored.flatten ++ sink.directory.flatMap (leBytes directorySlotLen))) := by
    rw [h.file, hfile, front]
    simp only [append_assoc]
  have hheader : readHeader file = .ok (b.finalHeader pages.length sink.pos) := by
    have htake : file.take headerLen = (b.finalHeader pages.length sink.pos).encode := by
      rw [hwhole, take_left' hencode]
    have hparse := (h.headerFits hok hfits hlen).parse []
    unfold readHeader
    simp only [htake]
    rw [if_neg (by omega), ← hparse, append_nil]
  obtain ⟨c, hreads, hdescribes, hcount, hposition⟩ := hfits.catalog ht pages.length sink.pos
  have hparse := hreads _ (stored.flatten ++ sink.directory.flatMap (leBytes directorySlotLen)) hencode
  rw [← hwhole] at hparse
  have hend : c.descriptorEnd ≤ sink.pos := by
    rw [Catalog.descriptorEnd_eq hparse, ← hencode, ← length_append]
    exact hfront
  obtain ⟨extra, hextra⟩ := Nat.exists_eq_add_of_le hlimit
  have htake : file.take opts.limits.maxCatalogBytes = (b.finalHeader pages.length sink.pos).encode ++
      ((filterImage b.filter ++ tablesImage b.tables (built.map BuiltTable.fields)) ++
        (stored.flatten ++ sink.directory.flatMap (leBytes directorySlotLen)).take extra) := by
    rw [hextra, h.file, hfile, append_assoc, take_length_add_append, front, append_assoc]
  have hcatalog : readCatalog file (b.finalHeader pages.length sink.pos) opts.limits.maxCatalogBytes = .ok c := by
    have hheader : headerLen ≤ (b.front built pages.length sink.pos).length := by
      rw [front, length_append, hencode]
      omega
    have hfound := hreads _ ((stored.flatten ++ sink.directory.flatMap (leBytes directorySlotLen)).take extra) hencode
    rw [← htake] at hfound
    exact readCatalog_within (by omega) (hheader.trans hlimit) hfound
  have hspan : (b.finalHeader pages.length sink.pos).directorySpan = .ok (sink.pos, file.length) := by
    have hslot : directorySlotLen = 8 := rfl
    have hmul : checkedMul pages.length directorySlotLen = some (pages.length * directorySlotLen) :=
      Node.checkedMul_of_lt (by simp only [usizeLimit]; omega)
    have hadd : checkedAdd sink.pos (pages.length * directorySlotLen) = some file.length := by
      rw [hsize]
      exact Node.checkedAdd_of_lt (by simp only [usizeLimit]; omega)
    show (do
      let len ← okOr (checkedMul pages.length directorySlotLen) (Error.corrupt "page directory size overflows")
      let stop ← okOr (checkedAdd sink.pos len) (Error.corrupt "page directory end overflows")
      .ok (sink.pos, stop) : Result (Nat × Nat)) = _
    rw [hmul, okOr_some, ok_bind, hadd, okOr_some, ok_bind]
  obtain ⟨xs, hxs, hall⟩ := tables_open (store b pages sink file opts.limits) hdescribes.tables
    hdescribes.count hknows.primaries hknows.secondaries 1
  refine ⟨{ catalog := c, store := store b pages sink file opts.limits, tables := xs }, ?_, rfl, hall⟩
  unfold openBytes
  simp only [hheader, hcatalog, hspan, ok_bind]
  rw [if_neg (Nat.lt_irrefl _), if_neg (Nat.not_lt.2 hend), hdescribes.filters, openFilter_known hknows, ok_bind, hcount,
    hposition]
  show (do
    let tables ← Table.buildAll (store b pages sink file opts.limits) opts 1 c.tables
    .ok { catalog := c, store := store b pages sink file opts.limits, tables } : Result Database) = _
  rw [hxs, ok_bind]

/-- Without a filter, limits no smaller than the file admit it. -/
theorem admitFile (h : b.FileDone built pages sink file) (hfilter : b.filter = none) {limits : Limits}
    (hstored : file.length ≤ limits.maxStoredPageBytes) (hcatalog : file.length ≤ limits.maxCatalogBytes) :
    limits.AdmitFile b.filter (b.front built pages.length sink.pos) pages := by
  obtain ⟨stored, hst, hfile, -⟩ := h.holds.ex
  obtain ⟨hsize, hfront⟩ := h.length_file
  refine ⟨by omega, fun page hpage st heq => ?_⟩
  obtain ⟨st', hst', hpage'⟩ := exists_of_mem_left hst hpage
  rw [h.filter, heq] at hpage'
  cases hpage'
  have hle : st.length ≤ file.length := by
    rw [h.file, hfile, length_append, length_append]
    have := (sublist_flatten_of_mem hst').length_le
    omega
  rw [hfilter]
  exact ⟨hle.trans hstored, nofun, nofun⟩

/-- Every page of a finished file loads as it was written. -/
theorem delivers (h : b.FileDone built pages sink file) (hlen : file.length < 2 ^ 63)
    (hadmits : opts.limits.AdmitFile b.filter (b.front built pages.length sink.pos) pages) (hknows : opts.Knows b) {env : Env}
    (henv : env.Reads (store b pages sink file opts.limits)) : env.Delivers pages := by
  obtain ⟨stored, hstored, hfile, hdirectory⟩ := h.holds.ex
  obtain ⟨hsize, -⟩ := h.length_file
  have hholds : (store b pages sink file opts.limits).HoldsPages (b.front built pages.length sink.pos) stored := by
    refine ⟨?_, ?_, hstored.length_eq, ?_, ?_, hlen⟩
    · show file = _
      rw [h.file, hfile, hdirectory]
    · show sink.file.length = _
      rw [hfile, length_append]
    · simp only [front, Header.encode, length_append, leBytes_length, headerLen, magic, length_cons, length_nil]
      omega
    · intro st hst
      obtain ⟨page, hmem, hpage⟩ := exists_of_mem_left hstored.flip hst
      exact length_storedPage (h.holds.prefixed page hmem) hpage
  intro o page ho hchecks
  obtain ⟨hlt, hpage⟩ := List.getElem?_eq_some_iff.1 ho
  have hlt' : o < stored.length := hstored.length_eq ▸ hlt
  have hst : PageSink.storedPage b.filter page = .ok stored[o] := by
    have := hstored.get hlt hlt'
    rw [h.filter] at this
    rw [← hpage]
    exact this
  obtain ⟨pin, hload, hord, hbytes⟩ := hholds.load (getElem?_eq_getElem hlt') rfl hst (fun f hf => (hknows.filter f hf).2) hchecks
    (hadmits.pages page (mem_of_getElem? ho) _ hst)
  refine ⟨pin, ?_, hord, hbytes⟩
  rw [henv o, PageStore.page, hload]
  rfl

end DatabaseBuilder.FileDone

end DryDb
