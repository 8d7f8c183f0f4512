import DryDb.Builder.Front
import DryDb.Catalog.Prefixes
/-!
# The finished file

What a build leaves behind: the header with the page count and the directory's position, the
descriptors with the roots of the trees, the pages and the directory.
-/

namespace DryDb

open DryDb.Parser

/-! ## In front of the pages -/

theorem writeFilter_eq_ok {filter : Option PageFilter} {sink sink' : PageSink} (h : writeFilter filter sink = .ok sink') :
    (∀ f ∈ filter, (utf8Bytes f.id).length ≤ 255) ∧ sink' = sink.writeRaw (filterImage filter) := by
  cases filter with
  | none =>
    cases h
    exact ⟨nofun, by simp [PageSink.writeRaw, filterImage]⟩
  | some f =>
    obtain ⟨hlen, h⟩ := guard_eq_ok.1 h
    cases h
    exact ⟨by simpa using hlen, writeRaw_writeRaw ..⟩

namespace DatabaseBuilder

variable {b : DatabaseBuilder} {sink : PageSink} {built : List BuiltTable} {pages : List Bytes} {specs : List TableSpec}
  {file : Bytes}

/-- What the file starts with once the trees are there. -/
def front (b : DatabaseBuilder) (built : List BuiltTable) (pageCount position : Nat) : Bytes :=
  (b.finalHeader pageCount position).encode ++ (filterImage b.filter ++ tablesImage b.tables (built.map BuiltTable.fields))

theorem writeDescriptors_eq_ok {roots : List TableRoots} (hok : b.Ok) (h : b.writeDescriptors = .ok (roots, sink)) :
    b.Fits ∧ roots = tableRootsAt (b.header.encode ++ filterImage b.filter).length b.tables ∧
      ∃ fields, List.Forall₂ TableSpec.FieldsOk b.tables fields ∧
        sink = { file := b.header.encode ++ filterImage b.filter ++ tablesImage b.tables fields, filter := b.filter } := by
  obtain ⟨hcount, h⟩ := guard_eq_ok.1 h
  obtain ⟨mid, hfilter, h⟩ := bind_eq_ok.1 h
  obtain ⟨hid, rfl⟩ := writeFilter_eq_ok hfilter
  obtain ⟨hfits, rfl, fields, hfields, rfl⟩ := writeTableDescriptors_eq_ok h
  refine ⟨⟨hid, fun spec hspec => ?_, Nat.le_of_not_lt hcount, hok.names⟩, ?_, fields, hfields, ?_⟩
  · obtain ⟨hprimary, hsecondaries, hindexes⟩ := hfits spec hspec
    exact ⟨hprimary, hsecondaries, hindexes, hok.indexes spec hspec⟩
  · rw [writeRaw_writeRaw, pos_writeRaw]
    simp [PageSink.pos]
  · simp [PageSink.writeRaw]

/-- What a build has done when all trees are written: `specs` are the tables as they were when
their turn came. -/
structure TreesDone (b : DatabaseBuilder) (built : List BuiltTable) (sink : PageSink) (pages : List Bytes)
    (specs : List TableSpec) : Prop where
  fits : b.Fits
  holds : sink.Holds (b.front built 0 0) pages
  filter : sink.filter = b.filter
  flushed : List.Forall₂ TableSpec.Flushed b.tables specs
  tables : List.Forall₂ (TableDone b pages) specs built

theorem buildTrees_done (hok : b.Ok) (h : b.buildTrees = .ok (built, sink)) :
    ∃ pages specs, b.TreesDone built sink pages specs := by
  obtain ⟨⟨roots, start⟩, hwrite, h⟩ := bind_eq_ok.1 h
  obtain ⟨⟨_, tables⟩, hkept, h⟩ := bind_eq_ok.1 h
  obtain ⟨hfits, rfl, fields, hfields, rfl⟩ := writeDescriptors_eq_ok hok hwrite
  obtain ⟨hflushed, -⟩ := keepInside_tables hok.sound hkept
  have hsound : ∀ spec ∈ tables, spec.spool.Sound := by
    intro spec' hspec'
    obtain ⟨spec, hspec, hflush⟩ := exists_of_mem_left hflushed.flip hspec'
    exact hflush.spool.sound (hok.sound spec hspec)
  have hstart : ({ file := b.header.encode ++ filterImage b.filter ++ tablesImage b.tables fields, filter := b.filter } : PageSink).Holds
      ((b.header.encode ++ filterImage b.filter) ++ (tablesImage tables fields ++ [])) [] :=
    ⟨⟨[], .nil, by rw [tablesImage_flushed hflushed]; simp, rfl⟩, by simp, by simp⟩
  have hbuild : b.buildTables (tableRootsAt (b.header.encode ++ filterImage b.filter).length tables) tables
      { file := b.header.encode ++ filterImage b.filter ++ tablesImage b.tables fields, filter := b.filter } =
      .ok (built, sink) := by
    rw [tableRootsAt_flushed hflushed]
    exact h
  obtain ⟨pages, specs, hholds, -, hfilter, hlater, hdone⟩ :=
    buildTables_done hsound (fieldsOk_flushed hflushed hfields) hstart hbuild
  refine ⟨pages, specs, hfits, ?_, hfilter, forall₂_flushed_trans hflushed hlater, hdone⟩
  rw [List.append_nil, tablesImage_flushed hflushed, List.append_assoc] at hholds
  exact hholds

/-- The page count and the directory's position are the end of the header. -/
theorem finalHeader_encode (b : DatabaseBuilder) : ∃ lead : Bytes, lead.length = pageCountFieldOffset ∧
    ∀ pageCount position, (b.finalHeader pageCount position).encode = lead ++ (leBytes 4 pageCount ++ leBytes 8 position) := by
  refine ⟨((b.finalHeader 0 0).chunks.take 6).flatten, ?_, fun pageCount position => ?_⟩
  · simp [Header.chunks, magic, pageCountFieldOffset]
  · simp [Header.encode, Header.chunks, finalHeader]

/-- What a finished build leaves: the file, whose pages come behind the front and whose
directory comes last. -/
structure FileDone (b : DatabaseBuilder) (built : List BuiltTable) (pages : List Bytes) (sink : PageSink) (file : Bytes) : Prop where
  holds : sink.Holds (b.front built pages.length sink.pos) pages
  filter : sink.filter = b.filter
  file : file = sink.file ++ sink.directory.flatMap (leBytes directorySlotLen)

theorem finishBuild_done {reports : List TableReport} {report : BuildReport} (hd : b.TreesDone built sink pages specs)
    (h : finishBuild reports sink = .ok (report, file)) :
    report.pageCount = pages.length ∧ ∃ sink', b.FileDone built pages sink' file := by
  obtain ⟨lead, hlead, hencode⟩ := b.finalHeader_encode
  obtain ⟨hcount, h⟩ := guard_eq_ok.1 h
  cases h
  have hsink := hd.holds
  have hfront : ∀ count position, b.front built count position =
      lead ++ ((leBytes 4 count ++ leBytes 8 position) ++
        (filterImage b.filter ++ tablesImage b.tables (built.map BuiltTable.fields))) := by
    intro count position
    rw [front, hencode, List.append_assoc]
  have hin : pageCountFieldOffset + (leBytes 4 pages.length ++ leBytes 8 sink.pos).length ≤ (b.front built 0 0).length := by
    rw [hfront]
    simp only [List.length_append, leBytes_length, hlead]
    omega
  have hpatched := hsink.patchFront hin
  rw [hfront, ← hlead, overwrite_field (by simp), ← hfront] at hpatched
  have hinside : lead.length + (leBytes 4 pages.length ++ leBytes 8 sink.pos).length ≤ sink.file.length := by
    obtain ⟨stored, -, hfile, -⟩ := hsink.ex
    rw [hfile, hlead]
    exact hin.trans (by simp)
  have hlen : (sink.patchAt lead.length (leBytes 4 pages.length ++ leBytes 8 sink.pos)).pos = sink.pos :=
    overwrite_length hinside
  refine ⟨hsink.length_directory, sink.patchAt lead.length (leBytes 4 pages.length ++ leBytes 8 sink.pos), ?_, hd.filter, ?_⟩
  · rw [hlen]
    exact hpatched
  · show overwrite (sink.file ++ _) pageCountFieldOffset (leBytes 4 sink.directory.length ++ leBytes 8 sink.pos) = _
    rw [hsink.length_directory, ← hlead, overwrite_append_left hinside]
    rfl

theorem FileDone.headerFits (h : b.FileDone built pages sink file) (hok : b.Ok) (hfits : b.Fits) (hlen : file.length < 2 ^ 63) :
    (b.finalHeader pages.length sink.pos).Fits := by
  obtain ⟨stored, -, hfile, -⟩ := h.holds.ex
  refine ⟨rfl, rfl, ?_, ⟨(show pagePrefixLen ≤ minPageSize by decide).trans hok.pageSize.1, hok.pageSize.2⟩, hfits.count,
    h.holds.limit, ?_, ?_⟩
  · show filterCount b.filter ≤ u16Max
    unfold filterCount
    split <;> decide
  · show 0 < sink.file.length
    simp only [hfile, front, Header.encode, List.length_append, leBytes_length]
    omega
  · show sink.file.length < 2 ^ 63
    rw [h.file, List.length_append] at hlen
    omega

/-- The header of a finished file reads back. -/
theorem FileDone.header (h : b.FileDone built pages sink file) (hok : b.Ok) (hfits : b.Fits) (hlen : file.length < 2 ^ 63) :
    Header.parse file = .ok (b.finalHeader pages.length sink.pos) := by
  obtain ⟨stored, -, hfile, -⟩ := h.holds.ex
  have hheader := h.headerFits hok hfits hlen
  rw [h.file, hfile, front, List.append_assoc, List.append_assoc]
  exact hheader.parse _

/-- The descriptors of a finished file read back. -/
theorem FileDone.catalog
    (h : b.FileDone built pages sink file) (hfits : b.Fits) (ht : List.Forall₂ TableSpec.RootsOk b.tables built) :
    ∃ c stop, Catalog.parse (b.finalHeader pages.length sink.pos) file = .ok (.complete c stop) ∧ c.Describes b built ∧
      c.pageCount = pages.length ∧ c.directoryPosition = sink.pos := by
  obtain ⟨stored, -, hfile, -⟩ := h.holds.ex
  obtain ⟨c, hreads, hdescribes, hcount, hposition⟩ := hfits.catalog ht pages.length sink.pos
  have hlead : (b.finalHeader pages.length sink.pos).encode.length = headerLen := by
    simp [Header.encode, magic, headerLen]
  rw [h.file, hfile, front, List.append_assoc, List.append_assoc]
  exact ⟨c, _, hreads _ _ hlead, hdescribes, hcount, hposition⟩

/-- The roots of all trees are page ordinals. -/
theorem TreesDone.rootsOk (h : b.TreesDone built sink pages specs) : List.Forall₂ TableSpec.RootsOk b.tables built := by
  have hlimit := h.holds.limit
  have hbound : ∀ r, r < pages.length → r < 2 ^ 63 := by
    intro r hr
    simp only [i32Max] at hlimit
    omega
  have hcompose : ∀ {tables specs : List TableSpec} {built : List BuiltTable}, List.Forall₂ TableSpec.Flushed tables specs →
      List.Forall₂ (TableDone b pages) specs built → List.Forall₂ TableSpec.RootsOk tables built := by
    intro tables specs built hflushed hdone
    induction hflushed generalizing built with
    | nil =>
      cases hdone
      exact .nil
    | cons hflush _ ih =>
      cases hdone with
      | cons ht hrest =>
        have hcount := ht.built.count
        rw [hflush.same] at hcount
        exact .cons ⟨hbound _ ht.primary, hcount, fun r hr => hbound r (ht.secondaries r hr)⟩ (ih hrest)
  exact hcompose h.flushed h.tables

end DatabaseBuilder

/-! ## Parsing prefixes and parsing the file -/

/-- A longer prefix keeps what a shorter one answered, the growing loop ends over any source and
answers what parsing all it may read answers, if that much holds a header; and what it answers for
a built file is what the builder was told, with the roots of the trees it wrote. -/
theorem catalog_by_prefixes :
    (∀ (h : Header) (file : Bytes) (i : Nat),
      (∀ j, i ≤ j → (∀ c stop, Catalog.parse h (file.take i) = .ok (.complete c stop) →
          Catalog.parse h (file.take j) = .ok (.complete c stop)) ∧
        ∀ e, Catalog.parse h (file.take i) = .error e → Catalog.parse h (file.take j) = .error e) ∧
      ∀ n, Catalog.parse h (file.take i) = .ok (.needMore n) → (file.take i).length < n ∧
        ∀ j, (file.take j).length < n → ∃ m, Catalog.parse h (file.take j) = .ok (.needMore m)) ∧
    (∀ (h : Header) (maxBytes : Nat), headerLen ≤ maxBytes →
      (∀ read, ∃ r, ∀ rounds, maxBytes < rounds →
        growCatalog read h maxBytes rounds (max (min 8192 maxBytes) headerLen) = some r) ∧
      ∀ file, growCatalog (fun n => .ok (file.take n)) h maxBytes (maxBytes + 1) (max (min 8192 maxBytes) headerLen) =
          some (readCatalog file h maxBytes) ∧
        ∀ c, readCatalog file h maxBytes = .ok c ↔
          headerLen ≤ file.length ∧ ∃ stop, Catalog.parse h (file.take (min file.length maxBytes)) = .ok (.complete c stop)) ∧
    ∀ past b built sink report file, BuilderRun past b → b.buildTrees = .ok (built, sink) →
      DatabaseBuilder.finishBuild (built.map BuiltTable.report) sink = .ok (report, file) →
      ∃ position c stop, (file.length < 2 ^ 63 → Header.parse file = .ok (b.finalHeader report.pageCount position)) ∧
        Catalog.parse (b.finalHeader report.pageCount position) file = .ok (.complete c stop) ∧ c.Describes b built := by
  refine ⟨fun h file i => ⟨fun j hij => ⟨fun c stop => ?_, fun e => ?_⟩, fun n hn => ⟨?_, fun j hj => ?_⟩⟩,
    fun h maxBytes hmax => ⟨fun read => ?_, fun file => ?_⟩, ?_⟩
  · exact (Catalog.stable_catalog h).complete_take hij
  · exact (Catalog.stable_catalog h).failure_take hij
  · exact (Catalog.stable_catalog h).lt_of_needMore hn
  · exact (Catalog.stable_catalog h).needMore_take hn hj
  · exact growCatalog_starts read h maxBytes
  · obtain ⟨r, hr⟩ := growCatalog_starts (fun n => .ok (file.take n)) h maxBytes
    have hrun := hr (maxBytes + 1) (Nat.lt_succ_self _)
    have hread : readCatalog file h maxBytes = r := readCatalogFrom_eq hrun
    refine ⟨hread ▸ hrun, fun c => ?_⟩
    have hwhole : file.take (min file.length maxBytes) = file.take maxBytes := by
      rw [Nat.min_comm, ← List.take_eq_take_min]
    rw [hread, hwhole]
    exact growCatalog_answers (Nat.le_max_right ..) (Nat.max_le.2 ⟨Nat.min_le_right .., hmax⟩) hrun c
  · intro past b built sink report file hrun htrees hfinish
    obtain ⟨pages, specs, hdone⟩ := DatabaseBuilder.buildTrees_done hrun.ok htrees
    obtain ⟨hcount, sink', hfile⟩ := DatabaseBuilder.finishBuild_done hdone hfinish
    obtain ⟨c, stop, hparse, hdescribes, -⟩ := hfile.catalog hdone.fits hdone.rootsOk
    rw [hcount]
    exact ⟨sink'.pos, c, stop, hfile.header hrun.ok hdone.fits, hparse, hdescribes⟩

/-- A table with one row and an index over its value. -/
def shop : DatabaseBuilder := BuilderCall.runAll
  [.createTable "a" int64Encoding {},
   .addSecondaryIndex 0 { name := "i", unique := false, encoding := asciiEncoding, keyFn := fun _ v => .ok (v, 0) },
   .append 0 (leBytes 8 7) [65]]

/-- The header and the descriptors of that file. -/
def shopFront : Bytes :=
  [68, 82, 89, 0, 1, 4, 0, 0, 0, 16, 0, 0, 1, 0, 0, 0, 0, 0, 0, 0, 0, 0, 0, 0, 0, 0,
   1, 0, 0, 0, 97, 4, 0, 3, 0, 97, 95, 112, 107, 105, 54, 52, 1, 0, 0, 0, 0, 0, 0, 0, 0, 0,
   1, 0, 1, 0, 5, 0, 105, 97, 115, 99, 105, 105, 0, 2, 1, 0, 0, 0, 0, 0, 0, 0]

/-- Its two trees. -/
def shopPages : Bytes :=
  [41, 0, 0, 0, 0, 12, 0, 0, 1, 0, 0, 0, 255, 255, 255, 255, 255, 255, 255, 255, 255, 255, 255, 255, 255, 255, 255, 255,
   7, 0, 0, 0, 0, 0, 0, 128, 40, 0, 41, 0, 65,
   63, 0, 0, 0, 0, 4, 0, 0, 1, 0, 0, 0, 255, 255, 255, 255, 255, 255, 255, 255, 255, 255, 255, 255, 255, 255, 255, 255,
   0, 0, 0, 0, 0, 0, 0, 65, 42, 0, 63, 0, 5, 0, 65, 0, 0, 0, 0, 0, 0, 0, 0, 0, 0, 0, 0, 40, 0, 0, 0, 1, 0, 0, 0]

def shopBuilt : List BuiltTable :=
  [{ report := { name := "a", rows := 1, indexes := [{ name := "i", entries := 1 }] }, primary := 0, secondaries := [1] }]

def shopSink : PageSink := { file := shopFront ++ shopPages, directory := [74, 115] }

/-- The file with the header's last fields and the directory. -/
def shopFile : Bytes :=
  shopFront.take 14 ++ [2, 0, 0, 0, 178, 0, 0, 0, 0, 0, 0, 0] ++ shopFront.drop 26 ++ shopPages ++
    [74, 0, 0, 0, 0, 0, 0, 0, 115, 0, 0, 0, 0, 0, 0, 0]

set_option maxRecDepth 10000 in
theorem catalog_by_prefixes_shop : (∃ past, BuilderRun past shop) ∧ shop.buildTrees = .ok (shopBuilt, shopSink) ∧
    (∃ report, DatabaseBuilder.finishBuild (shopBuilt.map BuiltTable.report) shopSink = .ok (report, shopFile)) ∧
    (∃ n, Catalog.parse (shop.finalHeader 2 178) (shopFile.take 30) = .ok (.needMore n) ∧ 30 < n) ∧
    ∃ c, readCatalog shopFile (shop.finalHeader 2 178) 4096 = .ok c ∧ c.Describes shop shopBuilt := by
  have htrees : shop.buildTrees = .ok (shopBuilt, shopSink) := rfl
  have hfinish : DatabaseBuilder.finishBuild (shopBuilt.map BuiltTable.report) shopSink =
    .ok ({ pageCount := 2, fileSize := 194, tables := shopBuilt.map BuiltTable.report }, shopFile) := rfl
  have hneed : Catalog.parse (shop.finalHeader 2 178) (shopFile.take 30) = .ok (.needMore 31) := rfl
  have hheader : Header.parse shopFile = .ok (shop.finalHeader 2 178) := rfl
  refine ⟨⟨_, BuilderCall.run_history _⟩, htrees, ⟨_, hfinish⟩, ⟨31, hneed, ((catalog_by_prefixes.1 _ _ 30).2 31 hneed).1⟩, ?_⟩
  obtain ⟨position, c, stop, hparsed, hparse, hdescribes⟩ := catalog_by_prefixes.2.2 _ shop _ _ _ _
    (BuilderCall.run_history _) htrees hfinish
  rw [← Except.ok.inj (hheader.symm.trans (hparsed (by decide)))] at hparse
  exact ⟨c, (((catalog_by_prefixes.2.1 _ 4096 (by decide)).2 shopFile).2 c).2 ⟨by decide, stop, hparse⟩, hdescribes⟩

/-- A file too short for a header, with a catalog of no tables. -/
theorem short_file_refused :
    let h : Header := { pageSize := 4096, pageFilterCount := 0, tableCount := 0, pageCount := 0, pageDirectoryPosition := 26 }
    (∃ c stop, Catalog.parse h (([] : Bytes).take (min 0 4096)) = .ok (.complete c stop)) ∧
      ∀ c, readCatalog [] h 4096 ≠ .ok c := by
  exact ⟨⟨_, _, rfl⟩, nofun⟩

end DryDb
