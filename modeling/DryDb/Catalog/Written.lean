import DryDb.Model.Builder
/-!
# Descriptors as they are written

The bytes `build_into` writes for every table, with the root fields filled in, and what the
catalog's parser makes of them: the names, the uniqueness, the encoding ids, the order and the
roots they were written from.
-/

namespace DryDb

open DryDb.Parser List

/-! ## Index descriptors -/

/-- What a descriptor says of an index, its root apart. -/
structure IndexDecl where
  name : String
  keyEncodingId : String
  isUnique : Bool
  valueKind : ValueKind

namespace IndexDecl

/-- The bytes of a descriptor in front of its root. -/
def head (d : IndexDecl) : Bytes :=
  leBytes 2 (utf8Bytes d.name).length ++ leBytes 2 (utf8Bytes d.keyEncodingId).length ++ utf8Bytes d.name ++
    utf8Bytes d.keyEncodingId ++ leBytes 1 (if d.isUnique then 1 else 0) ++ leBytes 1 d.valueKind.toU8

def image (d : IndexDecl) (root : Bytes) : Bytes := d.head ++ root

/-- The last field the parser takes: the flags and the root. -/
def tail (d : IndexDecl) (root : Nat) : Bytes :=
  leBytes 1 (if d.isUnique then 1 else 0) ++ leBytes 1 d.valueKind.toU8 ++ ordinalBytes (some root)

/-- The lengths fit their fields. -/
structure Fits (d : IndexDecl) : Prop where
  name : (utf8Bytes d.name).length ≤ u16Max
  keyEncodingId : (utf8Bytes d.keyEncodingId).length ≤ u16Max

/-- What a descriptor at `pos` reads as. -/
def descriptor (d : IndexDecl) (pos root : Nat) : IndexDescriptor :=
  { name := d.name, isUnique := d.isUnique, keyEncodingId := d.keyEncodingId, valueKind := d.valueKind,
    root := some root, rootFieldOffset := pos + d.head.length }

end IndexDecl

theorem utf8_utf8Bytes (name what : String) : utf8 (utf8Bytes name) what = .ok name := by
  have hbytes : (⟨(utf8Bytes name).toArray⟩ : ByteArray) = name.toByteArray := by simp [utf8Bytes]
  unfold utf8
  rw [hbytes, String.fromUTF8?, dif_pos name.isValidUTF8]
  rfl

variable {d : IndexDecl} {built : List BuiltTable}

theorem encodeIndexDescriptor_eq_ok {root bytes : Bytes} :
    encodeIndexDescriptor d.name d.keyEncodingId d.isUnique d.valueKind root = .ok bytes ↔ d.Fits ∧ bytes = d.image root := by
  simp only [encodeIndexDescriptor, guard_eq_ok, Except.ok.injEq, Nat.not_lt]
  constructor
  · rintro ⟨hname, hencoding, rfl⟩
    exact ⟨⟨hname, hencoding⟩, rfl⟩
  · rintro ⟨hfits, rfl⟩
    exact ⟨hfits.name, hfits.keyEncodingId, rfl⟩

theorem ofU8_toU8 (kind : ValueKind) : ValueKind.ofU8 kind.toU8 = .ok kind := by
  cases kind <;> rfl

theorem readU8_of_piece {off n : Nat} {buf : Bytes} (h : PieceAt buf off (leBytes 1 n)) (hn : n < 256) :
    readU8 buf off = .ok n := by
  rw [readU8, readLe_of_piece h, Nat.mod_eq_of_lt (by omega)]

/-- A descriptor reads back as what it was written from. -/
theorem IndexDecl.reads (h : d.Fits) (pos : Nat) {root : Nat} (hroot : root < 2 ^ 63) :
    ReadsAt Catalog.indexDescriptor pos (d.image (ordinalBytes (some root))) (d.descriptor pos root) := by
  have himage : d.image (ordinalBytes (some root)) =
      (leBytes 2 (utf8Bytes d.name).length ++ leBytes 2 (utf8Bytes d.keyEncodingId).length) ++
        (utf8Bytes d.name ++ (utf8Bytes d.keyEncodingId ++ d.tail root)) := by
    simp only [image, head, tail, append_assoc]
  have hpos : pos + (leBytes 2 (utf8Bytes d.name).length ++ leBytes 2 (utf8Bytes d.keyEncodingId).length).length +
      (utf8Bytes d.name).length + (utf8Bytes d.keyEncodingId).length + (d.tail root).length - 8 = pos + d.head.length := by
    simp only [head, tail, length_append, leBytes_length, ordinalBytes]
    omega
  have hunique : readU8 (d.tail root) 0 = .ok (if d.isUnique then 1 else 0) :=
    readU8_of_piece ⟨[], _, append_assoc _ _ _, rfl⟩ (by split <;> omega)
  have hkind : readU8 (d.tail root) 1 = .ok d.valueKind.toU8 :=
    readU8_of_piece ⟨_, _, rfl, by simp⟩ (by cases d.valueKind <;> decide)
  have hfield : readI64 (d.tail root) 2 = .ok (PageOrdinal.toI64 (some root)) :=
    readI64_of_piece ⟨_, [], (append_nil _).symm, by simp⟩ (by simpa using hroot)
  have hflag : Catalog.indexDescriptor.isUniqueOf d.name (if d.isUnique then 1 else 0) = .ok d.isUnique := by
    cases d.isUnique <;> rfl
  rw [himage]
  refine (readsAt_take (by simp)).bind ?_
  refine (readsAt_lift (readU16_of_piece ⟨[], _, rfl, rfl⟩ h.name)).nil_bind ?_
  refine (readsAt_lift (readU16_of_piece ⟨_, [], (append_nil _).symm, by simp⟩ h.keyEncodingId)).nil_bind ?_
  refine (readsAt_take rfl).bind ((readsAt_lift (utf8_utf8Bytes _ _)).nil_bind ?_)
  refine (readsAt_take rfl).bind ((readsAt_lift (utf8_utf8Bytes _ _)).nil_bind ?_)
  refine (readsAt_take (by simp [tail, ordinalBytes])).bind_nil ?_
  refine (readsAt_lift hunique).nil_bind ((readsAt_lift hflag).nil_bind ?_)
  refine (readsAt_lift hkind).nil_bind ((readsAt_lift (ofU8_toU8 _)).nil_bind ?_)
  refine (readsAt_lift hfield).nil_bind ((readsAt_lift (fromI64_toI64 _)).nil_bind ?_)
  refine readsAt_position.nil_bind ?_
  rw [hpos]
  exact readsAt_pure _

/-- The descriptor says of an index what was declared, with this root. -/
structure IndexDecl.Describes (d : IndexDecl) (root : Nat) (x : IndexDescriptor) : Prop where
  name : x.name = d.name
  isUnique : x.isUnique = d.isUnique
  keyEncodingId : x.keyEncodingId = d.keyEncodingId
  valueKind : x.valueKind = d.valueKind
  root : x.root = some root

theorem IndexDecl.describes_descriptor (d : IndexDecl) (pos root : Nat) : d.Describes root (d.descriptor pos root) :=
  ⟨rfl, rfl, rfl, rfl, rfl⟩

/-- The bytes of index descriptors one after another. -/
def indexImages (decls : List IndexDecl) (roots : List Bytes) : Bytes := (List.zipWith IndexDecl.image decls roots).flatten

/-- A root field that has been filled in. -/
def rootField (root : Nat) : Bytes := ordinalBytes (some root)

theorem indexImages_read {decls : List IndexDecl} (h : ∀ d ∈ decls, d.Fits) {roots : List Nat}
    (hlen : decls.length = roots.length) (hroots : ∀ r ∈ roots, r < 2 ^ 63) (pos i : Nat) :
    ∃ xs, ReadAllAt (fun _ => Catalog.indexDescriptor) i pos (List.zipWith IndexDecl.image decls (roots.map rootField)) xs ∧
      List.Forall₂ (fun (d : IndexDecl × Nat) x => d.1.Describes d.2 x) (decls.zip roots) xs := by
  induction decls generalizing roots pos i with
  | nil => exact ⟨[], trivial, .nil⟩
  | cons d decls ih =>
    cases roots with
    | nil => cases hlen
    | cons root roots =>
      simp only [mem_cons, forall_eq_or_imp] at h hroots
      obtain ⟨xs, hxs, hall⟩ := ih h.2 (by simpa using hlen) hroots.2 (pos + (d.image (rootField root)).length) (i + 1)
      exact ⟨d.descriptor pos root :: xs, ⟨IndexDecl.reads h.1 pos hroots.1, hxs⟩, .cons (d.describes_descriptor pos root) hall⟩

/-! ## Repeated names -/

theorem firstRepeated_eq_none {seen names : List String} :
    firstRepeated seen names = none ↔ names.Nodup ∧ ∀ n ∈ names, n ∉ seen := by
  induction names generalizing seen with
  | nil => simp [firstRepeated]
  | cons n names ih =>
    by_cases hn : n ∈ seen
    · simp [firstRepeated, hn]
    · rw [firstRepeated, if_neg hn, ih, nodup_cons]
      simp only [mem_cons, not_or, forall_eq_or_imp, hn, not_false_eq_true, true_and]
      constructor
      · rintro ⟨hnodup, hseen⟩
        exact ⟨⟨fun hmem => (hseen n hmem).1 rfl, hnodup⟩, fun m hm => (hseen m hm).2⟩
      · rintro ⟨⟨hnot, hnodup⟩, hseen⟩
        exact ⟨hnodup, fun m hm => ⟨fun heq => hnot (heq ▸ hm), hseen m hm⟩⟩

/-! ## Table descriptors -/

/-- The primary index of a table, as it is declared. -/
def TableSpec.primaryDecl (spec : TableSpec) : IndexDecl :=
  { name := spec.name ++ "_pk", keyEncodingId := spec.encoding.id, isUnique := true, valueKind := .rawData }

/-- A secondary index, as it is declared. -/
def SecondarySpec.decl (index : SecondarySpec) : IndexDecl :=
  { name := index.name, keyEncodingId := index.encoding.id, isUnique := index.unique, valueKind := .pageRef }

/-- The secondary indexes of a table, as they are declared. -/
def TableSpec.decls (spec : TableSpec) : List IndexDecl := spec.secondaries.map SecondarySpec.decl

/-- The root fields of a table's descriptor. -/
structure RootFields where
  primary : Bytes
  secondaries : List Bytes

/-- The root fields once the trees are there. -/
def BuiltTable.fields (t : BuiltTable) : RootFields :=
  { primary := rootField t.primary, secondaries := t.secondaries.map rootField }

namespace TableSpec

/-- The bytes of a table's descriptor in front of its primary index. -/
def lead (spec : TableSpec) : Bytes := leBytes 4 (utf8Bytes spec.name).length ++ utf8Bytes spec.name

def image (spec : TableSpec) (f : RootFields) : Bytes :=
  spec.lead ++ (spec.primaryDecl.image f.primary ++
    (leBytes 2 spec.secondaries.length ++ indexImages spec.decls f.secondaries))

/-- The lengths and counts fit their fields, and no index is declared twice. -/
structure Fits (spec : TableSpec) : Prop where
  primary : spec.primaryDecl.Fits
  secondaries : ∀ d ∈ spec.decls, d.Fits
  count : spec.secondaries.length ≤ u16Max
  distinct : (spec.secondaries.map (·.name)).Nodup

/-- The descriptor says of a table what was declared, with the roots of its trees. -/
structure Describes (spec : TableSpec) (t : BuiltTable) (x : TableDescriptor) : Prop where
  name : x.name = spec.name
  primary : spec.primaryDecl.Describes t.primary x.primary
  count : spec.secondaries.length = t.secondaries.length
  secondaries : List.Forall₂ (fun (d : IndexDecl × Nat) x => d.1.Describes d.2 x) (spec.decls.zip t.secondaries) x.secondaries

/-- The roots of a table are page ordinals, one for each tree. -/
structure RootsOk (spec : TableSpec) (t : BuiltTable) : Prop where
  primary : t.primary < 2 ^ 63
  count : spec.secondaries.length = t.secondaries.length
  secondaries : ∀ r ∈ t.secondaries, r < 2 ^ 63

variable {spec : TableSpec}

/-- A table's name is shorter than that of its primary index. -/
theorem Fits.name_length (h : spec.Fits) : (utf8Bytes spec.name).length ≤ u16Max := by
  have hpk : utf8Bytes (spec.name ++ "_pk") = utf8Bytes spec.name ++ utf8Bytes "_pk" := by simp [utf8Bytes]
  have := h.primary.name
  simp only [primaryDecl, hpk, length_append] at this
  omega

theorem names_of_describes {ds : List (IndexDecl × Nat)} {xs : List IndexDescriptor}
    (h : List.Forall₂ (fun (d : IndexDecl × Nat) x => d.1.Describes d.2 x) ds xs) :
    xs.map (·.name) = (ds.map Prod.fst).map IndexDecl.name := by
  induction h with
  | nil => rfl
  | cons hd _ ih => simp [hd.name, ih]

/-- A table's descriptor reads back as what it was written from. -/
theorem Fits.reads (h : spec.Fits) {t : BuiltTable} (ht : spec.RootsOk t) (pos i : Nat) :
    ∃ x, ReadsAt (Catalog.tableDescriptor i) pos (spec.image t.fields) x ∧ spec.Describes t x := by
  have hdecls : spec.decls.length = t.secondaries.length := by rw [decls, length_map, ht.count]
  have hname := h.name_length
  obtain ⟨xs, hxs, hall⟩ := indexImages_read h.secondaries hdecls ht.secondaries
    (pos + 4 + (utf8Bytes spec.name).length + (spec.primaryDecl.image t.fields.primary).length + 2) 0
  have hcount : xs.length = spec.secondaries.length := by
    rw [← hall.length_eq, length_zip, hdecls, Nat.min_self, ht.count]
  have hnames : xs.map (·.name) = spec.secondaries.map (·.name) := by
    rw [names_of_describes hall, map_fst_zip (by omega), decls, map_map]
    rfl
  have hdistinct : Catalog.checkIndexNames spec.name xs = .ok () := by
    have hnone : firstRepeated [] (xs.map (·.name)) = none :=
      firstRepeated_eq_none.2 ⟨hnames ▸ h.distinct, fun _ _ => not_mem_nil⟩
    simp only [Catalog.checkIndexNames, hnone]
  refine ⟨{ name := spec.name, primary := spec.primaryDecl.descriptor (pos + 4 + (utf8Bytes spec.name).length) t.primary,
            secondaries := xs }, ?_, ⟨rfl, IndexDecl.describes_descriptor .., ht.count, hall⟩⟩
  rw [image, lead, append_assoc]
  refine (readsAt_take (by simp)).bind ?_
  refine (readsAt_lift (readI32_of_piece (PieceAt.refl _) (hname.trans (by decide)))).nil_bind ?_
  refine (readsAt_lift (checkedLen_natCast _ _)).nil_bind ?_
  rw [leBytes_length]
  refine (readsAt_take rfl).bind ((readsAt_lift (utf8_utf8Bytes _ _)).nil_bind ?_)
  refine (IndexDecl.reads h.primary _ ht.primary).bind ?_
  refine (readsAt_take (by simp)).bind ?_
  refine (readsAt_lift (readU16_of_piece (PieceAt.refl _) h.count)).nil_bind ?_
  rw [leBytes_length, ← hcount]
  exact hxs.replicate.bind_nil ((readsAt_lift hdistinct).nil_bind (readsAt_pure _))

end TableSpec

/-! ## The whole catalog -/

/-- The bytes of the page filter's id. -/
def filterImage : Option PageFilter → Bytes
  | none => []
  | some filter => leBytes 1 (utf8Bytes filter.id).length ++ utf8Bytes filter.id

def tablesImage (specs : List TableSpec) (fields : List RootFields) : Bytes := (List.zipWith TableSpec.image specs fields).flatten

/-- The number of filters a file names. -/
def filterCount (filter : Option PageFilter) : Nat := if filter.isSome then 1 else 0

theorem filterImage_reads {filter : Option PageFilter} (h : ∀ f ∈ filter, (utf8Bytes f.id).length ≤ 255) (pos : Nat) :
    ReadsAt (Parser.replicate Catalog.filterId (filterCount filter) 0) pos (filterImage filter)
      (filter.toList.map PageFilter.id) := by
  cases filter with
  | none => exact readsAt_pure []
  | some f =>
    have hlen : (utf8Bytes f.id).length = ofLe (leBytes 1 (utf8Bytes f.id).length) := by
      have := h f rfl
      rw [ofLe_leBytes_of_lt (by omega)]
    refine ReadsAt.bind_nil ?_ ((readsAt_pure []).nil_bind (readsAt_pure _))
    refine (readsAt_take (by simp)).bind ?_
    exact (readsAt_take hlen.symm).bind_nil (readsAt_lift (utf8_utf8Bytes _ _))

theorem tablesImage_read {specs : List TableSpec} (h : ∀ spec ∈ specs, spec.Fits)
    (ht : List.Forall₂ TableSpec.RootsOk specs built) (pos i : Nat) :
    ∃ xs, ReadAllAt Catalog.tableDescriptor i pos (List.zipWith TableSpec.image specs (built.map BuiltTable.fields)) xs ∧
      List.Forall₂ (fun (s : TableSpec × BuiltTable) x => s.1.Describes s.2 x) (specs.zip built) xs := by
  induction ht generalizing pos i with
  | nil => exact ⟨[], trivial, .nil⟩
  | cons hroots _ ih =>
    simp only [mem_cons, forall_eq_or_imp] at h
    obtain ⟨x, hx, hdescribes⟩ := h.1.reads hroots pos i
    obtain ⟨xs, hxs, hall⟩ := ih h.2 _ (i + 1)
    exact ⟨x :: xs, ⟨hx, hxs⟩, .cons hdescribes hall⟩

theorem tableNames_of_describes {ds : List (TableSpec × BuiltTable)} {xs : List TableDescriptor}
    (h : List.Forall₂ (fun (s : TableSpec × BuiltTable) x => s.1.Describes s.2 x) ds xs) :
    xs.map (·.name) = (ds.map Prod.fst).map TableSpec.name := by
  induction h with
  | nil => rfl
  | cons hd _ ih => simp [hd.name, ih]

/-- The catalog says what the builder was told. -/
structure Catalog.Describes (c : Catalog) (b : DatabaseBuilder) (built : List BuiltTable) : Prop where
  pageSize : c.pageSize = b.pageSize
  filters : c.filters = b.filter.toList.map PageFilter.id
  count : b.tables.length = built.length
  tables : List.Forall₂ (fun (s : TableSpec × BuiltTable) x => s.1.Describes s.2 x) (b.tables.zip built) c.tables

/-- What a build checks of its declarations. -/
structure DatabaseBuilder.Fits (b : DatabaseBuilder) : Prop where
  filter : ∀ f ∈ b.filter, (utf8Bytes f.id).length ≤ 255
  tables : ∀ spec ∈ b.tables, spec.Fits
  count : b.tables.length ≤ u16Max
  distinct : (b.tables.map (·.name)).Nodup

/-- The header of the finished file. -/
def DatabaseBuilder.finalHeader (b : DatabaseBuilder) (pageCount position : Nat) : Header :=
  { b.header with pageCount, pageDirectoryPosition := position }

/-- Parsing what a build wrote behind the header gives back what the builder was told. -/
theorem DatabaseBuilder.Fits.catalog {b : DatabaseBuilder} (h : b.Fits)
    (ht : List.Forall₂ TableSpec.RootsOk b.tables built) (pageCount position : Nat) :
    ∃ c, ReadsAt (Catalog.parser (b.finalHeader pageCount position)) headerLen
        (filterImage b.filter ++ tablesImage b.tables (built.map BuiltTable.fields)) c ∧
      c.Describes b built ∧ c.pageCount = pageCount ∧ c.directoryPosition = position := by
  obtain ⟨xs, hxs, hall⟩ := tablesImage_read h.tables ht (headerLen + (filterImage b.filter).length) 0
  have hlen := ht.length_eq
  have hcount : xs.length = b.tables.length := by rw [← hall.length_eq, length_zip, hlen, Nat.min_self]
  have hdistinct : Catalog.checkTableNames xs = .ok () := by
    have hnames : xs.map (·.name) = b.tables.map (·.name) := by
      rw [tableNames_of_describes hall, map_fst_zip (by omega)]
    have hnone : firstRepeated [] (xs.map (·.name)) = none :=
      firstRepeated_eq_none.2 ⟨hnames ▸ h.distinct, fun _ _ => not_mem_nil⟩
    simp only [Catalog.checkTableNames, hnone]
  have htables := hxs.replicate
  rw [hcount] at htables
  exact ⟨_, (filterImage_reads h.filter headerLen).bind (htables.bind_nil ((readsAt_lift hdistinct).nil_bind
    (readsAt_position.nil_bind (readsAt_pure _)))), ⟨rfl, rfl, hlen, hall⟩, rfl, rfl⟩

/-- The fields of a header. -/
def Header.chunks (h : Header) : List Bytes :=
  [magic, leBytes 1 h.majorVersion, leBytes 1 h.minorVersion, leBytes 2 h.pageFilterCount, leBytes 4 h.pageSize,
    leBytes 2 h.tableCount, leBytes 4 h.pageCount, leBytes 8 h.pageDirectoryPosition]

theorem Header.piece (h : Header) (rest : Bytes) {i : Nat} (hi : i < h.chunks.length) :
    PieceAt (h.encode ++ rest) (h.chunks.take i).flatten.length h.chunks[i] := by
  have hencode : h.encode = h.chunks.flatten := by simp [encode, chunks]
  rw [hencode]
  exact (PieceAt.flatten hi).append_left rest

/-- What a header has to be for its fields to hold it. -/
structure Header.Fits (h : Header) : Prop where
  major : h.majorVersion = DryDb.majorVersion
  minor : h.minorVersion = DryDb.minorVersion
  filters : h.pageFilterCount ≤ u16Max
  size : pagePrefixLen ≤ h.pageSize ∧ h.pageSize ≤ i32Max
  tables : h.tableCount ≤ u16Max
  pages : h.pageCount ≤ i32Max
  position : 0 < h.pageDirectoryPosition ∧ h.pageDirectoryPosition < 2 ^ 63

/-- The header reads back as what it was written from. -/
theorem Header.Fits.parse {h : Header} (hh : h.Fits) (rest : Bytes) : Header.parse (h.encode ++ rest) = .ok h := by
  have hmagic : readSlice (h.encode ++ rest) 0 4 = .ok magic := readSlice_of_piece (h.piece rest (show 0 < 8 by decide))
  have hlen : ¬ (h.encode ++ rest).length < headerLen := by
    simp only [encode, length_append, leBytes_length, magic, headerLen, length_cons, length_nil]
    omega
  have hmajor : readU8 (h.encode ++ rest) 4 = .ok h.majorVersion :=
    readU8_of_piece (h.piece rest (show 1 < 8 by decide)) (by rw [hh.major]; decide)
  have hminor : readU8 (h.encode ++ rest) 5 = .ok h.minorVersion :=
    readU8_of_piece (h.piece rest (show 2 < 8 by decide)) (by rw [hh.minor]; decide)
  have hfilters : readU16 (h.encode ++ rest) 6 = .ok h.pageFilterCount :=
    readU16_of_piece (h.piece rest (show 3 < 8 by decide)) hh.filters
  have hsize : readI32 (h.encode ++ rest) 8 = .ok (h.pageSize : Int) :=
    readI32_of_piece (h.piece rest (show 4 < 8 by decide)) hh.size.2
  have htables : readU16 (h.encode ++ rest) 12 = .ok h.tableCount :=
    readU16_of_piece (h.piece rest (show 5 < 8 by decide)) hh.tables
  have hpages : readI32 (h.encode ++ rest) 14 = .ok (h.pageCount : Int) :=
    readI32_of_piece (h.piece rest (show 6 < 8 by decide)) hh.pages
  have hposition : readI64 (h.encode ++ rest) 18 = .ok (h.pageDirectoryPosition : Int) := by
    have hfield : ordinalBytes (some h.pageDirectoryPosition) = leBytes 8 h.pageDirectoryPosition := by
      rw [ordinalBytes, PageOrdinal.toI64, unsigned_natCast (hh.position.2.trans (by decide))]
    refine readI64_of_piece (o := some h.pageDirectoryPosition) ?_ (by simpa using hh.position.2)
    rw [hfield]
    exact h.piece rest (show 7 < 8 by decide)
  have hpos := hh.position.1
  unfold Header.parse
  simp only [hmagic, mapError_ok, ok_bind, ne_eq, not_true_eq_false, if_false, if_neg hlen, hmajor, hminor, hh.major, hh.minor,
    or_self, hfilters, hsize, checkedLen_natCast, if_neg (Nat.not_lt.2 hh.size.1), htables, hpages, hposition]
  rw [if_neg (by omega)]
  simp only [fileOffsetFromI64, if_neg (show ¬ (h.pageDirectoryPosition : Int) < 0 by omega), ok_bind, Int.toNat_natCast]
  rw [← hh.major, ← hh.minor]

end DryDb
