import DryDb.Builder.Calls
import DryDb.Builder.Trees
import DryDb.Catalog.Written
import DryDb.Writer.Loaded
/-!
# What a build puts in front of its pages

The header, the filter's id and the descriptors are written first, with placeholders for the
roots; each tree's root is patched into its descriptor when the tree is finished, and the page
count and the directory's position into the header at the end. The fields lie apart, so in the
finished file every one of them holds what was patched into it.
-/

namespace DryDb

open List

theorem overwrite_field {a old b new : Bytes} (h : old.length = new.length) :
    overwrite (a ++ (old ++ b)) a.length new = a ++ (new ++ b) := by
  rw [overwrite_append_right (Nat.le_refl _), Nat.sub_self, overwrite_append_left (by omega)]
  have hwhole : overwrite old 0 new = new := by simp [overwrite, ← h]
  rw [hwhole]

/-! ## Writing the descriptors -/

/-- Root fields of the right sizes for a table. -/
structure TableSpec.FieldsOk (spec : TableSpec) (f : RootFields) : Prop where
  primary : f.primary.length = 8
  count : spec.secondaries.length = f.secondaries.length
  secondaries : ∀ x ∈ f.secondaries, x.length = 8

/-- Where the root fields of index descriptors are that follow one another from `start`. -/
def indexRootsAt : Nat → List IndexDecl → List Nat
  | _, [] => []
  | start, d :: ds => (start + d.head.length) :: indexRootsAt (start + (d.head.length + 8)) ds

/-- Where the root fields of a table's descriptor at `start` are. -/
def TableSpec.rootsAt (spec : TableSpec) (start : Nat) : TableRoots :=
  let primary := start + spec.lead.length + spec.primaryDecl.head.length
  { primary, secondaries := indexRootsAt (primary + 8 + 2) spec.decls }

/-- How long a table's descriptor is. -/
def TableSpec.imageLen (spec : TableSpec) : Nat :=
  spec.lead.length + spec.primaryDecl.head.length + 8 + 2 + (spec.decls.map fun d => d.head.length + 8).sum

/-- Where the root fields of tables are whose descriptors follow one another from `start`. -/
def tableRootsAt : Nat → List TableSpec → List TableRoots
  | _, [] => []
  | start, spec :: rest => spec.rootsAt start :: tableRootsAt (start + spec.imageLen) rest

variable {b : DatabaseBuilder} {sink sink' : PageSink} {d : IndexDecl} {root spoolBudget waiting : Nat}
  {indexes : List SecondarySpec} {roots : List Nat} {fields pages pages' : List Bytes} {spec : TableSpec}
  {before after front : Bytes} {table : String} {t : BuiltTable} {spools spools' : List RecordSpool} {tables : List TableSpec}

theorem writeIndexDescriptor_eq_ok
    (h : writeIndexDescriptor sink d.name d.keyEncodingId d.isUnique d.valueKind = .ok (root, sink')) :
    d.Fits ∧ root = sink.pos + d.head.length ∧ ∃ field : Bytes, field.length = 8 ∧ sink' = sink.writeRaw (d.image field) := by
  obtain ⟨bytes, hbytes, h⟩ := bind_eq_ok.1 h
  obtain ⟨hfits, rfl⟩ := encodeIndexDescriptor_eq_ok.1 hbytes
  cases h
  have hhead : (d.image (leBytes 8 0)).length - 8 = d.head.length := by simp [IndexDecl.image]
  rw [hhead]
  refine ⟨hfits, rfl, leBytes 8 (sink.pos + (d.image (leBytes 8 0)).length), leBytes_length _ _, ?_⟩
  rw [IndexDecl.image, IndexDecl.image, take_left]

theorem length_image {field : Bytes} (h : field.length = 8) : (d.image field).length = d.head.length + 8 := by
  rw [IndexDecl.image, length_append, h]

theorem writeRaw_writeRaw (sink : PageSink) (a b : Bytes) : (sink.writeRaw a).writeRaw b = sink.writeRaw (a ++ b) := by
  simp [PageSink.writeRaw]

theorem pos_writeRaw (sink : PageSink) (a : Bytes) : (sink.writeRaw a).pos = sink.pos + a.length := by
  simp [PageSink.writeRaw, PageSink.pos]

theorem writeSecondaryDescriptors_eq_ok (h : writeSecondaryDescriptors indexes sink = .ok (roots, sink')) :
    (∀ d ∈ indexes.map SecondarySpec.decl, d.Fits) ∧ roots = indexRootsAt sink.pos (indexes.map SecondarySpec.decl) ∧
      ∃ fields : List Bytes, indexes.length = fields.length ∧ (∀ x ∈ fields, x.length = 8) ∧
        sink' = sink.writeRaw (indexImages (indexes.map SecondarySpec.decl) fields) := by
  induction indexes generalizing sink roots with
  | nil =>
    cases h
    exact ⟨by simp, rfl, [], rfl, by simp, by simp [PageSink.writeRaw, indexImages]⟩
  | cons index indexes ih =>
    obtain ⟨⟨root, mid⟩, hwrite, h⟩ := bind_eq_ok.1 h
    obtain ⟨⟨roots', sink''⟩, hrest, h⟩ := bind_eq_ok.1 h
    cases h
    obtain ⟨hfits, rfl, field, hfield, rfl⟩ := writeIndexDescriptor_eq_ok (d := index.decl) hwrite
    obtain ⟨hfits', rfl, fields, hlen, hfields, rfl⟩ := ih hrest
    refine ⟨forall_mem_cons.2 ⟨hfits, hfits'⟩, ?_, field :: fields, by simp [hlen], by simpa [hfield] using hfields, ?_⟩
    · rw [pos_writeRaw, length_image hfield]
      rfl
    · rw [writeRaw_writeRaw]
      rfl

theorem length_indexImages {decls : List IndexDecl} (hlen : decls.length = fields.length)
    (h : ∀ x ∈ fields, x.length = 8) : (indexImages decls fields).length = (decls.map fun d => d.head.length + 8).sum := by
  induction decls generalizing fields with
  | nil => rfl
  | cons d decls ih =>
    cases fields with
    | nil => cases hlen
    | cons x fields =>
      simp only [mem_cons, forall_eq_or_imp] at h
      have := ih (by simpa using hlen) h.2
      rw [indexImages] at this ⊢
      simp only [zipWith_cons_cons, flatten_cons, length_append, this, length_image h.1, map_cons,
        sum_cons]

theorem TableSpec.FieldsOk.length_image {f : RootFields} (h : spec.FieldsOk f) :
    (spec.image f).length = spec.imageLen := by
  simp only [image, imageLen, length_append, DryDb.length_image h.primary, leBytes_length,
    length_indexImages (show spec.decls.length = f.secondaries.length by rw [decls, length_map, h.count]) h.secondaries]
  omega

theorem writeTableDescriptor_eq_ok {roots : TableRoots} (h : writeTableDescriptor spec sink = .ok (roots, sink')) :
    (spec.primaryDecl.Fits ∧ (∀ d ∈ spec.decls, d.Fits) ∧ spec.secondaries.length ≤ u16Max) ∧ roots = spec.rootsAt sink.pos ∧
      ∃ f, spec.FieldsOk f ∧ sink' = sink.writeRaw (spec.image f) := by
  obtain ⟨⟨primary, mid⟩, hprimary, h⟩ := bind_eq_ok.1 h
  obtain ⟨hcount, h⟩ := guard_eq_ok.1 h
  obtain ⟨⟨secondaries, sink''⟩, hsecondaries, h⟩ := bind_eq_ok.1 h
  cases h
  obtain ⟨hfits, rfl, field, hfield, rfl⟩ := writeIndexDescriptor_eq_ok (d := spec.primaryDecl) hprimary
  obtain ⟨hfits', rfl, fields, hlen, hfields, rfl⟩ := writeSecondaryDescriptors_eq_ok hsecondaries
  refine ⟨⟨hfits, hfits', Nat.le_of_not_lt hcount⟩, ?_, ⟨field, fields⟩, ⟨hfield, hlen, hfields⟩, ?_⟩
  · simp only [TableSpec.rootsAt, TableSpec.lead, TableSpec.decls, writeRaw_writeRaw, pos_writeRaw, length_append,
      length_image hfield, leBytes_length]
    simp only [Nat.add_assoc]
  · simp only [writeRaw_writeRaw, TableSpec.image, TableSpec.lead, TableSpec.decls, append_assoc]

theorem writeTableDescriptors_eq_ok {specs : List TableSpec} {roots : List TableRoots}
    (h : writeTableDescriptors specs sink = .ok (roots, sink')) :
    (∀ spec ∈ specs, spec.primaryDecl.Fits ∧ (∀ d ∈ spec.decls, d.Fits) ∧ spec.secondaries.length ≤ u16Max) ∧
      roots = tableRootsAt sink.pos specs ∧
      ∃ fields, List.Forall₂ TableSpec.FieldsOk specs fields ∧ sink' = sink.writeRaw (tablesImage specs fields) := by
  induction specs generalizing sink roots with
  | nil =>
    cases h
    exact ⟨by simp, rfl, [], .nil, by simp [PageSink.writeRaw, tablesImage]⟩
  | cons spec specs ih =>
    obtain ⟨⟨roots', mid⟩, hwrite, h⟩ := bind_eq_ok.1 h
    obtain ⟨⟨more, sink''⟩, hrest, h⟩ := bind_eq_ok.1 h
    cases h
    obtain ⟨hfits, rfl, f, hf, rfl⟩ := writeTableDescriptor_eq_ok hwrite
    obtain ⟨hfits', rfl, fields, hfields, rfl⟩ := ih hrest
    refine ⟨forall_mem_cons.2 ⟨hfits, hfits'⟩, ?_, f :: fields, .cons hf hfields, ?_⟩
    · rw [pos_writeRaw, hf.length_image]
      rfl
    · rw [writeRaw_writeRaw]
      rfl

/-! ## Patching the roots -/

/-- A root patched into its descriptor. -/
theorem PageSink.Holds.patchRoot {old : Bytes}
    (h : sink.Holds (before ++ (d.image old ++ after)) pages) (hold : old.length = 8) (root : Nat) :
    (sink.patchAt (before.length + d.head.length) (ordinalBytes (some root))).Holds
      (before ++ (d.image (rootField root) ++ after)) pages := by
  have hfront : ∀ field : Bytes, before ++ (d.image field ++ after) = (before ++ d.head) ++ (field ++ after) := by
    intro field
    simp [IndexDecl.image]
  have hlen : old.length = (ordinalBytes (some root)).length := by rw [hold, ordinalBytes, leBytes_length]
  rw [hfront] at h ⊢
  have hin : (before ++ d.head).length + (ordinalBytes (some root)).length ≤ ((before ++ d.head) ++ (old ++ after)).length := by
    simp only [length_append]
    omega
  have hpatched := h.patchFront hin
  rw [overwrite_field hlen, length_append] at hpatched
  exact hpatched

/-! ## What is left of a tree once more pages are written -/

/-- More pages behind the ones that were there. -/
structure Extends (pages pages' : List Bytes) : Prop where
  length : pages.length ≤ pages'.length
  keep : ∀ o < pages.length, pages'[o]? = pages[o]?

theorem Extends.refl (pages : List Bytes) : Extends pages pages := ⟨Nat.le_refl _, fun _ _ => rfl⟩

theorem Extends.trans {p q r : List Bytes} (h : Extends p q) (h' : Extends q r) : Extends p r :=
  ⟨h.length.trans h'.length, fun o ho => (h'.keep o (Nat.lt_of_lt_of_le ho h.length)).trans (h.keep o ho)⟩

theorem TreeMade.extends {E σ : Type} {encoding : KeyEncoding} {allow : Bool} {extraBytes : E → Nat}
    {onValueRef : σ → E → PageRef → Result σ} {out out' : Output σ} {entries : List (Bytes × Bytes × E)}
    (h : TreeMade b encoding allow extraBytes onValueRef front out pages entries root out' pages') : Extends pages pages' := by
  refine ⟨?_, h.keeps⟩
  obtain ⟨_, _, _, _, _, _, _, hfin⟩ := h.finished
  exact hfin.grows.length

/-- The primary tree of a table was written, into pages that are still there. -/
def PrimaryBuilt (b : DatabaseBuilder) (spec : TableSpec) (waiting : Nat) (rows : List Record) (root : Nat)
    (spools : List RecordSpool) (pages : List Bytes) : Prop :=
  ∃ front sink pages₀ sink' pages₁, PrimaryMade b spec waiting front sink pages₀ rows root ⟨sink', spools⟩ pages₁ ∧
    Extends pages₁ pages

/-- The tree of an index was written, into pages that are still there. -/
def IndexBuilt (b : DatabaseBuilder) (index : SecondarySpec) (spool : RecordSpool) (table : String) (root : Nat)
    (pages : List Bytes) : Prop :=
  ∃ front sink pages₀ rows sink' pages₁, IndexMade b index spool table front sink pages₀ rows root sink' pages₁ ∧
    Extends pages₁ pages

theorem IndexBuilt.extend {index : SecondarySpec} {spool : RecordSpool}
    (h : IndexBuilt b index spool table root pages) (hp : Extends pages pages') :
    IndexBuilt b index spool table root pages' := by
  obtain ⟨front, sink, pages₀, rows, sink', pages₁, hmade, hext⟩ := h
  exact ⟨front, sink, pages₀, rows, sink', pages₁, hmade, hext.trans hp⟩

/-- The trees of a table are in the file. -/
structure TableBuilt (b : DatabaseBuilder) (spec : TableSpec) (t : BuiltTable) (pages : List Bytes) : Prop where
  count : spec.secondaries.length = t.secondaries.length
  trees : ∃ waiting rows spools, PrimaryBuilt b spec waiting rows t.primary spools pages ∧
    spec.secondaries.length = spools.length ∧
    List.Forall₂ (fun (i : SecondarySpec × RecordSpool) root => IndexBuilt b i.1 i.2 spec.name root pages)
      (spec.secondaries.zip spools) t.secondaries

theorem TableBuilt.extend (h : TableBuilt b spec t pages) (hp : Extends pages pages') : TableBuilt b spec t pages' := by
  obtain ⟨waiting, rows, spools, ⟨front, sink, pages₀, sink', pages₁, hmade, hext⟩, hlen, hindexes⟩ := h.trees
  exact ⟨h.count, waiting, rows, spools, ⟨front, sink, pages₀, sink', pages₁, hmade, hext.trans hp⟩, hlen,
    hindexes.imp fun _ _ hi => hi.extend hp⟩

/-! ## The trees of one table -/

theorem buildIndexes_built {reports : List IndexReport}
    (hspools : indexes.length = spools.length) (hcount : indexes.length = fields.length) (hfields : ∀ x ∈ fields, x.length = 8)
    (hs : sink.Holds (before ++ (indexImages (indexes.map SecondarySpec.decl) fields ++ after)) pages)
    (h : b.buildIndexes table ((indexes.zip spools).zip (indexRootsAt before.length (indexes.map SecondarySpec.decl))) sink =
      .ok (reports, roots, sink')) :
    ∃ pages', sink'.Holds (before ++ (indexImages (indexes.map SecondarySpec.decl) (roots.map rootField) ++ after)) pages' ∧
      Extends pages pages' ∧ sink'.filter = sink.filter ∧ (∀ r ∈ roots, r < pages'.length) ∧
      List.Forall₂ (fun (i : SecondarySpec × RecordSpool) root => IndexBuilt b i.1 i.2 table root pages')
        (indexes.zip spools) roots := by
  induction indexes generalizing spools before fields sink pages reports roots with
  | nil =>
    cases h
    exact ⟨pages, by simpa [indexImages] using hs, .refl _, rfl, by simp, .nil⟩
  | cons index indexes ih =>
    obtain ⟨spool, spools, rfl⟩ : ∃ s l, spools = s :: l := by
      cases spools with
      | nil => cases hspools
      | cons s l => exact ⟨s, l, rfl⟩
    obtain ⟨field, fields, rfl⟩ : ∃ s l, fields = s :: l := by
      cases fields with
      | nil => cases hcount
      | cons s l => exact ⟨s, l, rfl⟩
    simp only [mem_cons, forall_eq_or_imp] at hfields
    obtain ⟨⟨root, mid⟩, htree, h⟩ := bind_eq_ok.1 h
    obtain ⟨⟨reports', roots', sink''⟩, hrest, h⟩ := bind_eq_ok.1 h
    cases h
    have hfront : ∀ (x : Bytes) (xs : List Bytes) (before : Bytes),
        before ++ (indexImages ((index :: indexes).map SecondarySpec.decl) (x :: xs) ++ after) =
          before ++ (index.decl.image x ++ (indexImages (indexes.map SecondarySpec.decl) xs ++ after)) := by
      intro x xs before
      simp [indexImages]
    rw [hfront] at hs
    obtain ⟨rows, pages₁, hmade⟩ := buildIndexTree_made hs htree
    obtain ⟨entries, -, htreeMade⟩ := hmade.tree
    have hpatched := htreeMade.holds.patchRoot hfields.1 root
    have hlen : (index.decl.image (rootField root)).length = index.decl.head.length + 8 := length_image (by
      rw [rootField, ordinalBytes, leBytes_length])
    have hnext : before.length + (index.decl.head.length + 8) = (before ++ index.decl.image (rootField root)).length := by
      rw [length_append, hlen]
    rw [← append_assoc] at hpatched
    have hrest' : b.buildIndexes table ((indexes.zip spools).zip
        (indexRootsAt (before ++ index.decl.image (rootField root)).length (indexes.map SecondarySpec.decl)))
        (mid.patchAt (before.length + index.decl.head.length) (ordinalBytes (some root))) = .ok (reports', roots', sink') := by
      rw [← hnext]
      exact hrest
    obtain ⟨pages₂, hholds, hext, hfilter, hroots, hindexes⟩ :=
      ih (by simpa using hspools) (by simpa using hcount) hfields.2 hpatched hrest'
    refine ⟨pages₂, ?_, htreeMade.extends.trans hext, hfilter.trans htreeMade.filter, ?_, .cons ?_ hindexes⟩
    · show sink'.Holds (before ++ (indexImages _ (rootField root :: roots'.map rootField) ++ after)) pages₂
      rw [hfront, ← append_assoc]
      exact hholds
    · exact forall_mem_cons.2 ⟨Nat.lt_of_lt_of_le htreeMade.root_lt hext.length, hroots⟩
    · exact ⟨_, sink, pages, rows, mid, pages₁, hmade, hext⟩

/-- A spool for each index, whatever the rows were. -/
theorem length_spoolIndexKeys {keys : List IndexKey} {ref : PageRef}
    (hlen : keys.length = spools.length) (h : spoolIndexKeys spoolBudget spools keys ref = .ok spools') :
    spools'.length = spools.length := by
  obtain ⟨pushed, hpushed, h⟩ := bind_eq_ok.1 h
  obtain ⟨⟨_, kept⟩, hkept, h⟩ := bind_eq_ok.1 h
  cases h
  have hflush : ∀ i, (RecordSpool.flushAt i).Keeps List.length := by
    intro i spools
    simp only [RecordSpool.flushAt]
    split <;> simp
  have hstep : (RecordSpool.spillFullest spoolBudget).Keeps List.length := by
    refine .bind .get fun spools => ?_
    repeat' split
    all_goals first
      | exact .pure _
      | exact .bind (hflush _) fun _ => .pure _
  have hkeep : (RecordSpool.keepInside spoolBudget).Keeps List.length := .bind .get fun _ => hstep.repeatWhile _
  have hsame := hkeep (pushed.map (·.2))
  rw [outcome_eq_ok.1 hkept] at hsame
  rw [hsame, length_map, ← (mapM_eq_ok.1 hpushed).length_eq, length_zip, hlen, Nat.min_self]

theorem length_handAll {pairs : List (List IndexKey × PageRef)} (hlen : ∀ p ∈ pairs, p.1.length = spools.length)
    (h : handAll (spoolIndexKeys spoolBudget) pairs spools = .ok spools') : spools'.length = spools.length := by
  induction pairs generalizing spools with
  | nil =>
    cases h
    rfl
  | cons p pairs ih =>
    simp only [handAll, foldlM_cons] at h
    obtain ⟨mid, hmid, h⟩ := bind_eq_ok.1 h
    simp only [mem_cons, forall_eq_or_imp] at hlen
    have hfirst := length_spoolIndexKeys hlen.1 hmid
    rw [ih (fun q hq => hfirst ▸ hlen.2 q hq) h, hfirst]

theorem PrimaryMade.length_spools {rows : List Record} {out : Output (List RecordSpool)}
    (h : PrimaryMade b spec waiting front sink pages rows root out pages') : spec.secondaries.length = out.caller.length := by
  obtain ⟨entries, spoolBudget, hentries, htree⟩ := h.tree
  obtain ⟨_, _, _, _, _, _, _, hfin⟩ := htree.finished
  have hextras : ∀ refs : List PageRef, ∀ p ∈ (entries.map fun e => e.2.2).zip refs, p.1.length =
      (spec.secondaries.map fun index => RecordSpool.new index.encoding b.sortBuffer index.fate).length := by
    intro refs p hp
    obtain ⟨e, he, hpe⟩ := mem_map.1 (of_mem_zip hp).1
    obtain ⟨r, -, hr⟩ := exists_of_mem_left (mapM_eq_ok.1 hentries).flip he
    obtain ⟨keys, hkeys, hr⟩ := bind_eq_ok.1 hr
    cases hr
    rw [← hpe, length_map]
    exact (mapM_eq_ok.1 hkeys).length_eq.symm
  rw [length_handAll (hextras _) hfin.caller, length_map]

theorem buildTable_built {f : RootFields} (hf : spec.FieldsOk f) (hs : sink.Holds (before ++ (spec.image f ++ after)) pages)
    (h : b.buildTable sink spec (spec.rootsAt before.length) waiting = .ok (t, sink')) :
    ∃ pages', sink'.Holds (before ++ (spec.image t.fields ++ after)) pages' ∧ Extends pages pages' ∧
      sink'.filter = sink.filter ∧ TableBuilt b spec t pages' ∧ t.primary < pages'.length ∧
      ∀ r ∈ t.secondaries, r < pages'.length := by
  obtain ⟨⟨root, out⟩, hprimary, h⟩ := bind_eq_ok.1 h
  obtain ⟨⟨reports, roots, sink₁⟩, hindexes, h⟩ := bind_eq_ok.1 h
  cases h
  have hfront : ∀ (before after : Bytes) (f : RootFields), before ++ (spec.image f ++ after) =
      (before ++ spec.lead) ++ (spec.primaryDecl.image f.primary ++
        (leBytes 2 spec.secondaries.length ++ (indexImages spec.decls f.secondaries ++ after))) := by
    intro before after f
    simp [TableSpec.image]
  rw [hfront] at hs
  obtain ⟨rows, pages₁, hmade⟩ := buildPrimary_made hs hprimary
  obtain ⟨entries, spoolBudget, -, htree⟩ := hmade.tree
  have hpatched := htree.holds.patchRoot hf.primary root
  rw [length_append] at hpatched
  have hroot8 : (rootField root).length = 8 := by rw [rootField, ordinalBytes, leBytes_length]
  have hregroup : ∀ xs : Bytes, (before ++ spec.lead) ++ (spec.primaryDecl.image (rootField root) ++
      (leBytes 2 spec.secondaries.length ++ xs)) =
      (before ++ spec.lead ++ spec.primaryDecl.image (rootField root) ++ leBytes 2 spec.secondaries.length) ++ xs := by
    intro xs
    simp
  rw [hregroup] at hpatched
  have hstart : before.length + spec.lead.length + spec.primaryDecl.head.length + 8 + 2 =
      (before ++ spec.lead ++ spec.primaryDecl.image (rootField root) ++ leBytes 2 spec.secondaries.length).length := by
    simp only [length_append, length_image hroot8, leBytes_length]
    omega
  simp only [TableSpec.rootsAt] at hindexes
  rw [hstart] at hindexes
  obtain ⟨pages₂, hholds, hext, hfilter, hroots, hbuilt⟩ :=
    buildIndexes_built hmade.length_spools hf.count hf.secondaries hpatched hindexes
  have hcount : spec.secondaries.length = roots.length := by
    rw [← hbuilt.length_eq, length_zip, ← hmade.length_spools, Nat.min_self]
  refine ⟨pages₂, ?_, htree.extends.trans hext, hfilter.trans htree.filter, ⟨hcount, waiting, rows, out.caller, ?_,
    hmade.length_spools, hbuilt⟩, Nat.lt_of_lt_of_le htree.root_lt hext.length, hroots⟩
  · rw [hfront]
    show sink'.Holds ((before ++ spec.lead) ++ (spec.primaryDecl.image (rootField root) ++ _)) pages₂
    rw [hregroup]
    exact hholds
  · exact ⟨_, sink, pages, out.sink, pages₁, hmade, hext⟩

/-! ## All tables -/

/-- A table whose spool has been flushed. -/
structure TableSpec.Flushed (spec spec' : TableSpec) : Prop where
  same : spec' = { spec with spool := spec'.spool }
  spool : spec.spool.FlushesTo spec'.spool

theorem TableSpec.Flushed.trans {a b c : TableSpec} (h : a.Flushed b) (h' : b.Flushed c) : a.Flushed c :=
  ⟨by rw [h'.same, h.same], h.spool.trans h'.spool⟩

theorem forall₂_flushed_trans {as bs cs : List TableSpec} (h : List.Forall₂ TableSpec.Flushed as bs)
    (h' : List.Forall₂ TableSpec.Flushed bs cs) : List.Forall₂ TableSpec.Flushed as cs := by
  induction h generalizing cs with
  | nil => exact h'
  | cons hab _ ih =>
    cases h' with
    | cons hbc hrest => exact .cons (hab.trans hbc) (ih hrest)

/-- The loop over the tables ends inside the budget, having only flushed. -/
theorem keepInside_tables {budget : Nat} {tables' : List TableSpec} (hsound : ∀ spec ∈ tables, spec.spool.Sound)
    (h : (onSpools (RecordSpool.keepInside budget)).outcome tables = .ok ((), tables')) :
    List.Forall₂ TableSpec.Flushed tables tables' ∧ bufferedBytes (tables'.map TableSpec.spool) ≤ budget := by
  have hrun := outcome_eq_ok.1 h
  have hspools : ∀ s ∈ tables.map TableSpec.spool, s.Sound := by
    intro s hs
    obtain ⟨spec, hspec, rfl⟩ := mem_map.1 hs
    exact hsound spec hspec
  cases hinner : (RecordSpool.keepInside budget).run (tables.map TableSpec.spool) with
  | mk r spools =>
    have hzoom : (onSpools (RecordSpool.keepInside budget)).run tables = (r, withSpools spools tables) := by
      show (((RecordSpool.keepInside budget).run (tables.map TableSpec.spool)).1, withSpools _ tables) = _
      rw [hinner]
    rw [hzoom] at hrun
    cases hrun
    obtain ⟨hflushes, hle⟩ := RecordSpool.keepInside_eq_ok hspools hinner
    clear hinner hzoom h
    have hlen : tables.length = spools.length := by simpa using hflushes.length_eq
    have hback : (withSpools spools tables).map TableSpec.spool = spools := by
      refine ext_getElem (by simp [withSpools, hlen]) fun j hj hj' => ?_
      simp [withSpools]
    refine ⟨forall₂_iff_get.2 ⟨by simp [withSpools, hlen], fun j hj hj' => ?_⟩, hback.symm ▸ hle⟩
    have hj := (forall₂_iff_get.1 hflushes).2 j (by simpa using hj) (by omega)
    simp only [get_eq_getElem, getElem_map] at hj
    refine ⟨?_, ?_⟩ <;> simp only [withSpools, get_eq_getElem, getElem_zipWith]
    exact hj

section Images

variable {specs specs' : List TableSpec}

/-- Descriptors do not depend on the spools. -/
theorem tablesImage_flushed (h : List.Forall₂ TableSpec.Flushed specs specs') (fields : List RootFields) :
    tablesImage specs' fields = tablesImage specs fields := by
  induction h generalizing fields with
  | nil => rfl
  | cons ht _ ih =>
    cases fields with
    | nil => rfl
    | cons f fields =>
      have hrest := ih fields
      rw [tablesImage, tablesImage] at hrest ⊢
      rw [zipWith_cons_cons, zipWith_cons_cons, flatten_cons, flatten_cons, hrest, ht.same]
      rfl

theorem tableRootsAt_flushed (h : List.Forall₂ TableSpec.Flushed specs specs') (start : Nat) :
    tableRootsAt start specs' = tableRootsAt start specs := by
  induction h generalizing start with
  | nil => rfl
  | cons ht _ ih =>
    rw [tableRootsAt, tableRootsAt, ih, ht.same]
    rfl

theorem fieldsOk_flushed (h : List.Forall₂ TableSpec.Flushed specs specs') {fields : List RootFields}
    (hf : List.Forall₂ TableSpec.FieldsOk specs fields) : List.Forall₂ TableSpec.FieldsOk specs' fields := by
  induction h generalizing fields with
  | nil => exact hf
  | cons ht _ ih =>
    cases hf with
    | cons hfirst hrest =>
      refine .cons ?_ (ih hrest)
      rw [ht.same]
      exact ⟨hfirst.primary, hfirst.count, hfirst.secondaries⟩

end Images

/-- A table of the finished file: its trees are there, and its roots are pages. -/
structure TableDone (b : DatabaseBuilder) (pages : List Bytes) (spec : TableSpec) (t : BuiltTable) : Prop where
  built : TableBuilt b spec t pages
  primary : t.primary < pages.length
  secondaries : ∀ r ∈ t.secondaries, r < pages.length

theorem TableDone.extend (h : TableDone b pages spec t) (hp : Extends pages pages') : TableDone b pages' spec t :=
  ⟨h.built.extend hp, Nat.lt_of_lt_of_le h.primary hp.length, fun r hr => Nat.lt_of_lt_of_le (h.secondaries r hr) hp.length⟩

theorem buildTables_done {fields : List RootFields} {built : List BuiltTable} (hsound : ∀ spec ∈ tables, spec.spool.Sound)
    (hf : List.Forall₂ TableSpec.FieldsOk tables fields) (hs : sink.Holds (before ++ (tablesImage tables fields ++ after)) pages)
    (h : b.buildTables (tableRootsAt before.length tables) tables sink = .ok (built, sink')) :
    ∃ pages' specs, sink'.Holds (before ++ (tablesImage tables (built.map BuiltTable.fields) ++ after)) pages' ∧
      Extends pages pages' ∧ sink'.filter = sink.filter ∧ List.Forall₂ TableSpec.Flushed tables specs ∧
      List.Forall₂ (TableDone b pages') specs built := by
  -- The waiting tables are flushed between two tables, so the induction is on their number.
  generalize hn : tables.length = n
  induction n generalizing tables before fields sink pages built with
  | zero =>
    cases length_eq_zero_iff.1 hn
    cases hf
    cases h
    exact ⟨pages, [], hs, .refl _, rfl, .nil, .nil⟩
  | succ n ih =>
    obtain ⟨spec, tables, rfl⟩ : ∃ s l, tables = s :: l := by
      cases tables with
      | nil => cases hn
      | cons s l => exact ⟨s, l, rfl⟩
    cases hf with
    | @cons _ f _ fields hf hfields =>
      simp only [mem_cons, forall_eq_or_imp] at hsound
      obtain ⟨⟨_, tables₁⟩, hkept, h⟩ := bind_eq_ok.1 h
      obtain ⟨⟨t, sink₁⟩, htable, h⟩ := bind_eq_ok.1 h
      obtain ⟨⟨rest, sink₂⟩, hrest, h⟩ := bind_eq_ok.1 h
      cases h
      obtain ⟨hflushed, -⟩ := keepInside_tables hsound.2 hkept
      have hfront : ∀ (f : RootFields) (fields : List RootFields), before ++ (tablesImage (spec :: tables) (f :: fields) ++ after) =
          before ++ (spec.image f ++ (tablesImage tables fields ++ after)) := by
        intro f fields
        simp [tablesImage]
      rw [hfront] at hs
      obtain ⟨pages₁, hholds, hext, hfilter, hbuilt, hprimary, hsecondaries⟩ := buildTable_built hf hs htable
      have hfieldsOk : spec.FieldsOk t.fields := by
        have hcount := hbuilt.count
        refine ⟨by simp [BuiltTable.fields, rootField, ordinalBytes], by simpa [BuiltTable.fields] using hcount, ?_⟩
        simp [BuiltTable.fields, rootField, ordinalBytes]
      have hlen : before.length + spec.imageLen = (before ++ spec.image t.fields).length := by
        rw [length_append, hfieldsOk.length_image]
      have hrest' : b.buildTables (tableRootsAt (before ++ spec.image t.fields).length tables₁) tables₁ sink₁ =
          .ok (rest, sink') := by
        rw [← hlen, tableRootsAt_flushed hflushed]
        exact hrest
      have hsound₁ : ∀ spec ∈ tables₁, spec.spool.Sound := by
        intro spec' hspec'
        obtain ⟨spec, hspec, hflush⟩ := exists_of_mem_left hflushed.flip hspec'
        exact hflush.spool.sound (hsound.2 spec hspec)
      rw [← append_assoc, ← tablesImage_flushed hflushed] at hholds
      obtain ⟨pages₂, specs, hholds₂, hext₂, hfilter₂, hflushed₂, hdone⟩ := ih hsound₁ (fieldsOk_flushed hflushed hfields)
        hholds hrest' (by rw [← hflushed.length_eq]; simpa using hn)
      refine ⟨pages₂, spec :: specs, ?_, hext.trans hext₂, hfilter₂.trans hfilter, .cons ⟨rfl, .refl⟩
        (forall₂_flushed_trans hflushed hflushed₂), .cons ?_ hdone⟩
      · rw [map_cons, hfront, ← append_assoc, ← tablesImage_flushed hflushed]
        exact hholds₂
      · exact TableDone.extend ⟨hbuilt, hprimary, hsecondaries⟩ hext₂

end DryDb
