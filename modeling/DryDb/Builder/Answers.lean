import DryDb.Builder.Accepted
import DryDb.Builder.Opened
import DryDb.Writer.Stored
/-!
# Build, open, read

What a finished file answers. Every tree of it is well formed over the records its spool gave
(`TreeMade.wellFormed`), those of a table are the rows whose append returned `Ok`
(`Takes.readRows`), and the opened tree answers as the sorted list of them (`TreeStored.keyed`).
-/

namespace DryDb

open DatabaseBuilder List

/-! ## The entries of a tree -/

section

variable {E σ : Type}

theorem entryRow_rows {secondaries : List SecondarySpec} {rs : List Record} {entries : List (Bytes × Bytes × List IndexKey)}
    (h : rs.mapM (rowEntry secondaries) = .ok entries) : entries.map entryRow = rs.map Record.row := by
  have hrows := mapM_eq_ok.1 h
  clear h
  induction hrows with
  | nil => rfl
  | @cons r e rs entries he _ ih =>
    obtain ⟨keys, -, he⟩ := bind_eq_ok.1 he
    cases he
    rw [map_cons, map_cons, ih]
    rfl

/-- More pages behind a tree leave it as it is. -/
theorem WellFormed.extend {cfg : WriterConfig E} {pages pages' : List Bytes} {root : Nat} {given : List (Bytes × Bytes × E)}
    {levels : List Written} (h : WellFormed cfg pages root given levels) (hp : Extends pages pages') :
    WellFormed cfg pages' root given levels where
  root := h.root
  page d ws hd j w hj := by
    obtain ⟨n, hitems, hfits, hpage, hrest⟩ := h.page d ws hd j w hj
    exact ⟨n, hitems, hfits, (hp.keep _ (List.getElem?_eq_some_iff.1 hpage).1).trans hpage, hrest⟩
  entries := by
    obtain ⟨leaves, hleaves, hitems⟩ := h.entries
    refine ⟨leaves, hleaves, hitems.imp fun it e ⟨hkey, hdigest, hbody⟩ => ⟨hkey, hdigest, hbody.imp_right ?_⟩⟩
    rintro ⟨page, hblob, hpage⟩
    exact ⟨page, hblob, (hp.keep _ (List.getElem?_eq_some_iff.1 hpage).1).trans hpage⟩
  children := h.children
  separators := h.separators
  nonempty := h.nonempty

variable {b : DatabaseBuilder} {encoding : KeyEncoding} {allow : Bool} {extraBytes : E → Nat}
  {onValueRef : σ → E → PageRef → Result σ} {front : Bytes} {out out' : Output σ} {pages pages' : List Bytes}
  {entries : List (Bytes × Bytes × E)} {root : Nat}

theorem TreeMade.wellFormed (h : TreeMade b encoding allow extraBytes onValueRef front out pages entries root out' pages')
    (hmax : b.pageSize ≤ i32Max) :
    ∃ (cfg : WriterConfig E) (levels : List Written), cfg.encoding = encoding ∧ WellFormed cfg pages' root entries levels := by
  obtain ⟨cfg, _, tag, items, leaves, upper, hnew, hfin⟩ := h.finished
  obtain ⟨-, hsize, henc, hlayout⟩ := treeWriter_new_eq_ok hnew
  have hlay : LayoutOk cfg.layout cfg.pageSize := by
    rw [hlayout, hsize]
    exact chooseLayout_ok hmax ..
  exact ⟨cfg, leaves :: upper, henc, hfin.wellFormed hlay⟩

end

/-! ## The rows of the tables -/

namespace DatabaseBuilder

namespace TreesDone

variable {b : DatabaseBuilder} {built : List BuiltTable} {sink : PageSink} {pages : List Bytes} {specs : List TableSpec}

theorem table (h : b.TreesDone built sink pages specs) {i : Nat} {spec : TableSpec} (hi : b.tables[i]? = some spec) :
    ∃ spec' t, built[i]? = some t ∧ spec.Flushed spec' ∧ TableDone b pages spec' t := by
  obtain ⟨spec', hspec', hflushed⟩ := forall₂_getElem? h.flushed.flip hi
  obtain ⟨t, ht, hdone⟩ := forall₂_getElem? h.tables.flip hspec'
  exact ⟨spec', t, ht, hflushed, hdone⟩

/-- A build does not go past a spoiled spool. -/
theorem unspoiled (h : b.TreesDone built sink pages specs) : ¬ b.Spoiled := by
  rintro ⟨spec, hspec, hspoiled⟩
  obtain ⟨i, hi⟩ := mem_iff_getElem?.1 hspec
  obtain ⟨spec', t, -, hflushed, hdone⟩ := h.table hi
  obtain ⟨waiting, rows, spools, ⟨_, _, _, _, _, hmade, -⟩, -⟩ := hdone.built.trees
  obtain ⟨spool, src, s, hshare, hsorted, -⟩ := hmade.stream
  have hspool := flushed_spoiled (flushed_spoiled hspoiled hflushed.spool) (makeShare_cases hshare)
  obtain ⟨e, he⟩ := intoSorted_spoiled hspool
  rw [hsorted] at he
  cases he

end TreesDone

/-- The records of a table's tree are the rows its spool took. -/
theorem Takes.readRows {b : DatabaseBuilder} {rows : Nat → List (Bytes × Bytes)} (htakes : b.Takes rows) {i : Nat}
    {spec : TableSpec} (hi : b.tables[i]? = some spec) {spec' : TableSpec} (hflushed : spec.Flushed spec') {waiting root : Nat}
    {front : Bytes} {sink' : PageSink} {pages₀ pages₁ : List Bytes} {rs : List Record} {out : Output (List RecordSpool)}
    (hmade : PrimaryMade b spec' waiting front sink' pages₀ rs root out pages₁) : ReadRows spec.encoding (rows i) rs := by
  obtain ⟨spool, src, s, hshare, hsorted, hread⟩ := hmade.stream
  have hspool := ((htakes.spools i spec hi).flushed hflushed.spool).flushed (makeShare_cases hshare)
  exact hspool.readOut hsorted hread

end DatabaseBuilder

/-! ## Trees of an opened file -/

section

variable {E σ : Type} {b : DatabaseBuilder} {encoding : KeyEncoding} {allow : Bool} {extraBytes : E → Nat}
  {onValueRef : σ → E → PageRef → Result σ} {front : Bytes} {out out' : Output σ} {pages₀ pages₁ pages : List Bytes}
  {entries : List (Bytes × Bytes × E)} {root : Nat} {ρ : Type} [LinearOrder ρ] {rank : Bytes → ρ} {t : Tree} {limits : Limits}

/-- What is asked of an opened store: its pages come out as they went in. -/
structure PageStore.Serves (store : PageStore) (limits : Limits) (pages : List Bytes) : Prop where
  count : store.pageCount = pages.length
  limits : store.limits = limits
  delivers : ∀ env : Env, env.Reads store → env.Delivers pages

/-- The number of levels of the tree, in a file of these pages. -/
def Tree.HasHeight (t : Tree) (pages : List Bytes) (height : Nat) : Prop :=
  ∃ (E : Type) (cfg : WriterConfig E) (root : Nat) (given : List (Bytes × Bytes × E)) (levels : List Written),
    t.root = some root ∧ WellFormed cfg pages root given levels ∧ levels.length = height

/-- `P`, unless the tree is higher than the limit. It is never higher than the file has pages. -/
def Tree.WithinDepth (t : Tree) (limits : Limits) (pages : List Bytes) (P : Prop) : Prop :=
  ∃ height, t.HasHeight pages height ∧ height ≤ pages.length ∧ (height ≤ limits.maxTreeDepth → P)

theorem Tree.WithinDepth.mono {P Q : Prop} (h : t.WithinDepth limits pages P) (hPQ : P → Q) :
    t.WithinDepth limits pages Q := by
  obtain ⟨height, hheight, hle, hP⟩ := h
  exact ⟨height, hheight, hle, fun hdepth => hPQ (hP hdepth)⟩

theorem Tree.WithinDepth.elim {P : Prop} (h : t.WithinDepth limits pages P) (hle : pages.length ≤ limits.maxTreeDepth) : P := by
  obtain ⟨height, -, hheight, hP⟩ := h
  exact hP (hheight.trans hle)

theorem Env.Delivers.shrink {env : Env} (h : env.Delivers pages) (hext : Extends pages₁ pages) : env.Delivers pages₁ :=
  fun o page ho hp => h o page ((hext.keep o (List.getElem?_eq_some_iff.1 ho).1).trans ho) hp

/-- A tree of the file, opened, lists the entries it was written from. -/
theorem TreeMade.lists (h : TreeMade b encoding allow extraBytes onValueRef front out pages₀ entries root out' pages₁)
    (hext : Extends pages₁ pages) (hmax : b.pageSize ≤ i32Max) (hs : encoding.Serves rank)
    (hacc : ∀ e ∈ entries, encoding.Accepts e.1) (hasc : entries.Pairwise fun a b => rank a.1 < rank b.1)
    (hlen : ∀ e ∈ entries, pagePrefixLen + e.2.1.length ≤ i32Max) {opts : OpenOptions} {store : PageStore}
    (ht : TreeOpened opts store encoding root t) (hstore : store.Serves limits pages) :
    t.WithinDepth limits pages (t.Lists rank t.encoding.Accepts (entries.map entryRow)) := by
  obtain ⟨cfg, _, tag, items, leaves, upper, hnew, hfin⟩ := h.finished
  obtain ⟨-, hsize, henc, hlayout⟩ := treeWriter_new_eq_ok hnew
  have hlay : LayoutOk cfg.layout cfg.pageSize := by
    rw [hlayout, hsize]
    exact chooseLayout_ok hmax ..
  obtain ⟨rfl, hroot, rfl, -⟩ := ht
  have hexact : cfg.layout.omittedKeys = true → t.encoding.isDigestExact = true := by
    rw [hlayout]
    intro homit
    simp only [chooseLayout, Bool.and_eq_true] at homit
    exact homit.2
  refine ⟨upper.length + 1, ⟨E, cfg, root, entries, leaves :: upper, hroot, (hfin.wellFormed hlay).extend hext, rfl⟩,
    hfin.stack.height_le.trans hext.length, fun hdepth => ?_⟩
  exact hfin.lists hlay henc.symm hs hexact hacc hasc hlen hroot (hstore.count ▸ hext.length) (by rw [hstore.limits]; exact hdepth)
    fun env hreads => (hstore.delivers env hreads).shrink hext

/-- Keys found in ascending order are ranked so. -/
theorem KeyEncoding.OrderedBy.pairwise_of_ascends (ho : encoding.OrderedBy rank) {keys : List Bytes}
    (hacc : ∀ key ∈ keys, encoding.Accepts key) (h : AscendsFrom encoding none keys) :
    keys.Pairwise fun a b => rank a < rank b := by
  have hchain : keys.IsChain fun a b => rank a < rank b := by
    refine List.IsChain.imp_of_mem_imp (fun a b ha hb hab => ?_) h
    have ha := hacc a (by simpa using ha)
    have hb := hacc b (by simpa using hb)
    rwa [ho.compare a b ha hb, Except.ok.injEq, compare_lt_iff_lt] at hab
  exact isChain_iff_pairwise.1 hchain

end

/-! ## Rows -/

variable {past : List (Event DatabaseBuilder BuilderCall)}

theorem fits_of_accepted {i : Nat} (hfits : ∀ e ∈ past, e.label.Fits)
    {row : Bytes × Bytes} (h : row ∈ acceptedRows i past) : pagePrefixLen + row.2.length ≤ i32Max := by
  induction past with
  | nil => simp [acceptedRows] at h
  | cons e past ih =>
    rcases mem_append.1 h with h | h
    · exact ih (fun e he => hfits e (mem_cons_of_mem _ he)) h
    · have hlabel := hfits e mem_cons_self
      cases hcall : e.label with
      | append table key value =>
        rw [hcall] at h hlabel
        simp only [BuilderCall.rows] at h
        split at h
        · rw [mem_singleton.1 h]
          exact hlabel
        · cases h
      | _ => simp [hcall, BuilderCall.rows] at h

/-! ## Whole files -/

/-- What a successful build leaves: the trees it made, in a file that holds them. -/
structure BuildDone (past : List (Event DatabaseBuilder BuilderCall)) (b : DatabaseBuilder) (report : BuildReport) (file : Bytes)
    (built : List BuiltTable) (pages : List Bytes) (sink : PageSink) : Prop where
  ok : b.Ok
  takes : b.Takes fun i => acceptedRows i past
  trees : ∃ sink₀ specs, b.TreesDone built sink₀ pages specs
  file : b.FileDone built pages sink file
  count : report.pageCount = pages.length

theorem BuilderRun.buildDone {b : DatabaseBuilder} {report : BuildReport}
    {file : Bytes} (hrun : BuilderRun past b) (hfits : ∀ e ∈ past, e.label.Fits) (hbuild : b.buildInto = .ok (report, file)) :
    ∃ built pages sink, BuildDone past b report file built pages sink := by
  obtain ⟨⟨built, sink₀⟩, htrees, hfinish⟩ := bind_eq_ok.1 hbuild
  obtain ⟨pages, specs, hdone⟩ := buildTrees_done hrun.ok htrees
  obtain ⟨hcount, sink, hfile⟩ := finishBuild_done hdone hfinish
  refine ⟨built, pages, sink, hrun.ok, ?_, ⟨sink₀, specs, hdone⟩, hfile, hcount⟩
  exact (hrun.takes hfits).resolve_left hdone.unspoiled

/-- The trees of a table were written from the records `rs`, which are the rows `rows`. -/
structure TableRead (b : DatabaseBuilder) (pages : List Bytes) (spec : TableSpec) (rows : List (Bytes × Bytes)) (t : BuiltTable)
    (rs : List Record) (spools : List RecordSpool) : Prop where
  primary : ∃ waiting spool, PrimaryBuilt b { spec with spool } waiting rs t.primary spools pages
  read : ReadRows spec.encoding rows rs
  count : spec.secondaries.length = spools.length
  indexes : List.Forall₂ (fun (i : SecondarySpec × RecordSpool) root => IndexBuilt b i.1 i.2 spec.name root pages)
    (spec.secondaries.zip spools) t.secondaries

namespace BuildDone

variable {past : List (Event DatabaseBuilder BuilderCall)} {b : DatabaseBuilder} {report : BuildReport} {file : Bytes}
  {built : List BuiltTable} {pages : List Bytes} {sink : PageSink} {opts : OpenOptions}

theorem opens (h : BuildDone past b report file built pages sink) (hlen : file.length < 2 ^ 63)
    (hadmits : opts.limits.AdmitFile b.filter (b.front built pages.length sink.pos) pages) (hknows : opts.Knows b) :
    ∃ db, openBytes opts file = .ok db ∧ db.store.Serves opts.limits pages ∧
      ∀ (i : Nat) spec t, b.tables[i]? = some spec → built[i]? = some t →
        ∃ table, db.tables[i]? = some table ∧ TableOpened opts db.store spec t table := by
  obtain ⟨sink₀, specs, hdone⟩ := h.trees
  obtain ⟨db, hopen, hstore, htables⟩ := h.file.opens h.ok hdone.fits hdone.rootsOk hlen hadmits.catalog hknows
  refine ⟨db, hopen, ⟨by rw [hstore]; rfl, by rw [hstore]; rfl, fun env hreads => ?_⟩, ?_⟩
  · rw [hstore] at hreads
    exact h.file.delivers hlen hadmits hknows hreads
  · intro i spec t hi ht
    have hzip : (b.tables.zip built)[i]? = some (spec, t) := getElem?_zip_eq_some.2 ⟨hi, ht⟩
    exact forall₂_getElem? htables.flip hzip

theorem table (h : BuildDone past b report file built pages sink) {i : Nat} {spec : TableSpec} (hi : b.tables[i]? = some spec) :
    ∃ t rs spools, built[i]? = some t ∧ TableRead b pages spec (acceptedRows i past) t rs spools := by
  obtain ⟨sink₀, specs, hdone⟩ := h.trees
  obtain ⟨spec', t, ht, hflushed, htable⟩ := hdone.table hi
  obtain ⟨waiting, rs, spools, hbuilt, hcount, hindexes⟩ := htable.built.trees
  obtain ⟨front, sink₁, pages₀, sink', pages₁, hmade, hext⟩ := hbuilt
  have hread := h.takes.readRows hi hflushed hmade
  rw [hflushed.same] at hmade hcount hindexes
  exact ⟨t, rs, spools, ht, ⟨waiting, _, front, sink₁, pages₀, sink', pages₁, hmade, hext⟩, hread, hcount, hindexes⟩

end BuildDone

/-! ## Primary trees -/

section

variable {b : DatabaseBuilder} {pages : List Bytes} {spec : TableSpec} {rows : List (Bytes × Bytes)} {t : BuiltTable}
  {rs : List Record} {spools : List RecordSpool} {ρ : Type}

theorem TableRead.ascends (h : TableRead b pages spec rows t rs spools) : AscendsFrom spec.encoding none (rs.map Record.key) := by
  obtain ⟨_, _, _, _, _, _, _, hmade, -⟩ := h.primary
  exact hmade.ascends

theorem TableRead.rows_ascend [LinearOrder ρ] {rank : Bytes → ρ} (h : TableRead b pages spec rows t rs spools)
    (ho : spec.encoding.OrderedBy rank) : (rs.map Record.row).Pairwise fun x y => rank x.1 < rank y.1 := by
  have hasc := ho.pairwise_of_ascends (forall_mem_map.2 h.read.accepted) h.ascends
  exact pairwise_map.2 ((pairwise_map (f := Record.key)).1 hasc)

theorem TableRead.rows_compare [LinearOrder ρ] {rank : Bytes → ρ} (h : TableRead b pages spec rows t rs spools)
    (ho : spec.encoding.OrderedBy rank) : (rs.map Record.row).Pairwise fun x y => spec.encoding.compare x.1 y.1 = .ok .lt := by
  have hacc : ∀ row ∈ rs.map Record.row, spec.encoding.Accepts row.1 := forall_mem_map.2 h.read.accepted
  refine (h.rows_ascend ho).imp_of_mem fun {x y} hx hy hlt => ?_
  rw [ho.compare _ _ (hacc x hx) (hacc y hy), compare_lt_iff_lt.2 hlt]

theorem TableRead.wellFormed (h : TableRead b pages spec rows t rs spools) (hmax : b.pageSize ≤ i32Max) :
    ∃ (cfg : WriterConfig (List IndexKey)) (given : List (Bytes × Bytes × List IndexKey)) (levels : List Written),
      cfg.encoding = spec.encoding ∧ WellFormed cfg pages t.primary given levels ∧ given.map entryRow = rs.map Record.row := by
  obtain ⟨_, _, _, _, _, _, _, hmade, hext⟩ := h.primary
  obtain ⟨entries, _, hentries, htree⟩ := hmade.tree
  obtain ⟨cfg, levels, henc, hwf⟩ := htree.wellFormed hmax
  exact ⟨cfg, entries, levels, henc, hwf.extend hext, entryRow_rows hentries⟩

/-- The opened primary tree lists the records, if its encoding orders them. -/
theorem TableRead.lists [LinearOrder ρ] {rank : Bytes → ρ} (h : TableRead b pages spec rows t rs spools)
    (hmax : b.pageSize ≤ i32Max) (hs : spec.encoding.Serves rank) (hlen : ∀ row ∈ rows, pagePrefixLen + row.2.length ≤ i32Max)
    {opts : OpenOptions} {store : PageStore} {table : Table} (hopened : TableOpened opts store spec t table) {limits : Limits}
    (hstore : store.Serves limits pages) :
    table.primary.WithinDepth limits pages (table.primary.Lists rank table.primary.encoding.Accepts (rs.map Record.row)) := by
  obtain ⟨_, _, _, _, _, _, _, hmade, hext⟩ := h.primary
  obtain ⟨entries, _, hentries, htree⟩ := hmade.tree
  have hrows := entryRow_rows hentries
  have hmem : ∀ e ∈ entries, ∃ r ∈ rs, r.row = entryRow e := fun e he =>
    mem_map.1 (hrows ▸ mem_map_of_mem he)
  have hacc : ∀ e ∈ entries, spec.encoding.Accepts e.1 := by
    intro e he
    obtain ⟨r, hr, heq⟩ := hmem e he
    have hkey : r.key = e.1 := congrArg Prod.fst heq
    exact hkey ▸ h.read.accepted r hr
  have hasc := h.rows_ascend hs.ordered
  rw [← hrows] at hasc ⊢
  refine htree.lists hext hmax hs hacc ((pairwise_map (f := entryRow)).1 hasc) (fun e he => ?_) hopened.primary hstore
  obtain ⟨r, hr, heq⟩ := hmem e he
  have hrow : entryRow e ∈ rows := heq ▸ h.read.perm.mem_iff.1 (mem_map_of_mem hr)
  exact hlen _ hrow

end

/-! ## What a finished file holds, and what it answers -/

section

variable {past : List (Event DatabaseBuilder BuilderCall)} {b : DatabaseBuilder} {report : BuildReport} {file : Bytes}

/-- Whatever failed on the way, a build that returns `Ok` leaves a file in which the leaves of every
table hold the rows whose append returned `Ok`, each once, and the file opens onto those pages. -/
theorem finished_file_holds_accepted (hrun : BuilderRun past b) (hfits : ∀ e ∈ past, e.label.Fits)
    (hbuild : b.buildInto = .ok (report, file)) :
    ∃ (built : List BuiltTable) (pages : List Bytes) (sink : PageSink), b.FileDone built pages sink file ∧
      built.length = b.tables.length ∧ (∀ i, b.tables.length ≤ i → acceptedRows i past = []) ∧
      (∀ (i : Nat) spec, b.tables[i]? = some spec → ∃ (t : BuiltTable) (cfg : WriterConfig (List IndexKey))
        (given : List (Bytes × Bytes × List IndexKey)) (levels : List Written),
        built[i]? = some t ∧ cfg.encoding = spec.encoding ∧ WellFormed cfg pages t.primary given levels ∧
          (given.map entryRow).Perm (acceptedRows i past) ∧ AscendsFrom spec.encoding none (given.map Prod.fst)) ∧
      ∀ opts : OpenOptions, file.length < 2 ^ 63 → opts.Knows b →
        opts.limits.AdmitFile b.filter (b.front built pages.length sink.pos) pages →
        ∃ db, openBytes opts file = .ok db ∧ (∀ env : Env, env.Reads db.store → env.Delivers pages) ∧
          ∀ (i : Nat) t, built[i]? = some t → ∃ table, db.tables[i]? = some table ∧ table.primary.root = some t.primary := by
  obtain ⟨built, pages, sink, h⟩ := hrun.buildDone hfits hbuild
  obtain ⟨sink₀, specs, hdone⟩ := h.trees
  have hlength : built.length = b.tables.length := by rw [← hdone.tables.length_eq, ← hdone.flushed.length_eq]
  refine ⟨built, pages, sink, h.file, hlength, h.takes.others, fun i spec hi => ?_, fun opts hlen hknows hadmits => ?_⟩
  · obtain ⟨t, rs, spools, ht, hread⟩ := h.table hi
    obtain ⟨cfg, given, levels, henc, hwf, hrows⟩ := hread.wellFormed h.ok.pageSize.2
    refine ⟨t, cfg, given, levels, ht, henc, hwf, hrows ▸ hread.read.perm, ?_⟩
    have hkeys : given.map Prod.fst = rs.map Record.key := by
      simpa [map_map, Function.comp_def, entryRow, Record.row] using congrArg (List.map Prod.fst) hrows
    rw [hkeys]
    exact hread.ascends
  · obtain ⟨db, hopen, hstore, htables⟩ := h.opens hlen hadmits hknows
    refine ⟨db, hopen, hstore.delivers, fun i t ht => ?_⟩
    have hi : i < b.tables.length := hlength ▸ (List.getElem?_eq_some_iff.1 ht).1
    obtain ⟨table, htable, hopened⟩ := htables i b.tables[i] t (getElem?_eq_getElem hi) ht
    exact ⟨table, htable, hopened.primary.root⟩

/-- Two rows in the wrong order and one whose key is refused. -/
def stallCalls : List BuilderCall :=
  [.createTable "a" int64Encoding {}, .append 0 (leBytes 8 7) [65], .append 0 [7] [66], .append 0 (leBytes 8 3) [67]]

def stallFile : Bytes :=
  [68, 82, 89, 0, 1, 4, 0, 0, 0, 16, 0, 0, 1, 0, 1, 0, 0, 0, 106, 0, 0, 0, 0, 0, 0, 0,
   1, 0, 0, 0, 97, 4, 0, 3, 0, 97, 95, 112, 107, 105, 54, 52, 1, 0, 0, 0, 0, 0, 0, 0, 0, 0, 0, 0,
   52, 0, 0, 0, 0, 12, 0, 0, 2, 0, 0, 0, 255, 255, 255, 255, 255, 255, 255, 255, 255, 255, 255, 255, 255, 255, 255, 255,
   3, 0, 0, 0, 0, 0, 0, 128, 7, 0, 0, 0, 0, 0, 0, 128, 50, 0, 51, 0, 52, 0, 67, 65,
   54, 0, 0, 0, 0, 0, 0, 0]

/-- The file before the page count and the directory are known. -/
def stallSink : PageSink :=
  { file := stallFile.take 14 ++ List.replicate 12 0 ++ (stallFile.drop 26).take 80, directory := [54] }

def stallReport : BuildReport := { pageCount := 1, fileSize := 114, tables := [{ name := "a", rows := 2, indexes := [] }] }

theorem stall_builds : (BuilderCall.runAll stallCalls).buildInto = .ok (stallReport, stallFile) := by
  have htrees : (BuilderCall.runAll stallCalls).buildTrees =
    .ok ([{ report := { name := "a", rows := 2, indexes := [] }, primary := 0, secondaries := [] }], stallSink) := rfl
  unfold buildInto
  rw [htrees]
  rfl

theorem finished_file_holds_accepted_stall :
    acceptedRows 0 (BuilderCall.history stallCalls) = [(leBytes 8 7, [65]), (leBytes 8 3, [67])] ∧
    ∃ built pages sink, (BuilderCall.runAll stallCalls).FileDone built pages sink stallFile ∧ built.length = 1 := by
  obtain ⟨built, pages, sink, hfile, hlength, -⟩ := finished_file_holds_accepted (BuilderCall.run_history stallCalls) (by decide) stall_builds
  exact ⟨rfl, built, pages, sink, hfile, hlength⟩

/-- Build, then read: the opened file is, table by table, the sorted map of the rows that went in. The limits need
to admit the pages of the file and the levels of the tree. -/
theorem build_then_read (hrun : BuilderRun past b) (hfits : ∀ e ∈ past, e.label.Fits) (hbuild : b.buildInto = .ok (report, file))
    (hlen : file.length < 2 ^ 63) :
    ∃ (built : List BuiltTable) (pages : List Bytes) (sink : PageSink), b.FileDone built pages sink file ∧
      report.pageCount = pages.length ∧ ∀ opts : OpenOptions, opts.Knows b →
        opts.limits.AdmitFile b.filter (b.front built pages.length sink.pos) pages →
        ∃ db, openBytes opts file = .ok db ∧ ∀ (i : Nat) spec, b.tables[i]? = some spec →
          builtin spec.encoding.id = some spec.encoding →
          ∃ table rows, db.tables[i]? = some table ∧ table.descriptor.name = spec.name ∧ table.primary.encoding = spec.encoding ∧
            rows.Perm (acceptedRows i past) ∧ rows.Pairwise (fun x y => spec.encoding.compare x.1 y.1 = .ok .lt) ∧
            table.primary.WithinDepth opts.limits pages (table.AnswersAs rows) := by
  obtain ⟨built, pages, sink, h⟩ := hrun.buildDone hfits hbuild
  refine ⟨built, pages, sink, h.file, h.count, fun opts hknows hadmits => ?_⟩
  obtain ⟨db, hopen, hstore, htables⟩ := h.opens hlen hadmits hknows
  refine ⟨db, hopen, fun i spec hi hbuiltin => ?_⟩
  obtain ⟨t, rs, spools, ht, hread⟩ := h.table hi
  obtain ⟨table, htable, hopened⟩ := htables i spec t hi ht
  obtain ⟨ρ, _, rank, hs⟩ := builtin_serves hbuiltin
  have henc := hopened.primary.encoding
  have hlists := hread.lists h.ok.pageSize.2 hs (fun row hrow => fits_of_accepted hfits hrow) hopened hstore
  refine ⟨table, rs.map Record.row, htable, hopened.name, henc, hread.read.perm, hread.rows_compare hs.ordered,
    hlists.mono fun hlists => hlists.answers fun key hkey => ?_⟩
  rw [henc] at hkey ⊢
  exact ⟨hkey, (builtin_laws hbuiltin).digests key hkey⟩

theorem stall_knows : ({} : OpenOptions).Knows (BuilderCall.runAll stallCalls) where
  filter := nofun
  primaries spec hspec := by
    obtain rfl := mem_singleton.1 (show spec ∈ [_] from hspec)
    rfl
  secondaries spec hspec index hindex := by
    obtain rfl := mem_singleton.1 (show spec ∈ [_] from hspec)
    cases hindex

/-- The two rows come out in key order. -/
theorem build_then_read_stall : ∃ db table, openBytes {} stallFile = .ok db ∧ db.tables[0]? = some table ∧
    table.AnswersAs [(leBytes 8 3, [67]), (leBytes 8 7, [65])] := by
  obtain ⟨built, pages, sink, hdone, hcount, hreads⟩ := build_then_read (BuilderCall.run_history stallCalls) (by decide) stall_builds (by decide)
  obtain ⟨db, hopen, htables⟩ := hreads {} stall_knows (hdone.admitFile rfl (by decide) (by decide))
  obtain ⟨table, rows, htable, -, -, hperm, hasc, hanswers⟩ := htables 0 _ rfl rfl
  refine ⟨db, table, hopen, htable, ?_⟩
  have hrows : rows.Perm [(leBytes 8 7, [65]), (leBytes 8 3, [67])] := hperm
  have hsorted : rows = [(leBytes 8 3, [67]), (leBytes 8 7, [65])] := by
    refine List.Perm.eq_of_pairwise ?_ hasc (by decide) (hrows.trans (.swap _ _ []))
    intro x y hx hy hxy hyx
    have hx := hrows.mem_iff.1 hx
    revert hxy hyx
    fin_cases hx <;> fin_cases hy <;> decide
  exact hsorted ▸ hanswers.elim (hcount ▸ (by decide : stallReport.pageCount ≤ 64))

end

end DryDb
