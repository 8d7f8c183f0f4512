import DryDb.Model.Builder
import DryDb.Spool.Streams
import DryDb.Writer.WellFormed
/-!
# Trees of a build

The loops of `build_table` and `build_index_tree` hand the records of a sorted stream to a tree
writer one by one. Taken apart, a loop that came to its end is a list of entries made from the
records, all of them pushed: what `Finished` says of such a run then holds of the tree.
-/

namespace DryDb

/-! ## Loops over records -/

variable {σ : Type} {src : SortedRecords} {rs : List Record} {encoding : KeyEncoding} {previous : Option Bytes}
  {cfg : WriterConfig Unit} {table name : String} {pageSize root : Nat} {pages : List Bytes} {b : DatabaseBuilder}
  {front : Bytes} {sink : PageSink}

/-- A loop that came to an end took the records of the stream, all of them. -/
theorem forEachRecord_eq_ok {step : Record → σ → Result σ} {turns : Nat} {s s' : σ}
    (hturns : src.left < turns) (h : forEachRecord step turns src s = .ok s') :
    ∃ rs, rs.foldlM (fun s r => step r s) s = .ok s' ∧ Streams src rs none := by
  induction turns generalizing src s with
  | zero => omega
  | succ turns ih =>
    unfold forEachRecord at h
    obtain ⟨next, hnext, h⟩ := bind_eq_ok.1 h
    cases next with
    | none =>
      cases h
      exact ⟨[], rfl, .done hnext⟩
    | some next =>
      obtain ⟨r, rest⟩ := next
      obtain ⟨mid, hstep, h⟩ := bind_eq_ok.1 h
      have hless := SortedRecords.left_lt hnext
      obtain ⟨rs, hrs, hend⟩ := ih (by omega) h
      refine ⟨r :: rs, ?_, .next hnext hend⟩
      rw [List.foldlM_cons, hstep]
      exact hrs

/-- The keys, with what came before them, each sort above the one before. -/
abbrev AscendsFrom (encoding : KeyEncoding) (previous : Option Bytes) (keys : List Bytes) : Prop :=
  List.IsChain (fun a b => encoding.compare a b = .ok .lt) (previous.toList ++ keys)

theorem checkDistinct_eq_ok {e : Error} {key : Bytes} :
    checkDistinct encoding e previous key = .ok () ↔ ∀ p ∈ previous, encoding.compare p key = .ok .lt := by
  cases previous with
  | none => simp [checkDistinct]
  | some p =>
    simp only [checkDistinct, bind_eq_ok, guard_eq_ok, and_true, not_not, Option.mem_def, Option.some.injEq, forall_eq']
    constructor
    · rintro ⟨o, ho, rfl⟩
      exact ho
    · intro h
      exact ⟨_, h, rfl⟩

theorem AscendsFrom.nil (previous : Option Bytes) : AscendsFrom encoding previous [] := by
  cases previous <;> simp [AscendsFrom]

theorem AscendsFrom.cons {key : Bytes} {keys : List Bytes}
    (h : ∀ p ∈ previous, encoding.compare p key = .ok .lt) (hrest : AscendsFrom encoding (some key) keys) :
    AscendsFrom encoding previous (key :: keys) := by
  cases previous with
  | none => exact hrest
  | some p => exact .cons_cons (h p rfl) hrest

/-! ## Primary trees -/

/-- The entry of a row: its key, its value and its index keys. -/
def rowEntry (secondaries : List SecondarySpec) (r : Record) : Result (Bytes × Bytes × List IndexKey) := do
  let keys ← secondaries.mapM fun index => index.keyFn r.key r.value
  .ok (r.key, r.value, keys)

/-- The rows of a primary tree, as entries pushed one after another. -/
theorem writeRows_eq_ok {cfg : WriterConfig (List IndexKey)} {spoolBudget : Nat}
    {secondaries : List SecondarySpec} {s s' : Writing (List IndexKey) (List RecordSpool)}
    (h : rs.foldlM (fun s r => writeRow cfg spoolBudget table secondaries r s) s = .ok s') :
    ∃ entries, rs.mapM (rowEntry secondaries) = .ok entries ∧
      TreeWriter.pushAll cfg (spoolIndexKeys spoolBudget) entries s.2 = .ok s'.2 ∧
      AscendsFrom cfg.encoding s.1 (rs.map Record.key) := by
  induction rs generalizing s with
  | nil =>
    cases h
    exact ⟨[], rfl, rfl, .nil _⟩
  | cons r rs ih =>
    rw [List.foldlM_cons] at h
    obtain ⟨mid, hrow, h⟩ := bind_eq_ok.1 h
    obtain ⟨_, hdistinct, hrow⟩ := bind_eq_ok.1 hrow
    obtain ⟨keys, hkeys, hrow⟩ := bind_eq_ok.1 hrow
    obtain ⟨w, hpush, hmid⟩ := bind_eq_ok.1 hrow
    cases hmid
    obtain ⟨entries, hentries, hall, hasc⟩ := ih h
    refine ⟨(r.key, r.value, keys) :: entries, ?_, ?_, AscendsFrom.cons (checkDistinct_eq_ok.1 hdistinct) hasc⟩
    · simp [List.mapM_cons, rowEntry, hkeys, hentries]
    · rw [pushAll_cons, hpush]
      exact hall

/-! ## Index trees -/

/-- The entries of a unique index. -/
def uniqueEntry (r : Record) : Bytes × Bytes × Unit := (r.key, r.value, ())

theorem writeUniques_eq_ok {s s' : Writing Unit Unit} (h : rs.foldlM (fun s r => writeUnique cfg table name r s) s = .ok s') :
    TreeWriter.pushAll cfg discard (rs.map uniqueEntry) s.2 = .ok s'.2 ∧
      AscendsFrom cfg.encoding s.1 (rs.map Record.key) := by
  induction rs generalizing s with
  | nil =>
    cases h
    exact ⟨rfl, .nil _⟩
  | cons r rs ih =>
    rw [List.foldlM_cons] at h
    obtain ⟨mid, hrow, h⟩ := bind_eq_ok.1 h
    obtain ⟨_, hdistinct, hrow⟩ := bind_eq_ok.1 hrow
    obtain ⟨w, hpush, hmid⟩ := bind_eq_ok.1 hrow
    cases hmid
    obtain ⟨hall, hasc⟩ := ih h
    refine ⟨?_, AscendsFrom.cons (checkDistinct_eq_ok.1 hdistinct) hasc⟩
    rw [List.map_cons, pushAll_cons]
    show TreeWriter.push cfg discard r.key r.value () s.2 >>= _ = _
    rw [hpush]
    exact hall

/-- The entries of an index with duplicate keys: a record id behind each key, counted from zero
in every run of equal keys. -/
def duplicateEntries (source : KeyEncoding) (table name : String) :
    Option Bytes → Nat → List Record → Result (List (Bytes × Bytes × Unit))
  | _, _, [] => .ok []
  | previous, rid, r :: rs => do
    let rid ← nextRid source table name previous rid r.key
    let rest ← duplicateEntries source table name (some r.key) rid rs
    .ok ((DuplicateKeyEncoding.encode r.key rid, r.value, ()) :: rest)

theorem writeDuplicates_eq_ok {source : KeyEncoding} {s s' : Nat × Writing Unit Unit}
    (h : rs.foldlM (fun s r => writeDuplicate cfg source table name r s) s = .ok s') :
    ∃ entries, duplicateEntries source table name s.2.1 s.1 rs = .ok entries ∧
      TreeWriter.pushAll cfg discard entries s.2.2 = .ok s'.2.2 := by
  induction rs generalizing s with
  | nil =>
    cases h
    exact ⟨[], rfl, rfl⟩
  | cons r rs ih =>
    rw [List.foldlM_cons] at h
    obtain ⟨mid, hrow, h⟩ := bind_eq_ok.1 h
    obtain ⟨rid, hrid, hrow⟩ := bind_eq_ok.1 hrow
    obtain ⟨w, hpush, hmid⟩ := bind_eq_ok.1 hrow
    cases hmid
    obtain ⟨entries, hentries, hall⟩ := ih h
    refine ⟨(DuplicateKeyEncoding.encode r.key rid, r.value, ()) :: entries, ?_, ?_⟩
    · simp only [duplicateEntries, hrid, ok_bind, hentries]
    · rw [pushAll_cons]
      show TreeWriter.push cfg discard _ r.value () s.2.2 >>= _ = _
      rw [hpush]
      exact hall

/-! ## Whole trees -/

theorem Stack.root_lt {layout : NodeLayout} {tag : Nat → Option Nat} {k : Nat}
    {kind : NodeKind} {items : List Item} {levels : List Written} (h : Stack layout pageSize pages tag root k kind items levels) :
    root < pages.length := by
  induction h with
  | root hpage => exact (List.getElem?_eq_some_iff.1 hpage).1
  | level _ _ _ _ _ ih => exact ih

theorem outcome_eq_ok {ε α : Type} {x : Act σ ε α} {s s' : σ} {a : α} :
    x.outcome s = .ok (a, s') ↔ x.run s = (.ok a, s') := by
  unfold Act.outcome
  cases hx : x.run s with
  | mk r t => cases r <;> simp [Except.map]

theorem treeWriter_new_eq_ok {E : Type} {extraBudget : Nat} {eytzinger allow : Bool}
    {extraBytes : E → Nat} {cfg : WriterConfig E}
    (h : TreeWriter.new pageSize eytzinger encoding allow extraBytes extraBudget = .ok cfg) :
    minPageSize ≤ pageSize ∧ cfg.pageSize = pageSize ∧ cfg.encoding = encoding ∧
      cfg.layout = chooseLayout pageSize eytzinger encoding allow := by
  unfold TreeWriter.new at h
  obtain ⟨hmin, h⟩ := guard_eq_ok.1 h
  cases h
  exact ⟨Nat.le_of_not_lt hmin, rfl, rfl, rfl⟩

/-- A tree written from `entries` into a file that held `pages`, which then holds `pages'`. -/
structure TreeMade {E σ : Type} (b : DatabaseBuilder) (encoding : KeyEncoding) (allow : Bool) (extraBytes : E → Nat)
    (onValueRef : σ → E → PageRef → Result σ) (front : Bytes) (out : Output σ) (pages : List Bytes)
    (entries : List (Bytes × Bytes × E)) (root : Nat) (out' : Output σ) (pages' : List Bytes) : Prop where
  finished : ∃ cfg extraBudget tag items leaves upper,
    TreeWriter.new b.pageSize b.eytzingerDigests encoding allow extraBytes extraBudget = .ok cfg ∧
      Finished cfg onValueRef False front out.sink pages out.caller entries root out' pages' tag items leaves upper

namespace TreeMade

variable {E σ : Type} {b : DatabaseBuilder} {encoding : KeyEncoding} {allow : Bool} {extraBytes : E → Nat}
  {onValueRef : σ → E → PageRef → Result σ} {front : Bytes} {out out' : Output σ} {pages pages' : List Bytes}
  {entries : List (Bytes × Bytes × E)} {root : Nat}

theorem holds (h : TreeMade b encoding allow extraBytes onValueRef front out pages entries root out' pages') :
    out'.sink.Holds front pages' := by
  obtain ⟨_, _, _, _, _, _, _, hfin⟩ := h.finished
  exact hfin.sink

theorem root_lt (h : TreeMade b encoding allow extraBytes onValueRef front out pages entries root out' pages') :
    root < pages'.length := by
  obtain ⟨_, _, _, _, _, _, _, hfin⟩ := h.finished
  exact hfin.stack.root_lt

theorem keeps (h : TreeMade b encoding allow extraBytes onValueRef front out pages entries root out' pages') :
    ∀ o < pages.length, pages'[o]? = pages[o]? := by
  obtain ⟨_, _, _, _, _, _, _, hfin⟩ := h.finished
  exact fun o ho => hfin.grows.keep o ho (by simp)

theorem filter (h : TreeMade b encoding allow extraBytes onValueRef front out pages entries root out' pages') :
    out'.sink.filter = out.sink.filter := by
  obtain ⟨_, _, _, _, _, _, _, hfin⟩ := h.finished
  exact hfin.grows.filter

end TreeMade

/-- The primary tree of a table, written from the rows its spool handed out. -/
structure PrimaryMade (b : DatabaseBuilder) (spec : TableSpec) (waiting : Nat) (front : Bytes) (sink : PageSink)
    (pages : List Bytes) (rows : List Record) (root : Nat) (out : Output (List RecordSpool)) (pages' : List Bytes) : Prop where
  stream : ∃ spool src t, DatabaseBuilder.makeShare spec (b.sortBuffer - waiting) = .ok spool ∧
    RecordSpool.intoSorted.run spool = (.ok src, t) ∧ Streams src rows none
  ascends : AscendsFrom spec.encoding none (rows.map Record.key)
  tree : ∃ entries spoolBudget, rows.mapM (rowEntry spec.secondaries) = .ok entries ∧
    TreeMade b spec.encoding true indexKeyBytes (spoolIndexKeys spoolBudget) front
      ⟨sink, spec.secondaries.map fun index => RecordSpool.new index.encoding b.sortBuffer index.fate⟩ pages entries root out
      pages'

theorem buildPrimary_made {spec : TableSpec} {waiting : Nat} {out : Output (List RecordSpool)} (hs : sink.Holds front pages)
    (h : b.buildPrimary spec waiting sink = .ok (root, out)) :
    ∃ rows pages', PrimaryMade b spec waiting front sink pages rows root out pages' := by
  unfold DatabaseBuilder.buildPrimary at h
  obtain ⟨spool, hshare, h⟩ := bind_eq_ok.1 h
  obtain ⟨⟨src, t⟩, hsorted, h⟩ := bind_eq_ok.1 h
  obtain ⟨cfg, hcfg, h⟩ := bind_eq_ok.1 h
  obtain ⟨⟨previous, w⟩, hloop, hfinish⟩ := bind_eq_ok.1 h
  obtain ⟨rows, hrows, hend⟩ := forEachRecord_eq_ok (Nat.lt_succ_self _) hloop
  obtain ⟨entries, hentries, hpush, hasc⟩ := writeRows_eq_ok hrows
  obtain ⟨hmin, hsize, henc, -⟩ := treeWriter_new_eq_ok hcfg
  obtain ⟨pages', tag, items, leaves, upper, hfin⟩ := finished_of_ok (hsize ▸ hmin) hs hpush hfinish
  exact ⟨rows, pages', ⟨spool, src, t, hshare, outcome_eq_ok.1 hsorted, hend⟩, henc ▸ hasc, entries, _, hentries,
    ⟨cfg, _, tag, items, leaves, upper, hcfg, hfin⟩⟩

/-- The encoding of an index tree. -/
def SecondarySpec.treeEncoding (index : SecondarySpec) : KeyEncoding :=
  if index.unique then index.encoding else duplicateKeyEncoding index.encoding

/-- The entries an index tree is written from. -/
def SecondarySpec.entries (index : SecondarySpec) (table : String) (rows : List Record) : Result (List (Bytes × Bytes × Unit)) :=
  if index.unique then .ok (rows.map uniqueEntry) else duplicateEntries index.encoding table index.name none 0 rows

/-- The tree of an index, written from the records its spool handed out. -/
structure IndexMade (b : DatabaseBuilder) (index : SecondarySpec) (spool : RecordSpool) (table : String) (front : Bytes)
    (sink : PageSink) (pages : List Bytes) (rows : List Record) (root : Nat) (sink' : PageSink) (pages' : List Bytes) :
    Prop where
  stream : ∃ src t, RecordSpool.intoSorted.run spool = (.ok src, t) ∧ Streams src rows none
  ascends : index.unique → AscendsFrom index.encoding none (rows.map Record.key)
  tree : ∃ entries, index.entries table rows = .ok entries ∧
    TreeMade b index.treeEncoding index.unique (fun _ => 0) discard front ⟨sink, ()⟩ pages entries root ⟨sink', ()⟩ pages'

theorem buildIndexTree_made {index : SecondarySpec} {spool : RecordSpool} {sink' : PageSink} (hs : sink.Holds front pages)
    (h : b.buildIndexTree sink index spool table = .ok (root, sink')) :
    ∃ rows pages', IndexMade b index spool table front sink pages rows root sink' pages' := by
  have hout : (Output.mk sink ()).sink.Holds front pages := hs
  unfold DatabaseBuilder.buildIndexTree at h
  obtain ⟨⟨src, t⟩, hsorted, h⟩ := bind_eq_ok.1 h
  cases hunique : index.unique with
  | true =>
    simp only [hunique, if_true] at h
    obtain ⟨cfg, hcfg, h⟩ := bind_eq_ok.1 h
    obtain ⟨⟨previous, w⟩, hloop, h⟩ := bind_eq_ok.1 h
    obtain ⟨⟨root', out⟩, hfinish, h⟩ := bind_eq_ok.1 h
    cases h
    obtain ⟨rows, hrows, hend⟩ := forEachRecord_eq_ok (Nat.lt_succ_self _) hloop
    obtain ⟨hpush, hasc⟩ := writeUniques_eq_ok hrows
    obtain ⟨hmin, hsize, henc, -⟩ := treeWriter_new_eq_ok hcfg
    obtain ⟨pages', tag, items, leaves, upper, hfin⟩ := finished_of_ok (hsize ▸ hmin) hout hpush hfinish
    refine ⟨rows, pages', ⟨src, t, outcome_eq_ok.1 hsorted, hend⟩, fun _ => henc ▸ hasc, rows.map uniqueEntry, ?_, ?_⟩
    · simp [SecondarySpec.entries, hunique]
    · refine ⟨cfg, usizeMax, tag, items, leaves, upper, ?_, hfin⟩
      simpa [SecondarySpec.treeEncoding, hunique] using hcfg
  | false =>
    simp only [hunique, Bool.false_eq_true, if_false] at h
    obtain ⟨cfg, hcfg, h⟩ := bind_eq_ok.1 h
    obtain ⟨⟨rid, previous, w⟩, hloop, h⟩ := bind_eq_ok.1 h
    obtain ⟨⟨root', out⟩, hfinish, h⟩ := bind_eq_ok.1 h
    cases h
    obtain ⟨rows, hrows, hend⟩ := forEachRecord_eq_ok (Nat.lt_succ_self _) hloop
    obtain ⟨entries, hentries, hpush⟩ := writeDuplicates_eq_ok hrows
    obtain ⟨hmin, hsize, -, -⟩ := treeWriter_new_eq_ok hcfg
    obtain ⟨pages', tag, items, leaves, upper, hfin⟩ := finished_of_ok (hsize ▸ hmin) hout hpush hfinish
    refine ⟨rows, pages', ⟨src, t, outcome_eq_ok.1 hsorted, hend⟩, ?_, entries, ?_, ?_⟩
    · simp [hunique]
    · simpa [SecondarySpec.entries, hunique] using hentries
    · refine ⟨cfg, usizeMax, tag, items, leaves, upper, ?_, hfin⟩
      simpa [SecondarySpec.treeEncoding, hunique] using hcfg

end DryDb
