import DryDb.Lib.Runs
import DryDb.Model.Spool
import DryDb.Model.TreeWriter
/-!
# Building a database

`builder/mod.rs`. Rows are appended to one spool per table; the build writes the header and the
descriptors, then each table's trees from its sorted rows, and goes back to patch the roots and
the header. The sort buffer is shared: whichever spool holds the most gives its buffer up when
the total goes over.

Appending keeps its state when it fails, so it is an `Act` on the builder; a build consumes the
builder, so it is a `Result`. Directories for temporary files are left out, and sizes of memory
are natural numbers. The outer and the inner capacity of the index keys a row waits with are what
the key functions hand back.
-/

namespace DryDb

def defaultPageSize : Nat := 4096

def defaultSortBuffer : Nat := 64 * 2 ^ 20

def usizeMax : Nat := 2 ^ 64 - 1

/-! ## Spools that share a buffer -/

/-- `max_by_key`: the number of the largest and what it is. The last one of several wins. -/
def maxByKey : List Nat → Option (Nat × Nat)
  | [] => none
  | x :: rest =>
    match maxByKey rest with
    | some (i, m) => if x ≤ m then some (i + 1, m) else some (0, x)
    | none => some (0, x)

/-- What a set of spools holds. -/
def bufferedBytes (spools : List RecordSpool) : Nat := (spools.map RecordSpool.bufferedBytes).sum

namespace RecordSpool

/-- Flushes one spool of several. -/
def flushAt (i : Nat) : Act (List RecordSpool) Error Unit := ⟨fun spools =>
  match spools[i]? with
  | none => (.ok (), spools)
  | some s => ((flush.run s).1, spools.set i (flush.run s).2)⟩

/-- One turn of the loops that spill: flushes the fullest spool if all of them together are over
the budget. -/
def spillFullest (budget : Nat) : Act (List RecordSpool) Error Bool := do
  let spools ← Act.get
  if DryDb.bufferedBytes spools ≤ budget then pure false else
  match maxByKey (spools.map bufferedBytes) with
  | none => pure false
  | some (i, held) =>
    if held = 0 then pure false else do
    flushAt i
    pure true

/-- Keeps what a set of spools holds inside one buffer. A turn empties one of them, which bounds
the turns. -/
def keepInside (budget : Nat) : Act (List RecordSpool) Error Unit := do
  let spools ← Act.get
  (spillFullest budget).repeatWhile spools.length

end RecordSpool

/-! ## Declarations -/

/-- An index key and the capacity of the vector it is in. -/
abbrev IndexKey := Bytes × Nat

/-- Derives a secondary index key from a record. -/
abbrev SecondaryKeyFn := Bytes → Bytes → Result IndexKey

structure SecondarySpec where
  name : String
  unique : Bool
  encoding : KeyEncoding
  keyFn : SecondaryKeyFn
  /-- What the machine decides for the spool of this index. -/
  fate : Fate := {}

structure TableSpec where
  name : String
  encoding : KeyEncoding
  secondaries : List SecondarySpec := []
  spool : RecordSpool

structure DatabaseBuilder where
  pageSize : Nat := defaultPageSize
  /-- What every table's spool holds between them, kept inside `sortBuffer`. -/
  buffered : Nat := 0
  eytzingerDigests : Bool := false
  filter : Option PageFilter := none
  sortBuffer : Nat := defaultSortBuffer
  tables : List TableSpec := []

/-- The tables with other spools in the place of theirs. -/
def withSpools (spools : List RecordSpool) (tables : List TableSpec) : List TableSpec :=
  List.zipWith (fun spool table => { table with spool }) spools tables

/-- Code on the spools of a list of tables. -/
def onSpools {α : Type} (x : Act (List RecordSpool) Error α) : Act (List TableSpec) Error α :=
  Act.zoom (List.map TableSpec.spool) withSpools x

namespace DatabaseBuilder

def setPageSize (bytes : Nat) (b : DatabaseBuilder) : Result DatabaseBuilder :=
  if bytes < minPageSize then .error (.invalid s!"page size {bytes} is below the {minPageSize} byte minimum") else
  if i32Max < bytes then .error (.invalid "page size does not fit in the format's i32 field") else
  .ok { b with pageSize := bytes }

def setEytzingerDigests (enabled : Bool) (b : DatabaseBuilder) : DatabaseBuilder := { b with eytzingerDigests := enabled }

def pageFilter (filter : PageFilter) (b : DatabaseBuilder) : DatabaseBuilder := { b with filter := some filter }

/-- Bytes of records buffered before the spools spill. The figure reaches the tables already
declared. -/
def setSortBuffer (bytes : Nat) (b : DatabaseBuilder) : DatabaseBuilder :=
  let sortBuffer := max bytes (64 * 1024)
  { b with
    sortBuffer
    tables := b.tables.map fun table => { table with spool := table.spool.setBudget sortBuffer } }

/-- Declares a table and returns its handle. -/
def createTable (name : String) (encoding : KeyEncoding) (fate : Fate) (b : DatabaseBuilder) :
    Result (Nat × DatabaseBuilder) :=
  if name = "" then .error (.invalid "table names cannot be empty") else
  if name ∈ b.tables.map (·.name) then .error (.invalid s!"table `{name}` is already declared") else
  let spool := RecordSpool.new encoding b.sortBuffer fate
  .ok (b.tables.length, { b with tables := b.tables ++ [{ name, encoding, spool }] })

/-- Declares a secondary index on a table. -/
def addSecondaryIndex (table : Nat) (index : SecondarySpec) (b : DatabaseBuilder) : Result DatabaseBuilder := do
  let spec ← okOr b.tables[table]? (Error.invalid "unknown table handle")
  let name := index.name
  if name ∈ spec.secondaries.map (·.name) then
    let table := spec.name
    .error (.invalid s!"table `{table}` already has an index named `{name}`") else
  if 0 < spec.spool.len then
    .error (.invalid "secondary indexes have to be declared before the first row is appended") else
  .ok { b with tables := b.tables.set table { spec with secondaries := spec.secondaries ++ [index] } }

/-! ## Appending -/

/-- What the tables' spools hold. -/
def held (b : DatabaseBuilder) : Nat := bufferedBytes (b.tables.map TableSpec.spool)

/-- Code on the tables. -/
def onTables {α : Type} (x : Act (List TableSpec) Error α) : Act DatabaseBuilder Error α :=
  Act.zoom tables (fun tables b => { b with tables }) x

/-- One turn of `keep_inside_the_sort_buffer`. A flush that fails leaves the total as it was. -/
def spillFullestTable : Act DatabaseBuilder Error Bool := do
  let b ← Act.get
  if b.buffered ≤ b.sortBuffer then pure false else
  match maxByKey (b.tables.map fun table => table.spool.bufferedBytes) with
  | none => pure false
  | some (i, held) =>
    if held = 0 then pure false else do
    onTables (onSpools (RecordSpool.flushAt i))
    Act.modify fun b => { b with buffered := b.held }
    pure true

/-- Spills until every table's spool together holds no more than the sort buffer. -/
def keepInsideTheSortBuffer : Act DatabaseBuilder Error Unit := do
  let b ← Act.get
  spillFullestTable.repeatWhile b.tables.length

/-- Pushes a record to the spool of a table and brings the total up to date, whether or not the
push succeeded. -/
def pushRow (table : Nat) (key value : Bytes) (spec : TableSpec) : Act DatabaseBuilder Error Unit := ⟨fun b =>
  let pushed := (RecordSpool.push key value).run spec.spool
  (pushed.1,
    { b with
      tables := b.tables.set table { spec with spool := pushed.2 }
      buffered := b.buffered - spec.spool.bufferedBytes + pushed.2.bufferedBytes })⟩

/-- The refusals of `append` before the row is taken in. -/
def checkRow (b : DatabaseBuilder) (spec : TableSpec) (key : Bytes) : Result Unit :=
  let len := key.length
  if u16Max < len then
    .error (.new .valueTooLarge s!"key is {len} bytes; the format stores key lengths as u16") else
  checkKeyFits b.pageSize (chooseLayout b.pageSize b.eytzingerDigests spec.encoding true) len

/-- Appends a row. Rows may arrive in any order. -/
def append (table : Nat) (key value : Bytes) : Act DatabaseBuilder Error Unit := do
  let b ← Act.get
  let spec ← okOr b.tables[table]? (Error.invalid "unknown table handle")
  b.checkRow spec key
  pushRow table key value spec
  keepInsideTheSortBuffer

end DatabaseBuilder

/-! ## Descriptors -/

/-- File offsets of the root ordinal fields of a table. -/
structure TableRoots where
  primary : Nat
  secondaries : List Nat

/-- Writes an index descriptor and returns the file offset of its root ordinal field. -/
def writeIndexDescriptor (sink : PageSink) (name encodingId : String) (unique : Bool) (valueKind : ValueKind) :
    Result (Nat × PageSink) := do
  let start := sink.pos
  let bytes ← encodeIndexDescriptor name encodingId unique valueKind (leBytes 8 0)
  let rootField := start + (bytes.length - 8)
  let placeholder := start + bytes.length
  .ok (rootField, sink.writeRaw (bytes.take (bytes.length - 8) ++ leBytes 8 placeholder))

def writeSecondaryDescriptors : List SecondarySpec → PageSink → Result (List Nat × PageSink)
  | [], sink => .ok ([], sink)
  | index :: rest, sink => do
    let (root, sink) ← writeIndexDescriptor sink index.name index.encoding.id index.unique .pageRef
    let (roots, sink) ← writeSecondaryDescriptors rest sink
    .ok (root :: roots, sink)

def writeTableDescriptor (spec : TableSpec) (sink : PageSink) : Result (TableRoots × PageSink) := do
  let name := utf8Bytes spec.name
  let sink := (sink.writeRaw (leBytes 4 name.length)).writeRaw name
  let (primary, sink) ← writeIndexDescriptor sink (spec.name ++ "_pk") spec.encoding.id true .rawData
  if u16Max < spec.secondaries.length then .error (.invalid "more than 65535 secondary indexes") else
  let (secondaries, sink) ← writeSecondaryDescriptors spec.secondaries (sink.writeRaw (leBytes 2 spec.secondaries.length))
  .ok ({ primary, secondaries }, sink)

def writeTableDescriptors : List TableSpec → PageSink → Result (List TableRoots × PageSink)
  | [], sink => .ok ([], sink)
  | spec :: rest, sink => do
    let (roots, sink) ← writeTableDescriptor spec sink
    let (more, sink) ← writeTableDescriptors rest sink
    .ok (roots :: more, sink)

/-- Writes the page filter's id. -/
def writeFilter (filter : Option PageFilter) (sink : PageSink) : Result PageSink :=
  match filter with
  | none => .ok sink
  | some filter =>
    let id := utf8Bytes filter.id
    if 255 < id.length then .error (.invalid "page filter ids must be at most 255 bytes") else
    .ok ((sink.writeRaw (leBytes 1 id.length)).writeRaw id)

/-! ## Trees -/

structure IndexReport where
  name : String
  entries : Nat
  deriving DecidableEq, Repr

structure TableReport where
  name : String
  rows : Nat
  indexes : List IndexReport
  deriving DecidableEq, Repr

structure BuildReport where
  /-- Pages written, i.e. page directory slots. -/
  pageCount : Nat
  fileSize : Nat
  tables : List TableReport
  deriving DecidableEq, Repr

/-- What became of a table: its report, and the root pages of its trees. -/
structure BuiltTable where
  report : TableReport
  primary : Nat
  secondaries : List Nat
  deriving DecidableEq, Repr

/-- Takes the records of a sorted stream one after another, in more turns than there are records. -/
def forEachRecord {σ : Type} (step : Record → σ → Result σ) : Nat → SortedRecords → σ → Result σ
  | 0, _, s => .ok s
  | turns + 1, sorted, s => do
    match ← sorted.nextRecord with
    | none => .ok s
    | some (r, sorted) => do
      let s ← step r s
      forEachRecord step turns sorted s

/-- Refuses a key that does not sort above the one before it. -/
def checkDistinct (encoding : KeyEncoding) (e : Error) (previous : Option Bytes) (key : Bytes) : Result Unit :=
  match previous with
  | none => .ok ()
  | some previous => do
    let o ← encoding.compare previous key
    if o ≠ .lt then .error e else .ok ()

/-- What a vector takes beside its elements. -/
def vecBytes : Nat := 24

/-- What the index keys of a row take while they wait for its page. -/
def indexKeyBytes (keys : List IndexKey) : Nat := vecBytes + (keys.map fun key => key.2 + vecBytes).sum

/-- The callback of the primary tree: every index gets the row's key and its reference, and the
index spools stay inside their part of the buffer. -/
def spoolIndexKeys (spoolBudget : Nat) (spools : List RecordSpool) (keys : List IndexKey) (reference : PageRef) :
    Result (List RecordSpool) := do
  let pushed ← (keys.zip spools).mapM fun (key, spool) => (RecordSpool.push key.1 reference.encode).outcome spool
  let ((), spools) ← (RecordSpool.keepInside spoolBudget).outcome (pushed.map (·.2))
  .ok spools

/-- The previous key, and the writer. -/
abbrev Writing (E σ : Type) := Option Bytes × TreeWriter E σ

/-- One row of the primary tree. -/
def writeRow (cfg : WriterConfig (List IndexKey)) (spoolBudget : Nat) (table : String) (secondaries : List SecondarySpec)
    (r : Record) (s : Writing (List IndexKey) (List RecordSpool)) : Result (Writing (List IndexKey) (List RecordSpool)) := do
  let text := cfg.encoding.formatKey r.key
  checkDistinct cfg.encoding (.invalid s!"table `{table}` was given the same primary key twice: {text}") s.1 r.key
  let keys ← secondaries.mapM fun index => index.keyFn r.key r.value
  let w ← s.2.push cfg (spoolIndexKeys spoolBudget) r.key r.value keys
  .ok (some r.key, w)

/-- The callback of an index tree. -/
def discard (_ : Unit) (_ : Unit) (_ : PageRef) : Result Unit := .ok ()

/-- One entry of a unique index. -/
def writeUnique (cfg : WriterConfig Unit) (table name : String) (r : Record) (s : Writing Unit Unit) :
    Result (Writing Unit Unit) := do
  let text := cfg.encoding.formatKey r.key
  checkDistinct cfg.encoding (.invalid s!"unique index `{name}` on table `{table}` was given the key {text} twice")
    s.1 r.key
  let w ← s.2.push cfg discard r.key r.value ()
  .ok (some r.key, w)

/-- The record id of a key: one more than that of an equal key before it. -/
def nextRid (source : KeyEncoding) (table name : String) (previous : Option Bytes) (rid : Nat) (key : Bytes) :
    Result Nat :=
  match previous with
  | none => .ok 0
  | some previous => do
    let o ← source.compare previous key
    if o = .eq then
      if i32Max ≤ rid then
        .error (.new .valueTooLarge s!"index `{name}` on table `{table}` has more than 2^31-1 rows for one key")
      else .ok (rid + 1)
    else .ok 0

/-- One entry of an index with duplicate keys. -/
def writeDuplicate (cfg : WriterConfig Unit) (source : KeyEncoding) (table name : String) (r : Record)
    (s : Nat × Writing Unit Unit) : Result (Nat × Writing Unit Unit) := do
  let rid ← nextRid source table name s.2.1 s.1 r.key
  let w ← s.2.2.push cfg discard (DuplicateKeyEncoding.encode r.key rid) r.value ()
  .ok (rid, some r.key, w)

namespace DatabaseBuilder

variable (b : DatabaseBuilder)

/-- Writes the tree of an index from its spool. -/
def buildIndexTree (sink : PageSink) (index : SecondarySpec) (spool : RecordSpool) (table : String) :
    Result (Nat × PageSink) := do
  let (sorted, _) ← RecordSpool.intoSorted.outcome spool
  let w : TreeWriter Unit Unit := { out := { sink, caller := () } }
  if index.unique then do
    let cfg ← TreeWriter.new b.pageSize b.eytzingerDigests index.encoding true (fun _ => 0) usizeMax
    let (_, w) ← forEachRecord (writeUnique cfg table index.name) (sorted.left + 1) sorted (none, w)
    let (root, out) ← w.finish cfg discard
    .ok (root, out.sink)
  else do
    -- Keys stay on the page: the digest of a composite key does not cover its record id.
    let cfg ← TreeWriter.new b.pageSize b.eytzingerDigests (duplicateKeyEncoding index.encoding) false (fun _ => 0) usizeMax
    let (_, _, w) ← forEachRecord (writeDuplicate cfg index.encoding table index.name) (sorted.left + 1) sorted (0, none, w)
    let (root, out) ← w.finish cfg discard
    .ok (root, out.sink)

/-- Writes the index trees of a table and patches their roots. -/
def buildIndexes (table : String) :
    List ((SecondarySpec × RecordSpool) × Nat) → PageSink → Result (List IndexReport × List Nat × PageSink)
  | [], sink => .ok ([], [], sink)
  | ((index, spool), rootOffset) :: rest, sink => do
    let (root, sink) ← b.buildIndexTree sink index spool table
    let (reports, roots, sink) ← buildIndexes table rest (sink.patchAt rootOffset (ordinalBytes (some root)))
    .ok ({ name := index.name, entries := spool.len } :: reports, root :: roots, sink)

/-- A table with indexes keeps at most half of its share in memory. -/
def makeShare (spec : TableSpec) (share : Nat) : Result RecordSpool :=
  if spec.secondaries ≠ [] ∧ share / 2 < spec.spool.bufferedBytes then
    (·.2) <$> RecordSpool.flush.outcome spec.spool
  else .ok spec.spool

/-- Writes the primary tree of a table. Returns its root, the file and the index spools.
`waiting` is what the tables not yet written are holding. -/
def buildPrimary (spec : TableSpec) (waiting : Nat) (sink : PageSink) : Result (Nat × Output (List RecordSpool)) := do
  let indexSpools := spec.secondaries.map fun index => RecordSpool.new index.encoding b.sortBuffer index.fate
  let share := b.sortBuffer - waiting
  let spool ← makeShare spec share
  let (sorted, _) ← RecordSpool.intoSorted.outcome spool
  let indexBudget := share - sorted.heldBytes
  let spoolBudget := indexBudget - indexBudget / 2
  let extraBudget := if spec.secondaries ≠ [] then indexBudget / 2 else usizeMax
  let cfg ← TreeWriter.new b.pageSize b.eytzingerDigests spec.encoding true indexKeyBytes extraBudget
  let w : TreeWriter (List IndexKey) (List RecordSpool) := { out := { sink, caller := indexSpools } }
  let (_, w) ← forEachRecord (writeRow cfg spoolBudget spec.name spec.secondaries) (sorted.left + 1) sorted (none, w)
  w.finish cfg (spoolIndexKeys spoolBudget)

/-- Writes the trees of a table. -/
def buildTable (sink : PageSink) (spec : TableSpec) (roots : TableRoots) (waiting : Nat) :
    Result (BuiltTable × PageSink) := do
  let (primary, out) ← b.buildPrimary spec waiting sink
  let sink := out.sink.patchAt roots.primary (ordinalBytes (some primary))
  let (indexes, secondaries, sink) ←
    b.buildIndexes spec.name ((spec.secondaries.zip out.caller).zip roots.secondaries) sink
  .ok ({ report := { name := spec.name, rows := spec.spool.len, indexes }, primary, secondaries }, sink)

/-- Writes the tables one after another, each with its set of root fields. The tables still
waiting keep at most half of the sort buffer. -/
def buildTables : List TableRoots → List TableSpec → PageSink → Result (List BuiltTable × PageSink)
  | roots :: more, spec :: tables, sink => do
    let ((), tables) ← (onSpools (RecordSpool.keepInside (b.sortBuffer / 2))).outcome tables
    let (table, sink) ← b.buildTable sink spec roots (bufferedBytes (tables.map TableSpec.spool))
    let (rest, sink) ← buildTables more tables sink
    .ok (table :: rest, sink)
  | _, _, sink => .ok ([], sink)

/-- The header before the page count and the directory are known. -/
def header : Header :=
  { pageFilterCount := if b.filter.isSome then 1 else 0, pageSize := b.pageSize, tableCount := b.tables.length,
    pageCount := 0, pageDirectoryPosition := 0 }

/-- Everything in front of the pages. -/
def writeDescriptors : Result (List TableRoots × PageSink) := do
  if u16Max < b.tables.length then .error (.invalid "more than 65535 tables") else
  let sink : PageSink := { filter := b.filter }
  let sink ← writeFilter b.filter (sink.writeRaw b.header.encode)
  writeTableDescriptors b.tables sink

/-- The directory, and the header's page count and directory position. -/
def finishBuild (tables : List TableReport) (sink : PageSink) : Result (BuildReport × Bytes) :=
  let (position, count, sink) := sink.finishDirectory
  if i32Max < count then .error (.invalid "more than 2^31-1 pages") else
  let sink := sink.patchAt pageCountFieldOffset (leBytes 4 count ++ leBytes 8 position)
  .ok ({ pageCount := count, fileSize := sink.pos, tables }, sink.file)

/-- The descriptors and every tree. The sort buffer can have been lowered after the rows went
in, so what the tables hold is brought inside it first. -/
def buildTrees : Result (List BuiltTable × PageSink) := do
  let (roots, sink) ← b.writeDescriptors
  let ((), tables) ← (onSpools (RecordSpool.keepInside b.sortBuffer)).outcome b.tables
  b.buildTables roots tables sink

/-- Builds the database file. -/
def buildInto : Result (BuildReport × Bytes) := do
  let (built, sink) ← b.buildTrees
  finishBuild (built.map BuiltTable.report) sink

end DatabaseBuilder

/-! ## Calls -/

/-- A call of a builder before the build. -/
inductive BuilderCall where
  | pageSize (bytes : Nat)
  | eytzingerDigests (enabled : Bool)
  | pageFilter (filter : PageFilter)
  | sortBuffer (bytes : Nat)
  | createTable (name : String) (encoding : KeyEncoding) (fate : Fate)
  | addSecondaryIndex (table : Nat) (index : SecondarySpec)
  | append (table : Nat) (key value : Bytes)

/-- A call and what it returned. A refused setting leaves the builder as it was. -/
def BuilderCall.run : BuilderCall → Act DatabaseBuilder Error Unit
  | pageSize bytes => Act.update (DatabaseBuilder.setPageSize bytes)
  | eytzingerDigests enabled => Act.modify (DatabaseBuilder.setEytzingerDigests enabled)
  | pageFilter filter => Act.modify (DatabaseBuilder.pageFilter filter)
  | sortBuffer bytes => Act.modify (DatabaseBuilder.setSortBuffer bytes)
  | createTable name encoding fate => Act.update fun b => Prod.snd <$> b.createTable name encoding fate
  | addSecondaryIndex table index => Act.update (DatabaseBuilder.addSecondaryIndex table index)
  | append table key value => DatabaseBuilder.append table key value

/-- The calls made on a new builder. -/
abbrev BuilderRun := Run (fun b : DatabaseBuilder => b = {}) fun b (call : BuilderCall) b' => (call.run.run b).2 = b'

end DryDb
