import DryDb.Model.Catalog
import DryDb.Model.Query
/-!
# Databases, tables and secondary indexes

`db.rs` and `index.rs`. `openBytes` is what opening a file checks, with a memory
budget that admits it; the handles it returns are the trees the queries run on.
-/

namespace DryDb

/-! ## Opening -/

structure OpenOptions where
  encodings : EncodingRegistry := {}
  filters : FilterRegistry := {}
  limits : Limits := {}
  validateDigests : Bool := true

/-- A secondary index over a table. -/
structure Index where
  descriptor : IndexDescriptor
  tree : Tree
  /-- The encoding callers pass keys in; the record id suffix is internal. -/
  sourceEncoding : KeyEncoding

/-- A table: one primary key tree plus its secondary indexes. -/
structure Table where
  descriptor : TableDescriptor
  primary : Tree
  secondaries : List Index

/-- An open, read-only database. -/
structure Database where
  catalog : Catalog
  store : PageStore
  tables : List Table

/-- Reads and validates the 26-byte file header. -/
def readHeader (file : Bytes) : Result Header :=
  let bytes := file.take headerLen
  if bytes.length < headerLen then
    .error (.new .unsupportedFormat "file is shorter than the 26-byte header")
  else Header.parse bytes

/-- The growing read of the descriptor section. Every round raises `capacity`, so the
catalog limit bounds the number of rounds. -/
def readCatalogFrom (file : Bytes) (h : Header) (maxBytes : Nat) : Nat → Nat → Result Catalog
  | 0, _ => .error (.corrupt s!"table descriptors need more than the {maxBytes} byte catalog limit")
  | rounds + 1, capacity => do
    let buf := file.take capacity
    if buf.length < headerLen then
      .error (.new .unsupportedFormat "file is shorter than the 26-byte header") else
    match ← Catalog.parse h buf with
    | .complete catalog _ => .ok catalog
    | .needMore needed =>
      if buf.length < capacity then .error (.corrupt "table descriptors are truncated at the end of the file")
      else if maxBytes ≤ capacity then
        .error (.corrupt s!"table descriptors need more than the {maxBytes} byte catalog limit")
      else readCatalogFrom file h maxBytes rounds (min (max needed (capacity * 2)) maxBytes)

/-- Reads the descriptor section, from a small buffer up. -/
def readCatalog (file : Bytes) (h : Header) (maxBytes : Nat) : Result Catalog :=
  readCatalogFrom file h maxBytes (maxBytes + 1) (max (min 8192 maxBytes) headerLen)

/-- The one filter a file may name. -/
def openFilter (filters : FilterRegistry) (ids : List String) : Result (Option PageFilter) :=
  match ids with
  | [] => .ok none
  | [id] => some <$> filters.resolve id
  | _ =>
    let n := ids.length
    .error (.new .unsupported (s!"the file declares {n} page filters; upstream 1.4 can neither write " ++
      "nor read a multi-filter file, so this reader rejects it"))

/-- Builds the handle of one secondary index. Its tree gets the next identity. -/
def Index.build (d : IndexDescriptor) (store : PageStore) (opts : OpenOptions) (id : Nat) : Result Index := do
  if d.valueKind ≠ .pageRef then
    let name := d.name
    let kind := d.valueKind.name
    .error (.new .unsupportedFormat
      s!"secondary index `{name}` stores {kind}; this reader resolves PageRef indexes only") else
  let source ← opts.encodings.resolve d.keyEncodingId
  let encoding := if d.isUnique then source else duplicateKeyEncoding source
  .ok { descriptor := d, sourceEncoding := source,
        tree := { store, root := d.root, encoding, id, validateDigests := opts.validateDigests } }

def Index.buildAll (store : PageStore) (opts : OpenOptions) : Nat → List IndexDescriptor → Result (List Index)
  | _, [] => .ok []
  | id, d :: rest => do
    let index ← Index.build d store opts id
    let rest ← Index.buildAll store opts (id + 1) rest
    .ok (index :: rest)

def Table.build (d : TableDescriptor) (store : PageStore) (opts : OpenOptions) (id : Nat) : Result Table := do
  if d.primary.valueKind ≠ .rawData then
    let name := d.name
    let kind := d.primary.valueKind.name
    .error (.new .unsupportedFormat s!"primary index of table `{name}` stores {kind}, expected RawData") else
  let encoding ← opts.encodings.resolve d.primary.keyEncodingId
  let secondaries ← Index.buildAll store opts (id + 1) d.secondaries
  .ok { descriptor := d, secondaries,
        primary := { store, root := d.primary.root, encoding, id, validateDigests := opts.validateDigests } }

def Table.buildAll (store : PageStore) (opts : OpenOptions) : Nat → List TableDescriptor → Result (List Table)
  | _, [] => .ok []
  | id, d :: rest => do
    let table ← Table.build d store opts id
    let rest ← Table.buildAll store opts (id + 1 + d.secondaries.length) rest
    .ok (table :: rest)

/-- Opens an image of a database file. -/
def openBytes (opts : OpenOptions) (file : Bytes) : Result Database := do
  let header ← readHeader file
  let catalog ← readCatalog file header opts.limits.maxCatalogBytes
  let fileSize := file.length
  let (dirStart, dirEnd) ← header.directorySpan
  if fileSize < dirEnd then
    .error (.corrupt s!"page directory spans {dirStart}..{dirEnd} but the file is {fileSize} bytes") else
  let descriptorEnd := catalog.descriptorEnd
  if dirStart < descriptorEnd then
    .error (.corrupt
      s!"table descriptors end at {descriptorEnd} but the page directory starts at {dirStart}") else
  let filter ← openFilter opts.filters catalog.filters
  let store : PageStore := { source := file, directoryBase := catalog.directoryPosition,
                             pageCount := catalog.pageCount, filter, limits := opts.limits }
  let tables ← Table.buildAll store opts 1 catalog.tables
  .ok { catalog, store, tables }

/-- Opens a table by name. -/
def Database.table (db : Database) (name : String) : Result Table :=
  let described := describeName name
  okOr (db.tables.find? (·.descriptor.name = name)) (Error.invalid s!"no table named `{described}`")

/-! ## Tables -/

/-- The outcome of a lookup that was not allowed to perform I/O. -/
inductive CachedLookup where
  | value (guard : ValueGuard)
  | missing
  /-- A page on the path is not cached, so the answer is unknown. -/
  | notCached

namespace Table

/-- Looks one key up. -/
def get (t : Table) (key : Bytes) : Read (Option ValueGuard) := do
  t.primary.encoding.validateKey key
  match ← t.primary.find key with
  | none => pure none
  | some (pin, index) => do
    let entry ← pin.view.leafEntry index
    let (valuePin, start, stop) ← resolveValue pin entry
    let guard ← valuePin.intoGuard start stop
    pure (some guard)

/-- Looks one key up against pages that are already cached, for at most `turns` turns of
the walk; `none` when it is still going. -/
def getCached (t : Table) (key : Bytes) (turns : Nat) : Read (Option CachedLookup) := do
  t.primary.encoding.validateKey key
  match ← t.primary.findCached key turns with
  | none => pure none
  | some none => pure (some .notCached)
  | some (some none) => pure (some .missing)
  | some (some (some (pin, index))) => do
    let entry ← pin.view.leafEntry index
    match ← resolveValueCached pin entry with
    | none => pure (some .notCached)
    | some (valuePin, start, stop) => do
      let guard ← valuePin.intoGuard start stop
      pure (some (.value guard))

/-- Whether a key is present, without materialising its value. -/
def containsKey (t : Table) (key : Bytes) : Read Bool := do
  t.primary.encoding.validateKey key
  let found ← t.primary.find key
  pure found.isSome

/-- A cursor over a key range. -/
def range (t : Table) (lower upper : Bound) (order : Order) : Read Cursor := do
  reserveBounds lower upper 0
  Cursor.new t.primary { lower, upper } order

/-- A cursor over every entry. -/
def scan (t : Table) (order : Order) : Read Cursor := do
  reserveBounds .unbounded .unbounded 0
  Cursor.new t.primary .all order

def notByteOrdered (enc : KeyEncoding) : Error :=
  let id := enc.id
  .invalid (s!"encoding `{id}` does not order keys by their bytes, so a byte prefix does not " ++
    "describe a key range; use `range` instead")

/-- A cursor over every key starting with a byte prefix. -/
def startingWith (t : Table) (bytes : Bytes) (order : Order) : Read Cursor :=
  if !t.primary.encoding.isByteLexicographic then .fail (notByteOrdered t.primary.encoding) else do
  reserveBounds (.included bytes) (.included bytes) 0
  Cursor.forPrefix t.primary (prefixRange bytes) order

/-- Counts entries in a range without reading any value. -/
def countRange (t : Table) (lower upper : Bound) : Read Nat := DryDb.countRange t.primary lower upper

/-- Counts every entry. -/
def count (t : Table) : Read Nat := t.countRange .unbounded .unbounded

/-- Opens a secondary index. -/
def index (t : Table) (name : String) : Result Index :=
  let table := describeName t.descriptor.name
  let described := describeName name
  okOr (t.secondaries.find? (·.descriptor.name = name))
    (Error.invalid s!"table `{table}` has no index named `{described}`")

end Table

/-! ## Secondary indexes -/

/-- A cursor over a secondary index. The row is materialised into the cursor: the key is
copied, the value is an owning guard. -/
structure IndexCursor where
  cursor : Cursor
  unique : Bool
  key : KeyBuffer := {}
  value : Option ValueGuard := none

namespace IndexCursor

/-- The reference and the index key of the entry the inner cursor is on. -/
def entryReference (c : IndexCursor) : Result (PageRef × Bytes) := do
  let (key, raw) ← okOr c.cursor.currentRow (Error.corrupt "index cursor advanced without an entry")
  let len := raw.length
  if len ≠ pageRefLen then
    .error (.corrupt s!"index entry value is {len} bytes, expected a {pageRefLen} byte PageRef") else
  let reference ← PageRef.parse raw
  if c.unique then .ok (reference, key)
  else do
    let (sourceKey, _) ← DuplicateKeyEncoding.split key
    .ok (reference, sourceKey)

/-- The record bytes a reference points at. -/
def resolveReference (r : PageRef) : Read ValueGuard := do
  let pin ← Read.page r.page
  let (start, stop) ← r.range pin.len
  pin.intoGuard start stop

def advanceInner (c : IndexCursor) : Read (IndexCursor × Result Bool) := do
  let (cursor, moved) ← c.cursor.advance
  let c := { c with cursor, value := none }
  match moved with
  | .error e => pure (c, .error e)
  | .ok false => pure ({ c with key := { c.key with contents := [] } }, .ok false)
  | .ok true =>
    match c.entryReference with
    | .error e => pure (c, .error e)
    | .ok (reference, sourceKey) => do
      match ← (c.key.charge sourceKey.length).attempt with
      | .error e => pure (c, .error e)
      | .ok key => do
        let c := { c with key := { key with contents := sourceKey } }
        match ← (resolveReference reference).attempt with
        | .error e => pure (c, .error e)
        | .ok guard => pure ({ c with value := some guard }, .ok true)

/-- Moves to the next index entry. A failure puts the inner cursor back. -/
def advance (c : IndexCursor) : Read (IndexCursor × Result Bool) := do
  let (moved, result) ← c.advanceInner
  match result with
  | .ok more => pure (moved, .ok more)
  | .error e =>
    pure ({ moved with cursor := moved.cursor.restore c.cursor.toPosition,
                       key := { moved.key with contents := [] }, value := none }, .error e)

end IndexCursor

namespace Index

def isUnique (i : Index) : Bool := i.descriptor.isUnique

/-- Whether these bounds select nothing before they are widened. -/
def isEmptyRange (i : Index) (lower upper : Bound) : Result Bool :=
  match lower.key, upper.key with
  | some lo, some hi => do
    let o ← i.sourceEncoding.compare lo hi
    if o ≠ .eq then .ok false
    else .ok (isExcluded lower || isExcluded upper)
  | _, _ => .ok false
where
  isExcluded : Bound → Bool
    | .excluded _ => true
    | _ => false

/-- "Everything above `k`" has to clear the whole run of record ids for `k`. -/
def lowerComposite : Bound → Bound
  | .unbounded => .unbounded
  | .included k => .included (DuplicateKeyEncoding.encode k 0)
  | .excluded k => .excluded (DuplicateKeyEncoding.encode k i32Max)

/-- "Everything below `k`" must not reach any of them. -/
def upperComposite : Bound → Bound
  | .unbounded => .unbounded
  | .included k => .included (DuplicateKeyEncoding.encode k i32Max)
  | .excluded k => .excluded (DuplicateKeyEncoding.encode k 0)

/-- Translates caller bounds into the tree's key space. An empty range stays empty. -/
def treeRange (i : Index) (lower upper : Bound) (validate : Bool) : Result KeyRange := do
  if validate then validateBounds i.sourceEncoding lower upper else .ok ()
  if i.isUnique then .ok { lower, upper }
  else if ← i.isEmptyRange lower upper then .ok .none
  else .ok { lower := lowerComposite lower, upper := upperComposite upper }

/-- Bytes a bound grows by in the tree's key space. -/
def boundExtra (i : Index) : Nat := if i.isUnique then 0 else ridLen

/-- A cursor over an index key range. -/
def range (i : Index) (lower upper : Bound) (order : Order) : Read IndexCursor := do
  reserveBounds lower upper i.boundExtra
  let range ← i.treeRange lower upper true
  let cursor ← Cursor.new i.tree range order
  pure { cursor, unique := i.isUnique }

/-- Every value indexed under `key`, in record id order. -/
def lookup (i : Index) (key : Bytes) : Read IndexCursor := do
  i.sourceEncoding.validateKey key
  i.range (.included key) (.included key) .ascending

/-- The first value indexed under `key`. -/
def get (i : Index) (key : Bytes) : Read (Option ValueGuard) := do
  let cursor ← i.lookup key
  let (cursor, moved) ← cursor.advance
  let more ← liftM moved
  pure (if more then cursor.value else none)

/-- A cursor over every entry. -/
def scan (i : Index) (order : Order) : Read IndexCursor := i.range .unbounded .unbounded order

/-- A cursor over every index key starting with a byte prefix. -/
def startingWith (i : Index) (bytes : Bytes) (order : Order) : Read IndexCursor :=
  if !i.sourceEncoding.isByteLexicographic then .fail (Table.notByteOrdered i.sourceEncoding) else do
  reserveBounds (.included bytes) (.included bytes) i.boundExtra
  let source := prefixRange bytes
  reserveBounds source.lower source.upper i.boundExtra
  let range ← i.treeRange source.lower source.upper false
  let cursor ← Cursor.forPrefix i.tree range order
  pure { cursor, unique := i.isUnique }

/-- Counts index entries in a range, without resolving any value. -/
def countRange (i : Index) (lower upper : Bound) : Read Nat := do
  reserveBounds lower upper i.boundExtra
  let range ← i.treeRange lower upper true
  if range.empty then pure 0 else DryDb.countRange i.tree range.lower range.upper

/-- Counts every index entry. -/
def count (i : Index) : Read Nat := DryDb.countRange i.tree .unbounded .unbounded

end Index

end DryDb
