import DryDb.Lib.Parser
import DryDb.Model.Format
/-!
# The file header and the catalog

`format/header.rs`, `format/catalog.rs` and `format/pageref.rs`. What the parse
reserves on the budget is left out: the questions it would ask are answered before a
database exists.
-/

namespace DryDb

/-! ## The header -/

/-- Decoded file header. -/
structure Header where
  majorVersion : Nat := DryDb.majorVersion
  minorVersion : Nat := DryDb.minorVersion
  pageFilterCount : Nat
  /-- Page size the file was built with. Real pages carry their own length. -/
  pageSize : Nat
  tableCount : Nat
  pageCount : Nat
  pageDirectoryPosition : Nat
  deriving DecidableEq, Repr

namespace Header

/-- Parses and validates the header prefix of `buf`. -/
def parse (buf : Bytes) : Result Header := do
  let tooShort := Error.new .unsupportedFormat "file shorter than the 26-byte header"
  let found ← (readSlice buf 0 4).mapError fun _ => tooShort
  if found ≠ magic then
    let digits := String.intercalate ", " (found.map hexPair)
    .error (.new .unsupportedFormat s!"bad magic [{digits}], expected \"DRY\\0\"") else
  if buf.length < headerLen then .error tooShort else
  let major ← readU8 buf 4
  let minor ← readU8 buf 5
  if major ≠ DryDb.majorVersion ∨ minor ≠ DryDb.minorVersion then
    .error (.new .unsupportedFormat (s!"storage format {major}.{minor} is not supported; this build reads " ++
      s!"{DryDb.majorVersion}.{DryDb.minorVersion} only")) else
  let pageFilterCount ← readU16 buf 6
  let pageSize ← checkedLen (← readI32 buf 8) "page size"
  if pageSize < pagePrefixLen then
    .error (.corrupt s!"page size {pageSize} is smaller than the {pagePrefixLen} byte page prefix") else
  let tableCount ← readU16 buf 12
  let pageCount ← checkedLen (← readI32 buf 14) "page count"
  let position ← readI64 buf 18
  if position ≤ 0 then .error (.corrupt s!"page directory position {position} is not a valid file offset") else
  let pageDirectoryPosition ← fileOffsetFromI64 position
  .ok { majorVersion := major, minorVersion := minor, pageFilterCount, pageSize, tableCount, pageCount,
        pageDirectoryPosition }
where
  hexPair (b : UInt8) : String := String.ofList [Nat.digitChar (b.toNat / 16), Nat.digitChar (b.toNat % 16)]

/-- Encodes the header. -/
def encode (h : Header) : Bytes :=
  magic ++ leBytes 1 h.majorVersion ++ leBytes 1 h.minorVersion ++ leBytes 2 h.pageFilterCount ++
    leBytes 4 h.pageSize ++ leBytes 2 h.tableCount ++ leBytes 4 h.pageCount ++ leBytes 8 h.pageDirectoryPosition

/-- Byte span of the page directory section, checked for overflow. -/
def directorySpan (h : Header) : Result (Nat × Nat) := do
  let start := h.pageDirectoryPosition
  let len ← okOr (checkedMul h.pageCount directorySlotLen) (Error.corrupt "page directory size overflows")
  let stop ← okOr (checkedAdd start len) (Error.corrupt "page directory end overflows")
  .ok (start, stop)

end Header

/-! ## Descriptors -/

/-- What an index stores in the value position of its tree. -/
inductive ValueKind where
  | rawData
  | primaryKey
  | pageRef
  deriving DecidableEq, Repr

namespace ValueKind

def ofU8 (v : Nat) : Result ValueKind :=
  match v with
  | 0 => .ok .rawData
  | 1 => .ok .primaryKey
  | 2 => .ok .pageRef
  | other => .error (.new .unsupportedFormat s!"unknown value kind {other}")

def toU8 : ValueKind → Nat
  | rawData => 0
  | primaryKey => 1
  | pageRef => 2

def name : ValueKind → String
  | rawData => "RawData"
  | primaryKey => "PrimaryKey"
  | pageRef => "PageRef"

end ValueKind

/-- One B+Tree inside a table. -/
structure IndexDescriptor where
  name : String
  /-- Non-unique trees store `(key, rid)` composite keys. -/
  isUnique : Bool
  keyEncodingId : String
  valueKind : ValueKind
  root : Option Nat
  /-- File offset of the back-patched root field. -/
  rootFieldOffset : Nat
  deriving DecidableEq, Repr

/-- One table: a primary key tree plus zero or more secondary index trees. -/
structure TableDescriptor where
  name : String
  primary : IndexDescriptor
  secondaries : List IndexDescriptor
  deriving DecidableEq, Repr

/-- Everything the header section describes. -/
structure Catalog where
  pageSize : Nat
  pageCount : Nat
  directoryPosition : Nat
  filters : List String
  tables : List TableDescriptor
  /-- Offset just past the last descriptor. -/
  descriptorEnd : Nat
  deriving DecidableEq, Repr

/-! ## Parsing -/

def describeNameBytes : Nat := 48

/-- The longest run of leading characters that fits in `room` bytes. -/
def fittingChars : Nat → List Char → List Char
  | _, [] => []
  | room, c :: rest => if c.utf8Size ≤ room then c :: fittingChars (room - c.utf8Size) rest else []

/-- Renders a name for an error message, bounded. -/
def describeName (name : String) : String :=
  let size := name.utf8ByteSize
  if size ≤ describeNameBytes then name
  else
    let short := String.ofList (fittingChars describeNameBytes name.toList)
    s!"{short}... ({size} bytes)"

/-- Decodes a name. The reason the bytes are not UTF-8 is left out of the message. -/
def utf8 (bytes : Bytes) (what : String) : Result String :=
  okOr (String.fromUTF8? ⟨bytes.toArray⟩) (Error.corrupt s!"{what} is not valid UTF-8")

/-- The UTF-8 bytes of a name. -/
def utf8Bytes (name : String) : Bytes := name.toUTF8.data.toList

/-- The first name that occurred before. -/
def firstRepeated (seen : List String) : List String → Option String
  | [] => none
  | n :: rest => if n ∈ seen then some n else firstRepeated (n :: seen) rest

namespace Catalog

def filterId (i : Nat) : Parser Error String := do
  let lenByte ← Parser.take 1
  let name ← Parser.take (ofLe lenByte)
  utf8 name s!"page filter {i} id"

def indexDescriptor : Parser Error IndexDescriptor := do
  let head ← Parser.take 4
  let nameLen ← readU16 head 0
  let encodingLen ← readU16 head 2
  let nameBytes ← Parser.take nameLen
  let name ← utf8 nameBytes "index name"
  let encodingBytes ← Parser.take encodingLen
  let keyEncodingId ← utf8 encodingBytes "key encoding id"
  let tail ← Parser.take 10
  let uniqueByte ← readU8 tail 0
  let isUnique ← isUniqueOf name uniqueByte
  let valueKind ← ValueKind.ofU8 (← readU8 tail 1)
  let root ← PageOrdinal.fromI64 (← readI64 tail 2)
  let pos ← Parser.position
  return { name, isUnique, keyEncodingId, valueKind, root, rootFieldOffset := pos - 8 }
where
  isUniqueOf (name : String) (b : Nat) : Result Bool :=
    match b with
    | 0 => .ok false
    | 1 => .ok true
    | other => .error (.corrupt s!"index `{name}` has is_unique = {other}, expected 0 or 1")

/-- An index name that is declared twice. -/
def checkIndexNames (table : String) (secondaries : List IndexDescriptor) : Result Unit :=
  match firstRepeated [] (secondaries.map (·.name)) with
  | some name =>
    let table := describeName table
    let name := describeName name
    .error (.corrupt s!"table `{table}` declares the index name `{name}` twice")
  | none => .ok ()

def tableDescriptor (i : Nat) : Parser Error TableDescriptor := do
  let lenBytes ← Parser.take 4
  let nameLen ← checkedLen (← readI32 lenBytes 0) "table name length"
  let nameBytes ← Parser.take nameLen
  let name ← utf8 nameBytes s!"table {i} name"
  let primary ← indexDescriptor
  let countBytes ← Parser.take 2
  let indexCount ← readU16 countBytes 0
  let secondaries ← Parser.replicate (fun _ => indexDescriptor) indexCount 0
  checkIndexNames name secondaries
  return { name, primary, secondaries }

def checkTableNames (tables : List TableDescriptor) : Result Unit :=
  match firstRepeated [] (tables.map (·.name)) with
  | some name =>
    let name := describeName name
    .error (.corrupt s!"duplicate table name `{name}`")
  | none => .ok ()

/-- Parses the catalog out of a prefix of the file that already contains the header. -/
def parser (h : Header) : Parser Error Catalog := do
  let filters ← Parser.replicate filterId h.pageFilterCount 0
  let tables ← Parser.replicate tableDescriptor h.tableCount 0
  checkTableNames tables
  let pos ← Parser.position
  return { pageSize := h.pageSize, pageCount := h.pageCount, directoryPosition := h.pageDirectoryPosition,
           filters, tables, descriptorEnd := pos }

def parse (h : Header) (buf : Bytes) : Result (Parsed Catalog) := parser h buf headerLen

end Catalog

/-! ## Encoding -/

/-- Encodes an index descriptor. The root is a placeholder until the tree exists. -/
def encodeIndexDescriptor (name keyEncodingId : String) (isUnique : Bool) (valueKind : ValueKind) (root : Bytes) :
    Result Bytes :=
  let nameBytes := utf8Bytes name
  let encodingBytes := utf8Bytes keyEncodingId
  if u16Max < nameBytes.length then .error (.invalid s!"index name `{name}` is longer than 65535 bytes") else
  if u16Max < encodingBytes.length then .error (.invalid "key encoding id is longer than 65535 bytes") else
  .ok (leBytes 2 nameBytes.length ++ leBytes 2 encodingBytes.length ++ nameBytes ++ encodingBytes ++
    leBytes 1 (if isUnique then 1 else 0) ++ leBytes 1 valueKind.toU8 ++ root)

/-! ## Page references -/

def pageRefLen : Nat := 16

/-- A pointer to a byte range inside another page. -/
structure PageRef where
  page : Nat
  start : Nat
  length : Nat
  deriving DecidableEq, Repr

namespace PageRef

/-- Decodes a reference. -/
def parse (buf : Bytes) : Result PageRef := do
  let len := buf.length
  if len < pageRefLen then
    .error (.corrupt s!"secondary index value is {len} bytes, expected {pageRefLen}") else
  let ordinal ← PageOrdinal.fromI64 (← readI64 buf 0)
  let page ← okOr ordinal (Error.corrupt "secondary index PageRef points at no page")
  let start ← readI32 buf 8
  let length ← readI32 buf 12
  if start < 0 ∨ length < 0 then
    .error (.corrupt s!"PageRef has negative start/length ({start}, {length})") else
  .ok { page, start := start.toNat, length := length.toNat }

/-- Encodes the reference. -/
def encode (r : PageRef) : Bytes := leBytes 8 r.page ++ leBytes 4 r.start ++ leBytes 4 r.length

/-- Byte range the reference designates, checked against the page length. A value never
starts inside the page prefix. -/
def range (r : PageRef) (pageLen : Nat) : Result (Nat × Nat) := do
  let start := r.start
  let stop ← okOr (checkedAdd start r.length) (Error.corrupt "PageRef range overflows")
  if pageLen < stop then
    .error ((Error.corrupt s!"PageRef range {start}..{stop} exceeds page length {pageLen}").atPage r.page) else
  if start < pagePrefixLen then
    .error ((Error.corrupt s!"PageRef starts at {start}, inside the {pagePrefixLen} byte page prefix").atPage r.page)
  else .ok (start, stop)

end PageRef

end DryDb
