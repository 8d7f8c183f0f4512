import DryDb.Lib.Program
import DryDb.Model.Node
/-!
# Pages and the page store

`page.rs`, `filter.rs`, `directory.rs` and `store.rs`. `PageStore.load` is what one
page load reads from the file; what the cache, the retained roots and the budget
answer while a query runs is asked through `ReadOp`.

The directory is read slot by slot here. The source reads it in chunks, and `open`
has checked that the whole of it lies inside the file.
-/

namespace DryDb

/-! ## Pages -/

/-- A page that has been parsed and validated, which every cached page has. -/
structure PagePin where
  ordinal : Nat
  bytes : Bytes
  view : PageView
  parsed : PageView.parse bytes = .ok view
  valid : view.validate = .ok ()

namespace PagePin

/-- The parse and the entry walk a page goes through when it enters the cache. -/
def new (ordinal : Nat) (data : Bytes) : Result PagePin :=
  match hp : PageView.parse data with
  | .error e => .error (e.atPage ordinal)
  | .ok view =>
    match hv : view.validate with
    | .error e => .error (e.atPage ordinal)
    | .ok () => .ok { ordinal, bytes := data, view, parsed := hp, valid := hv }

theorem new_eq_ok {ordinal : Nat} {data : Bytes} {pin : PagePin} :
    new ordinal data = .ok pin ↔ pin.ordinal = ordinal ∧ pin.bytes = data := by
  unfold new
  constructor
  · intro h
    split at h
    · cases h
    · split at h
      · cases h
      · cases h
        exact ⟨rfl, rfl⟩
  · rintro ⟨rfl, rfl⟩
    obtain ⟨ordinal, bytes, view, parsed, valid⟩ := pin
    simp only
    split
    · rename_i e he
      rw [parsed] at he
      cases he
    · rename_i v hv
      rw [parsed] at hv
      cases hv
      split
      · rename_i e he
        rw [valid] at he
        cases he
      · rfl

def len (p : PagePin) : Nat := p.bytes.length

end PagePin

/-- A pin plus a validated byte range. -/
structure ValueGuard where
  pin : PagePin
  start : Nat
  stop : Nat

def ValueGuard.asBytes (g : ValueGuard) : Bytes := (g.pin.bytes.drop g.start).take (g.stop - g.start)

def PagePin.intoGuard (p : PagePin) (start stop : Nat) : Result ValueGuard :=
  let len := p.len
  if stop < start ∨ len < stop then
    .error ((Error.corrupt s!"value range {start}..{stop} is outside the {len} byte page").atPage p.ordinal)
  else .ok { pin := p, start, stop }

/-! ## Filters -/

/-- A reversible transform applied to page payloads. `decode` returns what the filter
wrote into its output buffer. -/
structure PageFilter where
  id : String
  encode : Bytes → Result Bytes
  decodedSizeHint : Bytes → Option Nat := fun _ => none
  decode : Bytes → Result Bytes

/-- Filters registered by the caller. -/
structure FilterRegistry where
  custom : String → Option PageFilter := fun _ => none

/-- Resolves an id. The zstd filter of the `zstd` feature is one more registered filter. -/
def FilterRegistry.resolve (r : FilterRegistry) (id : String) : Result PageFilter :=
  okOr (r.custom id) (Error.new .unknownFilter
    s!"page filter `{id}` is not registered (build with the `zstd` feature for DryDB.ZstdCompression)")

/-! ## The store -/

/-- Hard limits that bound the work a single malformed page can cause. -/
structure Limits where
  maxStoredPageBytes : Nat := 64 * 2 ^ 20
  maxDecodedPageBytes : Nat := 8 * 2 ^ 20
  maxCatalogBytes : Nat := 8 * 2 ^ 20
  maxTreeDepth : Nat := 64

/-- Everything needed to turn a page ordinal into bytes. -/
structure PageStore where
  source : Bytes
  directoryBase : Nat
  pageCount : Nat
  filter : Option PageFilter := none
  limits : Limits := {}

/-- Reads exactly `len` bytes at `offset` of the file. -/
def readExactAt (source : Bytes) (offset len : Nat) : Result Bytes :=
  match slice source offset len with
  | some s => .ok s
  | none =>
    let got := source.length - offset
    .error ((Error.io s!"unexpected end of file: wanted {len} bytes at offset {offset}, got {got}").atOffset offset)

namespace PageStore

/-- Resolves an ordinal to its file offset. -/
def offsetOf (s : PageStore) (ordinal : Nat) : Result Nat := do
  let count := s.pageCount
  let base := s.directoryBase
  if count ≤ ordinal then .error (.corrupt s!"page ordinal {ordinal} is past the {count} pages in this file") else
  let slot ← readExactAt s.source (base + ordinal * directorySlotLen) directorySlotLen
  let raw ← readI64 slot 0
  let offset ← (fileOffsetFromI64 raw).mapError (·.atPage ordinal)
  if offset < headerLen ∨ base ≤ offset then
    .error ((Error.corrupt
      s!"page directory entry points at offset {offset}, outside the page area [{headerLen}, {base})").atPage ordinal)
  else .ok offset

/-- Where a page has to end: at the page after it, or at the page directory. -/
def pageLimit (s : PageStore) (ordinal offset : Nat) : Result Nat :=
  if s.pageCount ≤ ordinal + 1 then .ok s.directoryBase
  else do
    let next ← s.offsetOf (ordinal + 1)
    .ok (if offset < next then min next s.directoryBase else s.directoryBase)

/-- What is reserved for a decoded payload: what the encoded form says, or the limit. -/
def decodeCapacity (limit : Nat) (filter : PageFilter) (encoded : Bytes) : Result Nat :=
  match filter.decodedSizeHint encoded with
  | some size =>
    let id := filter.id
    if size ≤ limit then .ok size
    else .error (.corrupt s!"page filter `{id}` reports a decoded size of {size} bytes, above the {limit} byte limit")
  | none => .ok limit

/-- Undoes the filter on everything after the page prefix and rewrites the length field. -/
def decodePage (limits : Limits) (filter : PageFilter) (stored : Bytes) : Result Bytes := do
  let limit := limits.maxDecodedPageBytes
  let encoded := stored.drop pagePrefixLen
  let id := filter.id
  let capacity ← decodeCapacity limit filter encoded
  let payload ← filter.decode encoded
  let len := payload.length
  if capacity < len then
    .error (.corrupt s!"page filter `{id}` grew its output buffer past the {capacity} bytes it was given") else
  if limit < len then .error (.corrupt s!"page filter `{id}` produced {len} bytes, above the {limit} byte limit") else
  let total ← okOr (checkedAdd pagePrefixLen len) (Error.corrupt "decoded page size overflows")
  .ok (leBytes 4 total ++ (stored.drop 4).take (pagePrefixLen - 4) ++ payload)

/-- The page a stored image stands for. -/
def decoded (s : PageStore) (stored : Bytes) : Result Bytes :=
  match s.filter with
  | none => .ok stored
  | some filter => decodePage s.limits filter stored

/-- Reads, decodes and validates one page. -/
def load (s : PageStore) (ordinal : Nat) : Result PagePin := do
  let offset ← s.offsetOf ordinal
  let lengthBytes ← readExactAt s.source offset pageLengthLen
  let storedLen ← checkedLen (← readI32 lengthBytes 0) "page length"
  let limit := s.limits.maxStoredPageBytes
  if storedLen < pagePrefixLen then
    .error (.corrupt s!"page length {storedLen} is smaller than the {pagePrefixLen} byte prefix") else
  if limit < storedLen then .error (.corrupt s!"page length {storedLen} exceeds the {limit} byte limit") else
  let stop ← okOr (checkedAdd offset storedLen) (Error.corrupt "page end offset overflows")
  let boundary ← s.pageLimit ordinal offset
  if boundary < stop then .error (.corrupt s!"page spans {offset}..{stop}, into what follows it") else
  let stored ← readExactAt s.source offset storedLen
  let data ← s.decoded stored
  PagePin.new ordinal data

def annotate (e : Error) (ordinal : Nat) : Error :=
  if e.location.page.isSome then e else e.atPage ordinal

/-- The page as a read through an empty cache returns it. -/
def page (s : PageStore) (ordinal : Nat) : Result PagePin := (s.load ordinal).mapError (annotate · ordinal)

end PageStore

/-- The byte range of a value that has a page of its own. -/
def blobFromPin (pin : PagePin) : Result (PagePin × Nat × Nat) :=
  let ordinal := pin.ordinal
  let count := pin.view.entryCount
  if pin.view.kind ≠ .leaf ∨ count ≠ 0 then
    .error ((Error.corrupt s!"page {ordinal} is referenced as a blob page but holds {count} entries").atPage ordinal)
  else .ok (pin, pagePrefixLen, pin.len)

/-! ## What a query asks the store -/

/-- The questions a reader asks while it runs. -/
inductive ReadOp where
  /-- Returns the page, loading it if the cache does not have it. -/
  | page (ordinal : Nat)
  /-- Returns the page only if it is already cached. -/
  | pageCached (ordinal : Nat)
  /-- The root page kept for a tree. -/
  | retainedRoot (tree : Nat)
  /-- Keeps a root page if the budget has headroom for it. -/
  | retainRoot (tree : Nat) (pin : PagePin)
  /-- Reserves bytes of the memory budget. -/
  | reserve (bytes : Nat)
  /-- Whether the page buffer carries this tree's mark. -/
  | digestsCheckedBy (tree : Nat) (pin : PagePin)
  | markDigestsChecked (tree : Nat) (pin : PagePin)

abbrev ReadOp.Answer : ReadOp → Type
  | .page _ => Result PagePin
  | .pageCached _ => Option PagePin
  | .retainedRoot _ => Option PagePin
  | .retainRoot _ _ => Unit
  | .reserve _ => Result Unit
  | .digestsCheckedBy _ _ => Bool
  | .markDigestsChecked _ _ => Unit

/-- Code on the read path. -/
abbrev Read (α : Type) := Program ReadOp ReadOp.Answer Error α

/-- The answers of one moment of the store. -/
abbrev Env := (op : ReadOp) → op.Answer

namespace Read

def page (ordinal : Nat) : Read PagePin := do
  let r ← Program.question (ReadOp.page ordinal)
  liftM r

def pageCached (ordinal : Nat) : Read (Option PagePin) := Program.question (ReadOp.pageCached ordinal)

def retainedRoot (tree : Nat) : Read (Option PagePin) := Program.question (ReadOp.retainedRoot tree)

def retainRoot (tree : Nat) (pin : PagePin) : Read Unit := Program.question (ReadOp.retainRoot tree pin)

def reserve (bytes : Nat) : Read Unit := do
  let r ← Program.question (ReadOp.reserve bytes)
  liftM r

def digestsCheckedBy (tree : Nat) (pin : PagePin) : Read Bool := Program.question (ReadOp.digestsCheckedBy tree pin)

def markDigestsChecked (tree : Nat) (pin : PagePin) : Read Unit := Program.question (ReadOp.markDigestsChecked tree pin)

/-- Resolves a blob page into the pin plus the byte range holding the value. -/
def blob (ordinal : Nat) : Read (PagePin × Nat × Nat) := do
  let pin ← page ordinal
  blobFromPin pin

section
variable (env : Env)

@[simp] theorem run_page (o : Nat) : (page o).run env = env (.page o) := by
  simp [page]

@[simp] theorem run_pageCached (o : Nat) : (pageCached o).run env = .ok (env (.pageCached o)) := rfl

@[simp] theorem run_retainedRoot (t : Nat) : (retainedRoot t).run env = .ok (env (.retainedRoot t)) := rfl

@[simp] theorem run_retainRoot (t : Nat) (p : PagePin) : (retainRoot t p).run env = .ok () := rfl

@[simp] theorem run_reserve (n : Nat) : (reserve n).run env = env (.reserve n) := by
  simp [reserve]

@[simp] theorem run_digestsCheckedBy (t : Nat) (p : PagePin) :
    (digestsCheckedBy t p).run env = .ok (env (.digestsCheckedBy t p)) := rfl

@[simp] theorem run_markDigestsChecked (t : Nat) (p : PagePin) : (markDigestsChecked t p).run env = .ok () := rfl

end

end Read

end DryDb
