import DryDb.Lib.Machine
import DryDb.Model.Query
/-!
# Page decoding on machine words

`format/node.rs` once more, and the slices `query.rs` and `page.rs` take from a page, with
the operations the compiled code performs: an unchecked `+`, `-` or `*` on `usize` traps
when the result is no `usize`, and so does a slice index outside the page. The functions of
`Model.Node` compute with unbounded numbers; here nothing is assumed about the sizes.
-/

namespace DryDb.Words

open Machine

/-! ## Words -/

abbrev Code (α : Type) := Machine Error α

def plus (a b : Nat) : Code Nat := add usizeLimit a b

def times (a b : Nat) : Code Nat := mul usizeLimit a b

/-- `usize::saturating_add`. -/
def saturatingAdd (a b : Nat) : Nat := min (a + b) (usizeLimit - 1)

/-- `slice::get` of a range. -/
def get (buf : Bytes) (start stop : Nat) : Option Bytes :=
  if start ≤ stop ∧ stop ≤ buf.length then some ((buf.drop start).take (stop - start)) else none

/-! ## Checked reads -/

def readLe (w : Nat) (ty : String) (buf : Bytes) (offset : Nat) : Code Nat := do
  let stop ← lift (okOr (checkedAdd offset w) ((Error.corrupt "offset overflow").atOffset offset))
  let slice ← lift (okOr (get buf offset stop) ((Error.corrupt s!"truncated read ({ty})").atOffset offset))
  let bytes ← copyFromSlice w slice
  .ok (ofLe bytes)

def readU16 (buf : Bytes) (offset : Nat) : Code Nat := readLe 2 "u16" buf offset

def readI32Bits (buf : Bytes) (offset : Nat) : Code Nat := readLe 4 "i32" buf offset

def readI32 (buf : Bytes) (offset : Nat) : Code Int := signed 4 <$> readI32Bits buf offset

def readI64 (buf : Bytes) (offset : Nat) : Code Int := signed 8 <$> readLe 8 "i64" buf offset

def readU64 (buf : Bytes) (offset : Nat) : Code UInt64 := UInt64.ofNat <$> readLe 8 "u64" buf offset

def readSlice (buf : Bytes) (offset len : Nat) : Code Bytes := do
  let stop ← lift (okOr (checkedAdd offset len) ((Error.corrupt "slice length overflow").atOffset offset))
  lift (okOr (get buf offset stop) ((Error.corrupt "slice out of page bounds").atOffset offset))

/-! ## Area sizes -/

/-- The doubling loop of `complete_size`. A shift drops the bits that leave the word. -/
def completeSizeFrom (count m : Nat) : Nat → Code Nat
  | 0 => trap .endless
  | turns + 1 =>
    if m < saturatingAdd count 1 then
      let next := 2 * m % usizeLimit
      if next ≠ 0 then completeSizeFrom count next turns else .ok (usizeLimit - 1)
    else sub m 1

/-- The smallest complete-tree slot count. A word has 64 bits to shift a one through. -/
def completeSize (count : Nat) : Code Nat := completeSizeFrom count 1 65

def digestSlots (l : NodeLayout) (entryCount : Nat) : Code Nat :=
  if l.eytzinger then completeSize entryCount else .ok entryCount

def digestAreaSize (l : NodeLayout) (entryCount : Nat) : Code (Option Nat) := do
  let slots ← digestSlots l entryCount
  .ok (checkedMul slots 8)

/-! ## Parsing -/

/-- The area bounds of `PageView::parse`. -/
def areas (len : Nat) (kind : NodeKind) (layout : NodeLayout) (entryCount : Nat) : Code (Nat × Nat) := do
  let digestArea ← digestAreaSize layout entryCount
  let digestArea ← lift (okOr digestArea (Error.corrupt "digest area size overflows"))
  let metaBase ← lift (okOr (checkedAdd digestBase digestArea) (Error.corrupt "digest area end overflows"))
  if len < metaBase then fail (.corrupt s!"digest area ends at {metaBase}, past the {len} byte page") else
  let metaArea ← lift (okOr (layout.metaSize kind entryCount) (Error.corrupt "metadata area size overflows"))
  let payloadBase ← lift (okOr (checkedAdd metaBase metaArea) (Error.corrupt "metadata area end overflows"))
  if len < payloadBase then fail (.corrupt s!"metadata area ends at {payloadBase}, past the {len} byte page") else
  .ok (metaBase, payloadBase)

def parse (bytes : Bytes) : Code PageView := do
  let len := bytes.length
  if len < pagePrefixLen then
    fail (.corrupt s!"page is {len} bytes, shorter than the {pagePrefixLen} byte prefix") else
  let storedLen ← readI32 bytes 0
  let storedLen ← lift (checkedLen storedLen "page length")
  if storedLen ≠ len then
    fail (.corrupt s!"page length field says {storedLen} but the page buffer holds {len} bytes") else
  let word ← readI32Bits bytes kindOffset
  let kind ← lift (NodeKind.ofWord word)
  let layout ← lift (NodeLayout.ofWord word storedLen)
  let entryCount ← readI32 bytes entryCountOffset
  let entryCount ← lift (checkedLen entryCount "entry count")
  let leftSibling ← readI64 bytes leftSiblingOffset
  let leftSibling ← lift (PageOrdinal.fromI64 leftSibling)
  let rightSibling ← readI64 bytes rightSiblingOffset
  let rightSibling ← lift (PageOrdinal.fromI64 rightSibling)
  let (metaBase, payloadBase) ← areas len kind layout entryCount
  .ok { bytes, header := { kind, layout, entryCount, leftSibling, rightSibling }, metaBase, payloadBase }

/-- Everything after the page prefix, by indexing. -/
def blobPayload (v : PageView) : Code Bytes := index v.bytes pagePrefixLen v.bytes.length

/-! ## Digests -/

def digestSlotCount (v : PageView) : Code Nat := do
  let area ← sub v.metaBase digestBase
  .ok (area / 8)

def digestSlot (v : PageView) (slot : Nat) : Code UInt64 := do
  let slots ← digestSlotCount v
  if slots ≤ slot then fail (.corrupt s!"digest slot {slot} is past the {slots} slots on this page") else
  let skipped ← times slot 8
  let offset ← plus digestBase skipped
  readU64 v.bytes offset

def digestAt (v : PageView) (index : Nat) : Code UInt64 :=
  let count := v.entryCount
  if v.layout.eytzinger then fail (.corrupt "sorted digest access on an Eytzinger page") else
  if count ≤ index then fail (.corrupt s!"digest index {index} is past the {count} entries on this page") else do
  let skipped ← times index 8
  let offset ← plus digestBase skipped
  readU64 v.bytes offset

/-- The descent of the padded tree. -/
def eytzingerDescend (v : PageView) (complete : Nat) (keyDigest : UInt64) : Nat → Nat → Code Nat
  | 0, i => if i ≤ complete then trap .endless else .ok i
  | turns + 1, i =>
    if i ≤ complete then do
      let slot ← sub i 1
      let digest ← digestSlot v slot
      let left ← times 2 i
      let i ← plus left (if digest < keyDigest then 1 else 0)
      eytzingerDescend v complete keyDigest turns i
    else .ok i

/-- The binary search over sorted digests. -/
def sortedDescend (v : PageView) (keyDigest : UInt64) : Nat → Nat → Nat → Code Nat
  | 0, lo, hi => if lo < hi then trap .endless else .ok lo
  | turns + 1, lo, hi =>
    if lo < hi then do
      let width ← sub hi lo
      let mid ← plus lo (width / 2)
      let digest ← digestSlot v mid
      if digest < keyDigest then do
        let lo ← plus mid 1
        sortedDescend v keyDigest turns lo hi
      else sortedDescend v keyDigest turns lo mid
    else .ok lo

def lowerBoundRank (v : PageView) (keyDigest : UInt64) : Code Nat :=
  if v.layout.eytzinger then do
    let complete ← digestSlotCount v
    let i ← eytzingerDescend v complete keyDigest complete 1
    let past ← sub i complete
    sub past 1
  else sortedDescend v keyDigest v.entryCount 0 v.entryCount

/-! ## Entries -/

def payloadRange (v : PageView) (offset len : Nat) : Code Unit := lift (v.payloadRange offset len)

def compactKeyLen (v : PageView) (index : Nat) : Code Nat :=
  if v.layout.omittedKeys then .ok 0
  else do
    let words ← plus v.entryCount 1
    let area ← times words 2
    let keys ← plus v.metaBase area
    let skipped ← times index 2
    let offset ← plus keys skipped
    readU16 v.bytes offset

/-- The offset words of the `index`-th compact entry and of the next one. -/
def compactWords (v : PageView) (index : Nat) : Code (Nat × Nat) := do
  let skipped ← times index 2
  let offset ← plus v.metaBase skipped
  let raw ← readU16 v.bytes offset
  let following ← plus index 1
  let skipped ← times following 2
  let offset ← plus v.metaBase skipped
  let next ← readU16 v.bytes offset
  .ok (raw, next)

def compactLeafMeta (v : PageView) (index : Nat) : Code (Nat × Nat × Nat) := do
  let (raw, next) ← compactWords v index
  let offset := raw % compactOverflowBit
  let nextOffset := next % compactOverflowBit
  let keyLen ← compactKeyLen v index
  if nextOffset < offset then
    fail (.corrupt s!"compact offsets are not monotonic at entry {index} ({offset} > {nextOffset})") else
  let span ← sub nextOffset offset
  if span < keyLen then
    fail (.corrupt s!"entry {index} declares a {keyLen} byte key in a {span} byte payload") else
  if compactOverflowBit ≤ raw then .ok (offset, keyLen, overflowSentinel) else do
  let valueLen ← sub span keyLen
  .ok (offset, keyLen, valueLen)

def classicLeafMeta (v : PageView) (index : Nat) : Code (Nat × Nat × Nat) := do
  let skipped ← times index 8
  let base ← plus v.metaBase skipped
  let offset ← readI32 v.bytes base
  let offset ← lift (checkedLen offset "entry payload offset")
  let place ← plus base 4
  let keyLen ← readU16 v.bytes place
  let place ← plus base 6
  let valueLen ← readU16 v.bytes place
  .ok (offset, keyLen, valueLen)

def leafMeta (v : PageView) (index : Nat) : Code (Nat × Nat × Nat) :=
  if v.layout.compactMeta then compactLeafMeta v index else classicLeafMeta v index

def leafEntry (v : PageView) (index : Nat) : Code LeafEntry :=
  if v.kind ≠ .leaf then fail (.corrupt "leaf accessor used on an internal page") else do
  lift (v.checkIndex index)
  let (offset, keyLen, valueLen) ← leafMeta v index
  if v.layout.omittedKeys && decide (keyLen ≠ 0) then
    fail (.corrupt s!"entry {index} on an OmittedKeys page declares a {keyLen} byte key") else
  if valueLen = overflowSentinel then do
    let len ← plus keyLen 8
    payloadRange v offset len
    let place ← plus offset keyLen
    let ordinal ← readI64 v.bytes place
    let ordinal ← lift (PageOrdinal.fromI64 ordinal)
    let page ← lift (okOr ordinal (Error.corrupt s!"entry {index} points at an empty blob page"))
    .ok { keyOffset := offset, keyLen, value := .overflow page }
  else do
    let len ← plus keyLen valueLen
    payloadRange v offset len
    let place ← plus offset keyLen
    .ok { keyOffset := offset, keyLen, value := .inline place valueLen }

def internalMeta (v : PageView) (index : Nat) : Code (Nat × Nat) :=
  if v.layout.compactMeta then
    if v.layout.omittedKeys then do
      let skipped ← times index 8
      let offset ← plus v.metaBase skipped
      .ok (offset, 0)
    else do
      let (raw, next) ← compactWords v index
      let least ← plus raw 8
      -- The size in the message is a `saturating_sub`.
      let size := next - raw
      if next < least then
        fail (.corrupt s!"internal entry {index} has a {size} byte payload, too small for a child ordinal") else
      let span ← sub next raw
      let keyLen ← sub span 8
      .ok (raw, keyLen)
  else do
    let skipped ← times index 6
    let base ← plus v.metaBase skipped
    let offset ← readI32 v.bytes base
    let offset ← lift (checkedLen offset "entry payload offset")
    let place ← plus base 4
    let keyLen ← readU16 v.bytes place
    .ok (offset, keyLen)

def internalEntry (v : PageView) (index : Nat) : Code InternalEntry :=
  if v.kind ≠ .internal then fail (.corrupt "internal accessor used on a leaf page") else do
  lift (v.checkIndex index)
  let (offset, keyLen) ← internalMeta v index
  if v.layout.omittedKeys && decide (keyLen ≠ 0) then
    fail (.corrupt s!"internal entry {index} on an OmittedKeys page declares a {keyLen} byte key") else
  let len ← plus keyLen 8
  payloadRange v offset len
  let place ← plus offset keyLen
  let ordinal ← readI64 v.bytes place
  let ordinal ← lift (PageOrdinal.fromI64 ordinal)
  let child ← lift (okOr ordinal (Error.corrupt s!"internal entry {index} has no child page"))
  .ok { keyOffset := offset, keyLen, child }

def leafKey (v : PageView) (e : LeafEntry) : Code Bytes := readSlice v.bytes e.keyOffset e.keyLen

def internalKey (v : PageView) (e : InternalEntry) : Code Bytes := readSlice v.bytes e.keyOffset e.keyLen

def inlineValue (v : PageView) (offset len : Nat) : Code Bytes := readSlice v.bytes offset len

def validateEntries (v : PageView) : Code Unit :=
  match v.kind with
  | .leaf => forRange (leafEntry v) 0 v.entryCount
  | .internal => forRange (internalEntry v) 0 v.entryCount

def validate (v : PageView) : Code Unit := do
  validateEntries v
  if v.layout.eytzinger then do
    let slots ← completeSize v.entryCount
    let area ← lift (okOr (checkedMul slots 8) (Error.corrupt "Eytzinger digest area size overflows"))
    let stop ← lift (okOr (checkedAdd digestBase area) (Error.corrupt "Eytzinger digest area end overflows"))
    if v.bytes.length < stop then fail (.corrupt "Eytzinger digest area exceeds the page") else .ok ()
  else .ok ()

/-! ## Slices taken later -/

/-- The range `offset .. offset + len` that `Cursor::materialize` and `resolve_value` make of
an inline value. -/
def inlineRange (offset len : Nat) : Code (Nat × Nat) := do
  let stop ← plus offset len
  .ok (offset, stop)

/-- The bytes of a range, as `ValueGuard::as_bytes` and `EntryRef::value` index them. -/
def rangeBytes (page : Bytes) (start stop : Nat) : Code Bytes := index page start stop

/-- The length of a range, as `ValueGuard::len` and `EntryRef::value_len` compute it. -/
def rangeLen (start stop : Nat) : Code Nat := sub stop start

/-- The key bytes `Cursor::current` slices from the page. -/
def keyBytes (page : Bytes) (offset len : Nat) : Code Bytes := do
  let stop ← plus offset len
  index page offset stop

/-- The key of the current entry, on the page or rebuilt. -/
def sourceBytes (page rebuilt : Bytes) : KeySource → Code Bytes
  | .page offset len => keyBytes page offset len
  | .rebuilt => .ok rebuilt

/-- The key and value bytes of the entry a cursor is on: `Cursor::current` and
`EntryRef::value`. -/
def currentRow (c : Cursor) : Code (Option (Bytes × Bytes)) :=
  match c.current, c.page with
  | some current, some page => do
    let key ← sourceBytes page.bytes c.keyBuf.contents current.key
    match if current.valueOnBlob then c.blob else some page with
    | none => .ok none
    | some pin => do
      let value ← rangeBytes pin.bytes current.start current.stop
      .ok (some (key, value))
  | _, _ => .ok none

end DryDb.Words
