import DryDb.Model.Format
/-!
# B+Tree page decoding

`format/node.rs`. A page is its length field, a 24-byte node header, the digest
array, the entry metadata and the entry payloads. `PageView.parse` checks the
header and the area bounds, `PageView.validate` walks every entry, and each
accessor checks its own bounds again.
-/

namespace DryDb

/-- Low byte of the kind word. -/
inductive NodeKind where
  /-- Holds records; a blob page is a leaf with no entries. -/
  | leaf
  /-- Holds separator keys and child ordinals. -/
  | internal
  deriving DecidableEq, Repr

/-- Per-page layout flags. -/
structure NodeLayout where
  /-- Digests are a padded complete binary tree in BFS order. -/
  eytzinger : Bool := false
  /-- Entry metadata is a `u16` offset array with derived lengths. -/
  compactMeta : Bool := false
  /-- The page stores no key bytes; the digest array is the key column. -/
  omittedKeys : Bool := false
  deriving DecidableEq, Repr

/-- The doubling loop of `complete_size`; `bits` is what is left of the machine word. -/
def completeSizeFrom (count m : Nat) : Nat → Nat
  | 0 => usizeLimit - 1
  | bits + 1 => if m < count + 1 then completeSizeFrom count (2 * m) bits else m - 1

/-- The smallest complete-tree slot count `2^k - 1` that holds `count` digests. -/
def completeSize (count : Nat) : Nat := completeSizeFrom count 1 64

namespace NodeLayout

/-- The flag bits this layout sets in the kind word. -/
def flagBits (l : NodeLayout) : Nat :=
  (if l.eytzinger then 2 ^ 9 else 0) + (if l.compactMeta then 2 ^ 10 else 0) + (if l.omittedKeys then 2 ^ 11 else 0)

/-- Slots the digest array occupies for `entryCount` entries. -/
def digestSlots (l : NodeLayout) (entryCount : Nat) : Nat :=
  if l.eytzinger then completeSize entryCount else entryCount

/-- Bytes the leaf metadata area occupies. -/
def leafMetaSize (l : NodeLayout) (entryCount : Nat) : Option Nat :=
  if l.compactMeta then do
    let slots ← checkedAdd entryCount 1
    let slots ← checkedAdd slots (if l.omittedKeys then 0 else entryCount)
    checkedMul slots 2
  else checkedMul entryCount 8

/-- Bytes the internal metadata area occupies. -/
def internalMetaSize (l : NodeLayout) (entryCount : Nat) : Option Nat :=
  if l.compactMeta then
    if l.omittedKeys then some 0
    else do
      let slots ← checkedAdd entryCount 1
      checkedMul slots 2
  else checkedMul entryCount 6

/-- Bytes the digest array occupies. -/
def digestAreaSize (l : NodeLayout) (entryCount : Nat) : Option Nat :=
  checkedMul (l.digestSlots entryCount) 8

/-- Bytes the metadata area of a page of this kind occupies. -/
def metaSize (l : NodeLayout) : NodeKind → Nat → Option Nat
  | .leaf => l.leafMetaSize
  | .internal => l.internalMetaSize

end NodeLayout

/-! ## The header -/

/-- Decoded node header. -/
structure NodeHeader where
  kind : NodeKind
  layout : NodeLayout
  entryCount : Nat
  leftSibling : Option Nat
  rightSibling : Option Nat
  deriving DecidableEq, Repr

/-- The kind in the low byte of the kind word. -/
def NodeKind.ofWord (word : Nat) : Result NodeKind :=
  match word % 256 with
  | 0 => .ok .leaf
  | 1 => .ok .internal
  | other => .error (.corrupt s!"unknown node kind {other}")

/-- The layout flags of the kind word. Bit 8 is the retired digest flag, bits 9 to 11
are the known ones. -/
def NodeLayout.ofWord (word storedLen : Nat) : Result NodeLayout :=
  let unknown := word &&& 0xFFFFF100
  let layout : NodeLayout :=
    { eytzinger := word.testBit 9, compactMeta := word.testBit 10, omittedKeys := word.testBit 11 }
  if word.testBit 8 then .error (.corrupt "page sets the retired HasKeyDigests flag (pre-1.4 layout)") else
  if unknown ≠ 0 then
    let digits := String.ofList (Nat.toDigits 16 unknown)
    .error (.corrupt s!"page sets unknown node flags 0x{digits}")
  else
  if layout.omittedKeys && !layout.compactMeta then .error (.corrupt "OmittedKeys requires CompactMeta") else
  if layout.omittedKeys && layout.eytzinger then
    .error (.corrupt "OmittedKeys and EytzingerDigests cannot be combined") else
  if layout.compactMeta && decide (maxCompactPageSize < storedLen) then
    .error (.corrupt s!"CompactMeta page is {storedLen} bytes, above the {maxCompactPageSize} byte limit") else
  .ok layout

/-! ## The view -/

/-- A parsed, bounds-checked view over one page's bytes. -/
structure PageView where
  bytes : Bytes
  header : NodeHeader
  metaBase : Nat
  payloadBase : Nat
  deriving DecidableEq

/-- Where a leaf entry's value lives. -/
inductive LeafValue where
  /-- Bytes inside this page. -/
  | inline (offset len : Nat)
  /-- Bytes on a dedicated blob page. -/
  | overflow (page : Nat)
  deriving DecidableEq, Repr

/-- One decoded leaf entry. -/
structure LeafEntry where
  keyOffset : Nat
  /-- Zero on pages that omit keys, where the key comes from the digest. -/
  keyLen : Nat
  value : LeafValue
  deriving DecidableEq, Repr

/-- One decoded internal entry: separator key plus child. -/
structure InternalEntry where
  keyOffset : Nat
  keyLen : Nat
  child : Nat
  deriving DecidableEq, Repr

namespace PageView

def kind (v : PageView) : NodeKind := v.header.kind
def layout (v : PageView) : NodeLayout := v.header.layout
def entryCount (v : PageView) : Nat := v.header.entryCount
def leftSibling (v : PageView) : Option Nat := v.header.leftSibling
def rightSibling (v : PageView) : Option Nat := v.header.rightSibling

/-- Where the metadata and the payloads of a page begin. -/
def areas (len : Nat) (kind : NodeKind) (layout : NodeLayout) (entryCount : Nat) : Result (Nat × Nat) := do
  let digestArea ← okOr (layout.digestAreaSize entryCount) (Error.corrupt "digest area size overflows")
  let metaBase ← okOr (checkedAdd digestBase digestArea) (Error.corrupt "digest area end overflows")
  if len < metaBase then .error (.corrupt s!"digest area ends at {metaBase}, past the {len} byte page") else
  let metaArea ← okOr (layout.metaSize kind entryCount) (Error.corrupt "metadata area size overflows")
  let payloadBase ← okOr (checkedAdd metaBase metaArea) (Error.corrupt "metadata area end overflows")
  if len < payloadBase then .error (.corrupt s!"metadata area ends at {payloadBase}, past the {len} byte page") else
  .ok (metaBase, payloadBase)

/-- Parses the header and area bounds of a page. The bytes must be exactly the page. -/
def parse (bytes : Bytes) : Result PageView := do
  let len := bytes.length
  if len < pagePrefixLen then
    .error (.corrupt s!"page is {len} bytes, shorter than the {pagePrefixLen} byte prefix") else
  let storedLen ← checkedLen (← readI32 bytes 0) "page length"
  if storedLen ≠ len then
    .error (.corrupt s!"page length field says {storedLen} but the page buffer holds {len} bytes") else
  let word ← readI32Bits bytes kindOffset
  let kind ← NodeKind.ofWord word
  let layout ← NodeLayout.ofWord word storedLen
  let entryCount ← checkedLen (← readI32 bytes entryCountOffset) "entry count"
  let leftSibling ← PageOrdinal.fromI64 (← readI64 bytes leftSiblingOffset)
  let rightSibling ← PageOrdinal.fromI64 (← readI64 bytes rightSiblingOffset)
  let (metaBase, payloadBase) ← areas len kind layout entryCount
  .ok { bytes, header := { kind, layout, entryCount, leftSibling, rightSibling }, metaBase, payloadBase }

/-- Payload bytes of a blob page: everything after the page prefix. -/
def blobPayload (v : PageView) : Bytes := v.bytes.drop pagePrefixLen

/-! ## Digests -/

/-- Number of `u64` slots in the digest area. -/
def digestSlotCount (v : PageView) : Nat := (v.metaBase - digestBase) / 8

/-- The raw digest area. On an Eytzinger page slot `i` is node `i + 1`. -/
def digestSlot (v : PageView) (slot : Nat) : Result UInt64 :=
  let slots := v.digestSlotCount
  if slots ≤ slot then .error (.corrupt s!"digest slot {slot} is past the {slots} slots on this page") else
  readU64 v.bytes (digestBase + slot * 8)

/-- The digest stored for the `index`-th entry of a page with sorted digests. -/
def digestAt (v : PageView) (index : Nat) : Result UInt64 :=
  let count := v.entryCount
  if v.layout.eytzinger then .error (.corrupt "sorted digest access on an Eytzinger page") else
  if count ≤ index then .error (.corrupt s!"digest index {index} is past the {count} entries on this page") else
  readU64 v.bytes (digestBase + index * 8)

/-- The branch-free descent of the padded tree. Every step doubles `i`, so as many
steps as there are slots always leave the tree. -/
def eytzingerDescend (v : PageView) (keyDigest : UInt64) : Nat → Nat → Result Nat
  | 0, i => .ok i
  | steps + 1, i =>
    if i ≤ v.digestSlotCount then do
      let digest ← v.digestSlot (i - 1)
      eytzingerDescend v keyDigest steps (2 * i + if digest < keyDigest then 1 else 0)
    else .ok i

/-- The binary search over sorted digests. The window shrinks at every step, so its
first width bounds their number. -/
def sortedDescend (v : PageView) (keyDigest : UInt64) : Nat → Nat → Nat → Result Nat
  | 0, lo, _ => .ok lo
  | steps + 1, lo, hi =>
    if lo < hi then do
      let mid := lo + (hi - lo) / 2
      let digest ← v.digestSlot mid
      if digest < keyDigest then sortedDescend v keyDigest steps (mid + 1) hi
      else sortedDescend v keyDigest steps lo mid
    else .ok lo

/-- Number of digests strictly less than `keyDigest`: the index of the first entry
that can match. -/
def lowerBoundRank (v : PageView) (keyDigest : UInt64) : Result Nat :=
  if v.layout.eytzinger then do
    let complete := v.digestSlotCount
    let i ← v.eytzingerDescend keyDigest complete 1
    .ok (i - complete - 1)
  else v.sortedDescend keyDigest v.entryCount 0 v.entryCount

/-! ## Entries -/

def checkIndex (v : PageView) (index : Nat) : Result Unit :=
  let count := v.entryCount
  if count ≤ index then .error (.corrupt s!"entry index {index} is past the {count} entries on this page") else .ok ()

def payloadRange (v : PageView) (offset len : Nat) : Result Unit := do
  let base := v.payloadBase
  let size := v.bytes.length
  if offset < base then
    .error (.corrupt s!"entry payload offset {offset} points inside the metadata area (payloads start at {base})") else
  let stop ← okOr (checkedAdd offset len) (Error.corrupt "entry payload end overflows")
  if size < stop then .error (.corrupt s!"entry payload {offset}..{stop} exceeds the {size} byte page") else .ok ()

/-- Key length of a compact leaf entry. -/
def compactKeyLen (v : PageView) (index : Nat) : Result Nat :=
  if v.layout.omittedKeys then .ok 0
  else readU16 v.bytes (v.metaBase + (v.entryCount + 1) * 2 + index * 2)

/-- Offset, key length and value length of a compact leaf entry. Bit 15 of an offset
is the overflow flag. -/
def compactLeafMeta (v : PageView) (index : Nat) : Result (Nat × Nat × Nat) := do
  let raw ← readU16 v.bytes (v.metaBase + index * 2)
  let next ← readU16 v.bytes (v.metaBase + (index + 1) * 2)
  let offset := raw % compactOverflowBit
  let nextOffset := next % compactOverflowBit
  let keyLen ← v.compactKeyLen index
  if nextOffset < offset then
    .error (.corrupt s!"compact offsets are not monotonic at entry {index} ({offset} > {nextOffset})") else
  let span := nextOffset - offset
  if span < keyLen then
    .error (.corrupt s!"entry {index} declares a {keyLen} byte key in a {span} byte payload") else
  .ok (offset, keyLen, if compactOverflowBit ≤ raw then overflowSentinel else span - keyLen)

/-- The same of a classic leaf entry, which stores them outright. -/
def classicLeafMeta (v : PageView) (index : Nat) : Result (Nat × Nat × Nat) := do
  let base := v.metaBase + index * 8
  let offset ← checkedLen (← readI32 v.bytes base) "entry payload offset"
  let keyLen ← readU16 v.bytes (base + 4)
  let valueLen ← readU16 v.bytes (base + 6)
  .ok (offset, keyLen, valueLen)

def leafMeta (v : PageView) (index : Nat) : Result (Nat × Nat × Nat) :=
  if v.layout.compactMeta then v.compactLeafMeta index else v.classicLeafMeta index

/-- Decodes the `index`-th leaf entry. -/
def leafEntry (v : PageView) (index : Nat) : Result LeafEntry :=
  if v.kind ≠ .leaf then .error (.corrupt "leaf accessor used on an internal page") else do
  v.checkIndex index
  let (offset, keyLen, valueLen) ← v.leafMeta index
  if v.layout.omittedKeys && decide (keyLen ≠ 0) then
    .error (.corrupt s!"entry {index} on an OmittedKeys page declares a {keyLen} byte key") else
  if valueLen = overflowSentinel then do
    v.payloadRange offset (keyLen + 8)
    let ordinal ← PageOrdinal.fromI64 (← readI64 v.bytes (offset + keyLen))
    let page ← okOr ordinal (Error.corrupt s!"entry {index} points at an empty blob page")
    .ok { keyOffset := offset, keyLen, value := .overflow page }
  else do
    v.payloadRange offset (keyLen + valueLen)
    .ok { keyOffset := offset, keyLen, value := .inline (offset + keyLen) valueLen }

/-- Offset and key length of an internal entry. -/
def internalMeta (v : PageView) (index : Nat) : Result (Nat × Nat) :=
  if v.layout.compactMeta then
    -- Without keys there is no metadata: the payload is a dense array of children.
    if v.layout.omittedKeys then .ok (v.metaBase + index * 8, 0)
    else do
      let raw ← readU16 v.bytes (v.metaBase + index * 2)
      let next ← readU16 v.bytes (v.metaBase + (index + 1) * 2)
      let size := next - raw
      if next < raw + 8 then
        .error (.corrupt s!"internal entry {index} has a {size} byte payload, too small for a child ordinal") else
      .ok (raw, next - raw - 8)
  else do
    let base := v.metaBase + index * 6
    let offset ← checkedLen (← readI32 v.bytes base) "entry payload offset"
    let keyLen ← readU16 v.bytes (base + 4)
    .ok (offset, keyLen)

/-- Decodes the `index`-th internal entry. -/
def internalEntry (v : PageView) (index : Nat) : Result InternalEntry :=
  if v.kind ≠ .internal then .error (.corrupt "internal accessor used on a leaf page") else do
  v.checkIndex index
  let (offset, keyLen) ← v.internalMeta index
  if v.layout.omittedKeys && decide (keyLen ≠ 0) then
    .error (.corrupt s!"internal entry {index} on an OmittedKeys page declares a {keyLen} byte key") else
  v.payloadRange offset (keyLen + 8)
  let ordinal ← PageOrdinal.fromI64 (← readI64 v.bytes (offset + keyLen))
  let child ← okOr ordinal (Error.corrupt s!"internal entry {index} has no child page")
  .ok { keyOffset := offset, keyLen, child }

/-- Key bytes of a leaf entry. Empty on pages that omit keys. -/
def leafKey (v : PageView) (e : LeafEntry) : Result Bytes := readSlice v.bytes e.keyOffset e.keyLen

/-- Key bytes of an internal entry. Empty on pages that omit keys. -/
def internalKey (v : PageView) (e : InternalEntry) : Result Bytes := readSlice v.bytes e.keyOffset e.keyLen

def inlineValue (v : PageView) (offset len : Nat) : Result Bytes := readSlice v.bytes offset len

/-- Walks every entry. -/
def validateEntries (v : PageView) : Result Unit :=
  match v.kind with
  | .leaf => forRange v.leafEntry 0 v.entryCount
  | .internal => forRange v.internalEntry 0 v.entryCount

/-- Checks that every entry's metadata stays inside the page. -/
def validate (v : PageView) : Result Unit := do
  v.validateEntries
  if v.layout.eytzinger then
    -- The padded tree must be fully present.
    let area ← okOr (checkedMul (completeSize v.entryCount) 8) (Error.corrupt "Eytzinger digest area size overflows")
    let stop ← okOr (checkedAdd digestBase area) (Error.corrupt "Eytzinger digest area end overflows")
    if v.bytes.length < stop then .error (.corrupt "Eytzinger digest area exceeds the page") else .ok ()
  else .ok ()

end PageView

end DryDb
