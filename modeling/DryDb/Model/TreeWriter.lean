import DryDb.Model.Sink
import DryDb.Model.Encoding
import DryDb.Model.Catalog
/-!
# Bottom-up B+Tree writing

`builder/tree.rs`. Entries arrive in key order and are packed into a leaf until the
next one does not fit; the leaf is then written, its ordinal is patched into the page
before it, and its first key is promoted to the parent level as a separator. The same
rule applies to every level.

The levels are kept as the leaf level and the list of the levels above it, so that
`rotate` at one level sees exactly the levels it can change. The caller's callback is
`onValueRef`, threaded through its own state `σ`.
-/

namespace DryDb

/-- The smallest page the upstream builder accepts. -/
def minPageSize : Nat := pagePrefixLen + 32

/-- Deepest tree the writer will build. -/
def maxLevels : Nat := 64

/-! ## Sizes

The writer unwraps the checked sizes of the layout: its counts are page bounded. -/

namespace NodeLayout

/-- Bytes of the digest array. -/
def digestArea (l : NodeLayout) (entryCount : Nat) : Nat := l.digestSlots entryCount * 8

/-- Bytes of the leaf metadata. -/
def leafMeta (l : NodeLayout) (entryCount : Nat) : Nat :=
  if l.compactMeta then (entryCount + 1 + if l.omittedKeys then 0 else entryCount) * 2 else entryCount * 8

/-- Bytes of the internal metadata. -/
def internalMeta (l : NodeLayout) (entryCount : Nat) : Nat :=
  if l.compactMeta then if l.omittedKeys then 0 else (entryCount + 1) * 2 else entryCount * 6

/-- Bytes of the metadata of a page of this kind. -/
def metaArea (l : NodeLayout) : NodeKind → Nat → Nat
  | .leaf => l.leafMeta
  | .internal => l.internalMeta

/-- Where the payloads of a page begin. -/
def payloadStart (l : NodeLayout) (kind : NodeKind) (entryCount : Nat) : Nat :=
  pagePrefixLen + l.digestArea entryCount + l.metaArea kind entryCount

/-- The key bytes a page of this layout stores. -/
def storedKey (l : NodeLayout) (key : Bytes) : Bytes := if l.omittedKeys then [] else key

def storedKeyLen (l : NodeLayout) (keyLen : Nat) : Nat := if l.omittedKeys then 0 else keyLen

end NodeLayout

/-- The page layout a build uses, given its settings and key encoding. Keys are never
dropped with Eytzinger digests, nor for composite keys. -/
def chooseLayout (pageSize : Nat) (eytzinger : Bool) (encoding : KeyEncoding) (allowOmittedKeys : Bool) : NodeLayout :=
  let compactMeta := decide (pageSize ≤ maxCompactPageSize)
  { eytzinger, compactMeta,
    omittedKeys := allowOmittedKeys && compactMeta && !eytzinger && encoding.isDigestExact }

/-- Rejects a key that would make the tree impossible to build: its entry has to fit on
an empty leaf as an overflow reference, and an internal page has to hold two separators
of its size. -/
def checkKeyFits (pageSize : Nat) (layout : NodeLayout) (keyLen : Nat) : Result Unit :=
  let stored := layout.storedKeyLen keyLen
  let leaf := layout.payloadStart .leaf 1 + stored + 8
  let twoSeparators := layout.payloadStart .internal 2 + 2 * (stored + 8)
  if pageSize < leaf then
    .error (.new .valueTooLarge
      s!"a {keyLen} byte key needs a leaf page of at least {leaf} bytes, but the page size is {pageSize}") else
  if pageSize < twoSeparators then
    .error (.new .valueTooLarge
      (s!"a {keyLen} byte key needs an internal page of at least {twoSeparators} bytes to hold two separators, but " ++
        s!"the page size is {pageSize}; a tree whose internal pages hold one separator each cannot be built")) else
  .ok ()

/-! ## State -/

/-- The open page of one level, and where the page before it went. -/
structure Level (E : Type) where
  payload : Bytes := []
  /-- `(stored key length, inline payload length)` per entry. -/
  sizes : List (Nat × Nat) := []
  overflow : List (Option PageRef) := []
  digests : List UInt64 := []
  extras : List E := []
  firstKey : Option Bytes := none
  prevOrdinal : Option Nat := none
  prevOffset : Option Nat := none

namespace Level

variable {E : Type}

def entryCount (l : Level E) : Nat := l.sizes.length

/-- An empty page behind the page just written. -/
def after (ordinal offset : Nat) : Level E := { prevOrdinal := some ordinal, prevOffset := some offset }

end Level

/-- What does not change while one tree is written. -/
structure WriterConfig (E : Type) where
  pageSize : Nat
  layout : NodeLayout
  encoding : KeyEncoding
  /-- What an extra holds while it waits for its page. -/
  extraBytes : E → Nat
  /-- What the waiting extras may come to before the page is written early. -/
  extraBudget : Nat

/-- Where pages and value references go: the file and the caller's own state. -/
structure Output (σ : Type) where
  sink : PageSink
  caller : σ

/-- Writes one B+Tree into a `PageSink`. `leaf` is level zero, `upper` the levels above
it, nearest first. -/
structure TreeWriter (E σ : Type) where
  out : Output σ
  leaf : Level E := {}
  upper : List (Level E) := []
  entries : Nat := 0
  pendingExtra : Nat := 0

/-! ## One page -/

/-- The in-order fill of `scatter_eytzinger`: the digests go into the subtree of `node`,
and what is left of them comes back. -/
def fillEytzinger : Nat → List UInt64 → List UInt64 → Nat → List UInt64 × List UInt64
  | 0, sorted, slots, _ => (sorted, slots)
  | steps + 1, sorted, slots, node =>
    if slots.length < node then (sorted, slots)
    else
      let (sorted, slots) := fillEytzinger steps sorted slots (2 * node)
      let (sorted, slots) :=
        match sorted with
        | [] => ([], slots)
        | d :: rest => (rest, slots.set (node - 1) d)
      fillEytzinger steps sorted slots (2 * node + 1)

/-- Scatters sorted digests into Eytzinger slots, padding with the largest digest. -/
def scatterEytzinger (sorted : List UInt64) : List UInt64 :=
  let slots := completeSize sorted.length
  (fillEytzinger slots sorted (List.replicate slots u64Max) 1).2

/-- The offset words of a compact page, the end of the last entry included. Bit 15 marks
an overflowed leaf value. -/
def compactWords (kind : NodeKind) : Nat → List ((Nat × Nat) × Option PageRef) → List Nat
  | offset, [] => [offset % 2 ^ 16]
  | offset, ((keyLen, payloadLen), overflow) :: rest =>
    (offset % 2 ^ 16 ||| if kind = .leaf ∧ overflow.isSome then compactOverflowBit else 0)
      :: compactWords kind (offset + (keyLen + payloadLen)) rest

/-- The metadata records of a classic page. -/
def classicRecords (kind : NodeKind) : Nat → List ((Nat × Nat) × Option PageRef) → List Bytes
  | _, [] => []
  | offset, ((keyLen, payloadLen), overflow) :: rest =>
    (leBytes 4 offset ++ leBytes 2 keyLen ++
        match kind with
        | .leaf => leBytes 2 (if overflow.isSome then overflowSentinel else payloadLen)
        | .internal => [])
      :: classicRecords kind (offset + (keyLen + payloadLen)) rest

namespace Level

variable {E : Type}

/-- The digest area. -/
def digestBytes (l : Level E) (layout : NodeLayout) : Bytes :=
  (if layout.eytzinger then scatterEytzinger l.digests else l.digests).flatMap fun d => leBytes 8 d.toNat

/-- The metadata area. An internal page without keys has none. -/
def metaBytes (l : Level E) (layout : NodeLayout) (kind : NodeKind) : Bytes :=
  let base := layout.payloadStart kind l.entryCount
  let entries := l.sizes.zip l.overflow
  if layout.compactMeta then
    if kind = .leaf ∨ ¬ layout.omittedKeys then
      (compactWords kind base entries).flatMap (leBytes 2) ++
        if kind = .leaf ∧ ¬ layout.omittedKeys then l.sizes.flatMap (fun s => leBytes 2 s.1) else []
    else []
  else (classicRecords kind base entries).flatten

/-- The length of the page this level would be written as. -/
def pageLen (l : Level E) (layout : NodeLayout) (kind : NodeKind) : Nat :=
  layout.payloadStart kind l.entryCount + l.payload.length

end Level

/-- The prefix of a page: its length and its node header. -/
def pagePrefix (pageLen word entryCount : Nat) (left right : Option Nat) : Bytes :=
  leBytes 4 pageLen ++ leBytes 4 word ++ leBytes 4 entryCount ++ ordinalBytes left ++ ordinalBytes right

/-- The kind word of a page. -/
def kindWord (kind : NodeKind) (layout : NodeLayout) : Nat :=
  (match kind with
    | .leaf => 0
    | .internal => 1) + layout.flagBits

/-- The page a level is written as. Its right sibling is not known yet. -/
def Level.image {E : Type} (l : Level E) (layout : NodeLayout) (kind : NodeKind) : Bytes :=
  pagePrefix (l.pageLen layout kind) (kindWord kind layout) l.entryCount l.prevOrdinal none ++
    l.digestBytes layout ++ l.metaBytes layout kind ++ l.payload

/-- The page of a value that does not fit inline. -/
def blobImage (value : Bytes) : Bytes := pagePrefix (pagePrefixLen + value.length) 0 0 none none ++ value

namespace TreeWriter

variable {E σ : Type}

/-- The value reference of one entry of a leaf: its blob, or the bytes after its key. -/
def valueRef (ordinal offset : Nat) : (Nat × Nat) × Option PageRef → PageRef
  | (_, some blob) => blob
  | ((keyLen, payloadLen), none) => { page := ordinal, start := offset + keyLen, length := payloadLen }

/-- Hands the extras of a leaf over with their references, in entry order. -/
def handOver (onValueRef : σ → E → PageRef → Result σ) (ordinal : Nat) :
    Nat → List ((Nat × Nat) × Option PageRef) → List E → σ → Result σ
  | offset, entry :: entries, extra :: extras, s => do
    let s ← onValueRef s extra (valueRef ordinal offset entry)
    handOver onValueRef ordinal (offset + (entry.1.1 + entry.1.2)) entries extras s
  | _, _, _, s => .ok s

/-- Writes the open page of a level, and hands on the extras of a leaf. -/
def flushPage (cfg : WriterConfig E) (onValueRef : σ → E → PageRef → Result σ) (kind : NodeKind)
    (level : Level E) (ordinal : Nat) (out : Output σ) : Result (Output σ) := do
  let pageLen := level.pageLen cfg.layout kind
  let pageSize := cfg.pageSize
  if pageSize < pageLen then
    .error (.corrupt s!"internal error: built a {pageLen} byte page for a {pageSize} byte page size") else
  let sink ← out.sink.writePage (level.image cfg.layout kind)
  let base := cfg.layout.payloadStart kind level.entryCount
  let entries := if kind = .leaf then level.sizes.zip level.overflow else []
  let caller ← handOver onValueRef ordinal base entries level.extras out.caller
  .ok { sink, caller }

/-- Patches the right sibling of the page before the one just written. -/
def linkPrevious (level : Level E) (ordinal : Nat) (out : Output σ) : Output σ :=
  match level.prevOffset with
  | some prevOffset =>
    { out with sink := out.sink.patchAt (prevOffset + rightSiblingOffset) (ordinalBytes (some ordinal)) }
  | none => out

/-- Begins a page, writes the open page of a level there and links it to the page before.
Returns its ordinal and offset. -/
def writeLevel (cfg : WriterConfig E) (onValueRef : σ → E → PageRef → Result σ) (kind : NodeKind)
    (level : Level E) (out : Output σ) : Result (Nat × Nat × Output σ) := do
  let (ordinal, offset, sink) ← out.sink.beginPage
  let out ← flushPage cfg onValueRef kind level ordinal { out with sink }
  .ok (ordinal, offset, linkPrevious level ordinal out)

/-- Bytes an internal page would take with one more separator. -/
def internalNeeds (cfg : WriterConfig E) (parent : Level E) (storedKeyLen : Nat) : Nat :=
  cfg.layout.payloadStart .internal (parent.entryCount + 1) + parent.payload.length + storedKeyLen + 8

/-- Remembers the first key of a page that has no entries yet. -/
def withFirstKey (key : Bytes) (level : Level E) : Level E :=
  if level.entryCount = 0 then { level with firstKey := some key } else level

/-- Adds a separator to the open page of its level. -/
def addSeparator (cfg : WriterConfig E) (parent : Level E) (separator : Bytes) (child : Nat) : Result (Level E) := do
  let digest ← cfg.encoding.digest separator
  .ok { parent with
    digests := parent.digests ++ [digest]
    payload := parent.payload ++ cfg.layout.storedKey separator ++ ordinalBytes (some child)
    sizes := parent.sizes ++ [(cfg.layout.storedKeyLen separator.length, 8)]
    overflow := parent.overflow ++ [none] }

def levelLimit : Error :=
  .corrupt s!"internal error: the tree reached {maxLevels} levels without the entry count falling"

/-- The parent level of a page to be promoted. `room` is how many levels may stand above
this one. -/
def parentOf (room : Nat) : List (Level E) → Result (Level E × List (Level E))
  | parent :: above => .ok (parent, above)
  | [] => if room = 0 then .error levelLimit else .ok ({}, [])

/-- Rotates a level and the levels above it. -/
abbrev Rotation (E σ : Type) := Level E → List (Level E) → Output σ → Result (Level E × List (Level E) × Output σ)

/-- Rotates the parent when one more separator does not fit on it. -/
def makeRoom (cfg : WriterConfig E) (rotateParent : Rotation E σ) (separator : Bytes) : Rotation E σ :=
  fun parent above out =>
    if cfg.pageSize < internalNeeds cfg parent (cfg.layout.storedKeyLen separator.length) then
      rotateParent parent above out
    else .ok (parent, above, out)

/-- Writes the open page of a level and adds its first key as a separator in the parent
level. -/
def promote (cfg : WriterConfig E) (onValueRef : σ → E → PageRef → Result σ) (room : Nat)
    (rotateParent : Rotation E σ) (kind : NodeKind) : Rotation E σ :=
  fun level upper out => do
    let (ordinal, offset, out) ← writeLevel cfg onValueRef kind level out
    let separator ← okOr level.firstKey (Error.corrupt "a promoted page has no first key")
    let (parent, above) ← parentOf room upper
    let (parent, above, out) ← makeRoom cfg rotateParent separator (withFirstKey separator parent) above out
    let parent ← addSeparator cfg (withFirstKey separator parent) separator ordinal
    .ok (.after ordinal offset, parent :: above, out)

/-- `rotate` with `promote` set. A level with no room above has no parent to rotate. -/
def rotate (cfg : WriterConfig E) (onValueRef : σ → E → PageRef → Result σ) :
    Nat → NodeKind → Rotation E σ
  | 0 => promote cfg onValueRef 0 fun parent above out => .ok (parent, above, out)
  | room + 1 => promote cfg onValueRef (room + 1) (rotate cfg onValueRef room .internal)

/-- Levels that may stand above the leaf level. -/
def leafRoom : Nat := maxLevels - 1

/-- `rotate(0, true)`: the waiting extras are handed on with the page. -/
def rotateLeaf (cfg : WriterConfig E) (onValueRef : σ → E → PageRef → Result σ) (w : TreeWriter E σ) :
    Result (TreeWriter E σ) := do
  let (leaf, upper, out) ← rotate cfg onValueRef leafRoom .leaf w.leaf w.upper w.out
  .ok { w with leaf, upper, out, pendingExtra := 0 }

/-! ## Entries -/

/-- Bytes the open leaf would take with one more entry. -/
def inlineNeeds (cfg : WriterConfig E) (leaf : Level E) (storedKeyLen valueLen : Nat) : Nat :=
  cfg.layout.payloadStart .leaf (leaf.entryCount + 1) + leaf.payload.length + storedKeyLen + valueLen

/-- The refusals of `push`: lengths the format has no room for, and an entry that cannot
fit on an empty page even as an overflow reference. -/
def checkEntry (cfg : WriterConfig E) (key value : Bytes) : Result Unit :=
  let keyLen := key.length
  let valueLen := value.length
  let pageSize := cfg.pageSize
  let minimum := cfg.layout.payloadStart .leaf 1 + cfg.layout.storedKeyLen key.length + 8
  if u16Max < keyLen then
    .error (.new .valueTooLarge s!"key is {keyLen} bytes; the format stores key lengths as u16") else
  if i32Max < valueLen then
    .error (.new .valueTooLarge s!"value is {valueLen} bytes, past the format's 32-bit page length") else
  if pageSize < minimum then
    .error (.new .valueTooLarge
      s!"a {keyLen} byte key needs a page of at least {minimum} bytes, but the page size is {pageSize}") else
  .ok ()

/-- Rotates the leaf when the entry does not fit on it even as an overflow reference. -/
def makeLeafRoom (cfg : WriterConfig E) (onValueRef : σ → E → PageRef → Result σ) (key value : Bytes)
    (w : TreeWriter E σ) : Result (TreeWriter E σ) :=
  let stored := cfg.layout.storedKeyLen key.length
  if cfg.pageSize < inlineNeeds cfg w.leaf stored value.length ∧
      cfg.pageSize < inlineNeeds cfg w.leaf stored 8 ∧ 0 < w.leaf.entryCount then
    (fun w => { w with leaf := withFirstKey key w.leaf }) <$> rotateLeaf cfg onValueRef w
  else .ok w

/-- Whether the value goes onto a page of its own. A stored length of `0xFFFF` is the
overflow sentinel. -/
def overflows (cfg : WriterConfig E) (leaf : Level E) (key value : Bytes) : Bool :=
  decide (cfg.pageSize < inlineNeeds cfg leaf (cfg.layout.storedKeyLen key.length) value.length) ||
    decide (overflowSentinel ≤ value.length)

/-- Writes a value that does not fit inline onto its own page. -/
def writeBlobPage (sink : PageSink) (value : Bytes) : Result (Nat × PageSink) := do
  let (ordinal, _, sink) ← sink.beginPage
  let sink ← sink.writePage (blobImage value)
  .ok (ordinal, sink)

/-- Where the value of an entry went: onto the leaf, or onto the blob page at an ordinal. -/
def placeValue (cfg : WriterConfig E) (leaf : Level E) (key value : Bytes) (sink : PageSink) :
    Result (Option Nat × PageSink) :=
  if overflows cfg leaf key value then
    (fun r => (some r.1, r.2)) <$> writeBlobPage sink value
  else .ok (none, sink)

/-- Adds an entry to the open leaf. -/
def addEntry (cfg : WriterConfig E) (leaf : Level E) (key value : Bytes) (digest : UInt64) (blob : Option Nat)
    (extra : E) : Level E :=
  { leaf with
    digests := leaf.digests ++ [digest]
    payload := leaf.payload ++ cfg.layout.storedKey key ++
      match blob with
      | some ordinal => ordinalBytes (some ordinal)
      | none => value
    sizes := leaf.sizes ++ [(cfg.layout.storedKeyLen key.length, if blob.isSome then 8 else value.length)]
    overflow := leaf.overflow ++ [blob.map fun page => { page, start := pagePrefixLen, length := value.length }]
    extras := leaf.extras ++ [extra] }

/-- Writes the leaf early when the extras waiting for it come to more than they may. -/
def rotateEarly (cfg : WriterConfig E) (onValueRef : σ → E → PageRef → Result σ) (w : TreeWriter E σ) :
    Result (TreeWriter E σ) :=
  if cfg.extraBudget < w.pendingExtra ∧ 0 < w.leaf.entryCount then rotateLeaf cfg onValueRef w else .ok w

/-- Appends one entry. Keys must arrive in the encoding's order. -/
def push (cfg : WriterConfig E) (onValueRef : σ → E → PageRef → Result σ) (key value : Bytes) (extra : E)
    (w : TreeWriter E σ) : Result (TreeWriter E σ) := do
  checkEntry cfg key value
  let w ← makeLeafRoom cfg onValueRef key value { w with leaf := withFirstKey key w.leaf }
  let digest ← cfg.encoding.digest key
  let (blob, sink) ← placeValue cfg w.leaf key value w.out.sink
  rotateEarly cfg onValueRef { w with
    out := { w.out with sink }
    leaf := addEntry cfg w.leaf key value digest blob extra
    entries := w.entries + 1
    pendingExtra := w.pendingExtra + cfg.extraBytes extra }

/-! ## Finishing -/

/-- Rotates a level that holds entries. -/
def flushLevel (cfg : WriterConfig E) (onValueRef : σ → E → PageRef → Result σ) (room : Nat) (kind : NodeKind) :
    Rotation E σ :=
  fun level upper out =>
    if 0 < level.entryCount then rotate cfg onValueRef room kind level upper out else .ok (level, upper, out)

/-- One pass over the levels below the top, from the leaf up. A level that overflows the
top adds one above it, which the pass then reaches as well. -/
def flushPass (cfg : WriterConfig E) (onValueRef : σ → E → PageRef → Result σ) : Nat → NodeKind → Rotation E σ
  | room + 1, kind, level, parent :: above, out => do
    let (level, upper, out) ← flushLevel cfg onValueRef (room + 1) kind level (parent :: above) out
    match upper with
    | [] => .ok (level, [], out)
    | parent :: above => do
      let (parent, above, out) ← flushPass cfg onValueRef room .internal parent above out
      .ok (level, parent :: above, out)
  | _, _, level, upper, out => .ok (level, upper, out)

/-- Whether a pass over the levels finds nothing to flush: all but the top are empty. -/
def settled : Level E → List (Level E) → Bool
  | _, [] => true
  | level, parent :: above => decide (level.entryCount = 0) && settled parent above

/-- The pass loop of `finish`. It ends with the first pass that flushes nothing; two
turns are always enough (`flushPasses_two`). -/
def flushPasses (cfg : WriterConfig E) (onValueRef : σ → E → PageRef → Result σ) : Nat → Rotation E σ
  | 0, leaf, upper, out => .ok (leaf, upper, out)
  | turns + 1, leaf, upper, out =>
    if settled leaf upper then .ok (leaf, upper, out)
    else do
      let (leaf, upper, out) ← flushPass cfg onValueRef leafRoom .leaf leaf upper out
      flushPasses cfg onValueRef turns leaf upper out

/-- The topmost level and its kind. -/
def topLevel : NodeKind → Level E → List (Level E) → NodeKind × Level E
  | kind, level, [] => (kind, level)
  | _, _, parent :: above => topLevel .internal parent above

/-- Writes the top level as the root page, unless it has been written already. -/
def writeRoot (cfg : WriterConfig E) (onValueRef : σ → E → PageRef → Result σ) (kind : NodeKind) (top : Level E)
    (out : Output σ) : Result (Nat × Output σ) :=
  if 0 < top.entryCount ∨ top.prevOrdinal = none then do
    let (ordinal, _, out) ← writeLevel cfg onValueRef kind top out
    .ok (ordinal, out)
  else do
    let root ← okOr top.prevOrdinal (Error.corrupt "tree writer produced no root page")
    .ok (root, out)

/-- Writes the remaining levels and returns the root page. A tree with no entries still
gets a real, empty leaf page as its root. -/
def finish (cfg : WriterConfig E) (onValueRef : σ → E → PageRef → Result σ) (w : TreeWriter E σ) :
    Result (Nat × Output σ) := do
  let (leaf, upper, out) ← flushPasses cfg onValueRef 2 w.leaf w.upper w.out
  writeRoot cfg onValueRef (topLevel .leaf leaf upper).1 (topLevel .leaf leaf upper).2 out

/-- A new writer. -/
def new (pageSize : Nat) (eytzinger : Bool) (encoding : KeyEncoding) (allowOmittedKeys : Bool)
    (extraBytes : E → Nat) (extraBudget : Nat) : Result (WriterConfig E) :=
  if pageSize < minPageSize then
    .error (.invalid s!"page size {pageSize} is below the {minPageSize} byte minimum")
  else .ok {
    pageSize, encoding, extraBytes, extraBudget
    layout := chooseLayout pageSize eytzinger encoding allowOmittedKeys }

/-- Pushes a whole sequence of entries. -/
def pushAll (cfg : WriterConfig E) (onValueRef : σ → E → PageRef → Result σ) (entries : List (Bytes × Bytes × E))
    (w : TreeWriter E σ) : Result (TreeWriter E σ) :=
  entries.foldlM (fun w e => push cfg onValueRef e.1 e.2.1 e.2.2 w) w

end TreeWriter

end DryDb
