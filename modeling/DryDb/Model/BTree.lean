import DryDb.Model.Encoding
import DryDb.Model.Store
/-!
# B+Tree search

`btree.rs`. Every page carries an order-preserving digest per entry: a search finds
the rank of the first digest that can match and only then compares keys. A loop of
the source is a recursion on the counter that bounds it there; the cached lookup has
no such counter for all of its moves, so it is one step, iterated.
-/

namespace DryDb

/-- Which entry a leaf search is after. -/
inductive SearchOp where
  /-- The entry equal to the key. -/
  | equal
  /-- The first entry `>= key`. -/
  | lowerBound
  /-- The first entry `> key`. -/
  | upperBound
  deriving DecidableEq, Repr

/-- A single B+Tree, rooted at one page. -/
structure Tree where
  store : PageStore
  root : Option Nat
  encoding : KeyEncoding
  /-- Identifies this tree in the per-page "already checked" marker. -/
  id : Nat := 1
  /-- Whether a page's digests are checked against its keys before it is used. -/
  validateDigests : Bool := true

/-- Sixteen hex digits, as `{:#018x}` prints them. -/
def hex64 (d : UInt64) : String := "0x" ++ hexText (leBytes 8 d.toNat).reverse

/-- Moves an index forward while the comparison there satisfies `p`, over `n` entries. -/
def advanceWhile (cmp : Nat → Result Ordering) (p : Ordering → Bool) : Nat → Nat → Result Nat
  | 0, i => .ok i
  | n + 1, i => do
    let o ← cmp i
    if p o then advanceWhile cmp p n (i + 1) else .ok i

/-- The scan for an equal entry: past the smaller ones, stopping at the first larger. -/
def findEqual (cmp : Nat → Result Ordering) : Nat → Nat → Result (Option Nat)
  | 0, _ => .ok none
  | n + 1, i => do
    match ← cmp i with
    | .eq => .ok (some i)
    | .gt => .ok none
    | .lt => findEqual cmp n (i + 1)

/-- Whether entry `i` is there and compares equal. -/
def equalAt (cmp : Nat → Result Ordering) (count i : Nat) : Result Bool :=
  if i < count then (· == .eq) <$> cmp i else .ok false

/-! ## The in-order walk of a complete tree -/

/-- The leftmost node below `node`; the first argument bounds the number of doublings. -/
def leftmost (complete : Nat) : Nat → Nat → Nat
  | 0, node => node
  | steps + 1, node => if node * 2 ≤ complete then leftmost complete steps (node * 2) else node

/-- The last node on the way up that is not a right child. -/
def climb : Nat → Nat → Nat
  | 0, node => node
  | steps + 1, node => if 1 < node ∧ node % 2 = 1 then climb steps (node / 2) else node

/-- The leftmost node of the right subtree, or the first ancestor `node` is in the left
subtree of. -/
def inorderSuccessor (complete node : Nat) : Option Nat :=
  let right := node * 2 + 1
  if right ≤ complete then some (leftmost complete complete right)
  else
    let top := climb node node
    if top = 1 then none else some (top / 2)

namespace Tree

/-! ## The digest check -/

/-- The key of the `index`-th entry, whichever kind of node this is. -/
def entryKey (view : PageView) (index : Nat) : Result Bytes :=
  match view.kind with
  | .leaf => do
    let entry ← view.leafEntry index
    view.leafKey entry
  | .internal => do
    let entry ← view.internalEntry index
    view.internalKey entry

def digestMismatch (t : Tree) (index : Nat) (key : Bytes) (stored : UInt64) : Result Error := do
  let computed := hex64 (← t.encoding.digest key)
  let stored := hex64 stored
  .ok (.corrupt (s!"entry {index} stores digest {stored} but its key digests to {computed}; " ++
    "searches would skip rows on this page"))

/-- Checks a stored key against the encoding, the way a caller's key is checked. -/
def checkStoredKey (t : Tree) (index : Nat) (key : Bytes) : Result Unit :=
  (t.encoding.validateKey key).mapError fun e =>
    let id := t.encoding.id
    let why := e.text
    .corrupt s!"entry {index} is not a well-formed key of encoding `{id}`: {why}"

def digestOutOfOrder (index : Nat) (previous stored : UInt64) : Error :=
  let how := if stored = previous then "repeats" else "is below"
  let stored := hex64 stored
  let previous := hex64 previous
  .corrupt (s!"entry {index} stores digest {stored}, which {how} the previous entry's {previous}; " ++
    "the search over the digests would skip rows")

def checkAscending (t : Tree) (index : Nat) (previous key : Bytes) : Result Unit := do
  let o ← t.encoding.compare previous key
  if o ≠ .lt then
    let key := describeKey t.encoding key
    let previous := describeKey t.encoding previous
    .error (.corrupt (s!"entry {index} ({key}) does not sort above the previous entry ({previous}); a search " ++
      "stops at the first key above the one it wants, so rows after this one would be unreachable"))
  else .ok ()

/-- The buffer a rebuilt key needs. An encoding that does not say refuses the page. -/
def rebuiltKeyCapacity (t : Tree) : Result Nat :=
  let id := t.encoding.id
  okOr t.encoding.maxRebuiltKeyLen (Error.corrupt
    (s!"page omits key bytes but encoding `{id}` does not say how large a rebuilt key can be; " ++
      "implement `KeyEncoding::max_rebuilt_key_len`"))

def checkAccepted (t : Tree) (index : Nat) (key : Bytes) (stored : UInt64) : Result Unit := do
  let accepted ← t.encoding.acceptsDigest key stored
  if accepted then .ok ()
  else do
    let e ← t.digestMismatch index key stored
    .error e

def checkAfter (t : Tree) (index : Nat) (previousKey : Option Bytes) (key : Bytes) : Result Unit :=
  match previousKey with
  | some previous => t.checkAscending index previous key
  | none => .ok ()

/-- The checks of one stored entry, against its digest and against the key before it. -/
def checkEntry (t : Tree) (view : PageView) (index : Nat) (stored : UInt64) (previousKey : Option Bytes) :
    Result Bytes := do
  let key ← entryKey view index
  t.checkStoredKey index key
  t.checkAccepted index key stored
  t.checkAfter index previousKey key
  .ok key

def checkDigestAfter (strict : Bool) (index : Nat) (previous : Option UInt64) (stored : UInt64) : Result Unit :=
  match previous with
  | some p => if stored < p ∨ (strict = true ∧ stored = p) then .error (digestOutOfOrder index p stored) else .ok ()
  | none => .ok ()

/-- The order check of a page that omits key bytes, over `n` entries from `index` on. -/
def checkOmittedDigests (view : PageView) (strict : Bool) : Nat → Nat → Option UInt64 → Result Unit
  | 0, _, _ => .ok ()
  | n + 1, index, previous => do
    let stored ← view.digestAt index
    checkDigestAfter strict index previous stored
    checkOmittedDigests view strict n (index + 1) (some stored)

/-- The check of a page with keys and sorted digests, over `n` entries from `index` on. -/
def checkSortedDigests (t : Tree) (view : PageView) : Nat → Nat → Option Bytes → Result Unit
  | 0, _, _ => .ok ()
  | n + 1, index, previousKey => do
    let stored ← view.digestAt index
    let key ← t.checkEntry view index stored previousKey
    checkSortedDigests t view n (index + 1) (some key)

/-- What one slot of the Eytzinger walk has to hold: the digest of the entry of its rank,
or the padding the descent treats as larger than any key. -/
def checkSlot (t : Tree) (view : PageView) (node rank : Nat) (previousKey : Option Bytes) :
    Result (Option Bytes) := do
  let stored ← view.digestSlot (node - 1)
  let count := view.entryCount
  if rank < count then some <$> t.checkEntry view rank stored previousKey
  else if stored ≠ u64Max then
    let slot := node - 1
    let stored := hex64 stored
    .error (Error.corrupt (s!"Eytzinger slot {slot} pads past the {count} entries but holds {stored} " ++
      "instead of the sentinel; the descent would take the wrong branch"))
  else .ok previousKey

/-- The walk of the Eytzinger slots in sorted order, which ends with the number of
slots visited. It visits each slot once, so `steps` above the slot count is enough. -/
def checkEytzingerFrom (t : Tree) (view : PageView) (complete : Nat) :
    Nat → Nat → Nat → Option Bytes → Result Nat
  | 0, _, rank, _ => .ok rank
  | steps + 1, node, rank, previousKey => do
    let previousKey ← t.checkSlot view node rank previousKey
    match inorderSuccessor complete node with
    | some next => checkEytzingerFrom t view complete steps next (rank + 1) previousKey
    | none => .ok (rank + 1)

/-- The Eytzinger form of the digest check. -/
def checkEytzingerDigests (t : Tree) (view : PageView) : Result Unit :=
  let complete := view.digestSlotCount
  if complete = 0 then .ok () else do
  let rank ← t.checkEytzingerFrom view complete (complete + 1) (leftmost complete complete 1) 0 none
  if rank ≠ complete then .error (.corrupt s!"Eytzinger traversal visited {rank} of {complete} slots") else .ok ()

/-- Checks that a page is ordered the way a search assumes it is. -/
def checkDigests (t : Tree) (view : PageView) : Result Unit :=
  if view.layout.eytzinger then t.checkEytzingerDigests view
  else if view.layout.omittedKeys then do
    let _ ← t.rebuiltKeyCapacity
    checkOmittedDigests view t.encoding.isDigestExact view.entryCount 0 none
  else t.checkSortedDigests view view.entryCount 0 none

/-! ## Loading pages -/

/-- Runs the digest check on `pin` unless this tree has already run it. -/
def checkPage (t : Tree) (pin : PagePin) : Read Unit :=
  if !t.validateDigests then pure () else do
  if ← Read.digestsCheckedBy t.id pin then pure ()
  else do
    liftM ((t.checkDigests pin.view).mapError fun e => e.atPage pin.ordinal)
    Read.markDigestsChecked t.id pin

/-- Loads a page belonging to this tree, checked. -/
def treePage (t : Tree) (ordinal : Nat) : Read PagePin := do
  let pin ← Read.page ordinal
  t.checkPage pin
  pure pin

/-- The root page, from the pin when there is one. -/
def rootPage (t : Tree) : Read (Option PagePin) :=
  match t.root with
  | none => pure none
  | some root => do
    match ← Read.retainedRoot t.id with
    | some pin => pure (some pin)
    | none => do
      let pin ← t.treePage root
      Read.retainRoot t.id pin
      pure (some pin)

/-- The root page, only if it is already pinned or cached. -/
def rootPageCached (t : Tree) : Read (Option PagePin) := do
  match ← Read.retainedRoot t.id with
  | some pin => pure (some pin)
  | none =>
    match t.root with
    | none => pure none
    | some root => do
      match ← Read.pageCached root with
      | none => pure none
      | some pin => do
        t.checkPage pin
        pure (some pin)

def digestOf (t : Tree) (key : Bytes) : Result UInt64 := t.encoding.digest key

/-! ## Comparing -/

/-- Whether separators on this page can only be compared through their digests. -/
def separatorsAreInexact (t : Tree) (view : PageView) : Bool := view.layout.omittedKeys && !t.encoding.isDigestExact

def compareInternal (t : Tree) (view : PageView) (key : Bytes) (keyDigest : UInt64) (index : Nat) :
    Result Ordering :=
  if view.layout.omittedKeys then do
    let d ← view.digestAt index
    .ok (Ord.compare d keyDigest)
  else do
    let entry ← view.internalEntry index
    let entryKey ← view.internalKey entry
    t.encoding.compare entryKey key

def compareLeaf (t : Tree) (view : PageView) (key : Bytes) (keyDigest : UInt64) (index : Nat) : Result Ordering :=
  if view.layout.omittedKeys then do
    let d ← view.digestAt index
    .ok (Ord.compare d keyDigest)
  else do
    let entry ← view.leafEntry index
    let entryKey ← view.leafKey entry
    t.encoding.compare entryKey key

/-- Index of the child to descend into, and whether the choice was conservative: when
separators are known by their digests only, the last one strictly below the key. -/
def internalChildIndex (t : Tree) (view : PageView) (key : Bytes) (keyDigest : UInt64) : Result (Nat × Bool) := do
  let count := view.entryCount
  let cmp := t.compareInternal view key keyDigest
  let start := min (← view.lowerBoundRank keyDigest) count
  let i ← advanceWhile cmp (· == .lt) (count - start) start
  let isEqual ← equalAt cmp count i
  if t.separatorsAreInexact view then .ok (i - 1, isEqual)
  else if isEqual then .ok (i, false)
  else .ok (i - 1, false)

/-- Resolves `op` inside one leaf page. -/
def leafSearch (t : Tree) (view : PageView) (key : Bytes) (keyDigest : UInt64) (op : SearchOp) :
    Result (Option Nat) := do
  let count := view.entryCount
  let cmp := t.compareLeaf view key keyDigest
  let start := min (← view.lowerBoundRank keyDigest) count
  match op with
  | .equal => findEqual cmp (count - start) start
  | .lowerBound => do
    let i ← advanceWhile cmp (· == .lt) (count - start) start
    .ok (if i < count then some i else none)
  | .upperBound => do
    let i ← advanceWhile cmp (· != .gt) (count - start) start
    .ok (if i < count then some i else none)

/-- Whether every entry on this leaf is below `key`. An empty leaf counts. -/
def endsBelow (t : Tree) (view : PageView) (key : Bytes) (keyDigest : UInt64) : Result Bool :=
  let count := view.entryCount
  if count = 0 then .ok true else do
  let o ← t.compareLeaf view key keyDigest (count - 1)
  .ok (o == .lt)

/-! ## Descending -/

def tooDeep (t : Tree) : Error :=
  let maxDepth := t.store.limits.maxTreeDepth
  .corrupt s!"tree is deeper than the {maxDepth} level limit; the child chain is cyclic"

def noChildren (ordinal : Nat) : Error := (Error.corrupt "internal page has no children").atPage ordinal

def pointsAtItself (ordinal : Nat) : Error := (Error.corrupt "internal page points at itself").atPage ordinal

def cyclicChain : Error :=
  .corrupt "leaf sibling chain visits more pages than the file contains; it is cyclic"

def chainStops (ordinal : Nat) : Error :=
  (Error.corrupt s!"the leaf chain stops at page {ordinal} but the tree does not end there").atPage ordinal

/-- The page a downward loop is on: the root it starts with, or the child it chose. -/
def currentPage (t : Tree) (ordinal : Nat) (current : Option PagePin) : Read PagePin :=
  match current with
  | some pin => pure pin
  | none => t.treePage ordinal

/-- The child a downward loop goes to from an internal page, and whether the choice was
conservative. -/
def chooseChild (t : Tree) (key : Bytes) (keyDigest : UInt64) (ordinal : Nat) (view : PageView) :
    Result (Nat × Bool) :=
  if view.entryCount = 0 then .error (noChildren ordinal) else do
  let (index, inexact) ← t.internalChildIndex view key keyDigest
  let entry ← view.internalEntry index
  if entry.child = ordinal then .error (pointsAtItself ordinal) else .ok (entry.child, inexact)

/-- The descent loop, with `depth` levels left. -/
def descendFrom (t : Tree) (key : Bytes) (keyDigest : UInt64) :
    Nat → Nat → Option PagePin → Bool → Read (PagePin × Bool)
  | 0, _, _, _ => .fail t.tooDeep
  | depth + 1, ordinal, current, conservative => do
    let pin ← t.currentPage ordinal current
    match pin.view.kind with
    | .leaf => pure (pin, conservative)
    | .internal => do
      let (child, inexact) ← t.chooseChild key keyDigest ordinal pin.view
      descendFrom t key keyDigest depth child none (conservative || inexact)

/-- Walks from the root to the leaf that could hold `key`. The flag says the descent had
to settle for a child that starts strictly below the key. -/
def descend (t : Tree) (key : Bytes) (keyDigest : UInt64) : Read (Option (PagePin × Bool)) := do
  match ← t.rootPage with
  | none => pure none
  | some root => do
    let found ← t.descendFrom key keyDigest t.store.limits.maxTreeDepth root.ordinal (some root) false
    pure (some found)

/-- The first or last child of an internal page. -/
def edgeChild (leftmost : Bool) (ordinal : Nat) (view : PageView) : Result Nat :=
  if view.entryCount = 0 then .error (noChildren ordinal) else do
  let entry ← view.internalEntry (if leftmost then 0 else view.entryCount - 1)
  if entry.child = ordinal then .error (pointsAtItself ordinal) else .ok entry.child

/-- The walk to the first or last leaf, with `depth` levels left. -/
def edgeLeafFrom (t : Tree) (leftmost : Bool) : Nat → Nat → Option PagePin → Read (Option (PagePin × Nat))
  | 0, _, _ => .fail t.tooDeep
  | depth + 1, ordinal, current => do
    let pin ← t.currentPage ordinal current
    match pin.view.kind with
    | .leaf =>
      let count := pin.view.entryCount
      if count = 0 then pure none else pure (some (pin, if leftmost then 0 else count - 1))
    | .internal => do
      let child ← edgeChild leftmost ordinal pin.view
      edgeLeafFrom t leftmost depth child none

def edgeLeaf (t : Tree) (leftmost : Bool) : Read (Option (PagePin × Nat)) := do
  match ← t.rootPage with
  | none => pure none
  | some root => t.edgeLeafFrom leftmost t.store.limits.maxTreeDepth root.ordinal (some root)

/-- The leftmost leaf entry, or `none` for an empty tree. -/
def minLeaf (t : Tree) : Read (Option (PagePin × Nat)) := t.edgeLeaf true

/-- The rightmost leaf entry, or `none` for an empty tree. -/
def maxLeaf (t : Tree) : Read (Option (PagePin × Nat)) := t.edgeLeaf false

/-- Whether `ordinal` is the leaf the chain ends at, going this way. -/
def endsAt (t : Tree) (ordinal : Nat) (ascending : Bool) : Read Bool := do
  let edge ← t.edgeLeaf (!ascending)
  match edge with
  | some (pin, _) => pure (pin.ordinal == ordinal)
  | none => pure true

/-- Loads a sibling leaf, checking that it really is a leaf. -/
def leafPage (t : Tree) (ordinal : Nat) : Read PagePin := do
  let pin ← t.treePage ordinal
  if pin.view.kind ≠ .leaf then
    .fail ((Error.corrupt "leaf sibling chain points at an internal page").atPage ordinal)
  else pure pin

/-- Steps from one leaf to the next along the chain, checking that the page stepped into
points back at the one stepped from. -/
def stepSibling (t : Tree) (source target : Nat) (ascending : Bool) : Read PagePin := do
  let pin ← t.leafPage target
  let back := if ascending then pin.view.leftSibling else pin.view.rightSibling
  if back ≠ some source then
    .fail ((Error.corrupt
      s!"leaf page {target} does not point back at page {source}, so the chain skips a page").atPage target)
  else pure pin

/-! ## Searching -/

/-- Whether the search is over on a leaf that holds no answer: an exact search goes on
only when its descent was conservative and the leaf ends below the key. -/
def stopsHere (t : Tree) (view : PageView) (key : Bytes) (keyDigest : UInt64) (op : SearchOp)
    (conservative : Bool) : Result Bool :=
  if op = .equal then
    if conservative then do
      let below ← t.endsBelow view key keyDigest
      .ok (!below)
    else .ok true
  else .ok false

/-- The rightward walk of a search. -/
def searchFrom (t : Tree) (key : Bytes) (keyDigest : UInt64) (op : SearchOp) (conservative : Bool)
    (stepsLeft : Nat) (pin : PagePin) : Read (Option (PagePin × Nat)) := do
  match ← t.leafSearch pin.view key keyDigest op with
  | some index => pure (some (pin, index))
  | none =>
    if ← t.stopsHere pin.view key keyDigest op conservative then pure none
    else
      match pin.view.rightSibling with
      | none => do
        if ← t.endsAt pin.ordinal true then pure none else .fail (chainStops pin.ordinal)
      | some right =>
        match stepsLeft with
        | 0 => .fail cyclicChain
        | steps + 1 => do
          let next ← t.stepSibling pin.ordinal right true
          searchFrom t key keyDigest op conservative steps next

/-- Descends and resolves `op`, walking right when the bound is not satisfied on the leaf
the descent reached. -/
def search (t : Tree) (key : Bytes) (op : SearchOp) : Read (Option (PagePin × Nat)) := do
  let keyDigest ← t.digestOf key
  match ← t.descend key keyDigest with
  | none => pure none
  | some (pin, conservative) => t.searchFrom key keyDigest op conservative (t.store.pageCount + 1) pin

/-- Point lookup. -/
def find (t : Tree) (key : Bytes) : Read (Option (PagePin × Nat)) := t.search key .equal

/-! ## The cached lookup -/

/-- The variables of the cached lookup's loop. -/
structure CachedWalk where
  ordinal : Nat
  current : Option PagePin
  conservative : Bool
  stepsLeft : Nat
  depthLeft : Nat
  descending : Bool

/-- What a cached lookup found: `none` when a page on the path is not cached. -/
abbrev CachedFind := Option (Option (PagePin × Nat))

/-- The page of the next turn, only if it is cached. -/
def currentCached (t : Tree) (w : CachedWalk) : Read (Option PagePin) :=
  match w.current with
  | some pin => pure (some pin)
  | none => do
    match ← Read.pageCached w.ordinal with
    | none => pure none
    | some pin => do
      t.checkPage pin
      pure (some pin)

/-- What one turn of the loop does on the page it has. -/
def cachedTurnOn (t : Tree) (key : Bytes) (keyDigest : UInt64) (w : CachedWalk) (pin : PagePin) :
    Result (CachedWalk ⊕ CachedFind) :=
  match pin.view.kind with
  | .leaf => do
    match ← t.leafSearch pin.view key keyDigest .equal with
    | some index => .ok (.inr (some (some (pin, index))))
    | none =>
      let stops ← t.stopsHere pin.view key keyDigest .equal w.conservative
      if stops then .ok (.inr (some none))
      else
        match pin.view.rightSibling with
        | none => .ok (.inr (some none))
        | some right =>
          match w.stepsLeft with
          | 0 => .error cyclicChain
          | steps + 1 =>
            .ok (.inl { w with ordinal := right, current := none, stepsLeft := steps, descending := false })
  | .internal => do
    let (child, inexact) ← t.chooseChild key keyDigest w.ordinal pin.view
    .ok (.inl { w with ordinal := child, current := none, conservative := w.conservative || inexact })

/-- One turn of the loop. Only the way down counts against the depth. -/
def cachedTurn (t : Tree) (key : Bytes) (keyDigest : UInt64) (w : CachedWalk) : Read (CachedWalk ⊕ CachedFind) :=
  if w.descending = true ∧ w.depthLeft = 0 then .fail t.tooDeep else do
  let w := if w.descending then { w with depthLeft := w.depthLeft - 1 } else w
  match ← t.currentCached w with
  | none => pure (.inr none)
  | some pin => t.cachedTurnOn key keyDigest w pin

/-- At most `turns` turns of the loop; `none` when it is still going. -/
def cachedTurns (t : Tree) (key : Bytes) (keyDigest : UInt64) : Nat → CachedWalk → Read (Option CachedFind)
  | 0, _ => pure none
  | turns + 1, w => do
    match ← t.cachedTurn key keyDigest w with
    | .inl next => cachedTurns t key keyDigest turns next
    | .inr found => pure (some found)

/-- The walk a cached lookup starts with. -/
def cachedStart (t : Tree) (root : PagePin) : CachedWalk where
  ordinal := root.ordinal
  current := some root
  conservative := false
  stepsLeft := t.store.pageCount + 1
  depthLeft := t.store.limits.maxTreeDepth
  descending := true

/-- Point lookup against cached pages only, for at most `turns` turns of its loop. -/
def findCached (t : Tree) (key : Bytes) (turns : Nat) : Read (Option CachedFind) :=
  if t.root.isNone then pure (some (some none)) else do
  let keyDigest ← t.digestOf key
  match ← t.rootPageCached with
  | none => pure (some none)
  | some root => t.cachedTurns key keyDigest turns (t.cachedStart root)

/-! ## Rebuilt keys and values -/

/-- The key of a leaf entry on a page that omits key bytes; `none` where the key is read
straight from the page. -/
def rebuildKey (t : Tree) (view : PageView) (index : Nat) : Result (Option Bytes) :=
  if !view.layout.omittedKeys then .ok none else do
  let digest ← view.digestAt index
  let key ← (t.encoding.decodeKeyFromDigest digest).mapError fun e =>
    let id := t.encoding.id
    let why := e.text
    .corrupt s!"page omits key bytes and encoding `{id}` cannot rebuild them: {why}"
  .ok (some key)

end Tree

/-- Resolves a leaf entry's value into a page pin plus a byte range. -/
def resolveValue (leaf : PagePin) (entry : LeafEntry) : Read (PagePin × Nat × Nat) :=
  match entry.value with
  | .inline offset len => pure (leaf, offset, offset + len)
  | .overflow page => Read.blob page

/-- The same, but only if every page it needs is already cached. -/
def resolveValueCached (leaf : PagePin) (entry : LeafEntry) : Read (Option (PagePin × Nat × Nat)) :=
  match entry.value with
  | .inline offset len => pure (some (leaf, offset, offset + len))
  | .overflow page => do
    match ← Read.pageCached page with
    | none => pure none
    | some pin => do
      let found ← blobFromPin pin
      pure (some found)

end DryDb
