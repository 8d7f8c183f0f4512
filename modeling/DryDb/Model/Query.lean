import DryDb.Model.BTree
/-!
# Cursors, ranges and counting

`query.rs`. A cursor is its state; every operation returns the next state beside its
result, because a failed `advance` still leaves a cursor behind. The position part of
a failed step is put back, the key buffer it may have grown is kept.
-/

namespace DryDb

/-- Iteration order. -/
inductive Order where
  | ascending
  | descending
  deriving DecidableEq, Repr

/-- One end of a range. -/
inductive Bound where
  | unbounded
  | included (key : Bytes)
  | excluded (key : Bytes)
  deriving DecidableEq, Repr

def Bound.key : Bound → Option Bytes
  | unbounded => none
  | included k => some k
  | excluded k => some k

/-- A pair of bounds over encoded keys. -/
structure KeyRange where
  lower : Bound
  upper : Bound
  /-- Whether the range selects nothing whatever the bounds say. -/
  empty : Bool := false
  deriving DecidableEq, Repr

namespace KeyRange

/-- Every key. -/
def all : KeyRange := { lower := .unbounded, upper := .unbounded }

/-- No keys at all. -/
def none : KeyRange := { lower := .excluded [], upper := .unbounded, empty := true }

end KeyRange

/-- What every buffer is charged on top of its bytes. -/
def bufferOverhead : Nat := 192

/-- What an owned copy of one bound costs, with `extra` bytes the caller will append. -/
def boundCost (b : Bound) (extra : Nat) : Nat :=
  match b.key with
  | none => 0
  | some k => k.length + extra + bufferOverhead

/-- Reserves what owned copies of these bounds will cost, before they are made. -/
def reserveBounds (lower upper : Bound) (extra : Nat) : Read Unit :=
  Read.reserve (boundCost lower extra + boundCost upper extra)

/-! ## Key buffers -/

/-- A small buffer a cursor keeps, with what has been reserved for it. -/
structure KeyBuffer where
  contents : Bytes := []
  capacity : Nat := 0
  charged : Nat := 0

/-- Grows a charge until it covers `bytes` plus one allocation header. -/
def chargeAtLeast (charged bytes : Nat) : Read Nat :=
  let wanted := bytes + bufferOverhead
  if wanted ≤ charged then pure charged
  else do
    Read.reserve (wanted - charged)
    pure wanted

/-- Makes room for `len` bytes, reserving what that costs first. The allocator is taken
to hand back what was asked for, so the charge is reconciled at once. -/
def KeyBuffer.charge (b : KeyBuffer) (len : Nat) : Read KeyBuffer :=
  if len ≤ b.capacity then pure b
  else do
    let charged ← chargeAtLeast b.charged len
    pure { contents := [], capacity := len, charged }

/-! ## The cursor -/

/-- Where the current entry's key bytes live. -/
inductive KeySource where
  | page (offset len : Nat)
  /-- Rebuilt from an exact digest into the cursor's own buffer. -/
  | rebuilt
  deriving DecidableEq, Repr

structure Materialized where
  key : KeySource
  start : Nat
  stop : Nat
  valueOnBlob : Bool

/-- Everything that says where a cursor stands. -/
structure Position where
  page : Option PagePin := none
  index : Nat := 0
  /-- Ascending: one past the last index to emit on this leaf.
  Descending: the lowest index to emit on this leaf. -/
  leafLimit : Nat := 0
  /-- Whether the far bound was found on this leaf, ending the scan here. -/
  leafEndsScan : Bool := false
  started : Bool := false
  finished : Bool := false
  pageStepsLeft : Nat

/-- A cursor over one B+Tree. -/
structure Cursor extends Position where
  tree : Tree
  order : Order
  range : KeyRange
  current : Option Materialized := none
  keyBuf : KeyBuffer := {}
  blob : Option PagePin := none

def validateBound (enc : KeyEncoding) (b : Bound) : Result Unit :=
  match b.key with
  | some k => enc.validateKey k
  | none => .ok ()

/-- The checks made before a cursor or a count touches the tree. -/
def validateBounds (enc : KeyEncoding) (lower upper : Bound) : Result Unit := do
  validateBound enc lower
  validateBound enc upper

def checkOrder (enc : KeyEncoding) (lower upper : Bound) : Result Unit :=
  match lower.key, upper.key with
  | some lo, some hi => do
    let o ← enc.compare lo hi
    if o = .gt then .error (.invalid "range lower bound sorts above its upper bound") else .ok ()
  | _, _ => .ok ()

/-- The first entry that satisfies a lower bound. -/
def lowerStart (tree : Tree) (lower : Bound) : Read (Option (PagePin × Nat)) :=
  match lower with
  | .unbounded => tree.minLeaf
  | .included k => tree.search k .lowerBound
  | .excluded k => tree.search k .upperBound

namespace Cursor

/-- A cursor at the start of its range. Prefix bounds are not validated as keys. -/
def build (tree : Tree) (range : KeyRange) (order : Order) (validate : Bool) : Result Cursor :=
  if range.empty then .ok { tree, order, range, started := true, finished := true, pageStepsLeft := 0 } else do
  if validate then validateBounds tree.encoding range.lower range.upper else .ok ()
  checkOrder tree.encoding range.lower range.upper
  .ok { tree, order, range, pageStepsLeft := tree.store.pageCount + 1 }

def new (tree : Tree) (range : KeyRange) (order : Order) : Result Cursor := build tree range order true

/-- A cursor whose bounds are byte prefixes rather than keys. -/
def forPrefix (tree : Tree) (range : KeyRange) (order : Order) : Result Cursor := build tree range order false

def restore (c : Cursor) (saved : Position) : Cursor := { c with toPosition := saved, current := none, blob := none }

def finish (c : Cursor) : Cursor := { c with finished := true, page := none, current := none, blob := none }

def leafSearch (c : Cursor) (view : PageView) (key : Bytes) (op : SearchOp) : Result (Option Nat) := do
  let digest ← c.tree.digestOf key
  c.tree.leafSearch view key digest op

/-- The window of an ascending cursor on one leaf: the far bound, and whether it is here. -/
def ascendingWindow (c : Cursor) (view : PageView) : Result (Nat × Bool) :=
  let count := view.entryCount
  let resolve (key : Bytes) (op : SearchOp) : Result (Nat × Bool) := do
    match ← c.leafSearch view key op with
    | some index => .ok (index, true)
    | none => .ok (count, false)
  match c.range.upper with
  | .unbounded => .ok (count, false)
  | .included k => resolve k .upperBound
  | .excluded k => resolve k .lowerBound

/-- The window of a descending cursor. Reaching index 0 means the left sibling may hold
more; finding nothing means every entry here sorts below the lower bound. -/
def descendingWindow (c : Cursor) (view : PageView) : Result (Nat × Bool) :=
  let count := view.entryCount
  let resolve (key : Bytes) (op : SearchOp) : Result (Nat × Bool) := do
    match ← c.leafSearch view key op with
    | some index => .ok (index, decide (0 < index))
    | none => .ok (count, true)
  match c.range.lower with
  | .unbounded => .ok (0, false)
  | .included k => resolve k .lowerBound
  | .excluded k => resolve k .upperBound

def window (c : Cursor) (view : PageView) : Result (Nat × Bool) :=
  match c.order with
  | .ascending => c.ascendingWindow view
  | .descending => c.descendingWindow view

/-- Resolves the far bound inside the current leaf, exactly once per page. -/
def recomputeLeafBounds (c : Cursor) : Result Cursor :=
  match c.page with
  | none => .ok c
  | some page => do
    let (limit, ends) ← c.window page.view
    .ok { c with leafLimit := limit, leafEndsScan := ends }

/-- Moves to the adjacent leaf, honouring the "the bound ended here" flag. -/
def nextPage (c : Cursor) : Read (Bool × Cursor) :=
  if c.leafEndsScan then pure (false, c) else
  match c.pageStepsLeft with
  | 0 => .fail Tree.cyclicChain
  | steps + 1 =>
    let c := { c with pageStepsLeft := steps }
    match c.page with
    | none => pure (false, c)
    | some page => do
      let ascending := c.order == .ascending
      let sibling := if ascending then page.view.rightSibling else page.view.leftSibling
      match sibling with
      | none => do
        if ← c.tree.endsAt page.ordinal ascending then pure (false, c)
        else .fail (Tree.chainStops page.ordinal)
      | some sibling => do
        let pin ← c.tree.stepSibling page.ordinal sibling ascending
        let index := if ascending then 0 else pin.view.entryCount - 1
        let c ← recomputeLeafBounds { c with page := some pin, index }
        pure (true, c)

/-- Whether `index` is inside the emit window of its leaf. -/
def inWindow (c : Cursor) (page : PagePin) : Bool :=
  let count := page.view.entryCount
  match c.order with
  | .ascending => decide (c.index < min c.leafLimit count)
  | .descending => decide (0 < count ∧ c.leafLimit ≤ c.index ∧ c.index < count)

/-- Walks on until `index` is inside the emit window. Every turn spends one of the page
steps the cursor has left. -/
def skipToValid : Nat → Cursor → Read (Bool × Cursor)
  | steps, c =>
    match c.page with
    | none => pure (false, c)
    | some page =>
      if c.inWindow page then pure (true, c)
      else do
        let (more, c) ← c.nextPage
        if !more then pure (false, c)
        else
          match steps with
          | 0 => .fail Tree.cyclicChain
          | steps + 1 => skipToValid steps c

/-- The leftward walk from a leaf the upper bound starts: to the last entry of the
nearest leaf to the left that holds one. -/
def leftward (tree : Tree) (stepsLeft : Nat) (pin : PagePin) : Read (Option (PagePin × Nat)) :=
  match pin.view.leftSibling with
  | none => do
    if ← tree.endsAt pin.ordinal false then pure none else .fail (Tree.chainStops pin.ordinal)
  | some left =>
    match stepsLeft with
    | 0 => .fail Tree.cyclicChain
    | steps + 1 => do
      let pin ← tree.stepSibling pin.ordinal left false
      let count := pin.view.entryCount
      if 0 < count then pure (some (pin, count - 1)) else leftward tree steps pin

/-- The entry just before the upper bound. -/
def descendingStart (tree : Tree) (key : Bytes) (op : SearchOp) : Read (Option (PagePin × Nat)) := do
  match ← tree.search key op with
  | none => tree.maxLeaf
  | some (pin, index) =>
    if 0 < index then pure (some (pin, index - 1)) else leftward tree (tree.store.pageCount + 1) pin

/-- The last entry that satisfies an upper bound. -/
def upperStart (tree : Tree) (upper : Bound) : Read (Option (PagePin × Nat)) :=
  match upper with
  | .unbounded => tree.maxLeaf
  | .included k => descendingStart tree k .upperBound
  | .excluded k => descendingStart tree k .lowerBound

/-- The entry a scan starts from. -/
def firstEntry (c : Cursor) : Read (Option (PagePin × Nat)) :=
  match c.order with
  | .ascending => lowerStart c.tree c.range.lower
  | .descending => upperStart c.tree c.range.upper

def seekFirst (c : Cursor) : Read (Bool × Cursor) := do
  match ← c.firstEntry with
  | none => pure (false, c)
  | some (pin, index) => do
    let c ← recomputeLeafBounds { c with page := some pin, index }
    skipToValid c.pageStepsLeft c

/-- The move within one leaf, when there is one. -/
def stepInside (c : Cursor) : Option Cursor :=
  match c.order with
  | .ascending => if c.index + 1 < c.leafLimit then some { c with index := c.index + 1 } else none
  | .descending => if c.leafLimit < c.index then some { c with index := c.index - 1 } else none

def step (c : Cursor) : Read (Bool × Cursor) :=
  match c.stepInside with
  | some c => pure (true, c)
  | none => do
    let (more, c) ← c.nextPage
    if !more then pure (false, c) else skipToValid c.pageStepsLeft c

/-! ## Reading the entry -/

/-- The key of the entry, rebuilt into the key buffer where the page omits it. The buffer
comes back also when the rebuild fails. -/
def readKey (c : Cursor) (page : PagePin) (entry : LeafEntry) : Read (KeyBuffer × Result KeySource) :=
  if !page.view.layout.omittedKeys then pure (c.keyBuf, .ok (.page entry.keyOffset entry.keyLen)) else
  match c.tree.rebuiltKeyCapacity with
  | .error e => pure (c.keyBuf, .error e)
  | .ok capacity => do
    match ← (c.keyBuf.charge capacity).attempt with
    | .error e => pure (c.keyBuf, .error e)
    | .ok buf =>
      match c.tree.rebuildKey page.view c.index with
      | .error e => pure (buf, .error e)
      | .ok none => pure (buf, .ok (.page entry.keyOffset entry.keyLen))
      | .ok (some key) => do
        let capacity := max buf.capacity key.length
        -- The backstop for an encoding that wrote more than it said it would.
        match ← (chargeAtLeast buf.charged capacity).attempt with
        | .error e => pure ({ contents := [], capacity := 0, charged := buf.charged }, .error e)
        | .ok charged => pure ({ contents := key, capacity, charged }, .ok .rebuilt)

/-- Where the value of the entry is: on the leaf, or on a blob page of its own. -/
def readValue (entry : LeafEntry) : Read (Nat × Nat × Option PagePin) :=
  match entry.value with
  | .inline offset len => pure (offset, offset + len, none)
  | .overflow page => do
    let (pin, start, stop) ← Read.blob page
    pure (start, stop, some pin)

/-- Reads the entry the cursor is on. -/
def materialize (c : Cursor) : Read (Cursor × Result Unit) :=
  match c.page with
  | none => pure (c, .error (.corrupt "cursor lost its page"))
  | some page =>
    match page.view.leafEntry c.index with
    | .error e => pure (c, .error e)
    | .ok entry => do
      let (keyBuf, key) ← c.readKey page entry
      let c := { c with keyBuf }
      match key with
      | .error e => pure (c, .error e)
      | .ok key => do
        match ← (readValue entry).attempt with
        | .error e => pure (c, .error e)
        | .ok (start, stop, blob) =>
          let current := some { key, start, stop, valueOnBlob := blob.isSome }
          pure ({ c with current, blob := blob.or c.blob }, .ok ())

def stepAndRead (c : Cursor) : Read (Cursor × Result Bool) := do
  let move := if c.started then c.step else seekFirst { c with started := true }
  match ← move.attempt with
  | .error e => pure (c, .error e)
  | .ok (false, c) => pure (c.finish, .ok false)
  | .ok (true, c) => do
    let (c, read) ← c.materialize
    pure (c, read.map fun _ => true)

/-- Moves to the next entry, `false` once the range is exhausted. A step that fails puts
the position back. -/
def advance (c : Cursor) : Read (Cursor × Result Bool) :=
  let c := { c with current := none, blob := none }
  if c.finished then pure (c, .ok false) else do
  let (moved, result) ← c.stepAndRead
  match result with
  | .ok more => pure (moved, .ok more)
  | .error e => pure (moved.restore c.toPosition, .error e)

/-- The entry the cursor is on, as key bytes and value bytes. -/
def currentRow (c : Cursor) : Option (Bytes × Bytes) := do
  let current ← c.current
  let page ← c.page
  let key := match current.key with
    | .page offset len => (page.bytes.drop offset).take len
    | .rebuilt => c.keyBuf.contents
  let pin ← if current.valueOnBlob then c.blob else some page
  some (key, (pin.bytes.drop current.start).take (current.stop - current.start))

end Cursor

/-! ## Counting -/

/-- The far bound of a count, as the search that finds it. -/
def endOp : Bound → Option (SearchOp × Bytes)
  | .unbounded => none
  | .included k => some (.upperBound, k)
  | .excluded k => some (.lowerBound, k)

/-- Where the far bound lies on one leaf, if it does. -/
def boundIndex (tree : Tree) (view : PageView) (upper : Bound) : Result (Option Nat) :=
  match endOp upper with
  | none => .ok none
  | some (op, key) => do
    let digest ← tree.digestOf key
    tree.leafSearch view key digest op

/-- The counting walk over the leaf chain. -/
def countFrom (tree : Tree) (upper : Bound) (stepsLeft : Nat) (page : PagePin) (index count : Nat) : Read Nat := do
  match ← boundIndex tree page.view upper with
  | some bound => pure (count + (bound - index))
  | none =>
    let count := count + (page.view.entryCount - index)
    match page.view.rightSibling with
    | none => do
      if ← tree.endsAt page.ordinal true then pure count else .fail (Tree.chainStops page.ordinal)
    | some right =>
      match stepsLeft with
      | 0 => .fail Tree.cyclicChain
      | steps + 1 => do
        let next ← tree.stepSibling page.ordinal right true
        countFrom tree upper steps next 0 count

/-- Counts entries in a range without reading any value. -/
def countRange (tree : Tree) (lower upper : Bound) : Read Nat := do
  validateBounds tree.encoding lower upper
  checkOrder tree.encoding lower upper
  let start ← lowerStart tree lower
  match start with
  | none => pure 0
  | some (page, index) => countFrom tree upper (tree.store.pageCount + 1) page index 0

/-! ## Prefixes -/

/-- Turns a byte prefix into a half-open key range: the upper end is the prefix without
its trailing `0xFF` bytes, its last byte incremented. -/
def prefixRange (bytes : Bytes) : KeyRange :=
  if bytes = [] then .all else
  match (bytes.reverse.dropWhile (· == 0xFF)) with
  | [] => { lower := .included bytes, upper := .unbounded }
  | last :: rest => { lower := .included bytes, upper := .excluded (rest.reverse ++ [last + 1]) }

end DryDb
