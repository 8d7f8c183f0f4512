import DryDb.Lib.Runs
import DryDb.Model.Db
/-!
# Page buffers and the marks on them

The read path of `btree.rs` and `query.rs` once more, now with the identity of the page buffers
(`page.rs`): a page that is evicted and read again is another buffer, and the mark of the digest
check stands on the buffer. Two questions are not the source's: `passed` records that a tree's
check succeeded on a buffer, `uses` that a tree is about to compare or walk the entries of one.

`BufferStep` runs any number of these calls at once, over any number of trees that share a store.
-/

namespace DryDb

theorem PagePin.eq_of_bytes {p q : PagePin} (ho : p.ordinal = q.ordinal) (hb : p.bytes = q.bytes) : p = q := by
  have hp := PagePin.new_eq_ok.2 (⟨rfl, rfl⟩ : p.ordinal = p.ordinal ∧ p.bytes = p.bytes)
  have hq := PagePin.new_eq_ok.2 (⟨rfl, rfl⟩ : q.ordinal = q.ordinal ∧ q.bytes = q.bytes)
  rw [ho, hb, hq] at hp
  exact (Except.ok.inj hp).symm

instance : DecidableEq PagePin := fun p q =>
  decidable_of_iff (p.ordinal = q.ordinal ∧ p.bytes = q.bytes)
    ⟨fun h => PagePin.eq_of_bytes h.1 h.2, fun h => h ▸ ⟨rfl, rfl⟩⟩

/-- A page in memory, and which buffer holds it. -/
structure PageBuffer where
  id : Nat
  pin : PagePin
  deriving DecidableEq

inductive WalkOp where
  | page (ordinal : Nat)
  | pageCached (ordinal : Nat)
  | retainedRoot (tree : Nat)
  | retainRoot (tree : Nat) (b : PageBuffer)
  | reserve (bytes : Nat)
  | digestsCheckedBy (tree : Nat) (b : PageBuffer)
  | markDigestsChecked (tree : Nat) (b : PageBuffer)
  /-- The check of this tree has succeeded on the buffer. -/
  | passed (tree : Nat) (b : PageBuffer)
  /-- This tree compares or walks the entries of the buffer. -/
  | uses (tree : Nat) (b : PageBuffer)

abbrev WalkOp.Answer : WalkOp → Type
  | .page _ => Result PageBuffer
  | .pageCached _ => Option PageBuffer
  | .retainedRoot _ => Option PageBuffer
  | .retainRoot _ _ => Unit
  | .reserve _ => Result Unit
  | .digestsCheckedBy _ _ => Bool
  | .markDigestsChecked _ _ => Unit
  | .passed _ _ => Unit
  | .uses _ _ => Unit

/-- Code on the read path that holds buffers. -/
abbrev Walk (α : Type) := Program WalkOp WalkOp.Answer Error α

namespace Walk

def page (ordinal : Nat) : Walk PageBuffer := do
  let r ← Program.question (WalkOp.page ordinal)
  liftM r

def pageCached (ordinal : Nat) : Walk (Option PageBuffer) := Program.question (WalkOp.pageCached ordinal)

def retainedRoot (tree : Nat) : Walk (Option PageBuffer) := Program.question (WalkOp.retainedRoot tree)

def retainRoot (tree : Nat) (b : PageBuffer) : Walk Unit := Program.question (WalkOp.retainRoot tree b)

def reserve (bytes : Nat) : Walk Unit := do
  let r ← Program.question (WalkOp.reserve bytes)
  liftM r

def digestsCheckedBy (tree : Nat) (b : PageBuffer) : Walk Bool := Program.question (WalkOp.digestsCheckedBy tree b)

def markDigestsChecked (tree : Nat) (b : PageBuffer) : Walk Unit :=
  Program.question (WalkOp.markDigestsChecked tree b)

def passed (tree : Nat) (b : PageBuffer) : Walk Unit := Program.question (WalkOp.passed tree b)

def uses (tree : Nat) (b : PageBuffer) : Walk Unit := Program.question (WalkOp.uses tree b)

def blob (ordinal : Nat) : Walk (PagePin × Nat × Nat) := do
  let b ← page ordinal
  blobFromPin b.pin

end Walk

/-! ## Trees -/

namespace Buffered

section
variable (t : Tree)

/-- Runs the digest check on a buffer unless this tree has already run it. -/
def checkPage (b : PageBuffer) : Walk Unit :=
  if !t.validateDigests then pure () else do
  if ← Walk.digestsCheckedBy t.id b then pure ()
  else do
    liftM ((t.checkDigests b.pin.view).mapError fun e => e.atPage b.pin.ordinal)
    Walk.passed t.id b
    Walk.markDigestsChecked t.id b

def treePage (ordinal : Nat) : Walk PageBuffer := do
  let b ← Walk.page ordinal
  checkPage t b
  pure b

def rootPage : Walk (Option PageBuffer) :=
  match t.root with
  | none => pure none
  | some root => do
    match ← Walk.retainedRoot t.id with
    | some b => pure (some b)
    | none => do
      let b ← treePage t root
      Walk.retainRoot t.id b
      pure (some b)

def rootPageCached : Walk (Option PageBuffer) := do
  match ← Walk.retainedRoot t.id with
  | some b => pure (some b)
  | none =>
    match t.root with
    | none => pure none
    | some root => do
      match ← Walk.pageCached root with
      | none => pure none
      | some b => do
        checkPage t b
        pure (some b)

def currentPage (ordinal : Nat) (current : Option PageBuffer) : Walk PageBuffer :=
  match current with
  | some b => pure b
  | none => treePage t ordinal

def descendFrom (key : Bytes) (keyDigest : UInt64) :
    Nat → Nat → Option PageBuffer → Bool → Walk (PageBuffer × Bool)
  | 0, _, _, _ => .fail t.tooDeep
  | depth + 1, ordinal, current, conservative => do
    let b ← currentPage t ordinal current
    match b.pin.view.kind with
    | .leaf => pure (b, conservative)
    | .internal => do
      Walk.uses t.id b
      let (child, inexact) ← t.chooseChild key keyDigest ordinal b.pin.view
      descendFrom key keyDigest depth child none (conservative || inexact)

def descend (key : Bytes) (keyDigest : UInt64) : Walk (Option (PageBuffer × Bool)) := do
  match ← rootPage t with
  | none => pure none
  | some root => do
    let found ← descendFrom t key keyDigest t.store.limits.maxTreeDepth root.pin.ordinal (some root) false
    pure (some found)

def edgeLeafFrom (leftmost : Bool) : Nat → Nat → Option PageBuffer → Walk (Option (PageBuffer × Nat))
  | 0, _, _ => .fail t.tooDeep
  | depth + 1, ordinal, current => do
    let b ← currentPage t ordinal current
    match b.pin.view.kind with
    | .leaf =>
      let count := b.pin.view.entryCount
      if count = 0 then pure none else pure (some (b, if leftmost then 0 else count - 1))
    | .internal => do
      Walk.uses t.id b
      let child ← Tree.edgeChild leftmost ordinal b.pin.view
      edgeLeafFrom leftmost depth child none

def edgeLeaf (leftmost : Bool) : Walk (Option (PageBuffer × Nat)) := do
  match ← rootPage t with
  | none => pure none
  | some root => edgeLeafFrom t leftmost t.store.limits.maxTreeDepth root.pin.ordinal (some root)

def minLeaf : Walk (Option (PageBuffer × Nat)) := edgeLeaf t true

def maxLeaf : Walk (Option (PageBuffer × Nat)) := edgeLeaf t false

def endsAt (ordinal : Nat) (ascending : Bool) : Walk Bool := do
  let edge ← edgeLeaf t (!ascending)
  match edge with
  | some (b, _) => pure (b.pin.ordinal == ordinal)
  | none => pure true

def leafPage (ordinal : Nat) : Walk PageBuffer := do
  let b ← treePage t ordinal
  if b.pin.view.kind ≠ .leaf then
    .fail ((Error.corrupt "leaf sibling chain points at an internal page").atPage ordinal)
  else pure b

def stepSibling (source target : Nat) (ascending : Bool) : Walk PageBuffer := do
  let b ← leafPage t target
  let back := if ascending then b.pin.view.leftSibling else b.pin.view.rightSibling
  if back ≠ some source then
    .fail ((Error.corrupt
      s!"leaf page {target} does not point back at page {source}, so the chain skips a page").atPage target)
  else pure b

def searchFrom (key : Bytes) (keyDigest : UInt64) (op : SearchOp) (conservative : Bool) (stepsLeft : Nat)
    (b : PageBuffer) : Walk (Option (PageBuffer × Nat)) := do
  Walk.uses t.id b
  match ← t.leafSearch b.pin.view key keyDigest op with
  | some index => pure (some (b, index))
  | none =>
    if ← t.stopsHere b.pin.view key keyDigest op conservative then pure none
    else
      match b.pin.view.rightSibling with
      | none => do
        if ← endsAt t b.pin.ordinal true then pure none else .fail (Tree.chainStops b.pin.ordinal)
      | some right =>
        match stepsLeft with
        | 0 => .fail Tree.cyclicChain
        | steps + 1 => do
          let next ← stepSibling t b.pin.ordinal right true
          searchFrom key keyDigest op conservative steps next

def search (key : Bytes) (op : SearchOp) : Walk (Option (PageBuffer × Nat)) := do
  let keyDigest ← t.digestOf key
  match ← descend t key keyDigest with
  | none => pure none
  | some (b, conservative) => searchFrom t key keyDigest op conservative (t.store.pageCount + 1) b

/-! ## The cached lookup -/

/-- The variables of the cached lookup's loop, with the buffer of its first turn. -/
structure CachedWalk where
  walk : Tree.CachedWalk
  buffer : Nat

def CachedWalk.current (w : CachedWalk) : Option PageBuffer := w.walk.current.map fun pin => ⟨w.buffer, pin⟩

def currentCached (w : CachedWalk) : Walk (Option PageBuffer) :=
  match w.current with
  | some b => pure (some b)
  | none => do
    match ← Walk.pageCached w.walk.ordinal with
    | none => pure none
    | some b => do
      checkPage t b
      pure (some b)

/-- What one turn of the loop does on the page it has. -/
def cachedTurnOn (key : Bytes) (keyDigest : UInt64) (w : CachedWalk) (b : PageBuffer) :
    Walk (CachedWalk ⊕ Tree.CachedFind) := do
  Walk.uses t.id b
  match ← t.cachedTurnOn key keyDigest w.walk b.pin with
  | .inl next => pure (.inl { w with walk := next })
  | .inr found => pure (.inr found)

def cachedTurn (key : Bytes) (keyDigest : UInt64) (w : CachedWalk) : Walk (CachedWalk ⊕ Tree.CachedFind) :=
  if w.walk.descending = true ∧ w.walk.depthLeft = 0 then .fail t.tooDeep else do
  let w := if w.walk.descending then { w with walk := { w.walk with depthLeft := w.walk.depthLeft - 1 } } else w
  match ← currentCached t w with
  | none => pure (.inr none)
  | some b => cachedTurnOn t key keyDigest w b

def cachedTurns (key : Bytes) (keyDigest : UInt64) : Nat → CachedWalk → Walk (Option Tree.CachedFind)
  | 0, _ => pure none
  | turns + 1, w => do
    match ← cachedTurn t key keyDigest w with
    | .inl next => cachedTurns key keyDigest turns next
    | .inr found => pure (some found)

def findCached (key : Bytes) (turns : Nat) : Walk (Option Tree.CachedFind) :=
  if t.root.isNone then pure (some (some none)) else do
  let keyDigest ← t.digestOf key
  match ← rootPageCached t with
  | none => pure (some none)
  | some root => cachedTurns t key keyDigest turns ⟨t.cachedStart root.pin, root.id⟩

/-! ## Counting -/

def lowerStart (lower : Bound) : Walk (Option (PageBuffer × Nat)) :=
  match lower with
  | .unbounded => minLeaf t
  | .included k => search t k .lowerBound
  | .excluded k => search t k .upperBound

def countFrom (upper : Bound) (stepsLeft : Nat) (b : PageBuffer) (index count : Nat) : Walk Nat := do
  Walk.uses t.id b
  match ← boundIndex t b.pin.view upper with
  | some bound => pure (count + (bound - index))
  | none =>
    let count := count + (b.pin.view.entryCount - index)
    match b.pin.view.rightSibling with
    | none => do
      if ← endsAt t b.pin.ordinal true then pure count else .fail (Tree.chainStops b.pin.ordinal)
    | some right =>
      match stepsLeft with
      | 0 => .fail Tree.cyclicChain
      | steps + 1 => do
        let next ← stepSibling t b.pin.ordinal right true
        countFrom upper steps next 0 count

def countRange (lower upper : Bound) : Walk Nat := do
  validateBounds t.encoding lower upper
  checkOrder t.encoding lower upper
  let start ← lowerStart t lower
  match start with
  | none => pure 0
  | some (b, index) => countFrom t upper (t.store.pageCount + 1) b index 0

end

/-! ## Cursors -/

/-- A cursor and the buffer that holds its page. -/
structure HeldCursor where
  cursor : Cursor
  buffer : Nat := 0

namespace HeldCursor

/-- The buffer the cursor is on. -/
def page (h : HeldCursor) : Option PageBuffer := h.cursor.page.map fun pin => ⟨h.buffer, pin⟩

/-- The cursor moved to an entry of a buffer: it resolves the far bound there. -/
def enter (c : Cursor) (b : PageBuffer) (index : Nat) : Walk HeldCursor := do
  Walk.uses c.tree.id b
  let c ← Cursor.recomputeLeafBounds { c with page := some b.pin, index }
  pure ⟨c, b.id⟩

def nextPage (h : HeldCursor) : Walk (Bool × HeldCursor) :=
  if h.cursor.leafEndsScan then pure (false, h) else
  match h.cursor.pageStepsLeft with
  | 0 => .fail Tree.cyclicChain
  | steps + 1 =>
    let h := { h with cursor := { h.cursor with pageStepsLeft := steps } }
    match h.cursor.page with
    | none => pure (false, h)
    | some page => do
      let ascending := h.cursor.order == .ascending
      let sibling := if ascending then page.view.rightSibling else page.view.leftSibling
      match sibling with
      | none => do
        if ← endsAt h.cursor.tree page.ordinal ascending then pure (false, h)
        else .fail (Tree.chainStops page.ordinal)
      | some sibling => do
        let b ← stepSibling h.cursor.tree page.ordinal sibling ascending
        let h ← enter h.cursor b (if ascending then 0 else b.pin.view.entryCount - 1)
        pure (true, h)

def skipToValid : Nat → HeldCursor → Walk (Bool × HeldCursor)
  | steps, h =>
    match h.cursor.page with
    | none => pure (false, h)
    | some page =>
      if h.cursor.inWindow page then pure (true, h)
      else do
        let (more, h) ← h.nextPage
        if !more then pure (false, h)
        else
          match steps with
          | 0 => .fail Tree.cyclicChain
          | steps + 1 => skipToValid steps h

def leftward (tree : Tree) (stepsLeft : Nat) (b : PageBuffer) : Walk (Option (PageBuffer × Nat)) :=
  match b.pin.view.leftSibling with
  | none => do
    if ← endsAt tree b.pin.ordinal false then pure none else .fail (Tree.chainStops b.pin.ordinal)
  | some left =>
    match stepsLeft with
    | 0 => .fail Tree.cyclicChain
    | steps + 1 => do
      let b ← stepSibling tree b.pin.ordinal left false
      let count := b.pin.view.entryCount
      if 0 < count then pure (some (b, count - 1)) else leftward tree steps b

def descendingStart (tree : Tree) (key : Bytes) (op : SearchOp) : Walk (Option (PageBuffer × Nat)) := do
  match ← search tree key op with
  | none => maxLeaf tree
  | some (b, index) =>
    if 0 < index then pure (some (b, index - 1)) else leftward tree (tree.store.pageCount + 1) b

def upperStart (tree : Tree) (upper : Bound) : Walk (Option (PageBuffer × Nat)) :=
  match upper with
  | .unbounded => maxLeaf tree
  | .included k => descendingStart tree k .upperBound
  | .excluded k => descendingStart tree k .lowerBound

def firstEntry (h : HeldCursor) : Walk (Option (PageBuffer × Nat)) :=
  match h.cursor.order with
  | .ascending => lowerStart h.cursor.tree h.cursor.range.lower
  | .descending => upperStart h.cursor.tree h.cursor.range.upper

def seekFirst (h : HeldCursor) : Walk (Bool × HeldCursor) := do
  match ← h.firstEntry with
  | none => pure (false, h)
  | some (b, index) => do
    let h ← enter h.cursor b index
    skipToValid h.cursor.pageStepsLeft h

def step (h : HeldCursor) : Walk (Bool × HeldCursor) :=
  match h.cursor.stepInside with
  | some c => pure (true, { h with cursor := c })
  | none => do
    let (more, h) ← h.nextPage
    if !more then pure (false, h) else skipToValid h.cursor.pageStepsLeft h

/-! The buffers of keys and values that a row takes are charged as in `Cursor`. -/

def chargeAtLeast (charged bytes : Nat) : Walk Nat :=
  let wanted := bytes + bufferOverhead
  if wanted ≤ charged then pure charged
  else do
    Walk.reserve (wanted - charged)
    pure wanted

def charge (b : KeyBuffer) (len : Nat) : Walk KeyBuffer :=
  if len ≤ b.capacity then pure b
  else do
    let charged ← chargeAtLeast b.charged len
    pure { contents := [], capacity := len, charged }

def readKey (c : Cursor) (page : PagePin) (entry : LeafEntry) : Walk (KeyBuffer × Result KeySource) :=
  if !page.view.layout.omittedKeys then pure (c.keyBuf, .ok (.page entry.keyOffset entry.keyLen)) else
  match c.tree.rebuiltKeyCapacity with
  | .error e => pure (c.keyBuf, .error e)
  | .ok capacity => do
    match ← (charge c.keyBuf capacity).attempt with
    | .error e => pure (c.keyBuf, .error e)
    | .ok buf =>
      match c.tree.rebuildKey page.view c.index with
      | .error e => pure (buf, .error e)
      | .ok none => pure (buf, .ok (.page entry.keyOffset entry.keyLen))
      | .ok (some key) => do
        let capacity := max buf.capacity key.length
        match ← (chargeAtLeast buf.charged capacity).attempt with
        | .error e => pure ({ contents := [], capacity := 0, charged := buf.charged }, .error e)
        | .ok charged => pure ({ contents := key, capacity, charged }, .ok .rebuilt)

def readValue (entry : LeafEntry) : Walk (Nat × Nat × Option PagePin) :=
  match entry.value with
  | .inline offset len => pure (offset, offset + len, none)
  | .overflow page => do
    let (pin, start, stop) ← Walk.blob page
    pure (start, stop, some pin)

def materialize (h : HeldCursor) : Walk (HeldCursor × Result Unit) :=
  match h.cursor.page with
  | none => pure (h, .error (.corrupt "cursor lost its page"))
  | some page => do
    Walk.uses h.cursor.tree.id ⟨h.buffer, page⟩
    match page.view.leafEntry h.cursor.index with
    | .error e => pure (h, .error e)
    | .ok entry => do
      let (keyBuf, key) ← readKey h.cursor page entry
      let h := { h with cursor := { h.cursor with keyBuf } }
      match key with
      | .error e => pure (h, .error e)
      | .ok key => do
        match ← (readValue entry).attempt with
        | .error e => pure (h, .error e)
        | .ok (start, stop, blob) =>
          let current := some { key, start, stop, valueOnBlob := blob.isSome }
          pure ({ h with cursor := { h.cursor with current, blob := blob.or h.cursor.blob } }, .ok ())

def stepAndRead (h : HeldCursor) : Walk (HeldCursor × Result Bool) := do
  let move := if h.cursor.started then h.step else seekFirst { h with cursor := { h.cursor with started := true } }
  match ← move.attempt with
  | .error e => pure (h, .error e)
  | .ok (false, h) => pure ({ h with cursor := h.cursor.finish }, .ok false)
  | .ok (true, h) => do
    let (h, read) ← h.materialize
    pure (h, read.map fun _ => true)

def advance (h : HeldCursor) : Walk (HeldCursor × Result Bool) :=
  let h := { h with cursor := { h.cursor with current := none, blob := none } }
  if h.cursor.finished then pure (h, .ok false) else do
  let (moved, result) ← h.stepAndRead
  match result with
  | .ok more => pure (moved, .ok more)
  | .error e => pure ({ moved with cursor := moved.cursor.restore h.cursor.toPosition, buffer := h.buffer }, .error e)

end HeldCursor

/-- An index cursor and the buffer that holds the page of its inner cursor. -/
structure HeldIndexCursor where
  index : IndexCursor
  buffer : Nat := 0

namespace HeldIndexCursor

/-- The cursor inside. -/
def held (h : HeldIndexCursor) : HeldCursor := ⟨h.index.cursor, h.buffer⟩

def resolveReference (r : PageRef) : Walk ValueGuard := do
  let b ← Walk.page r.page
  let (start, stop) ← r.range b.pin.len
  b.pin.intoGuard start stop

def advanceInner (h : HeldIndexCursor) : Walk (HeldIndexCursor × Result Bool) := do
  let (inner, moved) ← h.held.advance
  let c := { h.index with cursor := inner.cursor, value := none }
  match moved with
  | .error e => pure (⟨c, inner.buffer⟩, .error e)
  | .ok false => pure (⟨{ c with key := { c.key with contents := [] } }, inner.buffer⟩, .ok false)
  | .ok true =>
    match c.entryReference with
    | .error e => pure (⟨c, inner.buffer⟩, .error e)
    | .ok (reference, sourceKey) => do
      match ← (HeldCursor.charge c.key sourceKey.length).attempt with
      | .error e => pure (⟨c, inner.buffer⟩, .error e)
      | .ok key => do
        let c := { c with key := { key with contents := sourceKey } }
        match ← (resolveReference reference).attempt with
        | .error e => pure (⟨c, inner.buffer⟩, .error e)
        | .ok guard => pure (⟨{ c with value := some guard }, inner.buffer⟩, .ok true)

def advance (h : HeldIndexCursor) : Walk (HeldIndexCursor × Result Bool) := do
  let (moved, result) ← h.advanceInner
  match result with
  | .ok more => pure (moved, .ok more)
  | .error e =>
    pure (⟨{ moved.index with cursor := moved.index.cursor.restore h.index.cursor.toPosition,
                              key := { moved.index.key with contents := [] }, value := none }, h.buffer⟩, .error e)

end HeldIndexCursor

end Buffered

/-! ## Any number of calls at once -/

/-- The trees that share one store. Each has an identity of its own, which is never the zero that
a fresh buffer carries. -/
structure Forest where
  trees : List Tree
  validates : ∀ t ∈ trees, t.validateDigests = true
  named : ∀ t ∈ trees, 0 < t.id
  distinct : ∀ t ∈ trees, ∀ t' ∈ trees, t.id = t'.id → t = t'

/-- What a caller keeps between calls. -/
inductive Handle where
  | table (h : Buffered.HeldCursor)
  | index (h : Buffered.HeldIndexCursor)

/-- The cursor of a handle and its buffer. -/
def Handle.held : Handle → Buffered.HeldCursor
  | table h => h
  | index h => h.held

/-- A call that is under way. One that advances a cursor hands it back. -/
abbrev Job := Walk (Option Handle)

structure BufferState where
  /-- Every buffer ever made, evicted or not. -/
  made : List PageBuffer := []
  /-- The tree recorded on a buffer as having checked it last. -/
  validatedFor : PageBuffer → Nat := fun _ => 0
  roots : Nat → Option PageBuffer := fun _ => none
  jobs : Multiset Job := 0
  idle : Multiset Handle := 0

/-- What the store answers, and what that changes. A page comes from any buffer that still holds it
or from a new one, so nothing is assumed about what the cache keeps. -/
def BufferState.Answers (store : PageStore) (s : BufferState) : (op : WalkOp) → op.Answer → BufferState → Prop
  | .page o, r, s' =>
    (∃ e, r = .error e ∧ s' = s) ∨ (∃ b ∈ s.made, b.pin.ordinal = o ∧ r = .ok b ∧ s' = s) ∨
      ∃ b, store.page o = .ok b.pin ∧ (∀ b' ∈ s.made, b'.id ≠ b.id) ∧ r = .ok b ∧ s' = { s with made := b :: s.made }
  | .pageCached o, r, s' => (r = none ∨ ∃ b ∈ s.made, b.pin.ordinal = o ∧ r = some b) ∧ s' = s
  | .retainedRoot tree, r, s' => r = s.roots tree ∧ s' = s
  | .retainRoot tree b, _, s' =>
    s' = s ∨ s' = { s with roots := fun tree' => if tree' = tree then some b else s.roots tree' }
  | .reserve _, _, s' => s' = s
  | .digestsCheckedBy tree b, r, s' => r = (s.validatedFor b == tree) ∧ s' = s
  | .markDigestsChecked tree b, _, s' =>
    s' = { s with validatedFor := fun b' => if b' = b then tree else s.validatedFor b' }
  | .passed _ _, _, s' => s' = s
  | .uses _ _, _, s' => s' = s

/-- What a step shows. -/
inductive BufferLabel where
  | passed (tree : Nat) (b : PageBuffer)
  | used (tree : Nat) (b : PageBuffer)
  | quiet

def WalkOp.label : WalkOp → BufferLabel
  | .passed tree b => .passed tree b
  | .uses tree b => .used tree b
  | _ => .quiet

/-- The job that advances a handle. -/
def Handle.advance : Handle → Job
  | table h => do
    let (h, _) ← h.advance
    pure (some (table h))
  | index h => do
    let (h, _) ← h.advance
    pure (some (index h))

/-- A call that starts and hands nothing back. -/
inductive Starts (f : Forest) : Job → Prop
  | search {t : Tree} (ht : t ∈ f.trees) (key : Bytes) (op : SearchOp) :
      Starts f (do let _ ← Buffered.search t key op; pure none)
  | findCached {t : Tree} (ht : t ∈ f.trees) (key : Bytes) (turns : Nat) :
      Starts f (do let _ ← Buffered.findCached t key turns; pure none)
  | countRange {t : Tree} (ht : t ∈ f.trees) (lower upper : Bound) :
      Starts f (do let _ ← Buffered.countRange t lower upper; pure none)
  /-- A blob read, a reference that is resolved, or a page a verification pass looks at. -/
  | page (ordinal : Nat) : Starts f (do let _ ← Walk.page ordinal; pure none)
  | pageCached (ordinal : Nat) : Starts f (do let _ ← Walk.pageCached ordinal; pure none)

inductive BufferStep (store : PageStore) (f : Forest) : BufferState → BufferLabel → BufferState → Prop
  | start {s : BufferState} {job : Job} (h : Starts f job) : BufferStep store f s .quiet { s with jobs := job ::ₘ s.jobs }
  /-- A new cursor, which is on no page yet. -/
  | opened {s : BufferState} {h : Handle} (ht : h.held.cursor.tree ∈ f.trees) (hp : h.held.cursor.page = none) :
      BufferStep store f s .quiet { s with idle := h ::ₘ s.idle }
  | advance {s : BufferState} {h : Handle} {rest : Multiset Handle} (hi : s.idle = h ::ₘ rest) :
      BufferStep store f s .quiet { s with idle := rest, jobs := h.advance ::ₘ s.jobs }
  | ask {s s' : BufferState} {op : WalkOp} {k : op.Answer → Job} {r : op.Answer} {rest : Multiset Job}
      (hj : s.jobs = .ask op k ::ₘ rest) (ha : s.Answers store op r s') :
      BufferStep store f s op.label { s' with jobs := k r ::ₘ rest }
  | done {s : BufferState} {h : Option Handle} {rest : Multiset Job} (hj : s.jobs = .done h ::ₘ rest) :
      BufferStep store f s .quiet { s with jobs := rest, idle := h.elim s.idle (· ::ₘ s.idle) }
  | fail {s : BufferState} {e : Error} {rest : Multiset Job} (hj : s.jobs = .fail e ::ₘ rest) :
      BufferStep store f s .quiet { s with jobs := rest }
  /-- The store lets a root go. -/
  | release {s : BufferState} (tree : Nat) :
      BufferStep store f s .quiet { s with roots := fun tree' => if tree' = tree then none else s.roots tree' }

/-- Runs of the read path over one store. -/
abbrev BufferRun (store : PageStore) (f : Forest) := Run (fun s : BufferState => s = {}) (BufferStep store f)

end DryDb
