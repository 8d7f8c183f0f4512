import DryDb.Model.Directory
/-!
# Reserving and reclaiming

`PageStore::reserve`, `reclaim_pages` and `release_roots` of `store.rs`, `PageCache::evict_bytes`
of `cache.rs` and `PageDirectory::read_chunk` of `directory.rs`, on the state of one store that no
other thread is using. The loops are code over `ReclaimOp`, one operation for each thing that is
done to the budget, to a shard, to the directory's chunks or to the retained roots, and
`Reclaimable.Answers` is what each does to the state.

What the budget counts is what is alive: the page buffers that are cached, retained or pinned, the
tables of the shards and of the roots, the chunks, and the charges the caller and the store hold.
What a shard's table and ring allocate while they settle after an eviction is left open, as in
`Model.Cache`. The loops of `evict_bytes` and `read_chunk` have no bound of their own in the
source; they take fuel here.
-/

namespace DryDb

/-! ## The state -/

/-- A page buffer: which one it is, its length and the bytes of its charge. -/
structure BufferRef where
  id : Nat
  len : Nat
  charge : Nat
  deriving DecidableEq

/-- What a store holds on its budget, with the pins and the charges of its caller. -/
structure Reclaimable where
  cache : CacheConfig
  limit : Nat
  shards : List (ShardInner BufferRef)
  /-- `next_victim_shard` -/
  nextVictim : Nat := 0
  chunks : List CachedChunk := []
  /-- the directory's clock -/
  tick : Nat := 0
  roots : Dict Nat BufferRef := ∅
  /-- bytes of the charge for the table of the roots -/
  rootsBook : Nat := 0
  /-- pages the caller has pinned -/
  pins : List BufferRef := []
  /-- charges the caller holds, and the store's own -/
  charges : List Nat := []

/-- The page a slot holds. -/
def Slot.pin? {π : Type} : Slot π → Option π
  | .ready pin _ _ => some pin
  | .loading => none

/-- Number of pages a shard retains. -/
def ShardInner.readyCount {π : Type} (s : ShardInner π) : Nat := s.map.entries.countP fun e => e.2.pin?.isSome

namespace Reclaimable

/-- Every reference to a page buffer. -/
def references (w : Reclaimable) : List BufferRef :=
  w.shards.flatMap (fun s => s.map.entries.filterMap fun e => e.2.pin?) ++ w.roots.entries.map (·.2) ++ w.pins

/-- Bytes charged: a buffer counts once, for as long as anything refers to it. -/
def used (w : Reclaimable) : Nat :=
  (w.references.dedup.map BufferRef.charge).sum + (w.shards.map ShardInner.book).sum +
    (w.chunks.map fun c => c.data.length + chunkOverhead).sum + w.rootsBook + w.charges.sum

end Reclaimable

/-! ## The code -/

/-- What a refused reservation reports. -/
structure Refusal where
  requested : Nat
  inUse : Nat
  limit : Nat
  retryable : Bool

inductive ReclaimOp where
  /-- `Budget::try_reserve` -/
  | tryReserve (bytes : Nat)
  /-- `PageCache::len` -/
  | cacheLen
  | chunksHeld
  /-- the next value of `next_victim_shard` -/
  | victim
  /-- `evict_one` of the cache, on one shard -/
  | evictOne (shard : Nat)
  /-- `evict_one` of the directory -/
  | evictChunk
  | releaseRoots
  | read (offset len : Nat)
  | tick
  /-- a charge that is dropped -/
  | drop (bytes : Nat)

abbrev ReclaimOp.Answer : ReclaimOp → Type
  | .tryReserve _ => Except Refusal Nat
  | .cacheLen => Nat
  | .chunksHeld => Nat
  | .victim => Nat
  | .evictOne _ => Option Nat
  | .evictChunk => Bool
  | .releaseRoots => Nat
  | .read _ _ => Result Bytes
  | .tick => Nat
  | .drop _ => Unit

/-- How a reservation or a read ends without a result. -/
inductive Trouble where
  | refused (refusal : Refusal)
  | error (e : Error)
  | outOfFuel

/-- Code that reserves and reclaims. -/
abbrev Reclaiming (α : Type) := Program ReclaimOp ReclaimOp.Answer Trouble α

namespace Reclaiming

open Program

def lift {α : Type} (x : Result α) : Reclaiming α := liftM (x.mapError Trouble.error)

def tryReserve (bytes : Nat) : Reclaiming (Except Refusal Nat) := question (ReclaimOp.tryReserve bytes)

def evictOne (shard : Nat) : Reclaiming (Option Nat) := question (ReclaimOp.evictOne shard)

def evictChunk : Reclaiming Bool := question ReclaimOp.evictChunk

/-- Lets go of every retained root. Returns how many bytes of page they held. -/
def releaseRoots : Reclaiming Nat := question ReclaimOp.releaseRoots

/-- The loop of `evict_bytes`. The shard index wraps like the machine's addition. -/
def evictBytesFrom (shardCount target start : Nat) : Nat → Nat → Nat → Nat → Reclaiming Nat
  | 0, _, _, _ => fail .outOfFuel
  | fuel + 1, cursor, idle, released =>
    if released < target ∧ idle < shardCount then do
      let evicted ← evictOne ((start + cursor) % 2 ^ 64 % shardCount)
      match evicted with
      | some bytes => evictBytesFrom shardCount target start fuel (cursor + 1) 0 (released + bytes)
      | none => evictBytesFrom shardCount target start fuel (cursor + 1) (idle + 1) released
    else pure released

/-- Drops cached references until at least `target` bytes have been released, or no further
progress is possible. -/
def evictBytes (fuel shardCount target : Nat) : Reclaiming Nat := do
  let start ← question ReclaimOp.victim
  evictBytesFrom shardCount target start fuel 0 0 0

/-- Frees memory for a caller that needs it more, most expendable first. -/
def reclaimPages (fuel shardCount bytes : Nat) : Reclaiming Nat := do
  let freed ← evictBytes fuel shardCount bytes
  if 0 < freed then pure freed else releaseRoots

/-- `EVICT_ROUNDS`. -/
def evictRounds : Nat := 16

/-- `freed == 0 && self.directory.evict_one()`. -/
def dropChunk (freed : Nat) : Reclaiming Bool := if freed = 0 then evictChunk else pure false

/-- Roots last: they are worth keeping until there is nothing else to give. -/
def dropRoots (freed : Nat) (droppedChunk : Bool) : Reclaiming Nat :=
  if freed = 0 ∧ droppedChunk = false then releaseRoots else pure 0

/-- The rounds of `reserve`. -/
def reserveRounds (fuel shardCount bytes : Nat) : Nat → Option Refusal → Reclaiming Nat
  | 0, last =>
    match last with
    | some refusal => fail (.refused refusal)
    | none => fail (.error (.corrupt "budget reservation failed without reporting a reason"))
  | rounds + 1, _ => do
    let freed ← evictBytes fuel shardCount bytes
    let droppedChunk ← dropChunk freed
    let released ← dropRoots freed droppedChunk
    let reserved ← tryReserve bytes
    match reserved with
    | .ok charge => pure charge
    | .error refusal =>
      if freed = 0 ∧ droppedChunk = false ∧ released = 0 then fail (.refused refusal)
      else reserveRounds fuel shardCount bytes rounds (some refusal)

/-- Reserves `bytes`, reclaiming from the cache and the page directory if it has to. -/
def reserve (fuel shardCount bytes : Nat) : Reclaiming Nat := do
  let first ← tryReserve bytes
  match first with
  | .ok charge => pure charge
  | .error refusal =>
    if refusal.retryable = false then fail (.refused refusal)
    else do
      let pages ← question ReclaimOp.cacheLen
      let chunks ← question ReclaimOp.chunksHeld
      reserveRounds fuel shardCount bytes (pages + chunks + evictRounds) none

/-- The loop of `read_chunk`: gives up resident chunks, then pages, until the new one fits. -/
def chunkCharge (evictFuel shardCount wanted : Nat) : Nat → Reclaiming Nat
  | 0 => fail .outOfFuel
  | fuel + 1 => do
    let reserved ← tryReserve wanted
    match reserved with
    | .ok charge => pure charge
    | .error refusal => do
      let dropped ← evictChunk
      if dropped = true then chunkCharge evictFuel shardCount wanted fuel
      else do
        let freed ← reclaimPages evictFuel shardCount wanted
        if freed = 0 then fail (.refused refusal) else chunkCharge evictFuel shardCount wanted fuel

def readExact (offset len : Nat) : Reclaiming (Result Bytes) := question (ReclaimOp.read offset len)

/-- Reads into a new buffer; its reservation is given back when the read fails. -/
def readInto (offset len charge : Nat) : Reclaiming Bytes := do
  let read ← readExact offset len
  match read with
  | .ok data => pure data
  | .error e => do
    question (ReclaimOp.drop charge)
    fail (.error e)

/-- Reads one chunk of the page directory. -/
def readChunk (fuel shardCount : Nat) (store : PageStore) (cfg : DirectoryConfig) (chunkIndex : Nat) :
    Reclaiming CachedChunk := do
  let first ← lift (okOr (checkedMul chunkIndex cfg.entriesPerChunk) (Error.corrupt "page directory chunk index overflows"))
  let entries := min (store.pageCount - first) cfg.entriesPerChunk
  let len ← lift (okOr (checkedMul entries directorySlotLen) (Error.corrupt "page directory chunk size overflows"))
  let offset ← lift (okOr (checkedAdd store.directoryBase (first * directorySlotLen))
    (Error.corrupt "page directory offset overflows"))
  let charge ← chunkCharge fuel shardCount (len + chunkOverhead) fuel
  let data ← readInto offset len charge
  let lastUsed ← question ReclaimOp.tick
  pure { index := chunkIndex, data, lastUsed }

end Reclaiming

/-! ## What the operations do -/

/-- One operation on the state. An eviction is `evict_one` of the shard, whatever its table and
ring make of it. A read gives the bytes of the file or fails. -/
def Reclaimable.Answers (store : PageStore) (w : Reclaimable) : (op : ReclaimOp) → op.Answer → Reclaimable → Prop
  | .tryReserve bytes, r, w' =>
    if w.used + bytes ≤ w.limit then r = .ok bytes ∧ w' = { w with charges := bytes :: w.charges }
    else r = .error ⟨bytes, w.used, w.limit, decide (bytes ≤ w.limit)⟩ ∧ w' = w
  | .cacheLen, r, w' => r = (w.shards.map ShardInner.readyCount).sum ∧ w' = w
  | .chunksHeld, r, w' => r = w.chunks.length ∧ w' = w
  | .victim, r, w' => r = w.nextVictim ∧ w' = { w with nextVictim := (w.nextVictim + 1) % 2 ^ 64 }
  | .evictOne i, r, w' => ∃ s s', w.shards[i]? = some s ∧ (s.evictOne w.cache).Yields (r, s') ∧
    w' = { w with shards := w.shards.set i s' }
  | .evictChunk, r, w' => r = !w.chunks.isEmpty ∧ w' = { w with chunks := DryDb.evictChunk w.chunks }
  | .releaseRoots, r, w' => r = (w.roots.entries.map (·.2.len)).sum ∧ w' = { w with roots := ∅, rootsBook := 0 }
  | .read offset len, r, w' => (∀ bytes, r = .ok bytes → readExactAt store.source offset len = .ok bytes) ∧ w' = w
  | .tick, r, w' => r = w.tick ∧ w' = { w with tick := w.tick + 1 }
  | .drop bytes, _, w' => w' = { w with charges := w.charges.erase bytes }

end DryDb
