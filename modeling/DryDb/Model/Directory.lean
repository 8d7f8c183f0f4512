import DryDb.Model.Cache
import DryDb.Model.Store
/-!
# The directory cache and the store's shared state

`directory.rs` keeps a few chunks of the page directory; `store.rs` loads pages through it into
the cache and keeps root pages for the trees. A load is code that reads the file and asks the
shared parts one critical section at a time (`StoreOp`). What a reservation reclaims on the way
is any sequence of the store's own steps that drop pages, chunks or roots.
-/

namespace DryDb

/-! ## Cached chunks -/

structure CachedChunk where
  index : Nat
  data : Bytes
  lastUsed : Nat

/-- Sizes of the directory cache, at least one each. -/
structure DirectoryConfig where
  entriesPerChunk : Nat
  maxChunks : Nat
  entries_pos : 0 < entriesPerChunk
  chunks_pos : 0 < maxChunks

/-- `entries_per_chunk.max(1)` and `max_chunks.max(1)`. -/
def DirectoryConfig.new (entriesPerChunk maxChunks : Nat) : DirectoryConfig where
  entriesPerChunk := max entriesPerChunk 1
  maxChunks := max maxChunks 1
  entries_pos := Nat.le_max_right _ _
  chunks_pos := Nat.le_max_right _ _

/-- `Vec::swap_remove`: the last element takes the place of the one removed. -/
def swapRemove {α : Type} (xs : List α) (i : Nat) : List α :=
  match xs.getLast? with
  | none => []
  | some last => (xs.set i last).dropLast

/-- The position of the chunk used longest ago, the first of them. -/
def oldestFrom : List CachedChunk → Nat → Option (Nat × Nat) → Option Nat
  | [], _, best => best.map (·.1)
  | c :: cs, i, best =>
    match best with
    | none => oldestFrom cs (i + 1) (some (i, c.lastUsed))
    | some (j, used) => oldestFrom cs (i + 1) (some (if c.lastUsed < used then (i, c.lastUsed) else (j, used)))

def oldest (chunks : List CachedChunk) : Option Nat := oldestFrom chunks 0 none

/-- Drops the least recently used chunk. -/
def evictChunk (chunks : List CachedChunk) : List CachedChunk :=
  match oldest chunks with
  | some pos => swapRemove chunks pos
  | none => chunks

/-- The raw slot value if its chunk is cached. -/
def lookupChunk (chunks : List CachedChunk) (chunkIndex slot : Nat) : Result (Option Int) :=
  match chunks.find? (·.index == chunkIndex) with
  | some chunk => some <$> readI64 chunk.data slot
  | none => .ok none

/-- Marks the chunk a lookup found as used at `tick`. -/
def touchChunk (tick chunkIndex : Nat) : List CachedChunk → List CachedChunk
  | [] => []
  | c :: cs => if c.index == chunkIndex then { c with lastUsed := tick } :: cs else c :: touchChunk tick chunkIndex cs

/-- Keeps a chunk that was read, unless another thread read the same one first. -/
def insertChunk (cfg : DirectoryConfig) (chunks : List CachedChunk) (chunk : CachedChunk) : List CachedChunk :=
  if chunks.any (·.index == chunk.index) then chunks
  else if cfg.maxChunks ≤ chunks.length then evictChunk chunks ++ [chunk]
  else chunks ++ [chunk]

/-! ## Loads -/

/-- What a load asks the parts it shares with other threads. -/
inductive StoreOp where
  /-- `lookup`, under the directory's lock -/
  | lookup (chunkIndex slot : Nat)
  /-- the next value of the directory's clock -/
  | tick
  /-- `insert`, under the directory's lock -/
  | insert (chunk : CachedChunk)
  /-- a read of the file -/
  | read (offset len : Nat)
  | reserve (bytes : Nat)
  /-- what the page filter needs for itself -/
  | reserveWorking

abbrev StoreOp.Answer : StoreOp → Type
  | .lookup _ _ => Result (Option Int)
  | .tick => Nat
  | .insert _ => Unit
  | .read _ _ => Result Bytes
  | .reserve _ => Result Unit
  | .reserveWorking => Result Unit

/-- Code that uses the shared parts of the store. -/
abbrev Shared (α : Type) := Program StoreOp StoreOp.Answer Error α

namespace Shared

def lookup (chunkIndex slot : Nat) : Shared (Option Int) := do
  let r ← Program.question (StoreOp.lookup chunkIndex slot)
  liftM r

def read (offset len : Nat) : Shared Bytes := do
  let r ← Program.question (StoreOp.read offset len)
  liftM r

def reserve (bytes : Nat) : Shared Unit := do
  let r ← Program.question (StoreOp.reserve bytes)
  liftM r

def reserveWorking : Shared Unit := do
  let r ← Program.question StoreOp.reserveWorking
  liftM r

end Shared

/-- `BUFFER_OVERHEAD`, the bytes charged on top of each buffer's capacity. -/
def chunkOverhead : Nat := 192

namespace PageStore

variable (cfg : DirectoryConfig) (s : PageStore)

def validateOffset (raw : Int) (ordinal : Nat) : Result Nat := do
  let base := s.directoryBase
  let offset ← (fileOffsetFromI64 raw).mapError (·.atPage ordinal)
  if offset < headerLen ∨ base ≤ offset then
    .error ((Error.corrupt
      s!"page directory entry points at offset {offset}, outside the page area [{headerLen}, {base})").atPage ordinal)
  else .ok offset

def readChunk (chunkIndex : Nat) : Shared CachedChunk := do
  let first ← okOr (checkedMul chunkIndex cfg.entriesPerChunk) (Error.corrupt "page directory chunk index overflows")
  let entries := min (s.pageCount - first) cfg.entriesPerChunk
  let len ← okOr (checkedMul entries directorySlotLen) (Error.corrupt "page directory chunk size overflows")
  let offset ← okOr (checkedAdd s.directoryBase (first * directorySlotLen))
    (Error.corrupt "page directory offset overflows")
  Shared.reserve (len + chunkOverhead)
  let data ← Shared.read offset len
  let lastUsed ← Program.question StoreOp.tick
  pure { index := chunkIndex, data, lastUsed }

/-- Reads a slot through a chunk that is not cached, and keeps the chunk. -/
def offsetThroughChunk (ordinal chunkIndex slot : Nat) : Shared Nat := do
  let chunk ← s.readChunk cfg chunkIndex
  let raw ← readI64 chunk.data slot
  Program.question (StoreOp.insert chunk)
  s.validateOffset raw ordinal

/-- Resolves an ordinal to its file offset through the cached chunks. -/
def offsetOfCached (ordinal : Nat) : Shared Nat := do
  let count := s.pageCount
  if count ≤ ordinal then
    liftM (Except.error (Error.corrupt s!"page ordinal {ordinal} is past the {count} pages in this file") : Result Nat)
  else
    let chunkIndex := ordinal / cfg.entriesPerChunk
    let slot := ordinal % cfg.entriesPerChunk * directorySlotLen
    let found ← Shared.lookup chunkIndex slot
    match found with
    | some raw => s.validateOffset raw ordinal
    | none => s.offsetThroughChunk cfg ordinal chunkIndex slot

def pageLimitCached (ordinal offset : Nat) : Shared Nat :=
  if s.pageCount ≤ ordinal + 1 then pure s.directoryBase
  else do
    let next ← s.offsetOfCached cfg (ordinal + 1)
    pure (if offset < next then min next s.directoryBase else s.directoryBase)

/-- Decodes a stored page, with the reservations its buffers need. -/
def decodedCached (stored : Bytes) : Shared Bytes :=
  match s.filter with
  | none => pure stored
  | some filter => do
    let capacity ← decodeCapacity s.limits.maxDecodedPageBytes filter (stored.drop pagePrefixLen)
    Shared.reserve (capacity + chunkOverhead)
    Shared.reserveWorking
    let page ← decodePage s.limits filter stored
    Shared.reserve (page.length + chunkOverhead)
    pure page

/-- `load`: the page and the bytes of its charge. -/
def loadCached (ordinal : Nat) : Shared (PagePin × Nat) := do
  let offset ← s.offsetOfCached cfg ordinal
  let lengthBytes ← Shared.read offset pageLengthLen
  let word ← readI32 lengthBytes 0
  let storedLen ← checkedLen word "page length"
  let limit := s.limits.maxStoredPageBytes
  if storedLen < pagePrefixLen then
    liftM (Except.error (Error.corrupt
      s!"page length {storedLen} is smaller than the {pagePrefixLen} byte prefix") : Result (PagePin × Nat))
  else if limit < storedLen then
    liftM (Except.error (Error.corrupt
      s!"page length {storedLen} exceeds the {limit} byte limit") : Result (PagePin × Nat))
  else
    let stop ← okOr (checkedAdd offset storedLen) (Error.corrupt "page end offset overflows")
    let boundary ← s.pageLimitCached cfg ordinal offset
    if boundary < stop then
      liftM (Except.error (Error.corrupt
        s!"page spans {offset}..{stop}, into what follows it") : Result (PagePin × Nat))
    else
      Shared.reserve (storedLen + chunkOverhead)
      let stored ← Shared.read offset storedLen
      let data ← s.decodedCached stored
      let pin ← PagePin.new ordinal data
      pure (pin, data.length + chunkOverhead)

end PageStore

/-! ## The shared state of a store -/

structure StoreConfig where
  cache : CacheConfig
  directory : DirectoryConfig
  /-- a power of two -/
  shards : Nat

/-- The shard of an ordinal. -/
def StoreConfig.shardOf (cfg : StoreConfig) (ordinal : Nat) : Nat :=
  (ordinal * 0x9E3779B97F4A7C15 % 2 ^ 64) / 2 ^ 32 &&& (cfg.shards - 1)

/-- The shards, the directory's chunks and the retained roots, with the loads and the lookups
in progress. `handed` are the pages threads have been given and may still hold. -/
structure StoreSystem where
  shards : Nat → ShardSystem PagePin := fun _ => {}
  loads : Multiset (Nat × Shared (PagePin × Nat)) := 0
  lookups : Multiset (Nat × Shared Nat) := 0
  chunks : List CachedChunk := []
  clock : Nat := 0
  roots : Dict Nat PagePin := ∅
  handed : List PagePin := []

/-- How the shared parts answer one question. A read gives the bytes of the file or an error. -/
def StoreSystem.Answers (store : PageStore) (cfg : StoreConfig) (w : StoreSystem) :
    (op : StoreOp) → op.Answer → StoreSystem → Prop
  | .lookup chunkIndex slot, r, w' =>
    r = lookupChunk w.chunks chunkIndex slot ∧
      w' = { w with chunks := touchChunk w.clock chunkIndex w.chunks, clock := w.clock + 1 }
  | .tick, r, w' => r = w.clock ∧ w' = { w with clock := w.clock + 1 }
  | .insert chunk, _, w' => w' = { w with chunks := insertChunk cfg.directory w.chunks chunk }
  | .read offset len, r, w' => (∀ bytes, r = .ok bytes → readExactAt store.source offset len = .ok bytes) ∧ w' = w
  | .reserve _, _, w' => w' = w
  | .reserveWorking, _, w' => w' = w

/-- The page a step of a shard hands to its caller. -/
def ShardLabel.page : ShardLabel PagePin → Option (Nat × PagePin)
  | .entered o (.hit pin) => some (o, pin)
  | .published o pin _ => some (o, pin)
  | .got o (some pin) => some (o, pin)
  | _ => none

/-- The ordinal a step of a shard is about. -/
def ShardLabel.ordinal {π : Type} : ShardLabel π → Option Nat
  | .called o => some o
  | .entered o _ => some o
  | .woke o => some o
  | .reserved o => some o
  | .unreserved o => some o
  | .loadReturned o _ _ => some o
  | .loadFailed o => some o
  | .published o _ _ => some o
  | .abandoned o => some o
  | .notifiedAll o => some o
  | .got o _ => some o
  | .evicted _ => none

/-- Whether the step starts or ends a load. -/
def ShardLabel.bordersLoad {π : Type} : ShardLabel π → Bool
  | .entered _ .load => true
  | .loadReturned _ _ _ => true
  | .loadFailed _ => true
  | _ => false

inductive StoreLabel where
  | shard (l : ShardLabel PagePin)
  | asked (o : Nat)
  | resolving (o : Nat)
  | offset (o offset : Nat)
  | unresolved (o : Nat)
  | chunkEvicted
  | retained (tree : Nat)
  | root (tree : Nat) (found : Option PagePin)
  | rootReleased (tree : Nat)
  | rootsReleased

/-- The page a step of the store hands to its caller, and for which ordinal. -/
def StoreLabel.page : StoreLabel → Option (Nat × PagePin)
  | .shard l => l.page
  | .root _ (some pin) => some (pin.ordinal, pin)
  | _ => none

/-- One step of one thread on the shared state of a store. -/
inductive StoreStep (store : PageStore) (cfg : StoreConfig) : StoreSystem → StoreLabel → StoreSystem → Prop
  | shard {w : StoreSystem} {i : Nat} {l : ShardLabel PagePin} {w' : ShardSystem PagePin}
      (hstep : ShardStep cfg.cache (w.shards i) l w') (hshard : ∀ o, l.ordinal = some o → i = cfg.shardOf o)
      (hplain : l.bordersLoad = false) :
      StoreStep store cfg w (.shard l)
        { w with shards := Function.update w.shards i w', handed := (l.page.map (·.2)).toList ++ w.handed }
  | beginLoad {w : StoreSystem} {o : Nat} {w' : ShardSystem PagePin}
      (hstep : ShardStep cfg.cache (w.shards (cfg.shardOf o)) (.entered o .load) w') :
      StoreStep store cfg w (.shard (.entered o .load))
        { w with
          shards := Function.update w.shards (cfg.shardOf o) w'
          loads := (o, store.loadCached cfg.directory o) ::ₘ w.loads }
  | loadAsk {w w' : StoreSystem} {o : Nat} {op : StoreOp} {k : op.Answer → Shared (PagePin × Nat)} {r : op.Answer}
      {rest : Multiset (Nat × Shared (PagePin × Nat))} (hload : w.loads = (o, .ask op k) ::ₘ rest)
      (hop : w.Answers store cfg op r w') :
      StoreStep store cfg w (.asked o) { w' with loads := (o, k r) ::ₘ rest }
  | loadDone {w : StoreSystem} {o : Nat} {pin : PagePin} {bytes : Nat} {w' : ShardSystem PagePin}
      {rest : Multiset (Nat × Shared (PagePin × Nat))} (hload : w.loads = (o, .done (pin, bytes)) ::ₘ rest)
      (hstep : ShardStep cfg.cache (w.shards (cfg.shardOf o)) (.loadReturned o pin bytes) w') :
      StoreStep store cfg w (.shard (.loadReturned o pin bytes))
        { w with shards := Function.update w.shards (cfg.shardOf o) w', loads := rest }
  | loadFail {w : StoreSystem} {o : Nat} {p : Shared (PagePin × Nat)} {w' : ShardSystem PagePin}
      {rest : Multiset (Nat × Shared (PagePin × Nat))} (hload : w.loads = (o, p) ::ₘ rest)
      (hstep : ShardStep cfg.cache (w.shards (cfg.shardOf o)) (.loadFailed o) w') :
      StoreStep store cfg w (.shard (.loadFailed o))
        { w with shards := Function.update w.shards (cfg.shardOf o) w', loads := rest }
  | resolve (w : StoreSystem) (o : Nat) :
      StoreStep store cfg w (.resolving o) { w with lookups := (o, store.offsetOfCached cfg.directory o) ::ₘ w.lookups }
  | lookupAsk {w w' : StoreSystem} {o : Nat} {op : StoreOp} {k : op.Answer → Shared Nat} {r : op.Answer}
      {rest : Multiset (Nat × Shared Nat)} (hlookup : w.lookups = (o, .ask op k) ::ₘ rest)
      (hop : w.Answers store cfg op r w') :
      StoreStep store cfg w (.asked o) { w' with lookups := (o, k r) ::ₘ rest }
  | lookupDone {w : StoreSystem} {o offset : Nat} {rest : Multiset (Nat × Shared Nat)}
      (hlookup : w.lookups = (o, .done offset) ::ₘ rest) :
      StoreStep store cfg w (.offset o offset) { w with lookups := rest }
  | lookupFail {w : StoreSystem} {o : Nat} {p : Shared Nat} {rest : Multiset (Nat × Shared Nat)}
      (hlookup : w.lookups = (o, p) ::ₘ rest) :
      StoreStep store cfg w (.unresolved o) { w with lookups := rest }
  | evictChunk (w : StoreSystem) :
      StoreStep store cfg w .chunkEvicted { w with chunks := DryDb.evictChunk w.chunks }
  | retain {w : StoreSystem} (tree : Nat) {pin : PagePin} (hpin : pin ∈ w.handed) :
      StoreStep store cfg w (.retained tree) { w with roots := w.roots.insert tree pin }
  | root (w : StoreSystem) (tree : Nat) :
      StoreStep store cfg w (.root tree (w.roots.lookup tree))
        { w with handed := (w.roots.lookup tree).toList ++ w.handed }
  | releaseRoot (w : StoreSystem) (tree : Nat) :
      StoreStep store cfg w (.rootReleased tree) { w with roots := w.roots.erase tree }
  | releaseRoots (w : StoreSystem) : StoreStep store cfg w .rootsReleased { w with roots := ∅ }

/-- Executions of a store, from nothing cached. -/
def StoreRun (store : PageStore) (cfg : StoreConfig) : List (Event StoreSystem StoreLabel) → StoreSystem → Prop :=
  Run (fun w => w = {}) (StoreStep store cfg)

end DryDb
