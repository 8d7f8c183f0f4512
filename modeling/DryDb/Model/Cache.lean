import DryDb.Lib.Chance
import DryDb.Lib.Runs
import DryDb.Lib.Tables
import DryDb.Model.Format
/-!
# The page cache

One shard of `cache.rs`: the table of slots, the CLOCK ring, and the charge that follows what
both have allocated. Each function is one stretch of code under the shard's lock. What the
allocator makes of a table or a ring, and whether the budget grants a growth, is asked through
`ShardOp`, so nothing is assumed about either.

Pages are only stored and handed out here, so their type is left open.
-/

namespace DryDb

/-! ## What tables cost -/

def satAdd (a b : Nat) : Nat := min (a + b) (2 ^ 64 - 1)

def satMul (a b : Nat) : Nat := min (a * b) (2 ^ 64 - 1)

def nextPowerOfTwo (n : Nat) : Nat := if n ≤ 1 then 1 else 2 ^ (Nat.log2 (n - 1) + 1)

/-- The group of buckets a hash table scans at a time. -/
def hashGroup : Nat := 16

/-- What the smallest hash table that holds `entries` of `entry` bytes has allocated. -/
def hashTableBytes (entries entry : Nat) : Nat :=
  if entries = 0 then 0
  else
    let buckets := nextPowerOfTwo (max ((satMul entries 8 + 6) / 7) 4)
    (buckets * (entry + 1) + hashGroup + (hashGroup - 1)) / hashGroup * hashGroup

/-- What a hash table needs at its peak to take one more entry. -/
def hashTablePeakBytes (slots capacity len entry : Nat) : Nat :=
  let now := hashTableBytes slots entry
  if len < capacity then now
  else
    let next := if slots = 0 then hashTableBytes 1 entry else hashTableBytes (satMul slots 2) entry
    satAdd now next

def ringBytes (capacity : Nat) : Nat := capacity * 8

def ringMinCapacity : Nat := 4

/-- The capacity a growing ring reaches for `entries`; a growth adds at least one slot. -/
def ringGrown (entries : Nat) : Nat → Nat → Nat
  | 0, grown => grown
  | fuel + 1, grown =>
    if grown < entries then ringGrown entries fuel (max (satMul grown 2) ringMinCapacity) else grown

/-- What a ring holding `entries` costs, given what it has room for now. -/
def ringTargetBytes (capacity entries : Nat) : Nat :=
  if entries ≤ capacity then ringBytes capacity
  else
    let grown := ringGrown entries entries capacity
    ringBytes grown + ringBytes (grown / 2)

/-! ## A shard -/

inductive Slot (π : Type) where
  | ready (pin : π) (bytes : Nat) (referenced : Bool)
  | loading

structure ShardInner (π : Type) where
  map : Dict Nat (Slot π) := ∅
  clock : List Nat := []
  resident : Nat := 0
  /-- what the table could hold at the bucket count it has now -/
  mapSlots : Nat := 0
  /-- ring pushes loads in flight are still to make -/
  pendingPushes : Nat := 0
  /-- bytes of the charge on the budget -/
  book : Nat := 0
  /-- `HashMap::capacity` -/
  mapCapacity : Nat := 0
  /-- `VecDeque::capacity` -/
  clockCapacity : Nat := 0

/-- What is fixed when the cache is made. `slotBytes` is the size of one table entry. -/
structure CacheConfig where
  capacityPerShard : Nat
  slotBytes : Nat

/-- What only the allocator and the budget know. -/
inductive ShardOp where
  /-- whether the charge may grow from `held` to `want` -/
  | grow (held want : Nat)
  /-- the table's capacity after an insertion -/
  | mapInserted (slots capacity len : Nat)
  /-- the table's capacity after a removal -/
  | mapRemoved (capacity len : Nat)
  /-- the table's capacity after `shrink_to_fit` -/
  | mapShrunk (slots capacity len : Nat)
  /-- the ring's capacity after a push -/
  | ringPushed (capacity len : Nat)
  /-- the ring's capacity after `shrink_to` -/
  | ringShrunk (capacity keep : Nat)

abbrev ShardOp.Answer : ShardOp → Type
  | .grow _ _ => Bool
  | _ => Nat

instance (op : ShardOp) : Nonempty op.Answer := by
  cases op <;> exact ⟨default⟩

/-- Code under the lock of one shard. -/
abbrev Section (α : Type) := Program ShardOp ShardOp.Answer Empty α

/-- What one in-flight load's marker costs. -/
def loadingSlotBytes : Nat := 128

/-- How many times a miss asks again when another thread grew the shard in between. -/
def reserveAttempts : Nat := 8

namespace ShardInner

variable {π : Type} (cfg : CacheConfig)

def insertSlot (s : ShardInner π) (o : Nat) (slot : Slot π) : Section (ShardInner π) := do
  let capacity ← Program.question (.mapInserted s.mapSlots s.mapCapacity s.map.entries.length)
  pure { s with map := s.map.insert o slot, mapCapacity := capacity }

def removeSlot (s : ShardInner π) (o : Nat) : Section (ShardInner π) := do
  let capacity ← Program.question (.mapRemoved s.mapCapacity s.map.entries.length)
  pure { s with map := s.map.erase o, mapCapacity := capacity }

def pushBack (s : ShardInner π) (o : Nat) : Section (ShardInner π) := do
  let capacity ← Program.question (.ringPushed s.clockCapacity s.clock.length)
  pure { s with clock := s.clock ++ [o], clockCapacity := capacity }

/-- Takes note of a table that has just grown. -/
def noteTable (s : ShardInner π) : ShardInner π := { s with mapSlots := max s.mapSlots s.mapCapacity }

def bookkeepingFootprint (s : ShardInner π) : Nat :=
  hashTableBytes s.mapSlots cfg.slotBytes + ringTargetBytes s.clockCapacity (satAdd s.clock.length s.pendingPushes)

/-- What the table and ring would cost with one more entry, beyond what is already charged. -/
def growthForOneMore (s : ShardInner π) : Nat :=
  let mapWant := hashTablePeakBytes s.mapSlots s.mapCapacity s.map.entries.length cfg.slotBytes
  let ringWant := ringTargetBytes s.clockCapacity (satAdd (satAdd s.clock.length s.pendingPushes) 1)
  satAdd mapWant ringWant - s.book

/-- Brings the charge to `want`. Growing can fail; shrinking cannot. -/
def settle (s : ShardInner π) (want : Nat) : Section (Bool × ShardInner π) :=
  if s.book < want then do
    let granted ← Program.question (.grow s.book want)
    pure (if granted then (true, { s with book := want }) else (false, s))
  else pure (true, { s with book := want })

def settleBookkeeping (s : ShardInner π) : Section (Bool × ShardInner π) := s.settle (s.bookkeepingFootprint cfg)

/-- Shrinks the table, when the budget covers both tables for as long as the move takes. -/
def shrinkTable (s : ShardInner π) : Section (ShardInner π) :=
  if 2 * s.map.entries.length < s.mapSlots then do
    let (ok, s) ← s.settle (s.bookkeepingFootprint cfg + hashTableBytes s.map.entries.length cfg.slotBytes)
    if ok then do
      let capacity ← Program.question (.mapShrunk s.mapSlots s.mapCapacity s.map.entries.length)
      -- A table that was not rebuilt still has the buckets it had.
      let slots := if capacity ≠ s.mapCapacity then capacity else s.mapSlots
      pure { s with mapCapacity := capacity, mapSlots := slots }
    else pure s
  else pure s

/-- Shrinks the ring to what it holds and the pushes already promised. -/
def shrinkRing (s : ShardInner π) : Section (ShardInner π) :=
  let keep := satAdd s.clock.length s.pendingPushes
  if 2 * keep < s.clockCapacity then do
    let (ok, s) ← s.settle (s.bookkeepingFootprint cfg + ringBytes (nextPowerOfTwo (max keep 4)))
    if ok then do
      let capacity ← Program.question (.ringShrunk s.clockCapacity keep)
      pure { s with clockCapacity := capacity }
    else pure s
  else pure s

/-- Gives back the table and ring capacity a shard no longer needs. -/
def releaseBookkeeping (s : ShardInner π) : Section (ShardInner π) := do
  let s ← s.shrinkTable cfg
  let s ← s.shrinkRing cfg
  let (_, s) ← s.settleBookkeeping cfg
  pure s

/-- The CLOCK step's loop, over what is left of `steps`. -/
def evictFrom : Nat → ShardInner π → Section (Option Nat × ShardInner π)
  | 0, s => pure (none, s)
  | steps + 1, s =>
    match s.clock with
    | [] => pure (none, s)
    | o :: clock =>
      match s.map.lookup o with
      | some (.ready pin bytes referenced) =>
        if referenced then do
          -- A second chance; the slot the pop freed takes it back.
          let s := { s with clock, map := s.map.insert o (.ready pin bytes false) }
          let s ← s.pushBack o
          evictFrom steps s
        else do
          let s ← { s with clock }.removeSlot o
          let s := { s with resident := s.resident - bytes }
          let s ← s.releaseBookkeeping cfg
          pure (some bytes, s)
      | _ => evictFrom steps { s with clock }

/-- One CLOCK step: evicts the first unreferenced page, giving referenced pages a second chance. -/
def evictOne (s : ShardInner π) : Section (Option Nat × ShardInner π) := s.evictFrom cfg (2 * s.clock.length + 1)

/-- `while resident > capacity`; every eviction shortens the ring. -/
def evictDownFrom : Nat → ShardInner π → Section (ShardInner π)
  | 0, s => pure s
  | fuel + 1, s =>
    if cfg.capacityPerShard < s.resident then do
      let (evicted, s) ← s.evictOne cfg
      match evicted with
      | none => pure s
      | some _ => evictDownFrom fuel s
    else pure s

def evictDownToCapacity (s : ShardInner π) : Section (ShardInner π) := s.evictDownFrom cfg (s.clock.length + 1)

/-! ## The critical sections -/

/-- Marks a page as recently used. -/
def touch (s : ShardInner π) (o : Nat) (pin : π) (bytes : Nat) : ShardInner π :=
  { s with map := s.map.insert o (.ready pin bytes true) }

/-- Cache-only lookup. -/
def get (s : ShardInner π) (o : Nat) : Option π × ShardInner π :=
  match s.map.lookup o with
  | some (.ready pin bytes _) => (some pin, s.touch o pin bytes)
  | _ => (none, s)

/-- What one turn of the loop of `get_or_load` leads to. -/
inductive Entered (π : Type) where
  | hit (pin : π)
  | wait
  /-- the lock is released to reserve `want` -/
  | reserve (want attempts : Nat)
  /-- the shard grew under other threads once too often -/
  | refused (requested : Nat)
  /-- the marker is in -/
  | load

/-- Puts the marker of a load in, paid for by `charge`. -/
def mark (s : ShardInner π) (o charge : Nat) : Section (ShardInner π) := do
  let s ← s.insertSlot o .loading
  let s := s.noteTable
  let s := { s with pendingPushes := s.pendingPushes + 1, book := s.book + charge }
  let (_, s) ← s.settleBookkeeping cfg
  pure s

/-- One turn of the loop of `get_or_load`, from taking the lock to letting it go. -/
def enter (s : ShardInner π) (o : Nat) (charge : Option Nat) (attempts : Nat) : Section (Entered π × ShardInner π) :=
  match s.map.lookup o with
  | some (.ready pin bytes _) => pure (.hit pin, s.touch o pin bytes)
  | some .loading => pure (.wait, s)
  | none =>
    let needed := s.growthForOneMore cfg
    match charge with
    | none => pure (.reserve (loadingSlotBytes + needed) attempts, s)
    | some charge =>
      if charge < needed then
        if reserveAttempts < attempts + 1 then pure (.refused needed, s)
        else pure (.reserve (loadingSlotBytes + needed) (attempts + 1), s)
      else do
        let s ← s.mark cfg o charge
        pure (.load, s)

/-- The marker goes, whatever the load came to. -/
def unmark (s : ShardInner π) (o : Nat) : Section (ShardInner π) := do
  let s ← s.removeSlot o
  pure { s with pendingPushes := s.pendingPushes - 1 }

/-- Gives up pages until the shard's tables are paid for; every eviction shortens the ring. -/
def settleOrEvict : Nat → ShardInner π → Section (ShardInner π)
  | 0, s => pure s
  | fuel + 1, s => do
    let (ok, s) ← s.settleBookkeeping cfg
    if ok then pure s
    else do
      let (evicted, s) ← s.evictOne cfg
      match evicted with
      | none => pure s
      | some _ => settleOrEvict fuel s

/-- Gives up the page just published, when even an empty ring left its table unpaid. -/
def settleOrRemove (s : ShardInner π) (o : Nat) : Section (ShardInner π) := do
  let (ok, s) ← s.settleBookkeeping cfg
  if ok then pure s
  else
    match s.map.lookup o with
    | some (.ready _ bytes _) => do
      let s ← s.removeSlot o
      { s with resident := s.resident - bytes }.releaseBookkeeping cfg
    | _ => do
      let s ← s.removeSlot o
      s.releaseBookkeeping cfg

/-- A load that succeeded: its page takes the marker's place. -/
def publish (s : ShardInner π) (o : Nat) (pin : π) (bytes : Nat) : Section (ShardInner π) := do
  let s ← s.unmark o
  let s := { s with resident := s.resident + bytes }
  let s ← s.insertSlot o (.ready pin bytes true)
  let s ← s.pushBack o
  let s ← s.noteTable.evictDownToCapacity cfg
  let s ← s.settleOrEvict cfg (s.clock.length + 1)
  s.settleOrRemove cfg o

/-- A load that failed, or the guard of one that panicked. -/
def abandon (s : ShardInner π) (o : Nat) : Section (ShardInner π) := do
  let s ← s.unmark o
  s.releaseBookkeeping cfg

end ShardInner

/-! ## Threads at one shard -/

/-- A `get_or_load` call between two critical sections, with the charge and the attempts it
carries round the loop. -/
inductive Caller (π : Type) where
  /-- about to take the lock -/
  | entering (o : Nat) (charge : Option Nat) (attempts : Nat)
  /-- blocked on the shard's condition variable -/
  | waiting (o : Nat) (charge : Option Nat) (attempts : Nat) (notified : Bool)
  /-- reserving, with the lock released -/
  | reserving (o want attempts : Nat)
  /-- inside `load`, with the marker in -/
  | loading (o : Nat)
  /-- `load` returned a page that is still to be published -/
  | loaded (o : Nat) (pin : π) (bytes : Nat)
  /-- `load` failed or panicked, and the marker is still in -/
  | failed (o : Nat)
  /-- the marker is gone and the lock released; `notify_all` comes next -/
  | notifying (o : Nat)

/-- Everyone blocked on the condition variable has been notified. -/
def Caller.notified {π : Type} : Caller π → Caller π
  | .waiting o charge attempts _ => .waiting o charge attempts true
  | c => c

/-- Where a turn of the loop leaves its caller; a call that returned is gone. -/
def ShardInner.Entered.next {π : Type} (o : Nat) (charge : Option Nat) (attempts : Nat) :
    ShardInner.Entered π → Multiset (Caller π)
  | .hit _ => 0
  | .wait => {.waiting o charge attempts false}
  | .reserve want attempts => {.reserving o want attempts}
  | .refused _ => 0
  | .load => {.loading o}

/-- A shard and the calls in progress on it. -/
structure ShardSystem (π : Type) where
  inner : ShardInner π := {}
  callers : Multiset (Caller π) := 0

inductive ShardLabel (π : Type) where
  | called (o : Nat)
  | entered (o : Nat) (outcome : ShardInner.Entered π)
  | woke (o : Nat)
  | reserved (o : Nat)
  | unreserved (o : Nat)
  | loadReturned (o : Nat) (pin : π) (bytes : Nat)
  | loadFailed (o : Nat)
  | published (o : Nat) (pin : π) (bytes : Nat)
  | abandoned (o : Nat)
  | notifiedAll (o : Nat)
  | got (o : Nat) (found : Option π)
  | evicted (bytes : Option Nat)

/-- One critical section of one thread, or one thing a thread does between two of them. A
blocked thread may wake without having been notified. -/
inductive ShardStep {π : Type} (cfg : CacheConfig) : ShardSystem π → ShardLabel π → ShardSystem π → Prop
  | call (w : ShardSystem π) (o : Nat) :
      ShardStep cfg w (.called o) { w with callers := .entering o none 0 ::ₘ w.callers }
  | enter {w : ShardSystem π} {o : Nat} {charge : Option Nat} {attempts : Nat} {rest : Multiset (Caller π)}
      {outcome : ShardInner.Entered π} {inner : ShardInner π}
      (hcaller : w.callers = .entering o charge attempts ::ₘ rest)
      (hrun : (w.inner.enter cfg o charge attempts).Yields (outcome, inner)) :
      ShardStep cfg w (.entered o outcome) { inner, callers := outcome.next o charge attempts + rest }
  | wake {w : ShardSystem π} {o : Nat} {charge : Option Nat} {attempts : Nat} {notified : Bool}
      {rest : Multiset (Caller π)} (hcaller : w.callers = .waiting o charge attempts notified ::ₘ rest) :
      ShardStep cfg w (.woke o) { w with callers := .entering o charge attempts ::ₘ rest }
  | reserve {w : ShardSystem π} {o want attempts : Nat} {rest : Multiset (Caller π)} (charge : Nat)
      (hcaller : w.callers = .reserving o want attempts ::ₘ rest) :
      ShardStep cfg w (.reserved o) { w with callers := .entering o (some charge) attempts ::ₘ rest }
  | unreserve {w : ShardSystem π} {o want attempts : Nat} {rest : Multiset (Caller π)}
      (hcaller : w.callers = .reserving o want attempts ::ₘ rest) :
      ShardStep cfg w (.unreserved o) { w with callers := rest }
  | loadReturn {w : ShardSystem π} {o : Nat} {rest : Multiset (Caller π)} (pin : π) (bytes : Nat)
      (hcaller : w.callers = .loading o ::ₘ rest) :
      ShardStep cfg w (.loadReturned o pin bytes) { w with callers := .loaded o pin bytes ::ₘ rest }
  | loadFail {w : ShardSystem π} {o : Nat} {rest : Multiset (Caller π)} (hcaller : w.callers = .loading o ::ₘ rest) :
      ShardStep cfg w (.loadFailed o) { w with callers := .failed o ::ₘ rest }
  | publish {w : ShardSystem π} {o : Nat} {pin : π} {bytes : Nat} {rest : Multiset (Caller π)} {inner : ShardInner π}
      (hcaller : w.callers = .loaded o pin bytes ::ₘ rest) (hrun : (w.inner.publish cfg o pin bytes).Yields inner) :
      ShardStep cfg w (.published o pin bytes) { inner, callers := .notifying o ::ₘ rest }
  | abandon {w : ShardSystem π} {o : Nat} {rest : Multiset (Caller π)} {inner : ShardInner π}
      (hcaller : w.callers = .failed o ::ₘ rest) (hrun : (w.inner.abandon cfg o).Yields inner) :
      ShardStep cfg w (.abandoned o) { inner, callers := .notifying o ::ₘ rest }
  | notify {w : ShardSystem π} {o : Nat} {rest : Multiset (Caller π)} (hcaller : w.callers = .notifying o ::ₘ rest) :
      ShardStep cfg w (.notifiedAll o) { w with callers := rest.map Caller.notified }
  | get (w : ShardSystem π) (o : Nat) :
      ShardStep cfg w (.got o (w.inner.get o).1) { w with inner := (w.inner.get o).2 }
  | evict {w : ShardSystem π} {bytes : Option Nat} {inner : ShardInner π}
      (hrun : (w.inner.evictOne cfg).Yields (bytes, inner)) :
      ShardStep cfg w (.evicted bytes) { w with inner }

/-- Executions at one shard, from an empty one. -/
def ShardRun {π : Type} (cfg : CacheConfig) : List (Event (ShardSystem π) (ShardLabel π)) → ShardSystem π → Prop :=
  Run (fun w => w = {}) (ShardStep cfg)

end DryDb
