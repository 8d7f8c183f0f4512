import DryDb.Lib.Runs
/-!
# The memory budget

`budget.rs`: the shared counter, the charges taken on it, and the `Bookkeeping` that keeps
one charge in step with a table. Charges are owned, so only the counter and the recorded
peak are shared between threads; an operation is its place in the code (`Pc`) together with
what it owns, and threads interleave at the atomic instructions.
-/

namespace DryDb

/-! ## Data -/

/-- A shared byte budget. -/
structure Budget where
  limit : UInt64
  used : UInt64
  peak : UInt64
deriving DecidableEq

def Budget.new (limit : UInt64) : Budget := { limit, used := 0, peak := 0 }

/-- What a refused reservation reports. -/
structure BudgetInfo where
  requested : UInt64
  inUse : UInt64
  limit : UInt64
  retryable : Bool
deriving DecidableEq

/-- A live reservation. -/
structure Charge where
  bytes : UInt64
deriving DecidableEq

/-- A charge kept in step with what a structure has allocated. -/
structure Bookkeeping where
  charge : Option Charge := none
deriving DecidableEq

def Bookkeeping.bytes (b : Bookkeeping) : UInt64 :=
  match b.charge with
  | some c => c.bytes
  | none => 0

/-- What a thread owns between two operations. -/
inductive Owned where
  | charge (c : Charge)
  | book (b : Bookkeeping)
deriving DecidableEq

def Owned.bytes : Owned → Nat
  | .charge c => c.bytes.toNat
  | .book b => b.bytes.toNat

/-! ## The atomic instructions -/

/-- The counter a reservation would bring `used` to, when that is inside the limit. -/
def Budget.reserved (b : Budget) (used bytes : UInt64) : Option UInt64 :=
  if used.toNat + bytes.toNat < 2 ^ 64 ∧ used + bytes ≤ b.limit then some (used + bytes) else none

/-- The next instruction of an operation. -/
inductive Pc where
  /-- `take`, before it has read the counter -/
  | load (bytes : UInt64)
  /-- `take`, with the counter as it last read it -/
  | exchange (bytes used : UInt64)
  /-- `take`, between the exchange and the peak -/
  | record (next : UInt64)
  /-- `release` -/
  | release (bytes : UInt64)
  /-- nothing shared is left to do -/
  | finished
deriving DecidableEq

/-- What an instruction leads to. -/
inductive Turn where
  | goOn (pc : Pc)
  | returned
  | refused (info : BudgetInfo)
deriving DecidableEq

/-- One instruction. A weak exchange may fail although the counter is as expected. -/
def Pc.turn (b : Budget) (spurious : Bool) : Pc → Budget × Turn
  | .load bytes => (b, .goOn (.exchange bytes b.used))
  | .exchange bytes used =>
    match b.reserved used bytes with
    | none =>
      (b, .refused { requested := bytes, inUse := used, limit := b.limit, retryable := decide (bytes ≤ b.limit) })
    | some next =>
      if b.used = used ∧ spurious = false then ({ b with used := next }, .goOn (.record next))
      else (b, .goOn (.exchange bytes b.used))
  | .record next => ({ b with peak := max b.peak next }, .returned)
  | .release bytes => ({ b with used := b.used - bytes }, .returned)
  | .finished => (b, .returned)

/-! ## The operations -/

/-- An operation and what it was given. -/
inductive Call where
  | tryReserve (bytes : UInt64)
  | grow (c : Charge) (bytes : UInt64)
  | shrink (c : Charge) (bytes : UInt64)
  | absorb (c other : Charge)
  | drop (c : Charge)
  | newBook
  | bookAbsorb (b : Bookkeeping) (c : Charge)
  | settle (b : Bookkeeping) (want : UInt64)
  | dropBook (b : Bookkeeping)
deriving DecidableEq

/-- What the operation owns or borrows while it runs. -/
def Call.held : Call → Multiset Owned
  | .tryReserve _ => 0
  | .grow c _ => {.charge c}
  | .shrink c _ => {.charge c}
  | .absorb c other => {.charge c, .charge other}
  | .drop c => {.charge c}
  | .newBook => 0
  | .bookAbsorb b c => {.book b, .charge c}
  | .settle b _ => {.book b}
  | .dropBook b => {.book b}

/-- Bytes a `shrink` gives back: never more than the charge holds. -/
def Charge.givenBack (c : Charge) (bytes : UInt64) : UInt64 := min bytes c.bytes

/-- What `settle` does to its charge. -/
inductive Settling where
  | grow (c : Charge) (bytes : UInt64)
  | reserve (bytes : UInt64)
  | clear (c : Charge)
  | shrink (c : Charge) (bytes : UInt64)
  | nothing

def Bookkeeping.settling (b : Bookkeeping) (want : UInt64) : Settling :=
  let held := b.bytes
  if held < want then
    match b.charge with
    | some c => .grow c (want - held)
    | none => .reserve want
  else if want < held then
    match b.charge with
    | some c => if want = 0 then .clear c else .shrink c (held - want)
    | none => .nothing
  else .nothing

/-- The first shared instruction of an operation. Absorbing a charge drops it empty, which
releases nothing. -/
def Call.enter : Call → Pc
  | .tryReserve bytes => .load bytes
  | .grow _ bytes => .load bytes
  | .shrink c bytes => .release (c.givenBack bytes)
  | .absorb _ _ => .release 0
  | .drop c => .release c.bytes
  | .newBook => .finished
  | .bookAbsorb b _ =>
    match b.charge with
    | some _ => .release 0
    | none => .finished
  | .settle b want =>
    match b.settling want with
    | .grow _ bytes => .load bytes
    | .reserve bytes => .load bytes
    | .clear c => .release c.bytes
    | .shrink c bytes => .release (c.givenBack bytes)
    | .nothing => .finished
  | .dropBook b =>
    match b.charge with
    | some c => .release c.bytes
    | none => .finished

def Charge.grown (c : Charge) (bytes : UInt64) : Charge := { bytes := c.bytes + bytes }

def Charge.shrunk (c : Charge) (bytes : UInt64) : Charge := { bytes := c.bytes - c.givenBack bytes }

/-- What the operation hands back when it succeeds. -/
def Call.result : Call → Multiset Owned
  | .tryReserve bytes => {.charge { bytes }}
  | .grow c bytes => {.charge (c.grown bytes)}
  | .shrink c bytes => {.charge (c.shrunk bytes)}
  | .absorb c other => {.charge (c.grown other.bytes)}
  | .drop _ => 0
  | .newBook => {.book {}}
  | .bookAbsorb b c =>
    match b.charge with
    | some held => {.book { charge := some (held.grown c.bytes) }}
    | none => {.book { charge := some c }}
  | .settle b want =>
    match b.settling want with
    | .grow c bytes => {.book { charge := some (c.grown bytes) }}
    | .reserve bytes => {.book { charge := some { bytes } }}
    | .clear _ => {.book { charge := none }}
    | .shrink c bytes => {.book { charge := some (c.shrunk bytes) }}
    | .nothing => {.book b}
  | .dropBook _ => 0

/-! ## Interleavings -/

/-- An operation in progress. -/
structure Task where
  id : Nat
  call : Call
  pc : Pc
deriving DecidableEq

/-- The budget, what the threads own, and the operations in progress. -/
structure Ledger where
  budget : Budget
  owned : Multiset Owned := 0
  tasks : Multiset Task := 0
  nextId : Nat := 0

inductive LedgerLabel where
  | begun (id : Nat) (call : Call)
  | worked (id : Nat)
  | returned (id : Nat) (call : Call)
  | refused (id : Nat) (call : Call) (info : BudgetInfo)

def LedgerLabel.id : LedgerLabel → Nat
  | .begun id _ => id
  | .worked id => id
  | .returned id _ => id
  | .refused id _ _ => id

/-- One thread starts an operation on what it owns, or one operation in progress executes
its next instruction. A refused operation leaves what it was given as it was. -/
inductive LedgerStep : Ledger → LedgerLabel → Ledger → Prop
  | begin {w : Ledger} {call : Call} {rest : Multiset Owned} (howned : w.owned = call.held + rest) :
      LedgerStep w (.begun w.nextId call)
        { w with owned := rest, tasks := ⟨w.nextId, call, call.enter⟩ ::ₘ w.tasks, nextId := w.nextId + 1 }
  | goOn {w : Ledger} {task : Task} {rest : Multiset Task} {spurious : Bool} {b : Budget} {pc : Pc}
      (htask : w.tasks = task ::ₘ rest) (hturn : task.pc.turn w.budget spurious = (b, .goOn pc)) :
      LedgerStep w (.worked task.id) { w with budget := b, tasks := { task with pc } ::ₘ rest }
  | returned {w : Ledger} {task : Task} {rest : Multiset Task} {spurious : Bool} {b : Budget}
      (htask : w.tasks = task ::ₘ rest) (hturn : task.pc.turn w.budget spurious = (b, .returned)) :
      LedgerStep w (.returned task.id task.call)
        { w with budget := b, tasks := rest, owned := task.call.result + w.owned }
  | refused {w : Ledger} {task : Task} {rest : Multiset Task} {spurious : Bool} {b : Budget} {info : BudgetInfo}
      (htask : w.tasks = task ::ₘ rest) (hturn : task.pc.turn w.budget spurious = (b, .refused info)) :
      LedgerStep w (.refused task.id task.call info)
        { w with budget := b, tasks := rest, owned := task.call.held + w.owned }

/-- Runs of one budget. -/
def LedgerRun (limit : UInt64) : List (Event Ledger LedgerLabel) → Ledger → Prop :=
  Run (fun w => w = { budget := Budget.new limit }) LedgerStep

end DryDb
