import DryDb.Lib.Act
import DryDb.Lib.Heap
import DryDb.Model.Encoding
/-!
# Bounded sorting of build input

`builder/spool.rs`. Records are buffered up to a budget, sorted and written out as a run of a
temporary file; runs of one level are merged as they pile up, and at the end the runs are
merged once more while the tree is written. A record that was buffered and then could not be
written spoils the spool.

What the machine decides is a `Fate`: which operations on temporary files fail, which
comparisons the key encoding gives up on beyond those it always refuses, how much memory an
allocation takes, and the sort of the standard library. Every spool has a fate of its own. A
slot of the buffer is the record it points at.
-/

namespace DryDb

/-! ## Records -/

/-- Header written before each spooled record: sequence, key length, value length. -/
def recordHeaderLen : Nat := 8 + 4 + 4

/-- One buffered record. -/
structure Record where
  /-- Append order, used to break ties between equal keys. -/
  seq : Nat
  key : Bytes
  value : Bytes
  deriving DecidableEq, Repr

/-- The bytes of a record in a run. The lengths are cast to 32 bits. -/
def Record.encode (r : Record) : Bytes :=
  leBytes 8 r.seq ++ leBytes 4 r.key.length ++ leBytes 4 r.value.length ++ r.key ++ r.value

/-- Memory one slot of the buffer takes. -/
def slotBytes : Nat := 40

/-- The order of two keys, with the order their records came in for a tie. A comparison that
fails counts as equal. -/
def KeyEncoding.order (enc : KeyEncoding) (aKey : Bytes) (aSeq : Nat) (bKey : Bytes) (bSeq : Nat) : Ordering :=
  match enc.compare aKey bKey with
  | .ok .eq => Ord.compare aSeq bSeq
  | .ok other => other
  | .error _ => .eq

/-- Why the comparison of two keys fails. -/
def KeyEncoding.refusal (enc : KeyEncoding) (a b : Bytes) : Option Error :=
  match enc.compare a b with
  | .ok _ => none
  | .error e => some e

/-! ## Fate -/

/-- One decision of the machine. -/
structure Draw where
  /-- The operation on a temporary file fails. -/
  fails : Bool := false
  /-- A comparison the encoding gave up on. -/
  refusal : Option Error := none
  /-- What an allocation takes beyond what it was asked for. -/
  spare : Nat := 0

/-- All decisions to come, and the sort. -/
structure Fate where
  draws : Nat → Draw := fun _ => {}
  sorter : Sorter Record := .insertion

namespace Fate

def next (f : Fate) : Fate := { f with draws := fun n => f.draws (n + 1) }

/-- One operation on a temporary file. -/
def io (what : String) : Act Fate Error Unit := ⟨fun f =>
  (if (f.draws 0).fails then .error (.io what) else .ok (), f.next)⟩

/-- Whether the encoding gave up on a comparison, given what the comparisons reported. -/
def compared (failure : Option Error) : Act Fate Error Unit := ⟨fun f =>
  (match failure.or (f.draws 0).refusal with
    | some e => .error e
    | none => .ok (), f.next)⟩

/-- What an allocation takes. -/
def allocate (needed : Nat) : Act Fate Error Nat := ⟨fun f => (.ok (needed + (f.draws 0).spare), f.next)⟩

/-- Reads exactly `len` bytes of a temporary file. -/
def readExact (file : Bytes) (pos len : Nat) : Act Fate Error Bytes := do
  io "cannot read the spool file"
  match slice file pos len with
  | some bytes => pure bytes
  | none => Act.fail (.io "cannot read the spool file")

end Fate

/-! ## Reading runs -/

/-- A sorted part of the spool file. -/
structure SpoolRun where
  start : Nat
  stop : Nat
  /-- How many times this run has been merged. -/
  level : Nat
  deriving DecidableEq, Repr

def SpoolRun.len (r : SpoolRun) : Nat := r.stop - r.start

/-- How many runs one merge pass reads at once. -/
def mergeFanIn : Nat := 16

/-- How much dead space the spool file carries before it is rewritten. -/
def compactAt : Nat := 2

/-- One record's header and key, plus where its value sits in the file. -/
structure Pending where
  seq : Nat
  key : Bytes
  valuePos : Nat
  valueLen : Nat
  deriving DecidableEq, Repr

structure RunReader where
  pos : Nat
  stop : Nat
  deriving DecidableEq, Repr

namespace RunReader

def new (run : SpoolRun) : RunReader := { pos := run.start, stop := run.stop }

/-- The record of a header at the position of the reader. -/
def readRecord (file : Bytes) (r : RunReader) (header : Bytes) : Act Fate Error (Option Pending × RunReader) := do
  let keyLen := ofLe ((header.drop 8).take 4)
  let valueLen := ofLe (header.drop 12)
  let total := recordHeaderLen + keyLen + valueLen
  if r.stop < r.pos + total then Act.fail (.corrupt "spool run is truncated") else do
  let key ← Fate.readExact file (r.pos + recordHeaderLen) keyLen
  pure (some { seq := ofLe (header.take 8), key, valuePos := r.pos + (recordHeaderLen + keyLen), valueLen },
    { r with pos := r.pos + total })

def readNext (file : Bytes) (r : RunReader) : Act Fate Error (Option Pending × RunReader) :=
  if r.stop ≤ r.pos then pure (none, r) else do
  Fate.io "cannot position the spool file"
  let header ← Fate.readExact file r.pos recordHeaderLen
  r.readRecord file header

end RunReader

def readValue (file : Bytes) (p : Pending) : Act Fate Error Bytes := do
  Fate.io "cannot position the spool file"
  Fate.readExact file p.valuePos p.valueLen

/-! ## Merging -/

/-- A run being merged: its reader, and the record in front. -/
structure Lane where
  reader : RunReader
  front : Option Pending

/-- Merges sorted runs with a binary min-heap over `(key, sequence)`. The heap holds the
numbers of the lanes that have a record in front. -/
structure Merger where
  encoding : KeyEncoding
  lanes : List Lane
  heap : List Nat := []
  failure : Option Error := none

namespace Merger

/-- The record in front of a lane. -/
def front (lanes : List Lane) (run : Nat) : Option Pending := lanes[run]? >>= Lane.front

/-- Whether lane `a` comes before lane `b`. The first failure is the one kept. -/
def before (enc : KeyEncoding) (lanes : List Lane) (a b : Nat) (failure : Option Error) : Bool × Option Error :=
  match front lanes a, front lanes b with
  | some ra, some rb => (enc.order ra.key ra.seq rb.key rb.seq == .lt, failure.or (enc.refusal ra.key rb.key))
  | _, _ => (false, failure)

/-- Puts a new heap in place. -/
def withHeap (m : Merger) (h : List Nat × Option Error) : Merger := { m with heap := h.1, failure := h.2 }

def siftDown (m : Merger) (i : Nat) : Merger :=
  m.withHeap (DryDb.siftDown (before m.encoding m.lanes) m.heap.length i (m.heap, m.failure))

/-- Reports what the comparisons so far reported. -/
def check (m : Merger) : Act Fate Error Merger := do
  Fate.compared m.failure
  pure { m with failure := none }

/-- The first record of every run. -/
def fill (file : Bytes) : List RunReader → Act Fate Error (List Lane)
  | [] => pure []
  | r :: rest => do
    let (front, reader) ← r.readNext file
    let lanes ← fill file rest
    pure ({ reader, front } :: lanes)

/-- The numbers of the lanes with a record in front. -/
def waiting (lanes : List Lane) : List Nat :=
  (List.range lanes.length).filter fun run => (front lanes run).isSome

def new (encoding : KeyEncoding) (file : Bytes) (readers : List RunReader) : Act Fate Error Merger := do
  let lanes ← fill file readers
  let m : Merger := { encoding, lanes }
  let heap := waiting lanes
  (m.withHeap (heapify (before encoding lanes) (heap.length / 2) (heap, none))).check

/-- Reads the next record of a lane to its front. -/
def refill (file : Bytes) (run : Nat) (lane : Lane) (m : Merger) : Act Fate Error Merger := do
  let (front, reader) ← lane.reader.readNext file
  pure { m with lanes := m.lanes.set run { reader, front } }

/-- Takes a lane without records off the top of the heap, or lets a lane with a new front
find its place. -/
def settle (run : Nat) (m : Merger) : Merger :=
  if (front m.lanes run).isNone then
    match m.heap.getLast?, m.heap.dropLast with
    | some last, _ :: rest => { m with heap := last :: rest }.siftDown 0
    | _, heap => { m with heap }
  else m.siftDown 0

def nextPending (file : Bytes) (m : Merger) : Act Fate Error (Option Pending × Merger) :=
  match m.heap.head? >>= fun run => (m.lanes[run]?).map fun lane => (run, lane) with
  | none => pure (none, m)
  | some (run, lane) => do
    let m ← refill file run lane m
    let m ← (m.settle run).check
    pure (lane.front, m)

/-- The next record in order, reading its value from the file as it is emitted. -/
def nextRecord (file : Bytes) (m : Merger) : Act Fate Error (Option Record × Merger) := do
  match ← m.nextPending file with
  | (none, m) => pure (none, m)
  | (some p, m) => do
    let value ← readValue file p
    pure (some { seq := p.seq, key := p.key, value }, m)

/-- Writes out everything that is left. A record takes at least its header, so the runs
bound the number of turns. -/
def drain (file : Bytes) : Nat → Merger → Bytes → Act Fate Error Bytes
  | 0, _, out => pure out
  | turns + 1, m, out => do
    match ← m.nextRecord file with
    | (none, _) => pure out
    | (some r, m) => do
      Fate.io "cannot write to the spool file"
      drain file turns m (out ++ r.encode)

/-- Merges runs of a file and writes the records out. -/
def mergeRuns (encoding : KeyEncoding) (file : Bytes) (runs : List SpoolRun) : Act Fate Error Bytes := do
  let m ← new encoding file (runs.map RunReader.new)
  let out ← drain file ((runs.map SpoolRun.len).sum + 1) m []
  Fate.io "cannot flush the spool file"
  pure out

end Merger

/-- `runs.chunks(group)`. -/
def chunks (group : Nat) : Nat → List SpoolRun → List (List SpoolRun)
  | 0, _ => []
  | _, [] => []
  | turns + 1, runs => runs.take group :: chunks group turns (runs.drop group)

/-- The level of a merged group: one more merge for all of them, unless it is a single run. -/
def mergedLevel : List SpoolRun → Nat
  | [run] => run.level
  | group => (group.map SpoolRun.level).foldl max 0 + 1

/-- Merges groups of runs one after another behind `out`. -/
def mergeChunks (encoding : KeyEncoding) (input : Bytes) : List (List SpoolRun) → Bytes → Act Fate Error (Bytes × List SpoolRun)
  | [], out => pure (out, [])
  | group :: rest, out => do
    let merged ← Merger.mergeRuns encoding input group
    let (file, runs) ← mergeChunks encoding input rest (out ++ merged)
    pure (file, { start := out.length, stop := out.length + merged.length, level := mergedLevel group } :: runs)

/-- Merges runs in groups into a fresh file, leaving the input untouched. -/
def mergeGroups (encoding : KeyEncoding) (input : Bytes) (runs : List SpoolRun) (group : Nat) :
    Act Fate Error (Bytes × List SpoolRun) := do
  Fate.io "cannot create a temporary file"
  mergeChunks encoding input (chunks group runs.length runs) []

/-! ## The spool -/

/-- The smallest budget a spool works with. -/
def minSpoolBudget : Nat := 64 * 1024

/-- Collects records and hands them back in key order. -/
structure RecordSpool where
  encoding : KeyEncoding
  /-- The buffer. -/
  records : List Record := []
  /-- What the buffer has allocated. -/
  buffered : Nat := 0
  runs : List SpoolRun := []
  file : Option Bytes := none
  writePos : Nat := 0
  budget : Nat
  nextSeq : Nat := 0
  count : Nat := 0
  /-- What went wrong, once something has. -/
  spoiled : Option ErrorKind := none
  /-- Every byte the spool has written to disk, spills and merges alike. -/
  written : Nat := 0
  fate : Fate := {}

/-- A sorted stream of records. -/
inductive SortedRecords where
  /-- Everything fitted in the buffer. -/
  | memory (records : List Record) (held : Nat) (fate : Fate)
  /-- Several spilled runs, merged on the fly. -/
  | merged (file : Bytes) (merger : Merger) (fate : Fate)

namespace RecordSpool

/-- Code on a spool. -/
abbrev Do (α : Type) := Act RecordSpool Error α

def new (encoding : KeyEncoding) (budget : Nat) (fate : Fate) : RecordSpool :=
  { encoding, budget := max budget minSpoolBudget, fate }

def setBudget (s : RecordSpool) (budget : Nat) : RecordSpool := { s with budget := max budget minSpoolBudget }

/-- Number of records appended. -/
def len (s : RecordSpool) : Nat := s.count

/-- What the buffer holds: the record payload and the bookkeeping beside it. -/
def bufferedBytes (s : RecordSpool) : Nat := s.buffered

/-- Lets the machine decide. -/
def decided {α : Type} (x : Act Fate Error α) : Do α :=
  Act.zoom fate (fun f s => { s with fate := f }) x

/-- Whether anything more can be done with this spool. -/
def checkUsable (s : RecordSpool) : Result Unit :=
  match s.spoiled with
  | none => .ok ()
  | some kind => .error (.new kind
      ("a row could not be written and cannot be taken back, so this build " ++
        "cannot go on; start it again"))

/-- The comparison of the buffer's sort. -/
def order (enc : KeyEncoding) (a b : Record) : Ordering := enc.order a.key a.seq b.key b.seq

/-- The first failure among the comparisons a sort makes. -/
def sortFailure (s : RecordSpool) : Option Error :=
  (s.fate.sorter.asked (order s.encoding) s.records).findSome? fun pair => s.encoding.refusal pair.1.key pair.2.key

def sortBuffer : Do Unit := do
  let s ← Act.get
  Act.modify fun s => { s with records := s.fate.sorter.sort (order s.encoding) s.records }
  decided (Fate.compared s.sortFailure)

/-- Creates the spool file if there is none yet. -/
def createFile : Do Unit := do
  let s ← Act.get
  if s.file.isNone then do
    decided (Fate.io "cannot create a temporary file")
    Act.modify fun s => { s with file := some [] }
  else pure ()

/-- Writes bytes at the write position and moves it on. -/
def append (s : RecordSpool) (bytes : Bytes) : RecordSpool :=
  { s with file := some (overwrite (s.file.getD []) s.writePos bytes), writePos := s.writePos + bytes.length }

/-- Writes the records of the buffer out one by one. -/
def writeRecords : List Record → Do Unit
  | [] => decided (Fate.io "cannot flush the spool file")
  | r :: rest => do
    decided (Fate.io "cannot write to the spool file")
    Act.modify fun s => s.append r.encode
    writeRecords rest

/-- Merges the last `count` runs into one, appended to the spool file. -/
def mergeTail (count level : Nat) : Do Unit := do
  let s ← Act.get
  let keep := s.runs.length - count
  decided (Fate.io "cannot open the spool file for merging")
  decided (Fate.io "cannot position the spool file")
  let merged ← decided (Merger.mergeRuns s.encoding (s.file.getD []) (s.runs.drop keep))
  Act.modify fun s =>
    { s.append merged with
      runs := s.runs.take keep ++ [{ start := s.writePos, stop := s.writePos + merged.length, level }]
      written := s.written + merged.length }

/-- Puts the runs of a fresh file in the place of the old ones. -/
def replaceRuns (group : Nat) : Do Unit := do
  let s ← Act.get
  let (file, runs) ← decided (mergeGroups s.encoding (s.file.getD []) s.runs group)
  Act.modify fun s => { s with file := some file, runs, writePos := file.length, written := s.written + file.length }

/-- Writes the live runs out to a fresh file, leaving the dead space behind. -/
def rewrite : Do Unit := replaceRuns 1

/-- Whether the newest runs are enough of one level to be merged. -/
def tierFull (runs : List SpoolRun) : Option Nat :=
  match runs.drop (runs.length - mergeFanIn) with
  | [] => none
  | run :: rest =>
    if mergeFanIn ≤ runs.length ∧ rest.all (fun r => r.level == run.level) then some run.level else none

/-- Merges the newest runs if they are enough of one level. -/
def mergeNewest : Do Bool := do
  let s ← Act.get
  match tierFull s.runs with
  | none => pure false
  | some level => do
    mergeTail mergeFanIn (level + 1)
    pure true

/-- The merge loop of `mergeTiers`. A merge leaves fewer runs, which bounds the turns. -/
def mergeFull (turns : Nat) : Do Unit := Act.repeatWhile mergeNewest turns

/-- Rewrites the file when too much of it is dead space. -/
def compact : Do Unit := do
  let s ← Act.get
  let live := (s.runs.map SpoolRun.len).sum
  if live * compactAt < s.writePos ∧ 1 < s.runs.length then rewrite else pure ()

/-- Merges the newest runs whenever enough of the same level have piled up. -/
def mergeTiers : Do Unit := do
  let s ← Act.get
  mergeFull s.runs.length
  compact

/-- The buffer as a run from `start` on. -/
def closeRun (start : Nat) (s : RecordSpool) : RecordSpool :=
  { s with
    runs := s.runs ++ [{ start, stop := s.writePos, level := 0 }]
    records := []
    buffered := 0
    written := s.written + (s.writePos - start) }

/-- Sorts the buffer and writes it out as one run. -/
def writeRun : Do Unit := do
  sortBuffer
  createFile
  decided (Fate.io "cannot position the spool file")
  let s ← Act.get
  writeRecords s.records
  Act.modify (closeRun s.writePos)

def spill : Do Unit := do
  let s ← Act.get
  if s.records = [] then pure () else do
  writeRun
  mergeTiers

/-- A write that fails cannot be taken back: the spool is done for. -/
def spillOrSpoil : Do Unit := do
  match ← spill.attempt with
  | .ok () => pure ()
  | .error e => do
    Act.modify fun s => { s with spoiled := some e.kind }
    Act.fail e

/-- Takes a record into the buffer. -/
def buffer (key value : Bytes) : Do Unit := do
  Act.modify fun s =>
    { s with
      records := s.records ++ [{ seq := s.nextSeq, key, value }]
      nextSeq := (s.nextSeq + 1) % 2 ^ 64
      count := s.count + 1 }
  let s ← Act.get
  let held ← decided (Fate.allocate
    ((s.records.map fun r => r.key.length + r.value.length).sum + s.records.length * slotBytes))
  Act.modify fun s => { s with buffered := held }

/-- Appends a record. -/
def push (key value : Bytes) : Do Unit := do
  let s ← Act.get
  s.checkUsable
  s.encoding.validateKey key
  let _ ← s.encoding.digest key
  buffer key value
  let s ← Act.get
  if s.budget ≤ s.bufferedBytes then spillOrSpoil else pure ()

/-- Writes the buffer out now, whatever it holds. -/
def flush : Do Unit := do
  let s ← Act.get
  s.checkUsable
  spillOrSpoil

/-- One pass of `reduceRuns`, unless few enough runs remain. -/
def reduceOnce : Do Bool := do
  let s ← Act.get
  if mergeFanIn < s.runs.length then do
    replaceRuns mergeFanIn
    pure true
  else pure false

/-- Merges runs in groups until at most `mergeFanIn` remain. A pass leaves fewer runs. -/
def reduceRuns (turns : Nat) : Do Unit := Act.repeatWhile reduceOnce turns

/-- Finishes collecting and returns the records in `(key, sequence)` order. -/
def intoSorted : Do SortedRecords := do
  let s ← Act.get
  s.checkUsable
  if s.runs = [] then do
    sortBuffer
    let s ← Act.get
    pure (.memory s.records s.buffered s.fate)
  else do
    spill
    reduceRuns s.runs.length
    let s ← Act.get
    let file := s.file.getD []
    let m ← decided (Merger.new s.encoding file (s.runs.map RunReader.new))
    let s ← Act.get
    pure (.merged file m s.fate)

end RecordSpool

/-- More than the records left on a lane: the one in front, and a byte for each behind it. -/
def Lane.left (lane : Lane) : Nat := lane.front.toList.length + (lane.reader.stop - lane.reader.pos)

namespace SortedRecords

/-- More than the records still to come. -/
def left : SortedRecords → Nat
  | memory records _ _ => records.length
  | merged _ m _ => (m.lanes.map Lane.left).sum

/-- What the records being read hold in memory. -/
def heldBytes : SortedRecords → Nat
  | memory _ held _ => held
  | merged _ _ _ => 0

/-- The next record and the rest of the stream, or `none` at its end. -/
def nextRecord : SortedRecords → Result (Option (Record × SortedRecords))
  | memory [] _ _ => .ok none
  | memory (r :: rest) held fate => .ok (some (r, memory rest held fate))
  | merged file m fate =>
    match (m.nextRecord file).run fate with
    | (.error e, _) => .error e
    | (.ok (none, _), _) => .ok none
    | (.ok (some r, m), fate) => .ok (some (r, merged file m fate))

end SortedRecords

end DryDb
