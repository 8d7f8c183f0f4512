import DryDb.Model.Sink
/-!
# The output file, byte by byte

`builder/sink.rs` one level below `Model.Sink`: the output file behind a `BufWriter`, with a
position that patches move and put back, and the page directory as bytes that spill to a
temporary file once they come to `threshold`. Operations on files succeed.
-/

namespace DryDb

/-! ## Buffered output -/

/-- A file and what has been written to its buffer but not to it. -/
structure BufWriter where
  file : Bytes := []
  /-- Where the next write to the file goes. -/
  cursor : Nat := 0
  buffer : Bytes := []

namespace BufWriter

/-- `1 << 20`. -/
def capacity : Nat := 2 ^ 20

/-- Writes to the file itself. -/
def fileWrite (w : BufWriter) (bytes : Bytes) : BufWriter :=
  { w with file := overwrite w.file w.cursor bytes, cursor := w.cursor + bytes.length }

def flush (w : BufWriter) : BufWriter := { w.fileWrite w.buffer with buffer := [] }

/-- Makes room in the buffer; bytes that would fill it go to the file directly. -/
def writeAll (w : BufWriter) (bytes : Bytes) : BufWriter :=
  let w := if capacity - w.buffer.length < bytes.length then w.flush else w
  if capacity ≤ bytes.length then w.fileWrite bytes else { w with buffer := w.buffer ++ bytes }

def seek (w : BufWriter) (cursor : Nat) : BufWriter := { w with cursor }

end BufWriter

/-! ## The page directory -/

/-- Collects page offsets, spilling them once `threshold` bytes are in memory. -/
structure DirectorySpool where
  buffer : Bytes := []
  file : Option Bytes := none
  spilledBytes : Nat := 0
  count : Nat := 0
  threshold : Nat

namespace DirectorySpool

def new (threshold : Nat) : DirectorySpool := { threshold := max threshold directorySlotLen }

def spill (s : DirectorySpool) : DirectorySpool :=
  if s.buffer = [] then s
  else
    { s with
      file := some (overwrite (s.file.getD []) s.spilledBytes s.buffer)
      spilledBytes := s.spilledBytes + s.buffer.length
      buffer := [] }

/-- Records a page's file offset and returns its ordinal. -/
def push (s : DirectorySpool) (offset : Nat) : Result (Nat × DirectorySpool) :=
  if i32Max ≤ s.count then
    .error (.new .valueTooLarge
      "the format stores the page count as a signed 32-bit integer; this build would exceed it")
  else
    let pushed := { s with buffer := s.buffer ++ leBytes directorySlotLen offset, count := s.count + 1 }
    .ok (s.count, if pushed.threshold ≤ pushed.buffer.length then pushed.spill else pushed)

/-- `256 * 1024`. -/
def copyChunk : Nat := 2 ^ 18

/-- Copies `remaining` bytes of the spilled directory from `cursor` on, a chunk at a time. -/
def copySpilled (file : Bytes) : Nat → Nat → Nat → BufWriter → Result BufWriter
  | 0, _, _, out => .ok out
  | turns + 1, cursor, remaining, out =>
    if remaining = 0 then .ok out
    else do
      let want := min copyChunk remaining
      let chunk ← okOr (slice file cursor want) (Error.io "cannot read the page directory spool")
      copySpilled file turns (cursor + want) (remaining - want) (out.writeAll chunk)

/-- Copies what was spilled. Every turn takes at least one byte. -/
def spilledInto (s : DirectorySpool) (out : BufWriter) : Result BufWriter :=
  match s.file with
  | some file => copySpilled file s.spilledBytes 0 s.spilledBytes out
  | none => .ok out

/-- Streams the directory section into `out`. -/
def writeInto (s : DirectorySpool) (out : BufWriter) : Result BufWriter := do
  let out ← s.spilledInto out
  .ok (out.writeAll s.buffer)

end DirectorySpool

/-! ## The sink -/

/-- The file a database is being built into. -/
structure FileSink where
  writer : BufWriter := {}
  pos : Nat := 0
  filter : Option PageFilter
  directory : DirectorySpool

namespace FileSink

def new (filter : Option PageFilter) (directory : DirectorySpool) : FileSink := { filter, directory }

/-- Appends raw bytes. -/
def writeRaw (s : FileSink) (bytes : Bytes) : FileSink :=
  { s with writer := s.writer.writeAll bytes, pos := s.pos + bytes.length }

/-- Assigns the next page ordinal for a page starting at the current position. -/
def beginPage (s : FileSink) : Result (Nat × Nat × FileSink) := do
  let (ordinal, directory) ← s.directory.push s.pos
  .ok (ordinal, s.pos, { s with directory })

/-- Writes one page, applying the configured filter to everything after the prefix and
rewriting the stored length. -/
def writePage (s : FileSink) (page : Bytes) : Result FileSink :=
  match s.filter with
  | none => .ok (s.writeRaw page)
  | some filter => do
    let payload ← filter.encode (page.drop pagePrefixLen)
    let total := pagePrefixLen + payload.length
    if i32Max < total then
      .error (.new .valueTooLarge "a filtered page is larger than the format's 32-bit page length") else
    .ok ((s.writeRaw (leBytes 4 total ++ (page.take pagePrefixLen).drop 4)).writeRaw payload)

/-- Overwrites bytes already written, without moving the append position. -/
def patchAt (s : FileSink) (offset : Nat) (bytes : Bytes) : FileSink :=
  { s with writer := ((s.writer.flush.seek offset).fileWrite bytes).seek s.pos }

def flush (s : FileSink) : FileSink := { s with writer := s.writer.flush }

/-- Writes the page directory section and returns its offset and page count. -/
def finishDirectory (s : FileSink) : Result (Nat × Nat × FileSink) := do
  let writer ← s.directory.writeInto s.writer
  let written := s.directory.spilledBytes + s.directory.buffer.length
  .ok (s.pos, s.directory.count,
    { s with writer, pos := s.pos + written, directory := .new directorySlotLen })

/-- The end of `build_into`: the directory, the header's page count and directory position, and
what is left in the buffer. Returns the directory's offset, the page count and the file. -/
def finishFile (s : FileSink) : Result (Nat × Nat × Bytes) := do
  let (position, count, s) ← s.finishDirectory
  if i32Max < count then .error (.invalid "more than 2^31-1 pages") else
  let s := (s.patchAt pageCountFieldOffset (leBytes 4 count ++ leBytes 8 position)).flush
  .ok (position, count, s.writer.file)

end FileSink

end DryDb
