import DryDb.Model.Store
/-!
# The file a database is built into

`builder/sink.rs`. Pages are appended in one forward pass and their offsets are
spooled for the page directory. The only writes that go back are the patches: the
right sibling of a page already written, the root ordinals of the catalog, and the
page count and directory position of the header.

Writing to the output file succeeds here; what can fail is the directory's page
limit, the page filter and the length of a filtered page.
-/

namespace DryDb

/-- The file being built, with the directory spooled beside it. -/
structure PageSink where
  file : Bytes := []
  /-- Offset of every page begun so far, by ordinal. -/
  directory : List Nat := []
  filter : Option PageFilter := none

namespace PageSink

/-- Current write position. -/
def pos (s : PageSink) : Nat := s.file.length

/-- Appends raw bytes. -/
def writeRaw (s : PageSink) (bytes : Bytes) : PageSink := { s with file := s.file ++ bytes }

/-- Assigns the next page ordinal for a page starting at the current position. The
directory refuses a count that does not fit the header's `i32`. -/
def beginPage (s : PageSink) : Result (Nat × Nat × PageSink) :=
  if i32Max ≤ s.directory.length then
    .error (.new .valueTooLarge
      "the format stores the page count as a signed 32-bit integer; this build would exceed it")
  else .ok (s.directory.length, s.pos, { s with directory := s.directory ++ [s.pos] })

/-- A page as a filter stores it: the prefix raw, with the stored length, and the rest
encoded. -/
def filteredPage (filter : PageFilter) (page : Bytes) : Result Bytes := do
  let payload ← filter.encode (page.drop pagePrefixLen)
  let total := pagePrefixLen + payload.length
  if i32Max < total then
    .error (.new .valueTooLarge "a filtered page is larger than the format's 32-bit page length") else
  .ok (leBytes 4 total ++ (page.take pagePrefixLen).drop 4 ++ payload)

/-- The bytes one page takes in the file. -/
def storedPage (filter : Option PageFilter) (page : Bytes) : Result Bytes :=
  match filter with
  | none => .ok page
  | some filter => filteredPage filter page

/-- Writes one page, applying the configured filter to everything after the prefix. -/
def writePage (s : PageSink) (page : Bytes) : Result PageSink := s.writeRaw <$> storedPage s.filter page

/-- Overwrites bytes already written, without moving the append position. -/
def patchAt (s : PageSink) (offset : Nat) (bytes : Bytes) : PageSink :=
  { s with file := overwrite s.file offset bytes }

/-- Writes the page directory section. Returns its offset and the page count. -/
def finishDirectory (s : PageSink) : Nat × Nat × PageSink :=
  (s.pos, s.directory.length,
    { s with file := s.file ++ s.directory.flatMap (leBytes directorySlotLen), directory := [] })

end PageSink

end DryDb
