import DryDb.Lib.Bytes
/-!
# Errors, constants and checked reads

`error.rs` and `format/mod.rs`. A `usize` or `u64` is a natural number; the
checked operations of the source refuse results of `2 ^ 64` and above.
-/

namespace DryDb

/-! ## Errors -/

/-- Categories of failure. -/
inductive ErrorKind where
  | io | unsupportedFormat | unknownEncoding | unknownFilter | corruptData | budgetExceeded
  | valueTooLarge | schemaMismatch | archiveValidation | invalidArgument | unsupported
  deriving DecidableEq, Repr

def ErrorKind.asStr : ErrorKind → String
  | .io => "io"
  | .unsupportedFormat => "unsupported format"
  | .unknownEncoding => "unknown key encoding"
  | .unknownFilter => "unknown page filter"
  | .corruptData => "corrupt data"
  | .budgetExceeded => "memory budget exceeded"
  | .valueTooLarge => "value too large"
  | .schemaMismatch => "schema mismatch"
  | .archiveValidation => "archive validation failed"
  | .invalidArgument => "invalid argument"
  | .unsupported => "unsupported"

/-- Where a failure was observed. -/
structure Location where
  page : Option Nat := none
  offset : Option Nat := none
  deriving DecidableEq, Repr

structure Error where
  kind : ErrorKind
  message : String
  location : Location := {}
  deriving DecidableEq, Repr

namespace Error

def new (kind : ErrorKind) (message : String) : Error := { kind, message }

def corrupt (message : String) : Error := new .corruptData message

def invalid (message : String) : Error := new .invalidArgument message

def io (message : String) : Error := new .io message

/-- Attaches the page ordinal the failure was observed in. -/
def atPage (e : Error) (page : Nat) : Error := { e with location := { e.location with page := some page } }

/-- Attaches a byte offset. -/
def atOffset (e : Error) (offset : Nat) : Error := { e with location := { e.location with offset := some offset } }

def locationText : Location → String
  | { page := some p, offset := some o } => s!" (page {p}, offset {o})"
  | { page := some p, offset := none } => s!" (page {p})"
  | { page := none, offset := some o } => s!" (offset {o})"
  | { page := none, offset := none } => ""

/-- The `Display` form. -/
def text (e : Error) : String :=
  let kind := e.kind.asStr
  let message := e.message
  let location := locationText e.location
  s!"{kind}: {message}{location}"

end Error

abbrev Result (α : Type) := Except Error α

/-! ## Constants -/

/-- File magic: `DRY\0`. -/
def magic : Bytes := [68, 82, 89, 0]
def majorVersion : Nat := 1
def minorVersion : Nat := 4
def headerLen : Nat := 26
/-- Offset of the back-patched `page_count` field inside the header. -/
def pageCountFieldOffset : Nat := 14
def pageLengthLen : Nat := 4
def nodeHeaderLen : Nat := 24
/-- Bytes every page starts with, which page filters leave alone. -/
def pagePrefixLen : Nat := 28
def rightSiblingOffset : Nat := 20
def leftSiblingOffset : Nat := 12
def entryCountOffset : Nat := 8
def kindOffset : Nat := 4
def digestBase : Nat := 28
def directorySlotLen : Nat := 8
/-- Largest page size for which the builder emits the compact metadata layout. -/
def maxCompactPageSize : Nat := 0x7FFF
/-- Inline value length that means "the payload is an 8-byte blob page ordinal". -/
def overflowSentinel : Nat := 0xFFFF
/-- Bit 15 of a compact leaf offset: the entry's value lives on a blob page. -/
def compactOverflowBit : Nat := 0x8000
def u16Max : Nat := 0xFFFF
def i32Max : Nat := 2 ^ 31 - 1
def u64Max : UInt64 := 0xFFFFFFFFFFFFFFFF

/-- One past the largest `usize` of a 64-bit machine. -/
def usizeLimit : Nat := 2 ^ 64

def checkedAdd (a b : Nat) : Option Nat := if a + b < usizeLimit then some (a + b) else none

def checkedMul (a b : Nat) : Option Nat := if a * b < usizeLimit then some (a * b) else none

/-! ## Page ordinals -/

/-- A page ordinal is dense and assigned in flush order while building; it is a
natural number here. Decodes the on-disk signed representation. `-1` is the empty sentinel. -/
def PageOrdinal.fromI64 (value : Int) : Result (Option Nat) :=
  if value = -1 then .ok none
  else if 0 ≤ value then .ok (some value.toNat)
  else .error (.corrupt s!"negative page ordinal {value}")

/-- The on-disk signed representation. -/
def PageOrdinal.toI64 : Option Nat → Int
  | none => -1
  | some p => p

/-- The eight bytes a page reference takes on disk. -/
def ordinalBytes (o : Option Nat) : Bytes := leBytes 8 (unsigned 8 (PageOrdinal.toI64 o))

/-- Decodes the on-disk representation of a file offset, rejecting negatives. -/
def fileOffsetFromI64 (value : Int) : Result Nat :=
  if value < 0 then .error (.corrupt s!"negative file offset {value}") else .ok value.toNat

/-! ## Checked reads -/

/-- Reads `w` little-endian bytes at `offset`, or reports corruption. -/
def readLe (w : Nat) (ty : String) (buf : Bytes) (offset : Nat) : Result Nat :=
  match slice buf offset w with
  | some s => .ok (ofLe s)
  | none =>
    if offset + w < usizeLimit then .error ((Error.corrupt s!"truncated read ({ty})").atOffset offset)
    else .error ((Error.corrupt "offset overflow").atOffset offset)

def readU8 (buf : Bytes) (offset : Nat) : Result Nat := readLe 1 "u8" buf offset

def readU16 (buf : Bytes) (offset : Nat) : Result Nat := readLe 2 "u16" buf offset

/-- The bits of an `i32`, for the fields that are read as flags. -/
def readI32Bits (buf : Bytes) (offset : Nat) : Result Nat := readLe 4 "i32" buf offset

def readI32 (buf : Bytes) (offset : Nat) : Result Int := signed 4 <$> readI32Bits buf offset

def readI64 (buf : Bytes) (offset : Nat) : Result Int := signed 8 <$> readLe 8 "i64" buf offset

def readU64 (buf : Bytes) (offset : Nat) : Result UInt64 := UInt64.ofNat <$> readLe 8 "u64" buf offset

/-- Reads a length-checked sub-slice. -/
def readSlice (buf : Bytes) (offset len : Nat) : Result Bytes :=
  match slice buf offset len with
  | some s => .ok s
  | none =>
    if offset + len < usizeLimit then .error ((Error.corrupt "slice out of page bounds").atOffset offset)
    else .error ((Error.corrupt "slice length overflow").atOffset offset)

/-- Converts an on-disk `i32` count or length, rejecting negatives. -/
def checkedLen (value : Int) (what : String) : Result Nat :=
  if value < 0 then .error (.corrupt s!"negative {what}: {value}") else .ok value.toNat

/-! ## What the reads return -/

variable {w off n : Nat} {ty : String} {buf s : Bytes} {o : Option Nat}

theorem readLe_of_slice (h : slice buf off w = some s) :
    readLe w ty buf off = .ok (ofLe s) := by
  simp [readLe, h]

theorem readLe_eq_ok :
    readLe w ty buf off = .ok n ↔ ∃ s, slice buf off w = some s ∧ ofLe s = n := by
  unfold readLe
  cases h : slice buf off w with
  | none => simp only [reduceCtorEq, false_and, exists_false, iff_false]; split <;> simp
  | some s => simp

theorem readI32_lt {z : Int} (h : readI32 buf off = .ok z) : z < 2 ^ 31 := by
  obtain ⟨n, hn, rfl⟩ := map_eq_ok.1 h
  obtain ⟨s, hs, rfl⟩ := readLe_eq_ok.1 hn
  have hlt := ofLe_lt s
  rw [slice_length hs] at hlt
  have := signed_lt hlt
  omega

theorem readSlice_eq_ok {len : Nat} : readSlice buf off len = .ok s ↔ slice buf off len = some s := by
  unfold readSlice
  cases h : slice buf off len with
  | none => simp only [reduceCtorEq, iff_false]; split <;> simp
  | some t => simp

theorem checkedLen_eq_ok {value : Int} {what : String} :
    checkedLen value what = .ok n ↔ 0 ≤ value ∧ value.toNat = n := by
  unfold checkedLen
  rw [guard_eq_ok]
  simp

/-- What the ordinal decoder accepts. -/
theorem fromI64_eq_ok {z : Int} :
    PageOrdinal.fromI64 z = .ok o ↔ (-1 ≤ z ∧ z = PageOrdinal.toI64 o) := by
  unfold PageOrdinal.fromI64
  cases o with
  | none =>
    simp only [PageOrdinal.toI64]
    split
    · simp_all
    · split <;> simp_all
  | some p =>
    simp only [PageOrdinal.toI64]
    split
    · rename_i h; simp only [Except.ok.injEq, reduceCtorEq, false_iff]; omega
    · split
      · simp only [Except.ok.injEq, Option.some.injEq]; omega
      · simp only [reduceCtorEq, false_iff]; omega

theorem fromI64_toI64 (o : Option Nat) : PageOrdinal.fromI64 (PageOrdinal.toI64 o) = .ok o := by
  rw [fromI64_eq_ok]
  refine ⟨?_, rfl⟩
  cases o <;> simp only [PageOrdinal.toI64] <;> omega

/-! ## Reading back what was written -/

theorem readLe_of_piece (h : PieceAt buf off (leBytes w n)) :
    readLe w ty buf off = .ok (n % 256 ^ w) := by
  have hs := h.slice_eq
  rw [leBytes_length] at hs
  rw [readLe_of_slice hs, ofLe_leBytes]

theorem readSlice_of_piece (h : PieceAt buf off s) : readSlice buf off s.length = .ok s :=
  readSlice_eq_ok.2 h.slice_eq

theorem readU16_of_piece (h : PieceAt buf off (leBytes 2 n)) (hn : n ≤ u16Max) :
    readU16 buf off = .ok n := by
  rw [readU16, readLe_of_piece h, Nat.mod_eq_of_lt]
  simp only [u16Max] at hn
  omega

theorem readU64_of_piece {d : UInt64} (h : PieceAt buf off (leBytes 8 d.toNat)) :
    readU64 buf off = .ok d := by
  rw [readU64, readLe_of_piece h, Nat.mod_eq_of_lt (by have := d.toNat_lt; omega)]
  simp

/-- An `i32` length that fits is read back as it was written. -/
theorem readI32_of_piece (h : PieceAt buf off (leBytes 4 n)) (hn : n ≤ i32Max) :
    readI32 buf off = .ok (n : Int) := by
  simp only [i32Max] at hn
  rw [readI32, readI32Bits, readLe_of_piece h, Nat.mod_eq_of_lt (by omega)]
  simp only [map_ok, signed]
  rw [if_pos (by omega)]

theorem checkedLen_natCast (n : Nat) (what : String) : checkedLen (n : Int) what = .ok n := by
  simp [checkedLen_eq_ok]

theorem readI64_of_piece (h : PieceAt buf off (ordinalBytes o))
    (ho : ∀ p ∈ o, p < 2 ^ 63) : readI64 buf off = .ok (PageOrdinal.toI64 o) := by
  rw [readI64, readLe_of_piece h, Nat.mod_eq_of_lt (unsigned_lt 8 _), map_ok, signed_unsigned]
  · cases o <;> simp only [PageOrdinal.toI64] <;> omega
  · cases o with
    | none => simp [PageOrdinal.toI64]
    | some p =>
      have := ho p rfl
      simp only [PageOrdinal.toI64]
      omega

end DryDb
