import DryDb.Model.Format
/-!
# Key encodings

`encoding.rs`. An encoding fixes the byte form of a key, its total order and an
order-preserving 64-bit digest. The trait is a record of functions, so a custom
encoding is any such record; the fields with a default have the trait's own.
-/

namespace DryDb

/-- Two lowercase hex digits. -/
def hexByte (b : UInt8) : String := String.ofList [Nat.digitChar (b.toNat / 16), Nat.digitChar (b.toNat % 16)]

def hexText (key : Bytes) : String := String.join (key.map hexByte)

/-- Byte form, order and digest of a key column. -/
structure KeyEncoding where
  /-- Registry id stored in the index descriptor. -/
  id : String
  /-- Total order over encoded keys. -/
  compare : Bytes → Bytes → Result Ordering
  /-- Order-preserving 64-bit digest. -/
  digest : Bytes → Result UInt64
  /-- Whether the digest is injective, so equal digests imply equal keys. -/
  isDigestExact : Bool := false
  /-- Whether `stored` is an acceptable digest for `key` on a page. -/
  acceptsDigest : Bytes → UInt64 → Result Bool := fun key stored => do
    let d ← digest key
    .ok (d == stored)
  /-- Rebuilds the key bytes that a page storing only digests stands for. -/
  decodeKeyFromDigest : UInt64 → Result Bytes := fun _ =>
    .error (.new .unsupported s!"encoding `{id}` cannot rebuild keys from digests")
  /-- Fixed key width, when the encoding has one. -/
  fixedKeyLen : Option Nat := none
  /-- Largest buffer a rebuilt key can need, when this encoding rebuilds keys at all. -/
  maxRebuiltKeyLen : Option Nat := none
  /-- Whether `compare` is plain byte-lexicographic order. -/
  isByteLexicographic : Bool := false
  /-- Checks that `key` is a well-formed key of this encoding. -/
  validateKey : Bytes → Result Unit := fun key =>
    match fixedKeyLen with
    | some len =>
      let got := key.length
      if got ≠ len then .error (.invalid s!"encoding `{id}` needs {len} byte keys, got {got}") else .ok ()
    | none => .ok ()
  /-- Human-readable rendering of a key. -/
  formatKey : Bytes → String := hexText

def needLen (id : String) (key : Bytes) (len : Nat) : Result Unit :=
  let got := key.length
  if got ≠ len then .error (.corrupt s!"encoding `{id}` needs {len} byte keys, got {got}") else .ok ()

/-! ## `i64` -/

/-- The sign bit the `i64` digest flips. -/
def signBit : UInt64 := 0x8000000000000000

def Int64Encoding.encode (value : Int) : Bytes := leBytes 8 (unsigned 8 value)

def Int64Encoding.decode (key : Bytes) : Result Int := do
  needLen "i64" key 8
  .ok (signed 8 (ofLe key))

/-- Little-endian signed 64-bit keys. The digest is exact, so pages built with this
encoding store no key bytes. -/
def int64Encoding : KeyEncoding where
  id := "i64"
  compare a b := do
    let x ← Int64Encoding.decode a
    let y ← Int64Encoding.decode b
    .ok (Ord.compare x y)
  digest key := do
    let v ← Int64Encoding.decode key
    .ok (UInt64.ofNat (unsigned 8 v) ^^^ signBit)
  isDigestExact := true
  decodeKeyFromDigest digest := .ok (leBytes 8 (digest ^^^ signBit).toNat)
  maxRebuiltKeyLen := some 8
  fixedKeyLen := some 8
  formatKey key :=
    match Int64Encoding.decode key with
    | .ok v => s!"{v}"
    | .error _ => "<invalid i64 key>"

/-! ## `ascii` -/

/-- The packing loop of `ascii_digest`, from byte `i` on. -/
def asciiDigestFrom (digest : UInt64) (i : Nat) : Bytes → UInt64
  | [] => digest
  | b :: rest => asciiDigestFrom (digest ||| (b.toUInt64 <<< UInt64.ofNat (56 - i * 8))) (i + 1) rest

/-- First eight bytes, big-endian, zero padded. -/
def asciiDigest (key : Bytes) : UInt64 := asciiDigestFrom 0 0 (key.take 8)

/-- Bytes outside the printable range are escaped, and so is the backslash. -/
def asciiEscape (b : UInt8) : String :=
  if b = 0x5C then "\\\\"
  else if 0x20 ≤ b ∧ b ≤ 0x7E then String.ofList [Char.ofNat b.toNat]
  else "\\x" ++ hexByte b

/-- Byte-lexicographic keys. Keys that share an eight byte prefix collide. -/
def asciiEncoding : KeyEncoding where
  id := "ascii"
  compare a b := .ok (Ord.compare a b)
  digest key := .ok (asciiDigest key)
  isByteLexicographic := true
  formatKey key := String.join (key.map asciiEscape)

/-! ## `uuidv7` -/

/-- The three little-endian fields of the on-disk layout. -/
def Uuidv7Encoding.fields (key : Bytes) : Result (Nat × Nat × Nat) := do
  needLen "uuidv7" key 16
  .ok (ofLe (key.take 4), ofLe ((key.drop 4).take 2), ofLe ((key.drop 6).take 2))

/-- The canonical byte order of a key in the on-disk layout. -/
def Uuidv7Encoding.toRfc4122 (key : Bytes) : Bytes :=
  (key.take 4).reverse ++ ((key.drop 4).take 2).reverse ++ ((key.drop 6).take 2).reverse ++ key.drop 8

def uuidv7Encoding : KeyEncoding where
  id := "uuidv7"
  compare a b := do
    let (aa, ab, ac) ← Uuidv7Encoding.fields a
    let (ba, bb, bc) ← Uuidv7Encoding.fields b
    .ok ((((Ord.compare aa ba).then (Ord.compare ab bb)).then (Ord.compare ac bc)).then
      (Ord.compare (a.drop 8) (b.drop 8)))
  digest key := do
    let (a, b, c) ← Uuidv7Encoding.fields key
    .ok ((UInt64.ofNat a <<< 32) ||| (UInt64.ofNat b <<< 16) ||| UInt64.ofNat c)
  fixedKeyLen := some 16
  formatKey key :=
    if key.length ≠ 16 then "<invalid uuid key>"
    else
      let r := Uuidv7Encoding.toRfc4122 key
      let part (i n : Nat) : String := hexText ((r.drop i).take n)
      String.intercalate "-" [part 0 4, part 4 2, part 6 2, part 8 2, part 10 6]

/-! ## `ulid` -/

/-- Sixteen bytes compared lexicographically. Comparison and digest take any length,
so that a byte prefix can be placed among the keys. -/
def ulidEncoding : KeyEncoding where
  id := "ulid"
  compare a b := .ok (Ord.compare a b)
  digest key := .ok (asciiDigest key)
  fixedKeyLen := some 16
  isByteLexicographic := true

/-! ## Composite keys of non-unique indexes -/

/-- Width of the record id appended to a non-unique secondary key. -/
def ridLen : Nat := 4

/-- Builds `source_key || rid`. -/
def DuplicateKeyEncoding.encode (sourceKey : Bytes) (rid : Nat) : Bytes := sourceKey ++ leBytes ridLen rid

/-- Splits a composite key into `(source_key, rid)`. A negative record id would sort
below every lookup range, so it is refused. -/
def DuplicateKeyEncoding.split (key : Bytes) : Result (Bytes × Int) :=
  let len := key.length
  if len < ridLen then .error (.corrupt s!"duplicate key is {len} bytes, shorter than the {ridLen} byte record id") else
  let rid := signed ridLen (ofLe (key.drop (len - ridLen)))
  if rid < 0 then .error (.corrupt s!"duplicate key has record id {rid}, which is negative") else
  .ok (key.take (len - ridLen), rid)

/-- Composite `(source key, rid)` encoding of non-unique secondary index trees. -/
def duplicateKeyEncoding (source : KeyEncoding) : KeyEncoding where
  id := source.id
  compare a b := do
    let (aKey, aRid) ← DuplicateKeyEncoding.split a
    let (bKey, bRid) ← DuplicateKeyEncoding.split b
    let o ← source.compare aKey bKey
    .ok (o.then (Ord.compare aRid bRid))
  digest key := do
    let (sourceKey, _) ← DuplicateKeyEncoding.split key
    source.digest sourceKey
  isDigestExact := false
  -- The upstream builder digests the whole composite key, its reader the source part.
  acceptsDigest key stored := do
    let (sourceKey, _) ← DuplicateKeyEncoding.split key
    let d ← source.digest sourceKey
    if d == stored then .ok true
    else do
      let whole ← source.digest key
      .ok (whole == stored)
  -- The record id is not stored on such a page; zero stands for it.
  decodeKeyFromDigest digest := do
    let sourceKey ← source.decodeKeyFromDigest digest
    .ok (DuplicateKeyEncoding.encode sourceKey 0)
  fixedKeyLen := source.fixedKeyLen.map (· + ridLen)
  maxRebuiltKeyLen := source.maxRebuiltKeyLen.map (· + ridLen)
  formatKey key :=
    match DuplicateKeyEncoding.split key with
    | .ok (sourceKey, rid) =>
      let text := source.formatKey sourceKey
      s!"{text}-{rid}"
    | .error _ => "<invalid duplicate key>"

/-! ## Messages and the registry -/

/-- Key bytes an error message may describe. -/
def describeKeyBytes : Nat := 48

/-- Renders a key for an error message, bounded. -/
def describeKey (enc : KeyEncoding) (key : Bytes) : String :=
  let len := key.length
  if len ≤ describeKeyBytes then enc.formatKey key
  else
    let short := enc.formatKey (key.take describeKeyBytes)
    s!"{short}... ({len} bytes)"

def builtin (id : String) : Option KeyEncoding :=
  match id with
  | "i64" => some int64Encoding
  | "ascii" => some asciiEncoding
  | "uuidv7" => some uuidv7Encoding
  | "ulid" => some ulidEncoding
  | _ => none

/-- Custom encodings by id. -/
structure EncodingRegistry where
  custom : String → Option KeyEncoding := fun _ => none

namespace EncodingRegistry

/-- Registers a custom encoding. Built-in ids cannot be shadowed. -/
def register (r : EncodingRegistry) (enc : KeyEncoding) : Result EncodingRegistry :=
  let id := enc.id
  if (builtin id).isSome then .error (.invalid s!"`{id}` is a built-in key encoding and cannot be replaced") else
  .ok { custom := fun x => if x = id then some enc else r.custom x }

/-- Resolves an id; built-ins first. -/
def resolve (r : EncodingRegistry) (id : String) : Result KeyEncoding :=
  match builtin id with
  | some e => .ok e
  | none => okOr (r.custom id) (Error.new .unknownEncoding s!"key encoding `{id}` is not registered")

end EncodingRegistry

end DryDb
