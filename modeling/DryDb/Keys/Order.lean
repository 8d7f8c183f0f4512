import DryDb.Lib.ByteOrder
import DryDb.Model.Encoding
/-!
# The order of keys

An encoding orders the keys it accepts by a rank into a linear order (`OrderedBy`): comparing
keys is comparing ranks, and neither a key's digest nor any digest accepted for it on a page
goes against the rank. Every built-in encoding does so, and so does the composite encoding over
one of them (`builtin_ordered`, `duplicate_ordered`).
-/

namespace DryDb

open List

/-- A key the encoding takes: it is well formed and has a digest. -/
def KeyEncoding.Accepts (enc : KeyEncoding) (key : Bytes) : Prop :=
  enc.validateKey key = .ok () ∧ ∃ d, enc.digest key = .ok d

instance (enc : KeyEncoding) (key : Bytes) : Decidable (enc.Accepts key) :=
  match hv : enc.validateKey key, hd : enc.digest key with
  | .ok (), .ok d => isTrue ⟨hv, d, hd⟩
  | .error _, _ => isFalse fun h => nomatch hv.symm.trans h.1
  | _, .error _ => isFalse fun h => nomatch hd.symm.trans h.2.choose_spec

/-- The order of an encoding on the keys it accepts, and what digests say about it. -/
structure KeyEncoding.OrderedBy {ρ : Type} [LinearOrder ρ] (enc : KeyEncoding) (rank : Bytes → ρ) : Prop where
  compare : ∀ a b, enc.Accepts a → enc.Accepts b → enc.compare a b = .ok (Ord.compare (rank a) (rank b))
  inj : ∀ a b, enc.Accepts a → enc.Accepts b → rank a = rank b → a = b
  mono : ∀ a b da db, enc.Accepts a → enc.Accepts b → enc.digest a = .ok da → enc.digest b = .ok db → rank a ≤ rank b →
    da ≤ db
  /-- A digest a page may store for a key is not below the key's own. -/
  stored : ∀ a d s, enc.Accepts a → enc.digest a = .ok d → enc.acceptsDigest a s = .ok true → d ≤ s
  /-- A key with an accepted digest has one of its own. -/
  digests : ∀ a s, enc.acceptsDigest a s = .ok true → ∃ d, enc.digest a = .ok d

/-! ## `ascii` and `ulid` -/

/-- The packing loop adds the bytes below what is there. -/
theorem asciiDigestFrom_toNat {acc : UInt64} {i : Nat} {rest : Bytes} (hlen : i + rest.length ≤ 8)
    (hacc : 2 ^ (64 - 8 * i) ∣ acc.toNat) :
    (asciiDigestFrom acc i rest).toNat = acc.toNat + bigEndian (8 - i) rest := by
  induction rest generalizing acc i with
  | nil =>
    rw [asciiDigestFrom]
    cases h : 8 - i <;> simp [bigEndian]
  | cons b rest ih =>
    rw [length_cons] at hlen
    have hb := b.toNat_lt
    obtain ⟨w, hw⟩ : ∃ w, 8 - i = w + 1 := ⟨7 - i, by omega⟩
    have hpow : 2 ^ (8 * w) = 256 ^ w := by rw [Nat.pow_mul]
    have htop : 2 ^ (64 - 8 * i) = 2 ^ 8 * 2 ^ (8 * w) := by
      rw [← Nat.pow_add]
      congr 1
      omega
    have hlt : b.toNat * 2 ^ (8 * w) < 2 ^ (64 - 8 * i) := by
      rw [htop]
      exact Nat.mul_lt_mul_of_pos_right (by simpa using hb) (Nat.two_pow_pos _)
    have hshift : (b.toUInt64 <<< UInt64.ofNat (56 - i * 8)).toNat = b.toNat * 2 ^ (8 * w) := by
      rw [show 56 - i * 8 = 8 * w by omega, shiftLeft_toNat (by omega), UInt8.toNat_toUInt64]
      rw [UInt8.toNat_toUInt64]
      exact Nat.lt_of_lt_of_le hlt (Nat.pow_le_pow_right (by decide) (by omega))
    have hor : (acc ||| (b.toUInt64 <<< UInt64.ofNat (56 - i * 8))).toNat = acc.toNat + b.toNat * 2 ^ (8 * w) := by
      rw [UInt64.toNat_or, hshift]
      exact or_eq_add_of_dvd hacc hlt
    rw [asciiDigestFrom, ih (by omega), hor, hw, bigEndian, show 8 - (i + 1) = w by omega, hpow, Nat.add_assoc]
    rw [hor, show 64 - 8 * (i + 1) = 8 * w by omega]
    apply Nat.dvd_add
    · apply Nat.dvd_trans _ hacc
      rw [htop]
      exact Nat.dvd_mul_left _ _
    · exact Nat.dvd_mul_left _ _

theorem bigEndian_take (w : Nat) (bytes : Bytes) : bigEndian w (bytes.take w) = bigEndian w bytes := by
  induction w generalizing bytes with
  | zero => rfl
  | succ w ih =>
    cases bytes with
    | nil => rfl
    | cons b rest => rw [take_succ_cons, bigEndian, bigEndian, ih]

theorem asciiDigest_toNat (key : Bytes) : (asciiDigest key).toNat = bigEndian 8 key := by
  rw [asciiDigest, asciiDigestFrom_toNat (by simp) (by simp)]
  simp [bigEndian_take]

variable {a b key source : Bytes} {enc : KeyEncoding} {d : UInt64} {id : String}

theorem asciiDigest_mono (h : byteRank a ≤ byteRank b) : asciiDigest a ≤ asciiDigest b := by
  rw [UInt64.le_iff_toNat_le, asciiDigest_toNat, asciiDigest_toNat]
  exact bigEndian_mono h

/-- An encoding that checks stored digests the default way. -/
theorem digest_of_accepted {s : UInt64}
    (hdefault : enc.acceptsDigest a s = enc.digest a >>= fun d => .ok (d == s)) (h : enc.acceptsDigest a s = .ok true) :
    enc.digest a = .ok s := by
  rw [hdefault] at h
  obtain ⟨d, hd, heq⟩ := bind_eq_ok.1 h
  rw [Except.ok.injEq, beq_iff_eq] at heq
  exact heq ▸ hd

theorem stored_of_default {s : UInt64} (hd : enc.digest a = .ok d)
    (hdefault : enc.acceptsDigest a s = enc.digest a >>= fun d => .ok (d == s)) (h : enc.acceptsDigest a s = .ok true) :
    d ≤ s := by
  have hs := digest_of_accepted hdefault h
  rw [hd, Except.ok.injEq] at hs
  exact hs ▸ UInt64.le_refl d

/-- Keys compared byte by byte and digested by their first eight bytes. -/
theorem lexicographic_orderedBy (hcompare : ∀ a b, enc.compare a b = .ok (Ord.compare a b))
    (hdigest : ∀ key, enc.digest key = .ok (asciiDigest key))
    (hdefault : ∀ key s, enc.acceptsDigest key s = enc.digest key >>= fun d => .ok (d == s)) : enc.OrderedBy byteRank where
  compare a b _ _ := by rw [hcompare, compare_bytes]
  inj a b _ _ h := byteRank_injective h
  mono a b da db _ _ hda hdb h := by
    rw [hdigest, Except.ok.injEq] at hda hdb
    rw [← hda, ← hdb]
    exact asciiDigest_mono h
  stored a d s _ hd h := stored_of_default hd (hdefault a s) h
  digests a s h := ⟨s, digest_of_accepted (hdefault a s) h⟩

theorem ascii_orderedBy : asciiEncoding.OrderedBy byteRank :=
  lexicographic_orderedBy (fun _ _ => rfl) (fun _ => rfl) fun _ _ => rfl

theorem ulid_orderedBy : ulidEncoding.OrderedBy byteRank :=
  lexicographic_orderedBy (fun _ _ => rfl) (fun _ => rfl) fun _ _ => rfl

/-! ## `i64` -/

/-- The number an `i64` key stands for. -/
def int64Rank (key : Bytes) : Int := signed 8 (ofLe key)

theorem needLen_eq_ok {len : Nat} : needLen id key len = .ok () ↔ key.length = len := by
  unfold needLen
  dsimp only
  split
  · simp [*]
  · simp_all

theorem int64_decode (h : key.length = 8) : Int64Encoding.decode key = .ok (int64Rank key) := by
  rw [Int64Encoding.decode, needLen_eq_ok.2 h, ok_bind]
  rfl

/-- The digest counts from the smallest number up. -/
theorem int64_digest_toNat (h : int64Encoding.digest key = .ok d) :
    key.length = 8 ∧ (d.toNat : Int) = int64Rank key + 2 ^ 63 := by
  change (Int64Encoding.decode key >>= fun v => .ok (UInt64.ofNat (unsigned 8 v) ^^^ signBit)) = .ok d at h
  obtain ⟨v, hv, hd⟩ := bind_eq_ok.1 h
  have hlen : key.length = 8 := by
    obtain ⟨⟨⟩, hneed, -⟩ := bind_eq_ok.1 hv
    exact needLen_eq_ok.1 hneed
  rw [int64_decode hlen, Except.ok.injEq] at hv
  subst hv
  have hn : ofLe key < 2 ^ 64 := by
    have := ofLe_lt key
    rw [hlen] at this
    exact this
  rw [Except.ok.injEq, int64Rank, unsigned_signed hn] at hd
  refine ⟨hlen, ?_⟩
  have hd' : d.toNat = ofLe key ^^^ 2 ^ 63 := by
    rw [← hd, UInt64.toNat_xor, UInt64.toNat_ofNat', Nat.mod_eq_of_lt hn]
    rfl
  rw [hd', int64Rank, signed]
  by_cases hlt : ofLe key < 2 ^ 63
  · rw [xor_two_pow hlt, if_pos (by omega)]
    push_cast
    ring
  · -- The bit is set already: the number without it is what flipping leaves.
    obtain ⟨m, hm⟩ : ∃ m, ofLe key = m + 2 ^ 63 := ⟨ofLe key - 2 ^ 63, by omega⟩
    have hflip : ofLe key ^^^ 2 ^ 63 = m := by
      rw [hm, ← xor_two_pow (show m < 2 ^ 63 by omega), Nat.xor_assoc, Nat.xor_self, Nat.xor_zero]
    rw [hflip, if_neg (by omega), hm]
    push_cast
    ring

theorem int64_accepts (h : int64Encoding.Accepts key) : key.length = 8 := by
  obtain ⟨-, d, hd⟩ := h
  exact (int64_digest_toNat hd).1

theorem int64_orderedBy : int64Encoding.OrderedBy int64Rank where
  compare a b ha hb := by
    change (Int64Encoding.decode a >>= fun x => Int64Encoding.decode b >>= fun y => .ok (Ord.compare x y)) = _
    rw [int64_decode (int64_accepts ha), ok_bind, int64_decode (int64_accepts hb), ok_bind]
  inj a b ha hb h := by
    have hbits : ∀ {key : Bytes}, int64Encoding.Accepts key → key = leBytes 8 (unsigned 8 (int64Rank key)) := by
      intro key hkey
      have hlen := int64_accepts hkey
      have hlt := ofLe_lt key
      have hbytes := leBytes_ofLe key
      rw [hlen] at hlt hbytes
      rw [int64Rank, unsigned_signed hlt, hbytes]
    rw [hbits ha, hbits hb, h]
  mono a b da db _ _ hda hdb h := by
    have ha := (int64_digest_toNat hda).2
    have hb := (int64_digest_toNat hdb).2
    rw [UInt64.le_iff_toNat_le]
    omega
  stored a d s _ hd h := stored_of_default hd rfl h
  digests a s h := ⟨s, digest_of_accepted rfl h⟩

/-! ## `uuidv7` -/

/-- The fields of a `uuidv7` key in the order they are compared. -/
def uuidv7Rank (key : Bytes) : Nat ×ₗ Nat ×ₗ Nat ×ₗ List Nat :=
  toLex (ofLe (key.take 4), toLex (ofLe ((key.drop 4).take 2), toLex (ofLe ((key.drop 6).take 2), byteRank (key.drop 8))))

theorem uuidv7_fields (h : key.length = 16) :
    Uuidv7Encoding.fields key = .ok (ofLe (key.take 4), ofLe ((key.drop 4).take 2), ofLe ((key.drop 6).take 2)) := by
  rw [Uuidv7Encoding.fields, needLen_eq_ok.2 h, ok_bind]

theorem uuidv7_accepts (h : uuidv7Encoding.Accepts key) : key.length = 16 := by
  obtain ⟨-, d, hd⟩ := h
  obtain ⟨f, hf, -⟩ := bind_eq_ok.1 hd
  obtain ⟨⟨⟩, hneed, -⟩ := bind_eq_ok.1 hf
  exact needLen_eq_ok.1 hneed

theorem uuidv7_bounds (hlen : key.length = 16) :
    ofLe (key.take 4) < 2 ^ 32 ∧ ofLe ((key.drop 4).take 2) < 2 ^ 16 ∧ ofLe ((key.drop 6).take 2) < 2 ^ 16 := by
  have ha := ofLe_lt (key.take 4)
  have hb := ofLe_lt ((key.drop 4).take 2)
  have hc := ofLe_lt ((key.drop 6).take 2)
  simp only [length_take, length_drop, hlen] at ha hb hc
  exact ⟨ha, hb, hc⟩

/-- The digest packs the three fields. -/
theorem uuidv7_digest_toNat (hlen : key.length = 16) (h : uuidv7Encoding.digest key = .ok d) :
    d.toNat = ofLe (key.take 4) * 2 ^ 32 + ofLe ((key.drop 4).take 2) * 2 ^ 16 + ofLe ((key.drop 6).take 2) := by
  obtain ⟨f, hf, hd⟩ := bind_eq_ok.1 h
  rw [uuidv7_fields hlen, Except.ok.injEq] at hf
  subst hf
  obtain ⟨ha, hb, hc⟩ := uuidv7_bounds hlen
  generalize ofLe (key.take 4) = a at *
  generalize ofLe ((key.drop 4).take 2) = b at *
  generalize ofLe ((key.drop 6).take 2) = c at *
  have hnat : ∀ {n : Nat}, n < 2 ^ 64 → (UInt64.ofNat n).toNat = n := by
    intro n hn
    rw [UInt64.toNat_ofNat', Nat.mod_eq_of_lt hn]
  have hhigh : (UInt64.ofNat a <<< 32).toNat = a * 2 ^ 32 := by
    have := shiftLeft_toNat (x := UInt64.ofNat a) (k := 32) (by decide)
    rw [hnat (by omega)] at this
    exact this (by omega)
  have hmid : (UInt64.ofNat b <<< 16).toNat = b * 2 ^ 16 := by
    have := shiftLeft_toNat (x := UInt64.ofNat b) (k := 16) (by decide)
    rw [hnat (by omega)] at this
    exact this (by omega)
  rw [← Except.ok.inj hd, UInt64.toNat_or, UInt64.toNat_or, hhigh, hmid, hnat (by omega),
    or_eq_add_of_dvd (Nat.dvd_mul_left _ _) (show b * 2 ^ 16 < 2 ^ 32 by omega)]
  apply or_eq_add_of_dvd _ hc
  exact Nat.dvd_add (Dvd.dvd.mul_left (Nat.pow_dvd_pow 2 (by decide)) _) (Nat.dvd_mul_left _ _)

theorem ofLe_injective (hlen : a.length = b.length) (h : ofLe a = ofLe b) : a = b := by
  rw [← leBytes_ofLe a, ← leBytes_ofLe b, hlen, h]

theorem uuidv7_orderedBy : uuidv7Encoding.OrderedBy uuidv7Rank where
  compare a b ha hb := by
    change (Uuidv7Encoding.fields a >>= fun x => Uuidv7Encoding.fields b >>= fun y =>
      .ok ((((Ord.compare x.1 y.1).then (Ord.compare x.2.1 y.2.1)).then (Ord.compare x.2.2 y.2.2)).then
        (Ord.compare (a.drop 8) (b.drop 8)))) = _
    rw [uuidv7_fields (uuidv7_accepts ha), ok_bind, uuidv7_fields (uuidv7_accepts hb), ok_bind, compare_bytes]
    rw [Ordering.then_assoc, Ordering.then_assoc]
    rw [show ∀ x y : Nat, (Ord.compare x y) = compare x y from fun _ _ => rfl, compare_then, compare_then, compare_then]
    rfl
  inj a b ha hb h := by
    have hla := uuidv7_accepts ha
    have hlb := uuidv7_accepts hb
    simp only [uuidv7Rank, toLex_inj, Prod.mk.injEq] at h
    obtain ⟨h1, h2, h3, h4⟩ := h
    have hsplit : ∀ key : Bytes, key = key.take 4 ++ ((key.drop 4).take 2 ++ ((key.drop 6).take 2 ++ key.drop 8)) := by
      intro key
      conv_lhs => rw [← take_append_drop 4 key, ← take_append_drop 2 (key.drop 4), drop_drop,
        ← take_append_drop 2 (key.drop (4 + 2)), drop_drop]
    rw [hsplit a, hsplit b, ofLe_injective (by simp [hla, hlb]) h1, ofLe_injective (by simp [hla, hlb]) h2,
      ofLe_injective (by simp [hla, hlb]) h3, byteRank_injective h4]
  mono a b da db ha hb hda hdb h := by
    rw [UInt64.le_iff_toNat_le, uuidv7_digest_toNat (uuidv7_accepts ha) hda, uuidv7_digest_toNat (uuidv7_accepts hb) hdb]
    obtain ⟨-, ha2, ha3⟩ := uuidv7_bounds (uuidv7_accepts ha)
    simp only [uuidv7Rank, Prod.Lex.toLex_le_toLex] at h
    omega
  stored a d s _ hd h := stored_of_default hd rfl h
  digests a s h := ⟨s, digest_of_accepted rfl h⟩

/-! ## Composite keys -/

/-- The source key of a composite key, and its record id. -/
def sourcePart (key : Bytes) : Bytes := key.take (key.length - ridLen)

def ridPart (key : Bytes) : Int := signed ridLen (ofLe (key.drop (key.length - ridLen)))

theorem split_eq_ok {rid : Int} : DuplicateKeyEncoding.split key = .ok (source, rid) ↔
    ridLen ≤ key.length ∧ 0 ≤ ridPart key ∧ source = sourcePart key ∧ rid = ridPart key := by
  unfold DuplicateKeyEncoding.split
  dsimp only
  split
  · simp
    omega
  · rename_i hlen
    rw [show signed ridLen (ofLe (key.drop (key.length - ridLen))) = ridPart key from rfl]
    split
    · simp
      omega
    · rename_i hrid
      rw [Except.ok.injEq, Prod.mk.injEq]
      constructor
      · rintro ⟨rfl, rfl⟩
        exact ⟨by omega, by omega, rfl, rfl⟩
      · rintro ⟨-, -, rfl, rfl⟩
        exact ⟨rfl, rfl⟩

/-- A composite key is its two parts. -/
theorem split_injective {rid : Int} (ha : DuplicateKeyEncoding.split a = .ok (source, rid))
    (hb : DuplicateKeyEncoding.split b = .ok (source, rid)) : a = b := by
  obtain ⟨hla, -, hsa, hra⟩ := split_eq_ok.1 ha
  obtain ⟨hlb, -, hsb, hrb⟩ := split_eq_ok.1 hb
  have htail : a.drop (a.length - ridLen) = b.drop (b.length - ridLen) := by
    have hwidth : ∀ {key : Bytes}, ridLen ≤ key.length → (key.drop (key.length - ridLen)).length = ridLen := by
      intro key hkey
      rw [length_drop]
      omega
    apply ofLe_injective (by rw [hwidth hla, hwidth hlb])
    have hbits : ∀ {key : Bytes}, ridLen ≤ key.length →
        unsigned ridLen (ridPart key) = ofLe (key.drop (key.length - ridLen)) := by
      intro key hkey
      have hlt := ofLe_lt (key.drop (key.length - ridLen))
      rw [hwidth hkey] at hlt
      exact unsigned_signed hlt
    rw [← hbits hla, ← hbits hlb, ← hra, hrb]
  rw [← take_append_drop (a.length - ridLen) a, ← take_append_drop (b.length - ridLen) b, htail]
  exact congrArg (· ++ _) (hsa.symm.trans hsb)

/-- Composite keys by source key and record id. -/
def duplicateRank {ρ : Type} (rank : Bytes → ρ) (key : Bytes) : ρ ×ₗ Int := toLex (rank (sourcePart key), ridPart key)

/-- What a source encoding owes its composite encoding. -/
structure KeyEncoding.Extends (source : KeyEncoding) : Prop where
  /-- A key is well formed when its length is right. -/
  valid : ∀ key, (∀ n, source.fixedKeyLen = some n → key.length = n) → source.validateKey key = .ok ()
  /-- A longer key digests no lower. -/
  digest : ∀ a b da db, source.digest a = .ok da → source.digest (a ++ b) = .ok db → da ≤ db

section

variable {source : KeyEncoding} {key : Bytes}

/-- A composite key is well formed when it is as long as a source key and a record id. -/
theorem duplicate_validateKey : (duplicateKeyEncoding source).validateKey key = .ok () ↔
    ∀ n, source.fixedKeyLen = some n → key.length = n + ridLen := by
  cases hlen : source.fixedKeyLen with
  | none => simp [duplicateKeyEncoding, hlen]
  | some n =>
    simp only [duplicateKeyEncoding, hlen, Option.map_some, Option.some.injEq, forall_eq']
    split
    · simpa
    · simp_all

theorem duplicate_accepts (hs : source.Extends) (h : (duplicateKeyEncoding source).Accepts key) :
    DuplicateKeyEncoding.split key = .ok (sourcePart key, ridPart key) ∧ source.Accepts (sourcePart key) := by
  obtain ⟨hvalid, d, hd⟩ := h
  obtain ⟨⟨s, r⟩, hsplit, hdigest⟩ := bind_eq_ok.1 hd
  obtain ⟨hlen, -, rfl, rfl⟩ := split_eq_ok.1 hsplit
  refine ⟨hsplit, hs.valid _ fun n hn => ?_, d, hdigest⟩
  have hkey := duplicate_validateKey.1 hvalid n hn
  rw [sourcePart, length_take]
  omega

theorem duplicate_digest {d : UInt64} (hsplit : DuplicateKeyEncoding.split key = .ok (sourcePart key, ridPart key)) :
    (duplicateKeyEncoding source).digest key = .ok d ↔ source.digest (sourcePart key) = .ok d := by
  change (DuplicateKeyEncoding.split key >>= fun x => source.digest x.1) = _ ↔ _
  rw [hsplit, ok_bind]

theorem duplicate_orderedBy {ρ : Type} [LinearOrder ρ] {rank : Bytes → ρ} (ho : source.OrderedBy rank) (hs : source.Extends) :
    (duplicateKeyEncoding source).OrderedBy (duplicateRank rank) where
  compare a b ha hb := by
    obtain ⟨hsa, haccepts_a⟩ := duplicate_accepts hs ha
    obtain ⟨hsb, haccepts_b⟩ := duplicate_accepts hs hb
    change (DuplicateKeyEncoding.split a >>= fun x => DuplicateKeyEncoding.split b >>= fun y =>
      source.compare x.1 y.1 >>= fun o => .ok (o.then (Ord.compare x.2 y.2))) = _
    rw [hsa, ok_bind, hsb, ok_bind, ho.compare _ _ haccepts_a haccepts_b, ok_bind]
    exact congrArg Except.ok (compare_then ..)
  inj a b ha hb h := by
    obtain ⟨hsa, haccepts_a⟩ := duplicate_accepts hs ha
    obtain ⟨hsb, haccepts_b⟩ := duplicate_accepts hs hb
    obtain ⟨hrank, hrid⟩ := Prod.mk.inj (toLex_inj.1 h)
    rw [ho.inj _ _ haccepts_a haccepts_b hrank, hrid] at hsa
    exact split_injective hsa hsb
  mono a b da db ha hb hda hdb h := by
    obtain ⟨hsa, haccepts_a⟩ := duplicate_accepts hs ha
    obtain ⟨hsb, haccepts_b⟩ := duplicate_accepts hs hb
    rw [duplicate_digest hsa] at hda
    rw [duplicate_digest hsb] at hdb
    apply ho.mono _ _ _ _ haccepts_a haccepts_b hda hdb
    rcases (Prod.Lex.toLex_le_toLex ..).1 h with hlt | ⟨heq, -⟩
    · exact hlt.le
    · exact heq.le
  stored a d s ha hd h := by
    obtain ⟨hsa, haccepts_a⟩ := duplicate_accepts hs ha
    rw [duplicate_digest hsa] at hd
    change (DuplicateKeyEncoding.split a >>= fun x => source.digest x.1 >>= fun d =>
      if d == s then .ok true else source.digest a >>= fun whole => .ok (whole == s)) = _ at h
    rw [hsa, ok_bind, hd, ok_bind] at h
    split at h
    · rename_i heq
      rw [beq_iff_eq.1 heq]
      exact UInt64.le_refl s
    · obtain ⟨whole, hwhole, heq⟩ := bind_eq_ok.1 h
      rw [Except.ok.injEq, beq_iff_eq] at heq
      subst heq
      rw [← take_append_drop (a.length - ridLen) a] at hwhole
      exact hs.digest _ _ _ _ hd hwhole
  digests a s h := by
    obtain ⟨x, hsplit, h⟩ := bind_eq_ok.1 h
    obtain ⟨d, hd, -⟩ := bind_eq_ok.1 h
    exact ⟨d, bind_eq_ok.2 ⟨x, hsplit, hd⟩⟩

end

/-! ## All of them -/

/-- The encoding orders its keys by some rank. -/
def KeyEncoding.Ordered (enc : KeyEncoding) : Prop :=
  ∃ (ρ : Type) (_ : LinearOrder ρ) (rank : Bytes → ρ), enc.OrderedBy rank

theorem builtin_cases (h : builtin id = some enc) :
    enc = int64Encoding ∨ enc = asciiEncoding ∨ enc = uuidv7Encoding ∨ enc = ulidEncoding := by
  unfold builtin at h
  split at h <;> simp_all

theorem builtin_ordered (h : builtin id = some enc) : enc.Ordered := by
  rcases builtin_cases h with rfl | rfl | rfl | rfl
  · exact ⟨Int, inferInstance, _, int64_orderedBy⟩
  · exact ⟨List Nat, inferInstance, _, ascii_orderedBy⟩
  · exact ⟨_, inferInstance, _, uuidv7_orderedBy⟩
  · exact ⟨List Nat, inferInstance, _, ulid_orderedBy⟩

/-- Only keys of one length have a digest, so none is longer than another. -/
theorem extends_of_fixed {n : Nat} (hvalid : ∀ key : Bytes, key.length = n → enc.validateKey key = .ok ())
    (hfixed : enc.fixedKeyLen = some n) (hlen : ∀ key d, enc.digest key = .ok d → key.length = n) : enc.Extends where
  valid key h := hvalid key (h n hfixed)
  digest a b da db ha hb := by
    have hla := hlen a da ha
    have hlb := hlen _ db hb
    obtain rfl : b = [] := by
      rw [length_append, hla] at hlb
      exact length_eq_zero_iff.1 (by omega)
    rw [append_nil, ha, Except.ok.injEq] at hb
    exact hb ▸ UInt64.le_refl da

theorem extends_of_lexicographic
    (hvalid : ∀ key, (∀ n, enc.fixedKeyLen = some n → key.length = n) → enc.validateKey key = .ok ())
    (hdigest : ∀ key, enc.digest key = .ok (asciiDigest key)) : enc.Extends where
  valid := hvalid
  digest a b da db ha hb := by
    rw [hdigest, Except.ok.injEq] at ha hb
    rw [← ha, ← hb]
    exact asciiDigest_mono (byteRank_le_append a b)

theorem builtin_extends (h : builtin id = some enc) : enc.Extends := by
  rcases builtin_cases h with rfl | rfl | rfl | rfl
  · apply extends_of_fixed (n := 8)
    · intro key hlen
      exact if_neg (by simpa using hlen)
    · rfl
    · exact fun key d hd => (int64_digest_toNat hd).1
  · exact extends_of_lexicographic (fun _ _ => rfl) fun _ => rfl
  · apply extends_of_fixed (n := 16)
    · intro key hlen
      exact if_neg (by simpa using hlen)
    · rfl
    · intro key d hd
      obtain ⟨f, hf, -⟩ := bind_eq_ok.1 hd
      obtain ⟨⟨⟩, hneed, -⟩ := bind_eq_ok.1 hf
      exact needLen_eq_ok.1 hneed
  · apply extends_of_lexicographic
    · intro key hlen
      exact if_neg (by simpa using hlen 16 rfl)
    · exact fun _ => rfl

/-- The composite encoding over a built-in one. -/
theorem duplicate_ordered {source : KeyEncoding} (h : builtin id = some source) :
    (duplicateKeyEncoding source).Ordered := by
  obtain ⟨ρ, inst, rank, ho⟩ := builtin_ordered h
  exact ⟨ρ ×ₗ Int, inferInstance, _, duplicate_orderedBy ho (builtin_extends h)⟩

end DryDb
