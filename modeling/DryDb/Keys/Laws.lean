import DryDb.Keys.Order
/-!
# The digest laws

What the format asks of an encoding: its comparison is a total order in which only equal
byte strings are equal, and its digest never goes against it. Every built-in encoding obeys
the laws, two of them on any bytes, and a composite encoding obeys them when its source does.
-/

namespace DryDb

/-- The laws of an encoding on the keys `valid` says are its own. -/
structure KeyEncoding.Laws (enc : KeyEncoding) (valid : Bytes → Prop) : Prop where
  total : ∀ a b, valid a → valid b → ∃ o, enc.compare a b = .ok o
  equal : ∀ a b, valid a → valid b → (enc.compare a b = .ok .eq ↔ a = b)
  swap : ∀ a b o, valid a → valid b → enc.compare a b = .ok o → enc.compare b a = .ok o.swap
  trans : ∀ a b c, valid a → valid b → valid c → enc.compare a b = .ok .lt → enc.compare b c = .ok .lt →
    enc.compare a c = .ok .lt
  digests : ∀ a, valid a → ∃ d, enc.digest a = .ok d
  /-- A smaller digest is a smaller key. -/
  below : ∀ a b da db, valid a → valid b → enc.digest a = .ok da → enc.digest b = .ok db → da < db →
    enc.compare a b = .ok .lt
  /-- A smaller key has no greater digest. -/
  mono : ∀ a b da db, valid a → valid b → enc.digest a = .ok da → enc.digest b = .ok db →
    enc.compare a b = .ok .lt → da ≤ db

/-- What an encoding that declares its digest exact owes a page without keys. -/
structure KeyEncoding.Exact (enc : KeyEncoding) (valid : Bytes → Prop) : Prop where
  inj : ∀ a b d, valid a → valid b → enc.digest a = .ok d → enc.digest b = .ok d → a = b
  decode : ∀ a d, valid a → enc.digest a = .ok d → enc.decodeKeyFromDigest d = .ok a

/-- The keys `validate_key` passes. -/
def KeyEncoding.Valid (enc : KeyEncoding) (key : Bytes) : Prop := enc.validateKey key = .ok ()

/-- A source key the source encoding takes, followed by a record id that is not negative. -/
def CompositeKey (valid : Bytes → Prop) (key : Bytes) : Prop :=
  ∃ source rid, DuplicateKeyEncoding.split key = .ok (source, rid) ∧ valid source

namespace KeyEncoding

variable {enc : KeyEncoding} {valid : Bytes → Prop}

theorem Laws.weaken {valid' : Bytes → Prop} (h : enc.Laws valid) (hv : ∀ key, valid' key → valid key) : enc.Laws valid' where
  total a b ha hb := h.total a b (hv a ha) (hv b hb)
  equal a b ha hb := h.equal a b (hv a ha) (hv b hb)
  swap a b o ha hb := h.swap a b o (hv a ha) (hv b hb)
  trans a b c ha hb hc := h.trans a b c (hv a ha) (hv b hb) (hv c hc)
  digests a ha := h.digests a (hv a ha)
  below a b da db ha hb := h.below a b da db (hv a ha) (hv b hb)
  mono a b da db ha hb := h.mono a b da db (hv a ha) (hv b hb)

/-- Keys that are compared by a rank, with a digest that follows it. -/
theorem laws_of_rank {ρ : Type} [LinearOrder ρ] (rank : Bytes → ρ)
    (hcompare : ∀ a b, valid a → valid b → enc.compare a b = .ok (Ord.compare (rank a) (rank b)))
    (hinj : ∀ a b, valid a → valid b → rank a = rank b → a = b)
    (hdigest : ∀ a, valid a → ∃ d, enc.digest a = .ok d)
    (hmono : ∀ a b da db, valid a → valid b → enc.digest a = .ok da → enc.digest b = .ok db → rank a ≤ rank b → da ≤ db) :
    enc.Laws valid where
  total a b ha hb := ⟨_, hcompare a b ha hb⟩
  equal a b ha hb := by
    rw [hcompare a b ha hb, Except.ok.injEq, compare_eq_iff_eq]
    exact ⟨hinj a b ha hb, congrArg rank⟩
  swap a b o ha hb h := by
    rw [hcompare a b ha hb, Except.ok.injEq] at h
    rw [hcompare b a hb ha, ← h, ← Std.OrientedOrd.eq_swap]
  trans a b c ha hb hc hab hbc := by
    rw [hcompare a b ha hb, Except.ok.injEq, compare_lt_iff_lt] at hab
    rw [hcompare b c hb hc, Except.ok.injEq, compare_lt_iff_lt] at hbc
    rw [hcompare a c ha hc, Except.ok.injEq, compare_lt_iff_lt]
    exact hab.trans hbc
  digests := hdigest
  below a b da db ha hb hda hdb hlt := by
    rw [hcompare a b ha hb, Except.ok.injEq, compare_lt_iff_lt]
    by_contra hle
    exact absurd hlt (UInt64.not_lt.2 (hmono b a db da hb ha hdb hda (not_lt.1 hle)))
  mono a b da db ha hb hda hdb hlt := by
    rw [hcompare a b ha hb, Except.ok.injEq, compare_lt_iff_lt] at hlt
    exact hmono a b da db ha hb hda hdb hlt.le

theorem laws_of_orderedBy {ρ : Type} [LinearOrder ρ] {rank : Bytes → ρ} (ho : enc.OrderedBy rank)
    (hv : ∀ key, valid key → enc.Accepts key) : enc.Laws valid :=
  laws_of_rank rank (fun a b ha hb => ho.compare a b (hv a ha) (hv b hb)) (fun a b ha hb => ho.inj a b (hv a ha) (hv b hb))
    (fun a ha => (hv a ha).2) fun a b da db ha hb => ho.mono a b da db (hv a ha) (hv b hb)

/-- Byte order and the digest of the first eight bytes obey the laws on any bytes, so a
prefix can be placed among the keys. -/
theorem laws_of_lexicographic (hcompare : ∀ a b, enc.compare a b = .ok (Ord.compare a b))
    (hdigest : ∀ key, enc.digest key = .ok (asciiDigest key)) : enc.Laws fun _ => True := by
  apply laws_of_rank byteRank
  · intro a b _ _
    rw [hcompare, compare_bytes]
  · exact fun a b _ _ h => byteRank_injective h
  · exact fun a _ => ⟨_, hdigest a⟩
  · intro a b da db _ _ hda hdb h
    rw [hdigest, Except.ok.injEq] at hda hdb
    rw [← hda, ← hdb]
    exact asciiDigest_mono h

end KeyEncoding

/-! ## The built-in encodings -/

variable {enc : KeyEncoding} {key : Bytes} {id : String}

theorem length_of_valid {n : Nat} (hfixed : enc.fixedKeyLen = some n)
    (hdefault : enc.validateKey key = match enc.fixedKeyLen with
      | some len =>
        let got := key.length
        let id := enc.id
        if got ≠ len then .error (.invalid s!"encoding `{id}` needs {len} byte keys, got {got}") else .ok ()
      | none => .ok ()) (h : enc.Valid key) : key.length = n := by
  rw [KeyEncoding.Valid, hdefault, hfixed] at h
  by_contra hne
  simp [hne] at h

theorem builtin_length_of_valid (h : builtin id = some enc) {n : Nat}
    (hv : enc.Valid key) (hn : enc.fixedKeyLen = some n) : key.length = n := by
  rcases builtin_cases h with rfl | rfl | rfl | rfl
  · exact length_of_valid hn rfl hv
  · cases hn
  · exact length_of_valid hn rfl hv
  · exact length_of_valid hn rfl hv

theorem int64_accepts_of_valid (h : int64Encoding.Valid key) : int64Encoding.Accepts key := by
  have hlen : key.length = 8 := length_of_valid rfl rfl h
  refine ⟨h, UInt64.ofNat (unsigned 8 (int64Rank key)) ^^^ signBit, ?_⟩
  change (Int64Encoding.decode key >>= fun v => .ok (UInt64.ofNat (unsigned 8 v) ^^^ signBit)) = _
  rw [int64_decode hlen, ok_bind]

theorem uuidv7_accepts_of_valid (h : uuidv7Encoding.Valid key) : uuidv7Encoding.Accepts key := by
  have hlen : key.length = 16 := length_of_valid rfl rfl h
  refine ⟨h, _, bind_eq_ok.2 ⟨_, uuidv7_fields hlen, rfl⟩⟩

theorem ascii_laws : asciiEncoding.Laws fun _ => True := KeyEncoding.laws_of_lexicographic (fun _ _ => rfl) fun _ => rfl

theorem ulid_laws : ulidEncoding.Laws fun _ => True := KeyEncoding.laws_of_lexicographic (fun _ _ => rfl) fun _ => rfl

theorem builtin_laws (h : builtin id = some enc) : enc.Laws enc.Valid := by
  rcases builtin_cases h with rfl | rfl | rfl | rfl
  · exact KeyEncoding.laws_of_orderedBy int64_orderedBy fun _ => int64_accepts_of_valid
  · exact ascii_laws.weaken fun _ _ => trivial
  · exact KeyEncoding.laws_of_orderedBy uuidv7_orderedBy fun _ => uuidv7_accepts_of_valid
  · exact ulid_laws.weaken fun _ _ => trivial

/-- The digest of an `i64` key is the key. -/
theorem int64_exact : int64Encoding.Exact int64Encoding.Valid := by
  have hdecode : ∀ a d, int64Encoding.Valid a → int64Encoding.digest a = .ok d →
      int64Encoding.decodeKeyFromDigest d = .ok a := by
    intro a d ha hd
    have hlen : a.length = 8 := length_of_valid rfl rfl ha
    change (Int64Encoding.decode a >>= fun v => .ok (UInt64.ofNat (unsigned 8 v) ^^^ signBit)) = _ at hd
    have hlt : ofLe a < 2 ^ 64 := by
      have := ofLe_lt a
      rw [hlen] at this
      exact this
    rw [int64_decode hlen, ok_bind, Except.ok.injEq, int64Rank, unsigned_signed hlt] at hd
    change Except.ok (leBytes 8 (d ^^^ signBit).toNat) = _
    have hxor : d ^^^ signBit = UInt64.ofNat (ofLe a) := by
      rw [← hd, UInt64.xor_assoc, UInt64.xor_self, UInt64.xor_zero]
    have hbytes := leBytes_ofLe a
    rw [hlen] at hbytes
    rw [hxor, UInt64.toNat_ofNat', Nat.mod_eq_of_lt hlt, hbytes]
  refine ⟨fun a b d ha hb hda hdb => ?_, hdecode⟩
  have h := (hdecode a d ha hda).symm.trans (hdecode b d hb hdb)
  exact Except.ok.inj h

theorem builtin_exact (h : builtin id = some enc) (he : enc.isDigestExact = true) :
    enc.Exact enc.Valid := by
  rcases builtin_cases h with rfl | rfl | rfl | rfl
  · exact int64_exact
  · cases he
  · cases he
  · cases he

/-! ## Composite keys -/

theorem split_encode (source : Bytes) {rid : Nat} (h : rid < 2 ^ 31) :
    DuplicateKeyEncoding.split (DuplicateKeyEncoding.encode source rid) = .ok (source, (rid : Int)) := by
  have hlen : (DuplicateKeyEncoding.encode source rid).length - ridLen = source.length := by
    simp [DuplicateKeyEncoding.encode, ridLen]
  have hrid : ridPart (DuplicateKeyEncoding.encode source rid) = rid := by
    rw [ridPart, hlen, DuplicateKeyEncoding.encode, List.drop_left, ofLe_leBytes_of_lt (by simp [ridLen]; omega), signed,
      if_pos (by simp [ridLen]; omega)]
  rw [split_eq_ok, hrid]
  refine ⟨by simp [DuplicateKeyEncoding.encode], by omega, ?_, rfl⟩
  rw [sourcePart, hlen, DuplicateKeyEncoding.encode, List.take_left]

section

variable {source : KeyEncoding} {valid : Bytes → Prop}

theorem duplicate_compare {a b sa sb : Bytes} {ra rb : Int} (ha : DuplicateKeyEncoding.split a = .ok (sa, ra))
    (hb : DuplicateKeyEncoding.split b = .ok (sb, rb)) {o : Ordering} (ho : source.compare sa sb = .ok o) :
    (duplicateKeyEncoding source).compare a b = .ok (o.then (Ord.compare ra rb)) := by
  change (DuplicateKeyEncoding.split a >>= fun x => DuplicateKeyEncoding.split b >>= fun y =>
    source.compare x.1 y.1 >>= fun o => .ok (o.then (Ord.compare x.2 y.2))) = _
  rw [ha, ok_bind, hb, ok_bind, ho, ok_bind]

theorem duplicate_digest_eq {a s : Bytes} {r : Int} (ha : DuplicateKeyEncoding.split a = .ok (s, r)) :
    (duplicateKeyEncoding source).digest a = source.digest s := by
  change (DuplicateKeyEncoding.split a >>= fun x => source.digest x.1) = _
  rw [ha, ok_bind]

/-- The source key dominates the order and is what is digested, so the source's laws carry over. -/
theorem duplicate_laws (h : source.Laws valid) : (duplicateKeyEncoding source).Laws (CompositeKey valid) where
  total a b := by
    rintro ⟨sa, ra, ha, hva⟩ ⟨sb, rb, hb, hvb⟩
    obtain ⟨o, ho⟩ := h.total sa sb hva hvb
    exact ⟨_, duplicate_compare ha hb ho⟩
  equal a b := by
    rintro ⟨sa, ra, ha, hva⟩ ⟨sb, rb, hb, hvb⟩
    obtain ⟨o, ho⟩ := h.total sa sb hva hvb
    rw [duplicate_compare ha hb ho, Except.ok.injEq, Ordering.then_eq_eq, compare_eq_iff_eq]
    constructor
    · rintro ⟨rfl, rfl⟩
      rw [(h.equal sa sb hva hvb).1 ho] at ha
      exact split_injective ha hb
    · rintro rfl
      obtain ⟨rfl, rfl⟩ := Prod.mk.inj (Except.ok.inj (ha.symm.trans hb))
      have heq := (h.equal sa sa hva hva).2 rfl
      exact ⟨Except.ok.inj (ho.symm.trans heq), rfl⟩
  swap a b o' := by
    rintro ⟨sa, ra, ha, hva⟩ ⟨sb, rb, hb, hvb⟩ hc
    obtain ⟨o, ho⟩ := h.total sa sb hva hvb
    rw [duplicate_compare ha hb ho, Except.ok.injEq] at hc
    rw [duplicate_compare hb ha (h.swap sa sb o hva hvb ho), ← hc, Ordering.swap_then, ← Std.OrientedOrd.eq_swap]
  trans a b c := by
    rintro ⟨sa, ra, ha, hva⟩ ⟨sb, rb, hb, hvb⟩ ⟨sc, rc, hc, hvc⟩ hab hbc
    obtain ⟨o, ho⟩ := h.total sa sb hva hvb
    obtain ⟨o', ho'⟩ := h.total sb sc hvb hvc
    rw [duplicate_compare ha hb ho, Except.ok.injEq, Ordering.then_eq_lt, compare_lt_iff_lt] at hab
    rw [duplicate_compare hb hc ho', Except.ok.injEq, Ordering.then_eq_lt, compare_lt_iff_lt] at hbc
    rcases hab with rfl | ⟨rfl, hr⟩
    · -- The first source key is below the second, which is not above the third.
      have hlt : source.compare sa sc = .ok .lt := by
        rcases hbc with rfl | ⟨rfl, -⟩
        · exact h.trans sa sb sc hva hvb hvc ho ho'
        · exact (h.equal sb sc hvb hvc).1 ho' ▸ ho
      rw [duplicate_compare ha hc hlt]
      rfl
    · obtain rfl := (h.equal sa sb hva hvb).1 ho
      rcases hbc with rfl | ⟨rfl, hr'⟩
      · rw [duplicate_compare ha hc ho']
        rfl
      · rw [duplicate_compare ha hc ho', Ordering.eq_then, compare_lt_iff_lt.2 (hr.trans hr')]
  digests a := by
    rintro ⟨s, r, ha, hv⟩
    rw [duplicate_digest_eq ha]
    exact h.digests s hv
  below a b da db := by
    rintro ⟨sa, ra, ha, hva⟩ ⟨sb, rb, hb, hvb⟩ hda hdb hlt
    rw [duplicate_digest_eq ha] at hda
    rw [duplicate_digest_eq hb] at hdb
    rw [duplicate_compare ha hb (h.below sa sb da db hva hvb hda hdb hlt)]
    rfl
  mono a b da db := by
    rintro ⟨sa, ra, ha, hva⟩ ⟨sb, rb, hb, hvb⟩ hda hdb hlt
    rw [duplicate_digest_eq ha] at hda
    rw [duplicate_digest_eq hb] at hdb
    obtain ⟨o, ho⟩ := h.total sa sb hva hvb
    rw [duplicate_compare ha hb ho, Except.ok.injEq, Ordering.then_eq_lt] at hlt
    rcases hlt with rfl | ⟨rfl, -⟩
    · exact h.mono sa sb da db hva hvb hda hdb ho
    · rw [(h.equal sa sb hva hvb).1 ho, hdb, Except.ok.injEq] at hda
      exact hda ▸ UInt64.le_refl db

/-- Over a built-in encoding `validate_key` and a record id that is not negative are all it takes. -/
theorem compositeKey_iff {id : String} (h : builtin id = some source) (key : Bytes) :
    CompositeKey source.Valid key ↔
      (duplicateKeyEncoding source).Valid key ∧ ∃ part, DuplicateKeyEncoding.split key = .ok part := by
  have hlen : ∀ {s : Bytes} {r : Int}, DuplicateKeyEncoding.split key = .ok (s, r) → key.length = s.length + ridLen := by
    intro s r hs
    obtain ⟨hle, -, rfl, -⟩ := split_eq_ok.1 hs
    rw [sourcePart, List.length_take]
    omega
  rw [KeyEncoding.Valid, duplicate_validateKey]
  constructor
  · rintro ⟨s, r, hs, hv⟩
    refine ⟨fun n hn => ?_, _, hs⟩
    rw [hlen hs, builtin_length_of_valid h hv hn]
  · rintro ⟨hv, ⟨s, r⟩, hs⟩
    refine ⟨s, r, hs, (builtin_extends h).valid s fun n hn => ?_⟩
    have := hv n hn
    rw [hlen hs] at this
    omega

end

/-! ## All of it -/

/-- Every built-in encoding obeys the laws on its valid keys, `ascii` and `ulid` on any bytes; a
digest declared exact determines its key. A composite encoding obeys them wherever its source
does, and its keys split into what they were made of. -/
theorem encodings_obey_laws :
    (∀ id enc, builtin id = some enc →
      enc.Laws enc.Valid ∧ (enc.isDigestExact = true → enc.Exact enc.Valid) ∧
      ∀ key, CompositeKey enc.Valid key ↔
        (duplicateKeyEncoding enc).Valid key ∧ ∃ part, DuplicateKeyEncoding.split key = .ok part) ∧
    (asciiEncoding.Laws fun _ => True) ∧ (ulidEncoding.Laws fun _ => True) ∧
    (∀ (source : KeyEncoding) (valid : Bytes → Prop), source.Laws valid →
      (duplicateKeyEncoding source).Laws (CompositeKey valid) ∧ (duplicateKeyEncoding source).isDigestExact = false) ∧
    ∀ (source : Bytes) (rid : Nat), rid < 2 ^ 31 →
      DuplicateKeyEncoding.split (DuplicateKeyEncoding.encode source rid) = .ok (source, (rid : Int)) :=
  ⟨fun _ _ h => ⟨builtin_laws h, builtin_exact h, compositeKey_iff h⟩, ascii_laws, ulid_laws,
    fun _ _ h => ⟨duplicate_laws h, rfl⟩, fun source _ h => split_encode source h⟩

theorem encodings_obey_laws_composite :
    (duplicateKeyEncoding int64Encoding).Laws (CompositeKey int64Encoding.Valid) ∧
      DuplicateKeyEncoding.split (DuplicateKeyEncoding.encode [1, 2] 5) = .ok ([1, 2], 5) :=
  ⟨(encodings_obey_laws.2.2.2.1 int64Encoding int64Encoding.Valid (builtin_laws (show builtin "i64" = some int64Encoding from rfl))).1,
    encodings_obey_laws.2.2.2.2 [1, 2] 5 (by decide)⟩

end DryDb
