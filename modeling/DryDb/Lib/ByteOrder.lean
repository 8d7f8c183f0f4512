import DryDb.Lib.Bytes
/-!
# The order of bytes

Byte strings compare as the lists of their numbers do. A big-endian prefix of fixed width,
padded with zeros, is monotone in that order.
-/

namespace DryDb

/-- The numbers of a byte string, which a linear order compares. -/
def byteRank (bytes : Bytes) : List Nat := bytes.map UInt8.toNat

theorem byteRank_injective : Function.Injective byteRank := by
  intro a b h
  exact List.map_injective_iff.2 (fun x y hxy => UInt8.toNat_inj.1 hxy) h

theorem compare_uint8 (a b : UInt8) : Ord.compare a b = compare a.toNat b.toNat := by
  change compareOfLessAndEq a b = _
  rw [LinearOrder.compare_eq_compareOfLessAndEq]
  unfold compareOfLessAndEq
  simp only [UInt8.lt_iff_toNat_lt, UInt8.toNat_inj]

theorem compare_uint64 (a b : UInt64) : Ord.compare a b = compare a.toNat b.toNat := by
  change compareOfLessAndEq a b = _
  rw [LinearOrder.compare_eq_compareOfLessAndEq]
  unfold compareOfLessAndEq
  simp only [UInt64.lt_iff_toNat_lt, UInt64.toNat_inj]

variable {a k : Nat} {as : List Nat}

theorem cons_le_cons_nat {b : Nat} {bs : List Nat} : a :: as ≤ b :: bs ↔ a < b ∨ a = b ∧ as ≤ bs := by
  rw [← not_lt, List.cons_lt_cons_iff, ← not_lt]
  rcases Nat.lt_trichotomy a b with h | h | h
  · simp [h, h.not_gt, h.ne']
  · simp [h]
  · simp [h, h.not_gt, h.ne']

theorem not_cons_le_nil : ¬ a :: as ≤ [] := by
  rw [not_le]
  exact List.nil_lt_cons a as

/-- The order of a linear order, spelled out. -/
theorem compare_eq_of_iff {α : Type} [LinearOrder α] {a b : α} {o : Ordering} (hlt : o = .lt ↔ a < b) (heq : o = .eq ↔ a = b) :
    o = compare a b := by
  rcases lt_trichotomy a b with h | h | h
  · rw [hlt.2 h, compare_lt_iff_lt.2 h]
  · rw [heq.2 h, compare_eq_iff_eq.2 h]
  · rw [compare_gt_iff_gt.2 h]
    cases o with
    | lt => exact absurd (hlt.1 rfl) h.not_gt
    | eq => exact absurd (heq.1 rfl) h.ne'
    | gt => rfl

/-- One comparison after another is the comparison of pairs. -/
theorem compare_then {α β : Type} [LinearOrder α] [LinearOrder β] (a b : α) (c d : β) :
    (compare a b).then (compare c d) = compare (toLex (a, c)) (toLex (b, d)) := by
  apply compare_eq_of_iff
  · rw [Ordering.then_eq_lt, compare_lt_iff_lt, compare_eq_iff_eq, compare_lt_iff_lt, Prod.Lex.toLex_lt_toLex]
  · rw [Ordering.then_eq_eq, compare_eq_iff_eq, compare_eq_iff_eq, toLex_inj, Prod.mk.injEq]

theorem compare_bytes_lt (a b : Bytes) : Ord.compare a b = .lt ↔ byteRank a < byteRank b := by
  induction a generalizing b with
  | nil =>
    cases b with
    | nil => simp [byteRank]
    | cons y bs => exact ⟨fun _ => List.nil_lt_cons .., fun _ => rfl⟩
  | cons x as ih =>
    cases b with
    | nil => exact ⟨fun h => by simp at h, fun h => absurd h (List.not_lt_nil _)⟩
    | cons y bs =>
      rw [List.compare_cons_cons, Ordering.then_eq_lt, ih, compare_uint8, compare_lt_iff_lt, compare_eq_iff_eq]
      exact List.cons_lt_cons_iff.symm

/-- Byte strings compare as their numbers do. -/
theorem compare_bytes (a b : Bytes) :
    Ord.compare a b = @compare (List Nat) LinearOrder.toOrd (byteRank a) (byteRank b) := by
  apply compare_eq_of_iff (compare_bytes_lt a b)
  rw [Std.compare_eq_iff_eq, byteRank_injective.eq_iff]

/-- The number of the first `w` bytes, big-endian, padded with zeros. -/
def bigEndian : Nat → Bytes → Nat
  | 0, _ => 0
  | _ + 1, [] => 0
  | w + 1, b :: rest => b.toNat * 256 ^ w + bigEndian w rest

theorem bigEndian_lt (w : Nat) (bytes : Bytes) : bigEndian w bytes < 256 ^ w := by
  induction w generalizing bytes with
  | zero => simp [bigEndian]
  | succ w ih =>
    cases bytes with
    | nil => simp [bigEndian]
    | cons b rest =>
      have hb := b.toNat_lt
      have hrest := ih rest
      rw [bigEndian, Nat.pow_succ]
      calc b.toNat * 256 ^ w + bigEndian w rest < b.toNat * 256 ^ w + 256 ^ w := by omega
        _ = (b.toNat + 1) * 256 ^ w := by ring
        _ ≤ 256 * 256 ^ w := Nat.mul_le_mul_right _ (by omega)
        _ = 256 ^ w * 256 := Nat.mul_comm ..

/-- Larger byte strings have prefixes that are no smaller. -/
theorem bigEndian_mono {w : Nat} {a b : Bytes} (h : byteRank a ≤ byteRank b) : bigEndian w a ≤ bigEndian w b := by
  induction w generalizing a b with
  | zero => simp [bigEndian]
  | succ w ih =>
    cases a with
    | nil => simp [bigEndian]
    | cons x as =>
      cases b with
      | nil => exact absurd h not_cons_le_nil
      | cons y bs =>
        rw [bigEndian, bigEndian]
        rcases cons_le_cons_nat.1 h with hlt | ⟨heq, hrest⟩
        · have hx := bigEndian_lt w as
          calc x.toNat * 256 ^ w + bigEndian w as ≤ (x.toNat + 1) * 256 ^ w := by rw [Nat.add_mul]; omega
            _ ≤ y.toNat * 256 ^ w := Nat.mul_le_mul_right _ hlt
            _ ≤ _ := Nat.le_add_right ..
        · have := ih hrest
          rw [heq]
          omega

theorem byteRank_le_append (a b : Bytes) : byteRank a ≤ byteRank (a ++ b) := by
  induction a with
  | nil =>
    rw [← not_lt]
    exact List.not_lt_nil _
  | cons x as ih => exact cons_le_cons_nat.2 (.inr ⟨rfl, ih⟩)

/-! ## Packing numbers into a word -/

/-- A shift that loses nothing multiplies. -/
theorem shiftLeft_toNat {x : UInt64} (hk : k < 64) (hx : x.toNat * 2 ^ k < 2 ^ 64) :
    (x <<< UInt64.ofNat k).toNat = x.toNat * 2 ^ k := by
  rw [UInt64.toNat_shiftLeft, UInt64.toNat_ofNat', Nat.mod_eq_of_lt (show k < 2 ^ 64 by omega),
    Nat.mod_eq_of_lt hk, Nat.shiftLeft_eq, Nat.mod_eq_of_lt hx]

/-- Bits that do not overlap add up. -/
theorem or_eq_add_of_dvd {b : Nat} (ha : 2 ^ k ∣ a) (hb : b < 2 ^ k) : a ||| b = a + b := by
  obtain ⟨c, rfl⟩ := ha
  exact (Nat.two_pow_add_eq_or_of_lt hb c).symm

/-- Flipping a bit above a number adds it. -/
theorem xor_two_pow {n : Nat} (h : n < 2 ^ k) : n ^^^ 2 ^ k = n + 2 ^ k := by
  apply Nat.eq_of_testBit_eq
  intro i
  rw [Nat.testBit_xor, Nat.testBit_two_pow, Nat.add_comm]
  rcases Nat.lt_trichotomy i k with hi | rfl | hi
  · rw [Nat.testBit_two_pow_add_gt hi]
    simp [show k ≠ i by omega]
  · rw [Nat.testBit_two_pow_add_eq, Nat.testBit_lt_two_pow h]
    simp
  · have hn : n < 2 ^ i := Nat.lt_of_lt_of_le h (Nat.pow_le_pow_right (by decide) hi.le)
    have hsum : 2 ^ k + n < 2 ^ i := by
      have := Nat.pow_le_pow_right (n := 2) (by decide) (show k + 1 ≤ i by omega)
      rw [Nat.pow_succ] at this
      omega
    rw [Nat.testBit_lt_two_pow hn, Nat.testBit_lt_two_pow hsum]
    simp [show k ≠ i by omega]

end DryDb
