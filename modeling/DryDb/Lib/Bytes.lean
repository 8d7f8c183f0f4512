import DryDb.Lib.Outcome
/-!
# Byte strings

Little-endian integers, checked slices and overwriting in place. Lengths and
offsets are natural numbers; an integer of `w` bytes keeps its value modulo
`256 ^ w`, which is what an `as` cast to a narrower type does.
-/

namespace DryDb

abbrev Bytes := List UInt8

/-! ## Little-endian integers -/

/-- The low `w` bytes of `n`, least significant first. -/
def leBytes : Nat → Nat → Bytes
  | 0, _ => []
  | w + 1, n => UInt8.ofNat n :: leBytes w (n / 256)

/-- The number a little-endian byte string stands for. -/
def ofLe : Bytes → Nat
  | [] => 0
  | b :: bs => b.toNat + 256 * ofLe bs

@[simp] theorem leBytes_length (w n : Nat) : (leBytes w n).length = w := by
  induction w generalizing n with
  | zero => rfl
  | succ w ih => simp [leBytes, ih]

theorem ofLe_leBytes (w n : Nat) : ofLe (leBytes w n) = n % 256 ^ w := by
  induction w generalizing n with
  | zero => simp [leBytes, ofLe, Nat.mod_one]
  | succ w ih =>
    have hb : (UInt8.ofNat n).toNat = n % 256 := by simp
    rw [leBytes, ofLe, ih, hb, pow_succ, mul_comm (256 ^ w) 256, Nat.mod_mul]

variable {w n off len : Nat} {buf s a b bytes : Bytes}

theorem ofLe_leBytes_of_lt (h : n < 256 ^ w) : ofLe (leBytes w n) = n := by
  rw [ofLe_leBytes, Nat.mod_eq_of_lt h]

theorem ofLe_lt (bs : Bytes) : ofLe bs < 256 ^ bs.length := by
  induction bs with
  | nil => simp [ofLe]
  | cons b bs ih =>
    have hb := b.toNat_lt
    rw [ofLe, List.length_cons, pow_succ]
    omega

theorem leBytes_ofLe (bs : Bytes) : leBytes bs.length (ofLe bs) = bs := by
  induction bs with
  | nil => rfl
  | cons b bs ih =>
    have hb := b.toNat_lt
    have hm : UInt8.ofNat (b.toNat + 256 * ofLe bs) = b := by
      apply UInt8.toNat_inj.1
      simp
    have hd : (b.toNat + 256 * ofLe bs) / 256 = ofLe bs := by omega
    rw [List.length_cons, leBytes, ofLe, hm, hd, ih]

/-- The signed number of `w` bytes with these bits. -/
def signed (w n : Nat) : Int := if 2 * n < 256 ^ w then n else (n : Int) - 256 ^ w

/-- The bits of a signed number of `w` bytes. -/
def unsigned (w : Nat) (z : Int) : Nat := (z % 256 ^ w).toNat

theorem unsigned_lt (w : Nat) (z : Int) : unsigned w z < 256 ^ w := by
  have hp : (0 : Int) < 256 ^ w := by positivity
  have h := Int.emod_lt_of_pos z hp
  have h' := Int.emod_nonneg z hp.ne'
  unfold unsigned
  zify
  rw [Int.toNat_of_nonneg h']
  exact_mod_cast h

theorem signed_unsigned (w : Nat) (z : Int) (hl : -(256 ^ w : Int) ≤ 2 * z) (hu : 2 * z < 256 ^ w) :
    signed w (unsigned w z) = z := by
  have hp : (0 : Int) < 256 ^ w := by positivity
  have hn := Int.emod_nonneg z hp.ne'
  have hc : ((unsigned w z : Nat) : Int) = z % 256 ^ w := by
    unfold unsigned
    exact Int.toNat_of_nonneg hn
  rcases le_or_gt 0 z with hz | hz
  · have he : z % 256 ^ w = z := Int.emod_eq_of_lt hz (by omega)
    have hlt : 2 * unsigned w z < 256 ^ w := by
      zify
      rw [hc, he]
      exact_mod_cast hu
    rw [signed, if_pos hlt, hc, he]
  · have he : z % 256 ^ w = z + 256 ^ w := by
      rw [← Int.add_emod_right]
      exact Int.emod_eq_of_lt (by omega) (by omega)
    have hge : ¬ 2 * unsigned w z < 256 ^ w := by
      zify
      rw [hc, he]
      omega
    rw [signed, if_neg hge, hc, he]
    ring

theorem unsigned_natCast (h : n < 256 ^ w) : unsigned w (n : Int) = n := by
  unfold unsigned
  rw [Int.emod_eq_of_lt (by positivity) (by exact_mod_cast h)]
  simp

theorem unsigned_signed (h : n < 256 ^ w) : unsigned w (signed w n) = n := by
  unfold signed
  split
  · exact unsigned_natCast h
  · have hsub : ((n : Int) - 256 ^ w) % 256 ^ w = n := by
      rw [Int.sub_emod_right]
      exact Int.emod_eq_of_lt (by positivity) (by exact_mod_cast h)
    rw [unsigned, hsub, Int.toNat_natCast]

theorem signed_lt (h : n < 256 ^ w) : 2 * signed w n < 256 ^ w := by
  unfold signed
  zify at h
  split
  · rename_i hlt
    zify at hlt
    exact hlt
  · omega

/-! ## Slices -/

/-- `buf.get(off..off + len)`. -/
def slice (buf : Bytes) (off len : Nat) : Option Bytes :=
  if off + len ≤ buf.length then some ((buf.drop off).take len) else none

theorem slice_eq_some :
    slice buf off len = some s ↔ off + len ≤ buf.length ∧ s = (buf.drop off).take len := by
  unfold slice
  split
  · rename_i h; simp [h, eq_comm]
  · rename_i h; simp [h]

theorem slice_of_le (h : off + len ≤ buf.length) :
    slice buf off len = some ((buf.drop off).take len) := if_pos h

theorem slice_length (h : slice buf off len = some s) : s.length = len := by
  obtain ⟨hl, rfl⟩ := slice_eq_some.1 h
  simp
  omega

/-- The middle piece of a concatenation. -/
theorem slice_append {c : Bytes} (ho : off = a.length) (hl : len = b.length) :
    slice (a ++ (b ++ c)) off len = some b := by
  subst ho hl
  rw [slice_of_le (by simp)]
  simp

theorem slice_append_left (h : off + len ≤ a.length) :
    slice (a ++ b) off len = slice a off len := by
  rw [slice_of_le h, slice_of_le (by rw [List.length_append]; omega), List.drop_append_of_le_length (by omega),
    List.take_append_of_le_length (by rw [List.length_drop]; omega)]

/-! ## Overwriting in place -/

/-- A file after `bytes` has been written at `off`. -/
def overwrite (file : Bytes) (off : Nat) (bytes : Bytes) : Bytes :=
  file.take off ++ bytes ++ file.drop (off + bytes.length)

theorem overwrite_length {file : Bytes} (h : off + bytes.length ≤ file.length) :
    (overwrite file off bytes).length = file.length := by
  simp [overwrite]
  omega

/-- Writing at the end appends. -/
theorem overwrite_end (file bytes : Bytes) : overwrite file file.length bytes = file ++ bytes := by
  simp [overwrite]

theorem overwrite_append_right (ho : a.length ≤ off) :
    overwrite (a ++ b) off bytes = a ++ overwrite b (off - a.length) bytes := by
  unfold overwrite
  rw [List.take_append, List.take_of_length_le ho, List.drop_append, List.drop_eq_nil_of_le (by omega),
    show off + bytes.length - a.length = off - a.length + bytes.length by omega]
  simp

theorem overwrite_append_left (h : off + bytes.length ≤ a.length) :
    overwrite (a ++ b) off bytes = overwrite a off bytes ++ b := by
  unfold overwrite
  rw [List.take_append_of_le_length (by omega), List.drop_append_of_le_length h]
  simp

/-! ## Pieces of a buffer -/

/-- The bytes `s` stand in `buf` at `off`. -/
def PieceAt (buf : Bytes) (off : Nat) (s : Bytes) : Prop :=
  ∃ before after, buf = before ++ s ++ after ∧ off = before.length

theorem pieceAt_iff_slice : PieceAt buf off s ↔ slice buf off s.length = some s := by
  constructor
  · rintro ⟨a, c, rfl, rfl⟩
    rw [List.append_assoc]
    exact slice_append rfl rfl
  · intro h
    obtain ⟨hl, hs⟩ := slice_eq_some.1 h
    refine ⟨buf.take off, buf.drop (off + s.length), ?_, by simp; omega⟩
    conv_lhs => rw [← List.take_append_drop off buf, ← List.take_append_drop s.length (buf.drop off), ← hs]
    rw [List.drop_drop, List.append_assoc]

namespace PieceAt

variable {buf s t : Bytes} {off k : Nat} {l : List Bytes} {i : Nat}

theorem slice_eq (h : PieceAt buf off s) : slice buf off s.length = some s := pieceAt_iff_slice.1 h

theorem le_length (h : PieceAt buf off s) : off + s.length ≤ buf.length := (slice_eq_some.1 h.slice_eq).1

theorem refl (s : Bytes) : PieceAt s 0 s := ⟨[], [], by simp, rfl⟩

/-- A piece of a piece. -/
theorem trans (h : PieceAt buf off s) (h' : PieceAt s k t) : PieceAt buf (off + k) t := by
  obtain ⟨a, c, rfl, rfl⟩ := h
  obtain ⟨b, d, rfl, rfl⟩ := h'
  exact ⟨a ++ b, d ++ c, by simp, by simp⟩

theorem append_left (h : PieceAt buf off s) (rest : Bytes) : PieceAt (buf ++ rest) off s := by
  obtain ⟨a, c, rfl, rfl⟩ := h
  exact ⟨a, c ++ rest, by simp, rfl⟩

theorem append_right (h : PieceAt buf off s) (first : Bytes) : PieceAt (first ++ buf) (first.length + off) s := by
  obtain ⟨a, c, rfl, rfl⟩ := h
  exact ⟨first ++ a, c, by simp, by simp⟩

/-- The `i`-th chunk of a concatenation. -/
theorem flatten (h : i < l.length) : PieceAt l.flatten (l.take i).flatten.length l[i] := by
  refine ⟨(l.take i).flatten, (l.drop (i + 1)).flatten, ?_, rfl⟩
  have hsplit := congrArg List.flatten (List.take_append_drop i l)
  rw [List.flatten_append, List.drop_eq_getElem_cons h, List.flatten_cons] at hsplit
  rw [← hsplit, List.append_assoc]

/-- The `i`-th record of a table of records of one width. -/
theorem records {w : Nat} {r : Bytes} (hw : ∀ r ∈ l, r.length = w) (h : l[i]? = some r) :
    PieceAt l.flatten (i * w) r := by
  obtain ⟨hi, rfl⟩ := List.getElem?_eq_some_iff.1 h
  have hlen : (l.take i).flatten.length = i * w := by
    have hc : ∀ r ∈ l.take i, r.length = w := fun r hr => hw r (List.mem_of_mem_take hr)
    rw [List.length_flatten, List.map_congr_left hc, List.map_const', List.sum_replicate, List.length_take]
    simp [Nat.min_eq_left hi.le]
  exact hlen ▸ flatten hi

/-- The `i`-th number of a table of numbers of one width. -/
theorem numbers {α : Type} {l : List α} (f : α → Nat) {w : Nat} {a : α} (h : l[i]? = some a) :
    PieceAt (l.flatMap fun a => leBytes w (f a)) (i * w) (leBytes w (f a)) := by
  rw [List.flatMap]
  exact records (by simp) (by simp [h])

end PieceAt

end DryDb
