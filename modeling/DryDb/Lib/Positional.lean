import Mathlib
/-!
# Counting with levels

Levels stand for the digits of a number: `levels` with `b ^ l` for each level `l` in it weighs
`weight b levels`. When no level occurs `b` times, the number of times level `j` occurs is the
`j`-th digit of the weight (`count_eq_digit`). Adding one level `0` and trading `b` of the
lowest level for one of the next, as long as there are that many, is counting by one: `Carries`
holds in between, `Tidy` when the trading is done.
-/

namespace DryDb

/-- What the levels stand for. -/
def weight (b : Nat) (levels : List Nat) : Nat := (levels.map (b ^ ·)).sum

@[simp] theorem weight_nil (b : Nat) : weight b [] = 0 := rfl

@[simp] theorem weight_cons (b l : Nat) (levels : List Nat) : weight b (l :: levels) = b ^ l + weight b levels := by
  simp [weight]

theorem weight_replicate (b n l : Nat) : weight b (List.replicate n l) = n * b ^ l := by
  simp [weight]

/-- The levels below `j + 1` are those below `j` and those at `j`. -/
theorem weight_below_succ (b : Nat) (levels : List Nat) (j : Nat) :
    weight b (levels.filter (· < j + 1)) = weight b (levels.filter (· < j)) + levels.count j * b ^ j := by
  induction levels with
  | nil => simp
  | cons l levels ih =>
    rcases Nat.lt_trichotomy l j with hlt | rfl | hgt
    · rw [List.filter_cons_of_pos (by simp; omega), List.filter_cons_of_pos (by simpa using hlt),
        List.count_cons_of_ne (by omega), weight_cons, weight_cons, ih, Nat.add_assoc]
    · rw [List.filter_cons_of_pos (by simp), List.filter_cons_of_neg (by simp), List.count_cons_self, weight_cons, ih,
        Nat.add_mul, Nat.one_mul]
      omega
    · rw [List.filter_cons_of_neg (by simp; omega), List.filter_cons_of_neg (by simp; omega),
        List.count_cons_of_ne (by omega), ih]

variable {b : Nat} {levels : List Nat}

/-- Few of each level: what is below a level weighs less than the level. -/
theorem weight_below_lt (h : ∀ j, levels.count j < b) (j : Nat) :
    weight b (levels.filter (· < j)) < b ^ j := by
  induction j with
  | zero => simp
  | succ j ih =>
    rw [weight_below_succ]
    have hcount : levels.count j + 1 ≤ b := h j
    calc weight b (levels.filter (· < j)) + levels.count j * b ^ j
        < b ^ j + levels.count j * b ^ j := by omega
      _ = (levels.count j + 1) * b ^ j := by rw [Nat.add_mul, Nat.one_mul, Nat.add_comm]
      _ ≤ b * b ^ j := Nat.mul_le_mul_right _ hcount
      _ = b ^ (j + 1) := by rw [Nat.pow_succ, Nat.mul_comm]

/-- What is at a level or above it weighs a multiple of the level. -/
theorem dvd_weight_above (b : Nat) (levels : List Nat) (j : Nat) :
    b ^ j ∣ weight b (levels.filter fun l => ¬ l < j) := by
  induction levels with
  | nil => simp
  | cons l levels ih =>
    by_cases hlt : l < j
    · rwa [List.filter_cons_of_neg (by simpa using hlt)]
    · rw [List.filter_cons_of_pos (by simpa using hlt), weight_cons]
      exact Nat.dvd_add (Nat.pow_dvd_pow b (by omega)) ih

theorem weight_split (b : Nat) (levels : List Nat) (j : Nat) :
    weight b levels = weight b (levels.filter (· < j)) + weight b (levels.filter fun l => ¬ l < j) := by
  induction levels with
  | nil => rfl
  | cons l levels ih =>
    by_cases hlt : l < j
    · rw [List.filter_cons_of_pos (by simpa using hlt), List.filter_cons_of_neg (by simpa using hlt), weight_cons,
        weight_cons, ih, Nat.add_assoc]
    · rw [List.filter_cons_of_neg (by simpa using hlt), List.filter_cons_of_pos (by simpa using hlt), weight_cons,
        weight_cons, ih, Nat.add_left_comm]

/-- How often a level occurs is the digit it stands for. -/
theorem count_eq_digit (hb : 2 ≤ b) (h : ∀ j, levels.count j < b) (j : Nat) :
    levels.count j = (Nat.digits b (weight b levels)).getD j 0 := by
  rw [Nat.getD_digits _ _ hb]
  obtain ⟨c, hc⟩ := dvd_weight_above b levels (j + 1)
  have hpos : 0 < b ^ j := Nat.pow_pos (by omega)
  have hsplit : weight b levels = weight b (levels.filter (· < j)) + b ^ j * (levels.count j + b * c) := by
    rw [weight_split b levels (j + 1), weight_below_succ, hc, Nat.pow_succ, Nat.mul_add, Nat.mul_assoc,
      Nat.mul_comm (levels.count j), Nat.add_assoc]
  rw [hsplit, Nat.add_mul_div_left _ _ hpos, Nat.div_eq_of_lt (weight_below_lt h j), Nat.zero_add,
    Nat.add_mul_mod_self_left, Nat.mod_eq_of_lt (h j)]

/-- The highest level is at most the logarithm of the weight. -/
theorem level_le_log (hb : 2 ≤ b) {l : Nat} (hl : l ∈ levels) :
    l ≤ Nat.log b (weight b levels) := by
  have hle : b ^ l ≤ weight b levels := List.le_sum_of_mem (List.mem_map_of_mem hl)
  exact (Nat.le_log_iff_pow_le hb (by have := Nat.pow_pos (n := l) (show 0 < b by omega); omega)).2 hle

/-- Few of each level and few levels: a short list. -/
theorem length_le_of_count {c n : Nat} (hcount : ∀ j, levels.count j ≤ c) (hlt : ∀ l ∈ levels, l < n) :
    levels.length ≤ c * n := by
  calc levels.length = ∑ j ∈ Finset.range n, levels.count j := by
        rw [← Multiset.coe_card, ← Multiset.sum_count_eq_card (s := Finset.range n)]
        · simp
        · simpa using hlt
    _ ≤ ∑ _j ∈ Finset.range n, c := Finset.sum_le_sum fun j _ => hcount j
    _ = c * n := by simp [Nat.mul_comm]

/-! ## Carrying -/

/-- Highest first, and fewer than `b` of each. -/
structure Tidy (b : Nat) (levels : List Nat) : Prop where
  sorted : levels.Pairwise (· ≥ ·)
  few : ∀ j, levels.count j < b

/-- Highest first, and at most `b` of each; only the lowest level may have `b`. -/
structure Carries (b : Nat) (levels : List Nat) : Prop where
  sorted : levels.Pairwise (· ≥ ·)
  few : ∀ j, levels.count j ≤ b
  full : ∀ j, levels.count j = b → ∀ l ∈ levels, j ≤ l

theorem Tidy.add (h : Tidy b levels) : Carries b (levels ++ [0]) where
  sorted := by
    apply List.pairwise_append.2 ⟨h.sorted, List.pairwise_singleton .., _⟩
    intro l _ m hm
    rw [List.mem_singleton.1 hm]
    exact Nat.zero_le l
  few j := by
    have := h.few j
    rw [List.count_append, List.count_singleton]
    split <;> omega
  full j hj l hl := by
    rw [List.count_append, List.count_singleton] at hj
    split at hj
    · rename_i h0
      rw [← beq_iff_eq.1 h0]
      exact Nat.zero_le l
    · have := h.few j
      omega

section

variable {b : Nat} {levels front : List Nat} {l : Nat}

/-- Trading `b` of the lowest level for one of the next. -/
theorem Carries.trade (h : Carries b (front ++ List.replicate b l)) (hb : 0 < b) : Carries b (front ++ [l + 1]) := by
  have hlast : l ∈ front ++ List.replicate b l := by simp [hb.ne']
  have hnone : front.count l = 0 := by
    have := h.few l
    rw [List.count_append, List.count_replicate_self] at this
    omega
  have hfull : (front ++ List.replicate b l).count l = b := by
    rw [List.count_append, List.count_replicate_self, hnone, Nat.zero_add]
  have habove : ∀ m ∈ front, l + 1 ≤ m := by
    intro m hm
    have hle := h.full l hfull m (List.mem_append_left _ hm)
    have hne : m ≠ l := by
      rintro rfl
      exact List.count_eq_zero.1 hnone hm
    omega
  have hcount : ∀ j, j ≠ l → (front ++ List.replicate b l).count j = front.count j := by
    intro j hj
    rw [List.count_append, List.count_replicate, if_neg (by simpa using Ne.symm hj), Nat.add_zero]
  constructor
  · apply List.pairwise_append.2 ⟨(List.pairwise_append.1 h.sorted).1, List.pairwise_singleton .., _⟩
    intro m hm x hx
    rw [List.mem_singleton.1 hx]
    exact habove m hm
  · intro j
    rw [List.count_append, List.count_singleton]
    split
    · -- The next level is not full yet: a full level is the lowest, and `l` is below it.
      rename_i hj
      obtain rfl := beq_iff_eq.1 hj
      have hle := h.few (l + 1)
      have hne : (front ++ List.replicate b l).count (l + 1) ≠ b := by
        intro heq
        have := h.full _ heq l hlast
        omega
      rw [hcount _ (by omega)] at hle hne
      omega
    · have hle := h.few j
      rw [List.count_append] at hle
      omega
  · intro j hj m hm
    have hm' : l + 1 ≤ m := by
      rcases List.mem_append.1 hm with hm | hm
      · exact habove m hm
      · exact (List.mem_singleton.1 hm).ge
    rw [List.count_append, List.count_singleton] at hj
    split at hj
    · rename_i h1
      rwa [← beq_iff_eq.1 h1]
    · have hmem : j ∈ front := List.count_pos_iff.1 (by omega)
      have hge := habove j hmem
      have := h.full j (by rw [hcount j (by omega)]; omega) l hlast
      omega

/-- The lowest level stands at the end. -/
theorem exists_replicate_lowest (hsorted : levels.Pairwise (· ≥ ·)) (hlow : ∀ m ∈ levels, l ≤ m) :
    ∃ front, levels = front ++ List.replicate (levels.count l) l := by
  induction levels with
  | nil => exact ⟨[], rfl⟩
  | cons a rest ih =>
    obtain ⟨hhead, htail⟩ := List.pairwise_cons.1 hsorted
    obtain ⟨front, hfront⟩ := ih htail fun m hm => hlow m (List.mem_cons_of_mem _ hm)
    by_cases ha : a = l
    · -- Nothing behind is higher, so everything is at the lowest level.
      have hall : ∀ m ∈ a :: rest, m = l := by
        intro m hm
        apply Nat.le_antisymm _ (hlow m hm)
        rcases List.mem_cons.1 hm with rfl | hm
        · exact ha.le
        · exact ha ▸ hhead m hm
      refine ⟨[], ?_⟩
      rw [List.nil_append, List.count_eq_length.2 fun m hm => (hall m hm).symm]
      exact List.eq_replicate_of_mem hall
    · refine ⟨a :: front, ?_⟩
      rw [List.count_cons_of_ne (by simpa using ha), List.cons_append, ← hfront]

/-- When the end of the list is not `b` of one level, the trading is done. -/
theorem Carries.tidy (h : Carries b levels) (hdone : ∀ front l, levels ≠ front ++ List.replicate b l) : Tidy b levels where
  sorted := h.sorted
  few j := by
    apply Nat.lt_of_le_of_ne (h.few j)
    intro hj
    obtain ⟨front, hfront⟩ := exists_replicate_lowest h.sorted (h.full j hj)
    rw [hj] at hfront
    exact hdone front j hfront

end

end DryDb
