import DryDb.Model.Cache
/-!
# What tables and rings cost

The sizes a shard is charged for: a table and the target of a ring grow with what they hold, a
ring's growth was counted before it happens, and none of it comes near the word size while the
table itself could be allocated.
-/

namespace DryDb

/-! ## What a ring costs -/

/-- One growth of a ring. -/
def ringStep (capacity : Nat) : Nat := max (2 * capacity) ringMinCapacity

theorem lt_ringStep (c : Nat) : c < ringStep c := by
  unfold ringStep ringMinCapacity
  omega

variable {entries n m c entry : Nat}

/-- Far below the word size nothing saturates, and enough steps reach any number of entries. -/
theorem ringGrown_succ {fuel grown : Nat} (he : entries ≤ 2 ^ 62) :
    ringGrown entries (fuel + 1) grown = if grown < entries then ringGrown entries fuel (ringStep grown) else grown := by
  rw [ringGrown]
  split
  · rename_i hlt
    have : satMul grown 2 = 2 * grown := by
      unfold satMul
      omega
    rw [this]
    rfl
  · rfl

theorem ringGrown_fuel {fuel fuel' grown : Nat} (he : entries ≤ 2 ^ 62) (h : entries ≤ grown + fuel)
    (h' : entries ≤ grown + fuel') : ringGrown entries fuel grown = ringGrown entries fuel' grown := by
  induction fuel generalizing fuel' grown with
  | zero =>
    cases fuel' with
    | zero => rfl
    | succ fuel' => rw [ringGrown_succ he, if_neg (by omega), ringGrown]
  | succ fuel ih =>
    have hstep := lt_ringStep grown
    cases fuel' with
    | zero => rw [ringGrown_succ he, if_neg (by omega), ringGrown]
    | succ fuel' =>
      rw [ringGrown_succ he, ringGrown_succ he]
      split
      · exact ih (by omega) (by omega)
      · rfl

/-- More entries take a ring no smaller, and one that grows reaches them. -/
theorem ringGrown_spec (entries fuel grown : Nat) (he : entries ≤ 2 ^ 62) (h : entries ≤ grown + fuel) :
    grown ≤ ringGrown entries fuel grown ∧ entries ≤ ringGrown entries fuel grown ∧
      (grown < entries → ringGrown entries fuel grown ≤ max (2 * (entries - 1)) ringMinCapacity) := by
  induction fuel generalizing grown with
  | zero =>
    refine ⟨le_rfl, ?_, ?_⟩
    · simp only [ringGrown]
      omega
    · omega
  | succ fuel ih =>
    have hstep := lt_ringStep grown
    rw [ringGrown_succ he]
    split
    · rename_i hlt
      obtain ⟨h1, h2, h3⟩ := ih (ringStep grown) (by omega)
      refine ⟨by omega, h2, fun _ => ?_⟩
      rcases Nat.lt_or_ge (ringStep grown) entries with hs | hs
      · exact h3 hs
      · cases fuel with
        | zero =>
          rw [ringGrown]
          unfold ringStep
          omega
        | succ fuel =>
          rw [ringGrown_succ he, if_neg (by omega)]
          unfold ringStep
          omega
    · exact ⟨le_rfl, by omega, fun hlt => by omega⟩

theorem ringGrown_mono (fuel grown : Nat) (hm : m ≤ 2 ^ 62) (hnm : n ≤ m) (h : m ≤ grown + fuel) :
    ringGrown n fuel grown ≤ ringGrown m fuel grown := by
  induction fuel generalizing grown with
  | zero => rfl
  | succ fuel ih =>
    have hstep := lt_ringStep grown
    rw [ringGrown_succ hm, ringGrown_succ (show n ≤ 2 ^ 62 by omega)]
    by_cases hn : grown < n
    · rw [if_pos hn, if_pos (by omega)]
      exact ih (ringStep grown) (by omega)
    · rw [if_neg hn]
      split
      · have := (ringGrown_spec m fuel (ringStep grown) hm (by omega)).1
        omega
      · rfl

theorem ringBytes_le_target (hn : n ≤ 2 ^ 62) : ringBytes c ≤ ringTargetBytes c n := by
  unfold ringTargetBytes
  split
  · exact le_rfl
  · have := (ringGrown_spec n n c hn (by omega)).1
    simp only [ringBytes]
    omega

theorem ringTargetBytes_mono (hm : m ≤ 2 ^ 62) (hnm : n ≤ m) : ringTargetBytes c n ≤ ringTargetBytes c m := by
  by_cases hn : n ≤ c
  · rw [ringTargetBytes, if_pos hn]
    exact ringBytes_le_target hm
  · have hfuel : ringGrown n n c = ringGrown n m c := ringGrown_fuel (by omega) (by omega) (by omega)
    have := ringGrown_mono m c hm hnm (by omega)
    rw [ringTargetBytes, if_neg hn, ringTargetBytes, if_neg (by omega), hfuel]
    simp only [ringBytes]
    omega

/-- A push that grows the ring was paid for, both the old ring and the new one, and what is
left to pay for afterwards is no more. -/
theorem ringTargetBytes_step (hn : n ≤ 2 ^ 62) (hc : c < n) :
    ringBytes c + ringBytes (ringStep c) ≤ ringTargetBytes c n ∧ ringTargetBytes (ringStep c) n ≤ ringTargetBytes c n := by
  obtain ⟨fuel, rfl⟩ : ∃ k, n = k + 1 := ⟨n - 1, by omega⟩
  have hstep := lt_ringStep c
  have hgrown : ringGrown (fuel + 1) (fuel + 1) c = ringGrown (fuel + 1) fuel (ringStep c) := by
    rw [ringGrown_succ hn, if_pos hc]
  obtain ⟨h1, -, -⟩ := ringGrown_spec (fuel + 1) fuel (ringStep c) hn (by omega)
  have hhalf : c ≤ ringStep c / 2 := by
    unfold ringStep
    omega
  have htarget : ringTargetBytes c (fuel + 1) =
      ringBytes (ringGrown (fuel + 1) fuel (ringStep c)) + ringBytes (ringGrown (fuel + 1) fuel (ringStep c) / 2) := by
    rw [ringTargetBytes, if_neg (by omega), hgrown]
  rw [htarget]
  constructor
  · simp only [ringBytes]
    omega
  · unfold ringTargetBytes
    split
    · simp only [ringBytes]
      omega
    · have hsame : ringGrown (fuel + 1) (fuel + 1) (ringStep c) = ringGrown (fuel + 1) fuel (ringStep c) :=
        ringGrown_fuel hn (by omega) (by omega)
      rw [hsame]

theorem ringTargetBytes_lt (hn : n ≤ 2 ^ 58 + 1) (hc : c ≤ 2 ^ 59) : ringTargetBytes c n < 2 ^ 63 := by
  unfold ringTargetBytes
  split
  · simp only [ringBytes]
    omega
  · have := (ringGrown_spec n n c (by omega) (by omega)).2.2 (by omega)
    simp only [ringBytes, ringMinCapacity] at this ⊢
    omega

/-! ## What a table costs -/

theorem nextPowerOfTwo_mono (h : n ≤ m) : nextPowerOfTwo n ≤ nextPowerOfTwo m := by
  unfold nextPowerOfTwo
  split
  · split
    · rfl
    · exact Nat.one_le_two_pow
  · rw [if_neg (by omega)]
    refine Nat.pow_le_pow_right (by omega) (Nat.succ_le_succ ?_)
    rw [Nat.log2_eq_log_two, Nat.log2_eq_log_two]
    exact Nat.log_mono_right (by omega)

theorem le_nextPowerOfTwo (n : Nat) : n ≤ nextPowerOfTwo n := by
  unfold nextPowerOfTwo
  split
  · assumption
  · have := @Nat.lt_log2_self (n - 1)
    omega

theorem hashTableBytes_mono (h : n ≤ m) : hashTableBytes n entry ≤ hashTableBytes m entry := by
  unfold hashTableBytes
  split
  · exact Nat.zero_le _
  · rw [if_neg (by omega)]
    have hsat : satMul n 8 ≤ satMul m 8 := by
      unfold satMul
      omega
    have hbuckets := nextPowerOfTwo_mono (show max ((satMul n 8 + 6) / 7) 4 ≤ max ((satMul m 8 + 6) / 7) 4 by omega)
    have hmul := Nat.mul_le_mul_right (entry + 1) hbuckets
    simp only [hashGroup]
    omega

/-- A table that could be allocated has few entries. -/
theorem lt_of_hashTableBytes (he : 32 ≤ entry) (h : hashTableBytes n entry < 2 ^ 63) : n < 2 ^ 58 := by
  by_contra hn
  have hbuckets := le_nextPowerOfTwo (max ((satMul n 8 + 6) / 7) 4)
  have hsat : 2 ^ 61 ≤ satMul n 8 := by
    unfold satMul
    omega
  have hlow : 2 ^ 58 ≤ nextPowerOfTwo (max ((satMul n 8 + 6) / 7) 4) := by omega
  have hmul := Nat.mul_le_mul hlow (show 33 ≤ entry + 1 by omega)
  rw [hashTableBytes, if_neg (by omega)] at h
  simp only [hashGroup] at h
  omega

/-! ## What is asked for -/

theorem le_satAdd {x y a b : Nat} (hx : x ≤ a) (hy : y ≤ b) (h : x + y < 2 ^ 64) : x + y ≤ satAdd a b := by
  unfold satAdd
  omega

theorem le_satAdd_left {a : Nat} (b : Nat) (h : a < 2 ^ 64) : a ≤ satAdd a b := by
  unfold satAdd
  omega

/-- The peak covers the table after an insertion, whether it grew or not. -/
theorem hashTableBytes_le_peak {slots capacity len r : Nat} (hnow : hashTableBytes slots entry < 2 ^ 63)
    (hr : hashTableBytes r entry < 2 ^ 63) (hgrown : r ≤ slots ∨ capacity ≤ len ∧
      hashTableBytes r entry ≤ hashTableBytes (if slots = 0 then 1 else satMul slots 2) entry) :
    hashTableBytes (max slots r) entry ≤ hashTablePeakBytes slots capacity len entry := by
  have hkeep : hashTableBytes slots entry ≤ hashTablePeakBytes slots capacity len entry := by
    unfold hashTablePeakBytes
    dsimp only
    split
    · exact le_rfl
    · exact le_satAdd_left _ (Nat.lt_trans hnow (by decide))
  rcases hgrown with hle | ⟨hfull, hnext⟩
  · rw [Nat.max_eq_left hle]
    exact hkeep
  · rcases Nat.le_total r slots with hle | hle
    · rw [Nat.max_eq_left hle]
      exact hkeep
    · have hpeak : hashTablePeakBytes slots capacity len entry =
          satAdd (hashTableBytes slots entry) (hashTableBytes (if slots = 0 then 1 else satMul slots 2) entry) := by
        unfold hashTablePeakBytes
        rw [if_neg (Nat.not_lt.2 hfull)]
        split <;> rfl
      rw [Nat.max_eq_right hle, hpeak]
      have := le_satAdd (Nat.zero_le (hashTableBytes slots entry)) hnext (by omega)
      omega

end DryDb
