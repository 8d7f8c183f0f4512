import DryDb.Page.Checked
/-!
# Searching one page

A page is sorted for a key when the comparisons of its entries with the key go from
`lt` over `eq` to `gt` and every entry the rank search skips is smaller (`Sorted`). On
such a page each search returns the first entry its operation is after.
-/

namespace DryDb

open List

/-- Whether an entry that compares like this with the key is one the search is after. -/
def SearchOp.finds : SearchOp → Ordering → Bool
  | .equal, o => o == .eq
  | .lowerBound, o => o != .lt
  | .upperBound, o => o == .gt

/-- An entry that compares like `b` may follow one that compares like `a`. -/
def Rises (a b : Ordering) : Prop := (b = .lt → a = .lt) ∧ (a = .gt → b = .gt)

theorem Rises.finds {a b : Ordering} {op : SearchOp} (h : Rises a b) (hop : op ≠ .equal)
    (ha : op.finds a = true) : op.finds b = true := by
  obtain ⟨h1, h2⟩ := h
  cases op with
  | equal => exact absurd rfl hop
  | lowerBound =>
    simp only [SearchOp.finds, bne_iff_ne] at ha ⊢
    exact fun hb => ha (h1 hb)
  | upperBound =>
    simp only [SearchOp.finds, beq_iff_eq] at ha ⊢
    exact h2 ha

/-- How the `count` entries of a page compare with a key, and what the rank search of the
page skips. -/
structure Sorted (cmp : Nat → Result Ordering) (rank : Result Nat) (count : Nat) (c : Nat → Ordering) : Prop where
  cmp : ∀ i < count, cmp i = .ok (c i)
  rises : ∀ i j, i < j → j < count → Rises (c i) (c j)
  rank : ∃ r, rank = .ok r ∧ ∀ i, i < r → i < count → c i = .lt

variable {cmp : Nat → Result Ordering} {c : Nat → Ordering} {i : Nat} {p : Nat → Bool}

theorem advanceWhile_eq (p : Ordering → Bool) {n : Nat} (hc : ∀ j, i ≤ j → j < i + n → cmp j = .ok (c j)) :
    advanceWhile cmp p n i = .ok (((List.range' i n).find? fun j => !p (c j)).getD (i + n)) := by
  induction n generalizing i with
  | zero => rfl
  | succ n ih =>
    rw [advanceWhile, hc i le_rfl (by omega), ok_bind, range'_succ, find?_cons]
    cases hp : p (c i) with
    | true =>
      simp only [if_true, Bool.not_true]
      rw [ih fun j h1 h2 => hc j (by omega) (by omega), show i + 1 + n = i + (n + 1) by omega]
    | false => simp

theorem findEqual_eq {n : Nat} (hc : ∀ j, i ≤ j → j < i + n → cmp j = .ok (c j))
    (hr : ∀ j k, i ≤ j → j < k → k < i + n → Rises (c j) (c k)) :
    findEqual cmp n i = .ok ((List.range' i n).find? fun j => c j == .eq) := by
  induction n generalizing i with
  | zero => rfl
  | succ n ih =>
    rw [findEqual, hc i le_rfl (by omega), ok_bind, range'_succ, find?_cons]
    cases ho : c i with
    | eq => simp
    | lt =>
      simp only [reduceCtorEq, beq_eq_false_iff_ne.2, ne_eq, not_false_eq_true]
      exact ih (fun j h1 h2 => hc j (by omega) (by omega)) fun j k h1 h2 h3 => hr j k (by omega) h2 (by omega)
    | gt =>
      -- Everything after a larger entry is larger.
      have hnone : (List.range' (i + 1) n).find? (fun j => c j == .eq) = none := by
        rw [find?_eq_none]
        intro j hj
        rw [mem_range'_1] at hj
        rw [(hr i j le_rfl (by omega) (by omega)).2 ho]
        decide
      simp [hnone]

/-- The first index below `count` a predicate picks, when it picks none below `start`. -/
theorem find?_range_skip {start count : Nat} (hle : start ≤ count) (h : ∀ i < start, p i = false) :
    (List.range count).find? p = (List.range' start (count - start)).find? p := by
  have hsplit : List.range count = List.range' 0 start ++ List.range' start (count - start) := by
    rw [range_eq_range']
    have := range'_append_1 (s := 0) (m := start) (n := count - start)
    rw [Nat.zero_add] at this
    rw [this]
    congr 1
    omega
  have hnone : (List.range' 0 start).find? p = none := by
    rw [find?_eq_none]
    intro i hi
    rw [mem_range'_1] at hi
    simp [h i (by omega)]
  rw [hsplit, find?_append, hnone, Option.none_or]

theorem find?_range_lt {count : Nat} (h : (List.range count).find? p = some i) : i < count :=
  mem_range.1 (mem_of_find?_eq_some h)

namespace Tree

variable {t : Tree} {v : PageView} {key : Bytes} {d : UInt64} {c : Nat → Ordering}

/-- A leaf search returns the first entry its operation is after. -/
theorem leafSearch_eq (h : Sorted (t.compareLeaf v key d) (v.lowerBoundRank d) v.entryCount c) (op : SearchOp) :
    t.leafSearch v key d op = .ok ((List.range v.entryCount).find? fun i => op.finds (c i)) := by
  obtain ⟨r, hr, hlt⟩ := h.rank
  have hle : min r v.entryCount ≤ v.entryCount := Nat.min_le_right _ _
  have hskip : ∀ i < min r v.entryCount, op.finds (c i) = false := by
    intro i hi
    rw [hlt i (by omega) (by omega)]
    cases op <;> rfl
  have hcmp : ∀ j, min r v.entryCount ≤ j → j < min r v.entryCount + (v.entryCount - min r v.entryCount) →
      t.compareLeaf v key d j = .ok (c j) := fun j _ hj => h.cmp j (by omega)
  rw [find?_range_skip hle hskip]
  unfold leafSearch
  simp only [hr, ok_bind]
  have hbound : ∀ op : SearchOp, (if ((List.range' (min r v.entryCount) (v.entryCount - min r v.entryCount)).find?
      fun j => op.finds (c j)).getD (min r v.entryCount + (v.entryCount - min r v.entryCount)) < v.entryCount
      then some (((List.range' (min r v.entryCount) (v.entryCount - min r v.entryCount)).find?
        fun j => op.finds (c j)).getD (min r v.entryCount + (v.entryCount - min r v.entryCount))) else none) =
      (List.range' (min r v.entryCount) (v.entryCount - min r v.entryCount)).find? fun j => op.finds (c j) := by
    intro op
    cases hf : (List.range' (min r v.entryCount) (v.entryCount - min r v.entryCount)).find? fun j => op.finds (c j) with
    | none =>
      rw [Option.getD_none, if_neg (by omega)]
    | some i =>
      have := mem_range'_1.1 (mem_of_find?_eq_some hf)
      rw [Option.getD_some, if_pos (by omega)]
  cases op with
  | equal => exact findEqual_eq hcmp fun j k h1 h2 h3 => h.rises j k h2 (by omega)
  | lowerBound =>
    simp only [advanceWhile_eq (· == .lt) hcmp, ok_bind]
    exact congrArg Except.ok (hbound .lowerBound)
  | upperBound =>
    have hp : (fun j => !(c j != .gt)) = fun j => SearchOp.upperBound.finds (c j) := by
      funext j
      cases c j <;> rfl
    simp only [advanceWhile_eq (· != .gt) hcmp, ok_bind, hp]
    exact congrArg Except.ok (hbound .upperBound)

/-- The child a downward step takes: the last separator not above the key, or the last one
below it where separators are known by their digests only. -/
theorem internalChildIndex_eq (h : Sorted (t.compareInternal v key d) (v.lowerBoundRank d) v.entryCount c) :
    ∃ i, i ≤ v.entryCount ∧ (∀ j < i, c j = .lt) ∧ (i < v.entryCount → c i ≠ .lt) ∧
      t.internalChildIndex v key d = .ok
        (if t.separatorsAreInexact v then (i - 1, decide (i < v.entryCount ∧ c i = .eq))
         else if i < v.entryCount ∧ c i = .eq then (i, false) else (i - 1, false)) := by
  obtain ⟨r, hr, hlt⟩ := h.rank
  have hle : min r v.entryCount ≤ v.entryCount := Nat.min_le_right _ _
  have hcmp : ∀ j, min r v.entryCount ≤ j → j < min r v.entryCount + (v.entryCount - min r v.entryCount) →
      t.compareInternal v key d j = .ok (c j) := fun j _ hj => h.cmp j (by omega)
  have hskip := find?_range_skip (p := fun j => !(c j == .lt)) hle fun i hi => by
    rw [hlt i (by omega) (by omega)]
    rfl
  have hsum : min r v.entryCount + (v.entryCount - min r v.entryCount) = v.entryCount := by omega
  have hadv := advanceWhile_eq (· == .lt) hcmp
  rw [← hskip, hsum] at hadv
  generalize hi : ((List.range v.entryCount).find? fun j => !(c j == .lt)).getD v.entryCount = i at hadv
  have hspec : i ≤ v.entryCount ∧ (∀ j < i, c j = .lt) ∧ (i < v.entryCount → c i ≠ .lt) := by
    cases hf : (List.range v.entryCount).find? fun j => !(c j == .lt) with
    | none =>
      rw [hf, Option.getD_none] at hi
      subst hi
      refine ⟨le_rfl, fun j hj => ?_, fun h => absurd h (lt_irrefl _)⟩
      simpa using find?_eq_none.1 hf j (mem_range.2 hj)
    | some k =>
      rw [hf, Option.getD_some] at hi
      subst hi
      obtain ⟨hk, hmem, hnot⟩ := find?_range_eq_some.1 hf
      exact ⟨(mem_range.1 hmem).le, fun j hj => by simpa using hnot j hj, fun _ => by simpa using hk⟩
  obtain ⟨hile, hbelow, hat⟩ := hspec
  refine ⟨i, hile, hbelow, hat, ?_⟩
  have hequal : equalAt (t.compareInternal v key d) v.entryCount i = .ok (decide (i < v.entryCount ∧ c i = .eq)) := by
    unfold equalAt
    by_cases hlt : i < v.entryCount
    · rw [if_pos hlt, h.cmp i hlt]
      cases c i <;> simp [hlt]
    · simp [hlt]
  unfold internalChildIndex
  simp only [hr, ok_bind, hadv, hequal]
  cases t.separatorsAreInexact v with
  | true => simp
  | false =>
    by_cases he : i < v.entryCount ∧ c i = .eq
    · simp [he]
    · simp [he]

end Tree

end DryDb
