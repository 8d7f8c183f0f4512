import DryDb.Reader.Walk
/-!
# The part of a leaf a scan emits

A scan goes through the leaves in one direction and stops at the first entry past its far
bound. `Scan` is that as a specification over a list of leaves, including what the code
does at a leaf without entries; the cursor's window on one leaf is read off it here.
-/

namespace DryDb

open List

/-- The near end of an ascending scan, as the search that finds it. -/
def startOp : Bound → Option (SearchOp × Bytes)
  | .unbounded => none
  | .included k => some (.lowerBound, k)
  | .excluded k => some (.upperBound, k)

/-- A search target on a chain: `hit` picks the entries from it on. -/
structure Target (t : Tree) (env : Env) (fault : Error → Prop) (leaves : List PagePin) (op : SearchOp) (key : Bytes)
    (hit : Place → Bool) : Prop where
  leaf : ∃ d, t.digestOf key = .ok d ∧ ∀ pin ∈ leaves, t.leafSearch pin.view key d op =
    .ok ((List.range pin.view.entryCount).find? fun j => hit (pin, j))
  mono : (places leaves).Pairwise fun a b => hit a = true → hit b = true
  search : Meets fault (FirstHit leaves hit) ((t.search key op).run env)

theorem Chain.target {t : Tree} {env : Env} {fault : Error → Prop} {leaves : List PagePin} {key : Bytes} {d : UInt64}
    {g : Place → Ordering} (h : Chain t env fault leaves) (hd : t.encoding.digest key = .ok d)
    (hp : Placed t key d leaves g) {point : Prop} (hl : Meets fault (Lands point leaves g) ((t.descend key d).run env))
    {op : SearchOp} (hop : op ≠ .equal) : Target t env fault leaves op key fun x => op.finds (g x) where
  leaf := ⟨d, hd, fun pin hpin => Tree.leafSearch_eq (hp.sorted pin hpin) op⟩
  mono := hp.rises.imp fun hr ha => hr.finds hop ha
  search := h.search_meets hd hp hl fun he => absurd he hop

/-- What a bound picks; an open end picks everything or nothing. -/
def Reaches (t : Tree) (env : Env) (fault : Error → Prop) (leaves : List PagePin) (atOpen : Bool) (hit : Place → Bool) :
    Option (SearchOp × Bytes) → Prop
  | none => hit = fun _ => atOpen
  | some (op, key) => Target t env fault leaves op key hit

/-- The bounds of a scan on a chain: `low` picks the entries the lower bound admits, `high`
those past the upper bound. -/
structure Within (t : Tree) (env : Env) (fault : Error → Prop) (leaves : List PagePin) (lower upper : Bound)
    (low high : Place → Bool) : Prop where
  lower : Reaches t env fault leaves true low (startOp lower)
  upper : Reaches t env fault leaves false high (endOp upper)

/-! ## Scans as lists -/

/-- A direction, the entries past the far bound, and whether a leaf without entries ends
the scan. -/
structure Scan where
  order : Order
  stop : Place → Bool
  emptyEnds : Bool

namespace Scan

/-- The entries of a leaf in the direction of the scan. -/
def entries (s : Scan) (pin : PagePin) : List Place :=
  match s.order with
  | .ascending => pin.places
  | .descending => pin.places.reverse

/-- The entries of a leaf from `index` on. -/
def ahead (s : Scan) (pin : PagePin) (index : Nat) : List Place :=
  match s.order with
  | .ascending => pin.places.drop index
  | .descending => (pin.places.take (index + 1)).reverse

/-- Whether the scan ends on this leaf. -/
def endsOn (s : Scan) (pin : PagePin) : Bool :=
  (s.entries pin).any s.stop || (s.emptyEnds && decide (pin.view.entryCount = 0))

/-- What the scan emits of the leaves still to come. -/
def rows (s : Scan) : List PagePin → List Place
  | [] => []
  | pin :: rest => (s.entries pin).takeWhile (fun x => !s.stop x) ++ if s.endsOn pin then [] else s.rows rest

/-- What it emits from one entry on. -/
def rowsFrom (s : Scan) (pin : PagePin) (index : Nat) (rest : List PagePin) : List Place :=
  (s.ahead pin index).takeWhile (fun x => !s.stop x) ++ if s.endsOn pin then [] else s.rows rest

/-- The leaves the scan has before it when it is on `pin`. -/
def Before (s : Scan) (leaves : List PagePin) (pin : PagePin) (rest : List PagePin) : Prop :=
  ∃ passed, leaves = match s.order with
    | .ascending => passed ++ pin :: rest
    | .descending => rest.reverse ++ pin :: passed

/-- The stops of a leaf are all behind its first one. -/
def Mono (s : Scan) (pin : PagePin) : Prop :=
  match s.order with
  | .ascending => ∀ i j, i < j → j < pin.view.entryCount → s.stop (pin, i) = true → s.stop (pin, j) = true
  | .descending => (∀ i j, i < j → j < pin.view.entryCount → s.stop (pin, j) = true → s.stop (pin, i) = true) ∧
      (s.emptyEnds = false → ∀ i, s.stop (pin, i) = false)

/-- The window the cursor computes. -/
def window (s : Scan) (pin : PagePin) : Nat × Bool :=
  let count := pin.view.entryCount
  match s.order with
  | .ascending =>
    match (List.range count).find? fun i => s.stop (pin, i) with
    | some i => (i, true)
    | none => (count, false)
  | .descending =>
    if s.emptyEnds then
      match (List.range count).find? fun i => !s.stop (pin, i) with
      | some i => (i, decide (0 < i))
      | none => (count, true)
    else (0, false)

variable {s : Scan} {leaves rest : List PagePin} {pin : PagePin}

theorem mem_before (h : s.Before leaves pin rest) : pin ∈ leaves := by
  obtain ⟨passed, rfl⟩ := h
  cases s.order <;> simp

theorem length_before (h : s.Before leaves pin rest) : rest.length < leaves.length := by
  obtain ⟨passed, rfl⟩ := h
  cases s.order
  · simp only [length_append, length_cons]
    omega
  · simp only [length_append, length_reverse, length_cons]
    omega

theorem Before.next {next : PagePin} (h : s.Before leaves pin (next :: rest)) : s.Before leaves next rest := by
  obtain ⟨passed, h⟩ := h
  unfold Before
  cases ho : s.order with
  | ascending =>
    rw [ho] at h
    exact ⟨passed ++ [pin], by simp [h]⟩
  | descending =>
    rw [ho] at h
    exact ⟨pin :: passed, by simp [h]⟩

/-! ## The window of one leaf -/

section Leaf

variable {s : Scan} {pin : PagePin} {index : Nat}

theorem ahead_ascending (ho : s.order = .ascending) (hi : index < pin.view.entryCount) :
    s.ahead pin index = (pin, index) :: s.ahead pin (index + 1) := by
  have hlt : index < pin.places.length := by simpa using hi
  have hget : pin.places[index] = (pin, index) := by
    have := PagePin.getElem?_places hi
    rw [getElem?_eq_getElem hlt] at this
    exact Option.some.inj this
  simp only [ahead, ho]
  rw [drop_eq_getElem_cons hlt, hget]

theorem ahead_descending (ho : s.order = .descending) (hi : index < pin.view.entryCount) :
    s.ahead pin index = (pin, index) :: (pin.places.take index).reverse := by
  simp only [ahead, ho]
  rw [take_add_one, PagePin.getElem?_places hi]
  simp

/-- The head of what is ahead is the entry at the index. -/
theorem exists_ahead (hi : index < pin.view.entryCount) :
    ∃ more, s.ahead pin index = (pin, index) :: more := by
  cases ho : s.order with
  | ascending => exact ⟨_, ahead_ascending ho hi⟩
  | descending => exact ⟨_, ahead_descending ho hi⟩

theorem ahead_empty (hc : pin.view.entryCount = 0) (index : Nat) : s.ahead pin index = [] := by
  have hp : pin.places = [] := length_eq_zero_iff.1 (by simp [hc])
  simp only [ahead, hp]
  cases s.order <;> simp

/-- Where a scan enters a leaf, everything is ahead. -/
theorem ahead_enter : s.ahead pin (if s.order == .ascending then 0 else pin.view.entryCount - 1) = s.entries pin := by
  simp only [ahead, entries]
  cases s.order with
  | ascending => simp
  | descending =>
    simp only [beq_iff_eq, reduceCtorEq, if_false]
    rw [take_of_length_le (by rw [PagePin.length_places]; omega)]

theorem stop_mem_entries {x : Place} : x ∈ s.entries pin ↔ x ∈ pin.places := by
  simp only [entries]
  cases s.order <;> simp

/-- The ascending window: up to the first stop. -/
theorem lt_limit_ascending (ho : s.order = .ascending) (hm : s.Mono pin) (hi : index < pin.view.entryCount) :
    index < (s.window pin).1 ↔ s.stop (pin, index) = false := by
  simp only [Mono, ho] at hm
  simp only [window, ho]
  cases hf : (List.range pin.view.entryCount).find? fun i => s.stop (pin, i) with
  | none =>
    have := find?_eq_none.1 hf index (mem_range.2 hi)
    simpa [hi] using this
  | some i =>
    obtain ⟨hstop, hmem, hnot⟩ := find?_range_eq_some.1 hf
    constructor
    · intro hlt
      simpa using hnot index hlt
    · intro hns
      by_contra hge
      rcases Nat.lt_or_eq_of_le (Nat.not_lt.1 hge) with hlt | heq
      · rw [hm i index hlt hi hstop] at hns
        cases hns
      · change i = index at heq
        rw [← heq, hstop] at hns
        cases hns

/-- The descending window: down to the last stop. -/
theorem limit_le_descending (ho : s.order = .descending) (hm : s.Mono pin)
    (hi : index < pin.view.entryCount) : (s.window pin).1 ≤ index ↔ s.stop (pin, index) = false := by
  simp only [Mono, ho] at hm
  simp only [window, ho]
  cases he : s.emptyEnds with
  | false => simp [hm.2 he index]
  | true =>
    simp only [if_true]
    cases hf : (List.range pin.view.entryCount).find? fun i => !s.stop (pin, i) with
    | none =>
      have := find?_eq_none.1 hf index (mem_range.2 hi)
      simp only [Bool.not_eq_true', Bool.not_eq_false] at this
      simp [this, hi]
    | some i =>
      obtain ⟨hstop, hmem, hnot⟩ := find?_range_eq_some.1 hf
      simp only [Bool.not_eq_true'] at hstop
      constructor
      · intro hle
        by_contra hs
        rcases Nat.lt_or_eq_of_le hle with hlt | heq
        · rw [hm.1 i index hlt hi (by simpa using hs)] at hstop
          cases hstop
        · exact hs (heq ▸ hstop)
      · intro hns
        by_contra hlt
        have := hnot index (Nat.not_le.1 hlt)
        simp [hns] at this

/-- The flag says whether the scan ends on the leaf. -/
theorem window_ends (hm : s.Mono pin) (ha : s.order = .ascending → s.emptyEnds = false) :
    (s.window pin).2 = s.endsOn pin := by
  cases ho : s.order with
  | ascending =>
    simp only [window, endsOn, entries, ho, ha ho, Bool.false_and, Bool.or_false]
    cases hf : (List.range pin.view.entryCount).find? fun i => s.stop (pin, i) with
    | none =>
      refine (any_eq_false.2 fun x hx => ?_).symm
      obtain ⟨rfl, hi⟩ := PagePin.mem_places.1 hx
      simpa using find?_eq_none.1 hf x.2 (mem_range.2 hi)
    | some i =>
      obtain ⟨hstop, hmem, -⟩ := find?_range_eq_some.1 hf
      exact (any_eq_true.2 ⟨_, PagePin.mem_places.2 ⟨rfl, mem_range.1 hmem⟩, hstop⟩).symm
  | descending =>
    simp only [Mono, ho] at hm
    simp only [window, endsOn, entries, ho, any_reverse]
    cases he : s.emptyEnds with
    | false =>
      simp only [Bool.false_and, Bool.or_false, Bool.false_eq_true, if_false]
      exact (any_eq_false.2 fun x hx => by
        obtain ⟨rfl, -⟩ := PagePin.mem_places.1 hx
        simp [hm.2 he x.2]).symm
    | true =>
      simp only [if_true, Bool.true_and]
      cases hf : (List.range pin.view.entryCount).find? fun i => !s.stop (pin, i) with
      | none =>
        have hall := find?_eq_none.1 hf
        by_cases hz : pin.view.entryCount = 0
        · simp [hz]
        · have h0 : s.stop (pin, 0) = true := by simpa using hall 0 (mem_range.2 (by omega))
          have : pin.places.any s.stop = true :=
            any_eq_true.2 ⟨(pin, 0), PagePin.mem_places.2 ⟨rfl, by omega⟩, h0⟩
          simp [this]
      | some i =>
        obtain ⟨hstop, hmem, hnot⟩ := find?_range_eq_some.1 hf
        have hi := mem_range.1 hmem
        have hz : pin.view.entryCount ≠ 0 := by omega
        simp only [hz, decide_false, Bool.or_false]
        by_cases h0 : 0 < i
        · have hs0 : s.stop (pin, 0) = true := by simpa using hnot 0 h0
          have : pin.places.any s.stop = true :=
            any_eq_true.2 ⟨(pin, 0), PagePin.mem_places.2 ⟨rfl, by omega⟩, hs0⟩
          simp [this, h0]
        · obtain rfl : i = 0 := by omega
          have : pin.places.any s.stop = false := by
            refine any_eq_false.2 fun x hx => ?_
            obtain ⟨rfl, hx2⟩ := PagePin.mem_places.1 hx
            rcases Nat.eq_zero_or_pos x.2 with hx0 | hx0
            · have : x = (x.1, 0) := by rw [← hx0]
              rw [this]
              simpa using hstop
            · intro hs
              have := hm.1 0 x.2 hx0 hx2 hs
              simp [this] at hstop
          simp [this]

end Leaf

end Scan

end DryDb
