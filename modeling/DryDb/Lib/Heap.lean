import DryDb.Lib.Sorting
/-!
# Binary heaps in a list

The children of place `i` stand at `2 * i + 1` and `2 * i + 2`. `siftDown` moves the element
at a place down until neither child is below it; the comparison may keep a record `σ` of
what it was asked. Whatever the comparison answers, the elements stay the same
(`siftDown_perm`); when it is a total order the result is a heap (`siftDown_heap`), and the
top of a heap is least (`IsHeap.top`).
-/

namespace DryDb

variable {α σ : Type}

/-- The smaller of the children of place `i`, with its place. -/
def smallerChild (less : α → α → σ → Bool × σ) (heap : List α) (i : Nat) (left : α) (s : σ) : (Nat × α) × σ :=
  match heap[2 * i + 2]? with
  | none => ((2 * i + 1, left), s)
  | some right => if (less right left s).1 then ((2 * i + 2, right), (less right left s).2)
    else ((2 * i + 1, left), (less right left s).2)

/-- Moves the element at place `i` down, for at most `steps` places. -/
def siftDown (less : α → α → σ → Bool × σ) : Nat → Nat → List α × σ → List α × σ
  | 0, _, h => h
  | steps + 1, i, (heap, s) =>
    match heap[i]?, heap[2 * i + 1]? with
    | some a, some left =>
      let ((j, b), s) := smallerChild less heap i left s
      if (less b a s).1 then siftDown less steps j ((heap.set i b).set j a, (less b a s).2)
      else (heap, (less b a s).2)
    | _, _ => (heap, s)

/-- Makes a heap of a list: sifts the places below `n` down, the last one first. -/
def heapify (less : α → α → σ → Bool × σ) : Nat → List α × σ → List α × σ
  | 0, h => h
  | n + 1, h => heapify less n (siftDown less h.1.length n h)

/-! ## The elements stay -/

section

variable {less : α → α → σ → Bool × σ} {heap : List α} {i : Nat} {P : σ → Prop}

theorem smallerChild_spec (less : α → α → σ → Bool × σ) {left : α} (hl : heap[2 * i + 1]? = some left) (s : σ) :
    ∃ j b, (smallerChild less heap i left s).1 = (j, b) ∧ (j = 2 * i + 1 ∨ j = 2 * i + 2) ∧ heap[j]? = some b := by
  unfold smallerChild
  cases hr : heap[2 * i + 2]? with
  | none => exact ⟨_, _, rfl, .inl rfl, hl⟩
  | some right =>
    simp only
    split
    · exact ⟨_, _, rfl, .inr rfl, hr⟩
    · exact ⟨_, _, rfl, .inl rfl, hl⟩

theorem set_set_perm {l : List α} {j : Nat} {a b : α} (ha : l[i]? = some a) (hb : l[j]? = some b) :
    ((l.set i b).set j a).Perm l := by
  obtain ⟨hi, rfl⟩ := List.getElem?_eq_some_iff.1 ha
  obtain ⟨hj, rfl⟩ := List.getElem?_eq_some_iff.1 hb
  exact List.set_set_perm hi hj

theorem siftDown_perm (steps i : Nat) (heap : List α) (s : σ) : (siftDown less steps i (heap, s)).1.Perm heap := by
  induction steps generalizing i heap s with
  | zero => exact List.Perm.refl _
  | succ steps ih =>
    rw [siftDown]
    cases ha : heap[i]? with
    | none => exact List.Perm.refl _
    | some a =>
      cases hl : heap[2 * i + 1]? with
      | none => exact List.Perm.refl _
      | some left =>
        obtain ⟨j, b, hc, -, hj⟩ := smallerChild_spec less hl s
        simp only [hc]
        split
        · exact (ih ..).trans (set_set_perm ha hj)
        · exact List.Perm.refl _

theorem heapify_perm (n : Nat) (heap : List α) (s : σ) : (heapify less n (heap, s)).1.Perm heap := by
  induction n generalizing heap s with
  | zero => exact List.Perm.refl _
  | succ n ih =>
    rw [heapify]
    exact (ih _ _).trans (siftDown_perm _ _ _ _)

/-- What every comparison of elements keeps of the record, sifting keeps. -/
theorem siftDown_record (hless : ∀ a ∈ heap, ∀ b ∈ heap, ∀ s, P s → P (less a b s).2) {steps : Nat} {s : σ} (hs : P s) :
    P (siftDown less steps i (heap, s)).2 := by
  induction steps generalizing i heap s with
  | zero => exact hs
  | succ steps ih =>
    rw [siftDown]
    cases ha : heap[i]? with
    | none => exact hs
    | some a =>
      cases hl : heap[2 * i + 1]? with
      | none => exact hs
      | some left =>
        obtain ⟨j, b, hc, -, hj⟩ := smallerChild_spec less hl s
        have ham := List.mem_of_getElem? ha
        have hbm := List.mem_of_getElem? hj
        have hchild : P (smallerChild less heap i left s).2 := by
          unfold smallerChild
          cases hr : heap[2 * i + 2]? with
          | none => exact hs
          | some right =>
            have hkeep := hless right (List.mem_of_getElem? hr) left (List.mem_of_getElem? hl) s hs
            simp only
            split
            · exact hkeep
            · exact hkeep
        have hkeep := hless b hbm a ham _ hchild
        simp only [hc]
        split
        · apply ih _ hkeep
          have hperm := set_set_perm ha hj
          intro x hx y hy
          exact hless x (hperm.mem_iff.1 hx) y (hperm.mem_iff.1 hy)
        · exact hkeep

theorem heapify_record (hless : ∀ a ∈ heap, ∀ b ∈ heap, ∀ s, P s → P (less a b s).2) {n : Nat} {s : σ} (hs : P s) :
    P (heapify less n (heap, s)).2 := by
  induction n generalizing heap s with
  | zero => exact hs
  | succ n ih =>
    rw [heapify]
    have hperm : (siftDown less heap.length n (heap, s)).1.Perm heap := siftDown_perm ..
    apply ih _ (siftDown_record hless hs)
    intro x hx y hy
    exact hless x (hperm.mem_iff.1 hx) y (hperm.mem_iff.1 hy)

end

/-! ## The order -/

/-- `c` is a child of `p`. -/
def IsChild (c p : Nat) : Prop := c = 2 * p + 1 ∨ c = 2 * p + 2

/-- No child of a place from `k` on is below its parent. -/
def HeapFrom (cmp : α → α → Ordering) (k : Nat) (heap : List α) : Prop :=
  ∀ p c a b, IsChild c p → k ≤ p → heap[p]? = some a → heap[c]? = some b → cmp a b ≠ .gt

/-- The whole list is a heap. -/
def IsHeap (cmp : α → α → Ordering) (heap : List α) : Prop := HeapFrom cmp 0 heap

/-- What holds while the element at the hole moves down: every other parent is in order
with its children, and so is the parent of the hole with the children of the hole. -/
structure Sifting (cmp : α → α → Ordering) (k hole : Nat) (heap : List α) : Prop where
  except : ∀ p c a b, IsChild c p → k ≤ p → p ≠ hole → heap[p]? = some a → heap[c]? = some b → cmp a b ≠ .gt
  grand : ∀ p c a b, IsChild hole p → k ≤ p → IsChild c hole → heap[p]? = some a → heap[c]? = some b → cmp a b ≠ .gt

section

variable {less : α → α → σ → Bool × σ} {cmp : α → α → Ordering} {heap : List α} {k hole : Nat}

theorem HeapFrom.sifting (h : HeapFrom cmp (hole + 1) heap) : Sifting cmp hole hole heap where
  except p c a b hc hk hne := h p c a b hc (by omega)
  grand p c a b hp hk := by
    unfold IsChild at hp
    omega

/-- The smaller child is not above either child. -/
theorem smallerChild_le (hless : ∀ a b s, (less a b s).1 = (cmp a b == .lt)) (ho : OrdersOn cmp (· ∈ heap))
    {i : Nat} {left : α} (hl : heap[2 * i + 1]? = some left) (s : σ) {c : Nat} {x : α} (hc : IsChild c i)
    (hx : heap[c]? = some x) : cmp (smallerChild less heap i left s).1.2 x ≠ .gt := by
  have hlm := List.mem_of_getElem? hl
  have hxm := List.mem_of_getElem? hx
  unfold smallerChild
  cases hr : heap[2 * i + 2]? with
  | none =>
    rcases hc with rfl | rfl
    · rw [hl] at hx
      cases hx
      exact ho.refl hlm
    · rw [hr] at hx
      cases hx
  | some right =>
    have hrm := List.mem_of_getElem? hr
    simp only [hless]
    split
    · rename_i hlt
      have hlt : cmp right left = .lt := by simpa using hlt
      rcases hc with rfl | rfl
      · rw [hl] at hx
        cases hx
        simp [hlt]
      · rw [hr] at hx
        cases hx
        exact ho.refl hrm
    · rename_i hlt
      have hlt : cmp right left ≠ .lt := by simpa using hlt
      rcases hc with rfl | rfl
      · rw [hl] at hx
        cases hx
        exact ho.refl hlm
      · rw [hr] at hx
        cases hx
        exact ho.of_not_lt hrm hlm hlt

/-- One step down. -/
theorem Sifting.move (h : Sifting cmp k hole heap) {a b : α} {j : Nat} (hk : k ≤ hole) (ha : heap[hole]? = some a)
    (hj : IsChild j hole) (hb : heap[j]? = some b) (hba : cmp b a ≠ .gt)
    (hmin : ∀ c x, IsChild c hole → heap[c]? = some x → cmp b x ≠ .gt) :
    Sifting cmp k j ((heap.set hole b).set j a) := by
  have hlt : hole < j := by unfold IsChild at hj; omega
  have hhole := (List.getElem?_eq_some_iff.1 ha).1
  have hjlen := (List.getElem?_eq_some_iff.1 hb).1
  -- The new heap at each place.
  have hat : ∀ i, ((heap.set hole b).set j a)[i]? =
      if i = j then some a else if i = hole then some b else heap[i]? := by
    intro i
    rw [List.getElem?_set, List.getElem?_set, List.length_set]
    by_cases h1 : j = i
    · subst h1
      simp [hjlen]
    · by_cases h2 : hole = i
      · subst h2
        simp [h1, hhole, Ne.symm h1]
      · simp [h1, h2, Ne.symm h1, Ne.symm h2]
  constructor
  · intro p c x y hc hkp hpj hx hy
    rw [hat] at hx hy
    rw [if_neg hpj] at hx
    by_cases hph : p = hole
    · subst hph
      rw [if_pos rfl] at hx
      cases hx
      by_cases hcj : c = j
      · subst hcj
        rw [if_pos rfl] at hy
        cases hy
        exact hba
      · have hcp : c ≠ p := by unfold IsChild at hc; omega
        rw [if_neg hcj, if_neg hcp] at hy
        exact hmin c y hc hy
    · rw [if_neg hph] at hx
      by_cases hcj : c = j
      · have : p = hole := by unfold IsChild at hc hj; omega
        exact absurd this hph
      · rw [if_neg hcj] at hy
        by_cases hch : c = hole
        · subst hch
          rw [if_pos rfl] at hy
          cases hy
          exact h.grand p j x b hc hkp hj hx hb
        · rw [if_neg hch] at hy
          exact h.except p c x y hc hkp hph hx hy
  · intro p c x y hp hkp hc hx hy
    have hph : p = hole := by unfold IsChild at hp hj; omega
    subst hph
    have hcj : c ≠ j := by unfold IsChild at hc; omega
    have hcp : c ≠ p := by unfold IsChild at hc; omega
    rw [hat, if_neg (by omega), if_pos rfl] at hx
    rw [hat, if_neg hcj, if_neg hcp] at hy
    cases hx
    exact h.except j c b y hc (by omega) (by omega) hb hy

/-- Where the element stays, everything is in order. -/
theorem Sifting.stop (h : Sifting cmp k hole heap)
    (hstop : ∀ c a x, heap[hole]? = some a → IsChild c hole → heap[c]? = some x → cmp a x ≠ .gt) :
    HeapFrom cmp k heap := by
  intro p c a b hc hkp ha hb
  by_cases hp : p = hole
  · subst hp
    exact hstop c a b ha hc hb
  · exact h.except p c a b hc hkp hp ha hb

/-- Sifting down restores the heap, given as many steps as there are places below. -/
theorem siftDown_heap (hless : ∀ a b s, (less a b s).1 = (cmp a b == .lt)) {steps : Nat} (s : σ)
    (ho : OrdersOn cmp (· ∈ heap)) (hk : k ≤ hole) (hsteps : heap.length ≤ hole + steps) (h : Sifting cmp k hole heap) :
    HeapFrom cmp k (siftDown less steps hole (heap, s)).1 := by
  induction steps generalizing hole heap s with
  | zero =>
    apply h.stop
    intro c a x ha
    have := (List.getElem?_eq_some_iff.1 ha).1
    omega
  | succ steps ih =>
    rw [siftDown]
    cases ha : heap[hole]? with
    | none =>
      apply h.stop
      intro c a x ha'
      rw [ha] at ha'
      cases ha'
    | some a =>
      cases hl : heap[2 * hole + 1]? with
      | none =>
        -- Without a left child there is no right one.
        apply h.stop
        intro c a x _ hc hx
        have h1 := List.getElem?_eq_none_iff.1 hl
        have h2 := (List.getElem?_eq_some_iff.1 hx).1
        unfold IsChild at hc
        omega
      | some left =>
        have hmin : ∀ c x, IsChild c hole → heap[c]? = some x → cmp (smallerChild less heap hole left s).1.2 x ≠ .gt := by
          intro c x hc hx
          exact smallerChild_le hless ho hl s hc hx
        obtain ⟨j, b, hsc, hjc, hb⟩ := smallerChild_spec less hl s
        rw [hsc] at hmin
        simp only [hsc]
        have ham := List.mem_of_getElem? ha
        have hbm := List.mem_of_getElem? hb
        split
        · rename_i hlt
          rw [hless] at hlt
          have hba : cmp b a = .lt := by simpa using hlt
          have hperm := set_set_perm ha hb
          have hjh : hole < j := by omega
          apply ih _ (ho.mono fun x hx => hperm.mem_iff.1 hx) (by omega)
          · simp only [List.length_set]
            omega
          · exact h.move hk ha hjc hb (by simp [hba]) hmin
        · rename_i hlt
          rw [hless] at hlt
          have hba : cmp b a ≠ .lt := by simpa using hlt
          apply h.stop
          intro c a' x ha' hc hx
          rw [ha] at ha'
          cases ha'
          exact ho.trans a b x ham hbm (List.mem_of_getElem? hx) (ho.of_not_lt hbm ham hba) (hmin c x hc hx)

theorem heapify_heap (hless : ∀ a b s, (less a b s).1 = (cmp a b == .lt)) {n : Nat} (s : σ)
    (ho : OrdersOn cmp (· ∈ heap)) (h : HeapFrom cmp n heap) : IsHeap cmp (heapify less n (heap, s)).1 := by
  induction n generalizing heap s with
  | zero => exact h
  | succ n ih =>
    rw [heapify]
    have hperm : (siftDown less heap.length n (heap, s)).1.Perm heap := siftDown_perm ..
    apply ih
    · exact ho.mono fun x hx => hperm.mem_iff.1 hx
    · exact siftDown_heap hless s ho (Nat.le_refl n) (Nat.le_add_left ..) h.sifting

/-- The lower half of a list is all that has children. -/
theorem heapFrom_half (cmp : α → α → Ordering) (heap : List α) : HeapFrom cmp (heap.length / 2) heap := by
  intro p c a b hc hk _ hb
  have := (List.getElem?_eq_some_iff.1 hb).1
  unfold IsChild at hc
  omega

/-- The top of a heap is not above any of its elements. -/
theorem IsHeap.top (h : IsHeap cmp heap) (ho : OrdersOn cmp (· ∈ heap)) {a b : α} {i : Nat} (ha : heap[0]? = some a)
    (hb : heap[i]? = some b) : cmp a b ≠ .gt := by
  induction i using Nat.strongRecOn generalizing b with
  | ind i ih =>
    rcases Nat.eq_zero_or_pos i with rfl | hi
    · rw [ha] at hb
      cases hb
      exact ho.refl (List.mem_of_getElem? ha)
    · have hlen := (List.getElem?_eq_some_iff.1 hb).1
      have hp : (i - 1) / 2 < heap.length := by omega
      have hpar := List.getElem?_eq_getElem hp
      have hup := ih ((i - 1) / 2) (by omega) hpar
      have hdown := h ((i - 1) / 2) i _ b (by unfold IsChild; omega) (Nat.zero_le _) hpar hb
      exact ho.trans _ _ _ (List.mem_of_getElem? ha) (List.getElem_mem hp) (List.mem_of_getElem? hb) hup hdown

end

end DryDb
