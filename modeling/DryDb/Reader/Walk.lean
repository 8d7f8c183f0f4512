import DryDb.Reader.Env
import DryDb.Reader.PageSearch
/-!
# Walking the leaf chain

The leaves of a tree as its walks meet them: `Chain` says that every move along the
chain ends at the neighbouring leaf, or fails the way `fault` allows. With no fault
allowed the chain is sound; with every fault allowed the results say "an error, or
exactly this". A search over a chain returns the first entry its operation is after
(`Chain.search_meets`).
-/

namespace DryDb

open List Program

/-- An entry, by the leaf and the index it is at. -/
abbrev Place := PagePin × Nat

def PagePin.places (pin : PagePin) : List Place := (List.range pin.view.entryCount).map fun i => (pin, i)

/-- The entries of a run of leaves, in order. -/
def places (leaves : List PagePin) : List Place := leaves.flatMap PagePin.places

@[simp] theorem places_nil : places [] = [] := rfl

@[simp] theorem places_cons (pin : PagePin) (rest : List PagePin) : places (pin :: rest) = pin.places ++ places rest :=
  rfl

@[simp] theorem places_append (a b : List PagePin) : places (a ++ b) = places a ++ places b := flatMap_append

@[simp] theorem PagePin.length_places (pin : PagePin) : pin.places.length = pin.view.entryCount := by simp [places]

variable {pin : PagePin}

theorem PagePin.mem_places {x : Place} : x ∈ pin.places ↔ x.1 = pin ∧ x.2 < pin.view.entryCount := by
  unfold PagePin.places
  rw [mem_map]
  constructor
  · rintro ⟨i, hi, rfl⟩
    exact ⟨rfl, mem_range.1 hi⟩
  · rintro ⟨rfl, hi⟩
    exact ⟨x.2, mem_range.2 hi, rfl⟩

theorem mem_places {leaves : List PagePin} {x : Place} :
    x ∈ places leaves ↔ x.1 ∈ leaves ∧ x.2 < x.1.view.entryCount := by
  unfold places
  rw [mem_flatMap]
  constructor
  · rintro ⟨pin, hpin, hx⟩
    obtain ⟨rfl, hi⟩ := PagePin.mem_places.1 hx
    exact ⟨hpin, hi⟩
  · rintro ⟨hpin, hi⟩
    exact ⟨x.1, hpin, PagePin.mem_places.2 ⟨rfl, hi⟩⟩

theorem PagePin.getElem?_places {i : Nat} (h : i < pin.view.entryCount) : pin.places[i]? = some (pin, i) := by
  simp [PagePin.places, getElem?_range h]

/-- The move every walk makes from a leaf: to the sibling, or to the end of the chain
when the tree ends there too. -/
def Tree.toSibling (t : Tree) (ascending : Bool) (pin : PagePin) : Read (Option PagePin) :=
  match if ascending then pin.view.rightSibling else pin.view.leftSibling with
  | none => do
    if ← t.endsAt pin.ordinal ascending then pure none else .fail (Tree.chainStops pin.ordinal)
  | some sibling => do
    let next ← t.stepSibling pin.ordinal sibling ascending
    pure (some next)

/-- The leaves as the walks of `t` meet them. -/
structure Chain (t : Tree) (env : Env) (fault : Error → Prop) (leaves : List PagePin) : Prop where
  bounded : leaves.length ≤ t.store.pageCount + 1
  right : ∀ pre pin rest, leaves = pre ++ pin :: rest → Meets fault (· = rest.head?) ((t.toSibling true pin).run env)
  left : ∀ pre pin rest, leaves = pre ++ pin :: rest → Meets fault (· = pre.getLast?) ((t.toSibling false pin).run env)
  first : Meets fault (· = leaves.head?.bind fun pin => pin.places.head?) (t.minLeaf.run env)
  last : Meets fault (· = leaves.getLast?.bind fun pin => pin.places.getLast?) (t.maxLeaf.run env)

/-- `found` is the first entry of the chain that `hit` picks. -/
def FirstHit (leaves : List PagePin) (hit : Place → Bool) : Option Place → Prop
  | none => ∀ x ∈ places leaves, hit x = false
  | some (pin, i) => ∃ pre rest, leaves = pre ++ pin :: rest ∧ (∀ x ∈ places pre, hit x = false) ∧
      (List.range pin.view.entryCount).find? (fun j => hit (pin, j)) = some i

/-- `g` says how every entry of the chain compares with the key. -/
structure Placed (t : Tree) (key : Bytes) (d : UInt64) (leaves : List PagePin) (g : Place → Ordering) : Prop where
  sorted : ∀ pin ∈ leaves, Sorted (t.compareLeaf pin.view key d) (pin.view.lowerBoundRank d) pin.view.entryCount
    fun i => g (pin, i)
  rises : (places leaves).Pairwise fun a b => Rises (g a) (g b)

/-- What a descent has to come out at: everything left of the leaf is below the key. For
point lookups, nothing right of it equals the key unless the descent was conservative. -/
def Lands (point : Prop) (leaves : List PagePin) (g : Place → Ordering) : Option (PagePin × Bool) → Prop
  | none => places leaves = []
  | some (pin, conservative) => ∃ pre rest, leaves = pre ++ pin :: rest ∧ (∀ x ∈ places pre, g x = .lt) ∧
      (point → conservative = false → ∀ x ∈ places rest, g x ≠ .eq)

/-! ## The search walk -/

section Search

variable {t : Tree} {env : Env} {fault : Error → Prop} {leaves : List PagePin} {key : Bytes} {d : UInt64}
  {g : Place → Ordering} {op : SearchOp} {pin : PagePin} {rest pre : List PagePin} {hit : Place → Bool} {conservative : Bool}

/-- One turn of the rightward walk. -/
theorem run_searchFrom (t : Tree) (env : Env) (key : Bytes) (d : UInt64) (op : SearchOp) (conservative : Bool)
    (steps : Nat) (pin : PagePin) :
    (t.searchFrom key d op conservative (steps + 1) pin).run env = (do
      match ← t.leafSearch pin.view key d op with
      | some index => .ok (some (pin, index))
      | none =>
        if ← t.stopsHere pin.view key d op conservative then .ok none
        else
          match ← (t.toSibling true pin).run env with
          | none => .ok none
          | some next => (t.searchFrom key d op conservative steps next).run env) := by
  rw [Tree.searchFrom]
  simp only [run_bind, run_liftM]
  cases t.leafSearch pin.view key d op with
  | error e => rfl
  | ok found =>
    cases found with
    | some index => rfl
    | none =>
      simp only [ok_bind, run_bind, run_liftM]
      cases t.stopsHere pin.view key d op conservative with
      | error e => rfl
      | ok stops =>
        cases stops with
        | true => rfl
        | false =>
          simp only [ok_bind, Bool.false_eq_true, if_false, Tree.toSibling, if_true]
          cases pin.view.rightSibling with
          | none =>
            simp only [run_bind]
            cases (t.endsAt pin.ordinal true).run env with
            | error e => rfl
            | ok ends => cases ends <;> rfl
          | some right =>
            simp only [run_bind]
            cases (t.stepSibling pin.ordinal right true).run env <;> rfl

theorem FirstHit.here {i : Nat} (h : (List.range pin.view.entryCount).find? (fun j => hit (pin, j)) = some i) :
    FirstHit (pin :: rest) hit (some (pin, i)) :=
  ⟨[], rest, rfl, by simp, h⟩

/-- A run of leaves without a hit can be put before. -/
theorem FirstHit.skip {found : Option Place}
    (hpre : ∀ x ∈ places pre, hit x = false) (h : FirstHit rest hit found) : FirstHit (pre ++ rest) hit found := by
  cases found with
  | none =>
    intro x hx
    rw [places_append, mem_append] at hx
    exact hx.elim (hpre x) (h x)
  | some x =>
    obtain ⟨pin, i⟩ := x
    obtain ⟨a, b, rfl, ha, hi⟩ := h
    refine ⟨pre ++ a, b, by simp, fun x hx => ?_, hi⟩
    rw [places_append, mem_append] at hx
    exact hx.elim (hpre x) (ha x)

theorem noHit_of_find?
    (h : (List.range pin.view.entryCount).find? (fun j => hit (pin, j)) = none) : ∀ x ∈ pin.places, hit x = false := by
  intro x hx
  obtain ⟨rfl, hi⟩ := PagePin.mem_places.1 hx
  simpa using find?_eq_none.1 h x.2 (mem_range.2 hi)

/-- When the search stops at a leaf without a hit, there is none further right. -/
theorem stopsHere_sound (hp : Placed t key d (pin :: rest) g) (hnone : ∀ x ∈ pin.places, op.finds (g x) = false)
    (hexact : op = .equal → conservative = false → ∀ x ∈ places rest, g x ≠ .eq) :
    ∃ stops, t.stopsHere pin.view key d op conservative = .ok stops ∧
      (stops = true → ∀ x ∈ places rest, op.finds (g x) = false) := by
  have hs := hp.sorted pin mem_cons_self
  unfold Tree.stopsHere
  by_cases hop : op = .equal
  · subst hop
    rw [if_pos rfl]
    cases conservative with
    | false =>
      refine ⟨true, by simp, fun _ x hx => ?_⟩
      simpa [SearchOp.finds] using hexact rfl rfl x hx
    | true =>
      unfold Tree.endsBelow
      by_cases hzero : pin.view.entryCount = 0
      · exact ⟨false, by simp [hzero], by simp⟩
      · have hlast : (pin, pin.view.entryCount - 1) ∈ pin.places := PagePin.mem_places.2 ⟨rfl, by omega⟩
        refine ⟨!(g (pin, pin.view.entryCount - 1) == .lt), ?_, fun hstop x hx => ?_⟩
        · simp only [if_true, if_neg hzero, hs.cmp (pin.view.entryCount - 1) (by omega), ok_bind]
        · -- The last entry here is above the key, so everything further right is.
          have hne : g (pin, pin.view.entryCount - 1) ≠ .lt := by simpa using hstop
          have hgt : g (pin, pin.view.entryCount - 1) = .gt := by
            have := hnone _ hlast
            simp only [SearchOp.finds, beq_eq_false_iff_ne] at this
            cases hg : g (pin, pin.view.entryCount - 1) <;> simp_all
          have hr := (pairwise_append.1 (places_cons pin rest ▸ hp.rises)).2.2 _ hlast x hx
          rw [hr.2 hgt]
          rfl
  · exact ⟨false, by simp [hop], by simp⟩

theorem Placed.tail (hp : Placed t key d (pin :: rest) g) :
    Placed t key d rest g :=
  ⟨fun p h => hp.sorted p (mem_cons_of_mem _ h), (pairwise_append.1 (places_cons pin rest ▸ hp.rises)).2.1⟩

theorem Placed.drop (hp : Placed t key d (pre ++ rest) g) : Placed t key d rest g := by
  induction pre with
  | nil => exact hp
  | cons pin pre ih => exact ih hp.tail

/-- The walk from a leaf on finds the first hit of the leaves from there on. -/
theorem Chain.searchFrom_meets (h : Chain t env fault leaves) {steps : Nat}
    (hl : leaves = pre ++ pin :: rest) (hsteps : rest.length < steps) (hp : Placed t key d (pin :: rest) g)
    (hexact : op = .equal → conservative = false → ∀ x ∈ places rest, g x ≠ .eq) :
    Meets fault (FirstHit (pin :: rest) fun x => op.finds (g x))
      ((t.searchFrom key d op conservative steps pin).run env) := by
  induction steps generalizing pre pin rest with
  | zero => exact absurd hsteps (Nat.not_lt_zero _)
  | succ steps ih =>
    rw [run_searchFrom, Tree.leafSearch_eq (hp.sorted pin mem_cons_self), ok_bind]
    cases hf : (List.range pin.view.entryCount).find? fun i => op.finds (g (pin, i)) with
    | some i => exact FirstHit.here hf
    | none =>
      have hnone : ∀ x ∈ pin.places, op.finds (g x) = false := noHit_of_find? hf
      obtain ⟨stops, hstops, hsound⟩ := stopsHere_sound hp hnone hexact
      have hskip : ∀ x ∈ places [pin], op.finds (g x) = false := fun x hx => hnone x (by simpa using hx)
      have hend (hrest : ∀ x ∈ places rest, op.finds (g x) = false) :
          FirstHit (pin :: rest) (fun x => op.finds (g x)) none :=
        FirstHit.skip hskip hrest
      simp only [hstops, ok_bind]
      cases stops with
      | true => exact hend (hsound rfl)
      | false =>
        refine Meets.bind (h.right pre pin rest hl) fun moved _ hmoved => ?_
        cases rest with
        | nil =>
          subst hmoved
          exact hend (by simp)
        | cons next rest =>
          subst hmoved
          have hl' : leaves = (pre ++ [pin]) ++ next :: rest := by simp [hl]
          refine (ih hl' (by simp at hsteps; omega) hp.tail fun ho hc x hx => ?_).mono
            fun found hfound => FirstHit.skip hskip hfound
          exact hexact ho hc x (by simp [hx])

/-- A search returns the first entry of the chain it is after. -/
theorem Chain.search_meets (h : Chain t env fault leaves) (hd : t.encoding.digest key = .ok d)
    (hp : Placed t key d leaves g) {point : Prop} (hl : Meets fault (Lands point leaves g) ((t.descend key d).run env))
    (hop : op = .equal → point) :
    Meets fault (FirstHit leaves fun x => op.finds (g x)) ((t.search key op).run env) := by
  unfold Tree.search Tree.digestOf
  simp only [run_bind, run_liftM, hd, ok_bind]
  refine Meets.bind hl fun landed _ hland => ?_
  cases landed with
  | none =>
    intro x hx
    rw [hland] at hx
    simp at hx
  | some landed =>
    obtain ⟨pin, conservative⟩ := landed
    obtain ⟨pre, rest, rfl, hpre, hexact⟩ := hland
    have hbound := h.bounded
    simp only [length_append, length_cons] at hbound
    refine (h.searchFrom_meets rfl (by omega) hp.drop fun ho => hexact (hop ho)).mono fun found hfound =>
      FirstHit.skip (fun x hx => ?_) hfound
    rw [hpre x hx]
    cases op <;> rfl

end Search

end DryDb
