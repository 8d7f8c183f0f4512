import Mathlib
/-!
# Sorting and merging by a comparison

A comparison `cmp` that is total on some elements (`OrdersOn`) has one sorted arrangement of
any list of them without ties. `Sorter` is a sort known by its contract alone. `Merges` is a
merge known by its choices: it takes lanes apart from their fronts.
-/

namespace DryDb

variable {α : Type}

/-- The comparison is a total preorder on the elements `p` picks. -/
structure OrdersOn (cmp : α → α → Ordering) (p : α → Prop) : Prop where
  swap : ∀ a b, p a → p b → cmp b a = (cmp a b).swap
  trans : ∀ a b c, p a → p b → p c → cmp a b ≠ .gt → cmp b c ≠ .gt → cmp a c ≠ .gt

namespace OrdersOn

variable {cmp : α → α → Ordering} {p q : α → Prop} {a : α}

theorem mono (h : OrdersOn cmp p) (hq : ∀ a, q a → p a) : OrdersOn cmp q where
  swap a b ha hb := h.swap a b (hq a ha) (hq b hb)
  trans a b c ha hb hc := h.trans a b c (hq a ha) (hq b hb) (hq c hc)

theorem total (h : OrdersOn cmp p) {b : α} (ha : p a) (hb : p b) : cmp a b ≠ .gt ∨ cmp b a ≠ .gt := by
  rw [h.swap a b ha hb]
  cases cmp a b <;> simp

/-- What is not below is above or level. -/
theorem of_not_lt (h : OrdersOn cmp p) {b : α} (ha : p a) (hb : p b) (hn : cmp a b ≠ .lt) : cmp b a ≠ .gt := by
  rw [h.swap a b ha hb]
  cases hc : cmp a b
  · exact absurd hc hn
  · simp
  · simp

theorem refl (h : OrdersOn cmp p) (ha : p a) : cmp a a ≠ .gt := by
  have := h.swap a a ha ha
  intro hc
  rw [hc] at this
  cases this

end OrdersOn

/-- In order by the comparison. -/
def Ascends (cmp : α → α → Ordering) (l : List α) : Prop := l.Pairwise fun a b => cmp a b ≠ .gt

/-! ## A sort by its contract -/

/-- A sort as a library promises it: what went in comes out, in order when the comparison
is total. `asked` are the comparisons it makes. -/
structure Sorter (α : Type) where
  sort : (α → α → Ordering) → List α → List α
  asked : (α → α → Ordering) → List α → List (α × α)
  perm : ∀ cmp l, (sort cmp l).Perm l
  ascends : ∀ cmp l, OrdersOn cmp (· ∈ l) → Ascends cmp (sort cmp l)
  asked_mem : ∀ cmp l, ∀ pair ∈ asked cmp l, pair.1 ∈ l ∧ pair.2 ∈ l

/-- Insertion sort keeps the contract. It is taken to compare every pair. -/
def Sorter.insertion : Sorter α where
  sort cmp l := (l.attach.insertionSort fun a b => cmp a.1 b.1 ≠ .gt).map (·.1)
  asked _ l := l.flatMap fun a => l.map fun b => (a, b)
  perm cmp l := by
    have := (List.perm_insertionSort (fun (a b : { x // x ∈ l }) => cmp a.1 b.1 ≠ .gt) l.attach).map (·.1)
    rwa [List.attach_map_subtype_val] at this
  ascends cmp l h := by
    have ht : Std.Total fun (a b : { x // x ∈ l }) => cmp a.1 b.1 ≠ .gt := ⟨fun a b => h.total a.2 b.2⟩
    have htr : IsTrans { x // x ∈ l } fun a b => cmp a.1 b.1 ≠ .gt := ⟨fun a b c => h.trans _ _ _ a.2 b.2 c.2⟩
    exact List.Pairwise.map _ (fun _ _ hab => hab) (List.pairwise_insertionSort _ _)
  asked_mem _ l pair hp := by
    obtain ⟨a, ha, hp⟩ := List.mem_flatMap.1 hp
    obtain ⟨b, hb, rfl⟩ := List.mem_map.1 hp
    exact ⟨ha, hb⟩

/-! ## A merge by its choices -/

/-- The element is not above the front of any lane. -/
def LeastOf (cmp : α → α → Ordering) (lanes : List (List α)) (a : α) : Prop :=
  ∀ lane ∈ lanes, ∀ b ∈ lane.head?, cmp a b ≠ .gt

/-- `out` takes the lanes apart from their fronts, a least front each time when `orders`. -/
inductive Merges (cmp : α → α → Ordering) (orders : Prop) : List (List α) → List α → Prop where
  | done {lanes : List (List α)} (h : ∀ lane ∈ lanes, lane = []) : Merges cmp orders lanes []
  | take {lanes : List (List α)} {i : Nat} {a : α} {rest out : List α} (hlane : lanes[i]? = some (a :: rest))
      (hleast : orders → LeastOf cmp lanes a) (hout : Merges cmp orders (lanes.set i rest) out) :
      Merges cmp orders lanes (a :: out)

/-- Taking the front of a lane. -/
theorem flatten_set_perm {lanes : List (List α)} {i : Nat} {a : α} {rest : List α} (h : lanes[i]? = some (a :: rest)) :
    lanes.flatten.Perm (a :: (lanes.set i rest).flatten) := by
  induction lanes generalizing i with
  | nil => simp at h
  | cons lane lanes ih =>
    cases i with
    | zero =>
      obtain rfl : lane = a :: rest := by simpa using h
      simp
    | succ i =>
      have := ih (i := i) (by simpa using h)
      simp only [List.flatten_cons, List.set_cons_succ]
      exact (this.append_left lane).trans List.perm_middle

namespace Merges

variable {cmp : α → α → Ordering} {orders : Prop} {lanes : List (List α)} {out : List α}

/-- Nothing is lost and nothing is made up. -/
theorem perm (h : Merges cmp orders lanes out) : out.Perm lanes.flatten := by
  induction h with
  | done h => rw [List.flatten_eq_nil_iff.2 h]
  | take hlane _ _ ih => exact (ih.cons _).trans (flatten_set_perm hlane).symm

theorem mono {orders' : Prop} (h : Merges cmp orders lanes out) (himp : orders' → orders) :
    Merges cmp orders' lanes out := by
  induction h with
  | done h => exact .done h
  | take hlane hleast _ ih => exact .take hlane (fun ho => hleast (himp ho)) ih

/-- A lane on its own comes out as it is. -/
theorem single {lane : List α} (h : Merges cmp orders [lane] out) : out = lane := by
  induction out generalizing lane with
  | nil =>
    cases h with
    | done hempty => exact (hempty lane List.mem_cons_self).symm
  | cons a out ih =>
    cases h with
    | @take _ i _ rest _ hlane _ hout =>
      cases i with
      | zero =>
        obtain rfl : lane = a :: rest := by simpa using hlane
        rw [ih hout]
      | succ i => simp at hlane

/-- A merge of lanes in order is in order. -/
theorem ascends (h : Merges cmp orders lanes out) (horders : orders) (ho : OrdersOn cmp (· ∈ lanes.flatten))
    (hlanes : ∀ lane ∈ lanes, Ascends cmp lane) : Ascends cmp out := by
  induction h with
  | done _ => exact List.Pairwise.nil
  | @take lanes i a rest out hlane hleast hout ih =>
    have hmem := List.mem_of_getElem? hlane
    have ha : a ∈ lanes.flatten := List.mem_flatten.2 ⟨_, hmem, List.mem_cons_self⟩
    have hrest : ∀ lane ∈ lanes.set i rest, Ascends cmp lane := by
      intro lane hl
      rcases List.mem_or_eq_of_mem_set hl with hl | rfl
      · exact hlanes lane hl
      · exact (List.pairwise_cons.1 (hlanes _ hmem)).2
    have hsub : ∀ b, b ∈ (lanes.set i rest).flatten → b ∈ lanes.flatten := by
      intro b hb
      exact (flatten_set_perm hlane).mem_iff.2 (List.mem_cons_of_mem _ hb)
    -- Whatever stands in a lane is not below its front, and no front is below `a`.
    have behind : ∀ lane ∈ lanes, ∀ b ∈ lane, cmp a b ≠ .gt := by
      intro lane hl b hb
      cases lane with
      | nil => simp at hb
      | cons c lane =>
        have hac := hleast horders _ hl c rfl
        rcases List.mem_cons.1 hb with rfl | hb'
        · exact hac
        · have hcb := (List.pairwise_cons.1 (hlanes _ hl)).1 b hb'
          have hc : c ∈ lanes.flatten := List.mem_flatten.2 ⟨_, hl, List.mem_cons_self⟩
          have hbm : b ∈ lanes.flatten := List.mem_flatten.2 ⟨_, hl, hb⟩
          exact ho.trans a c b ha hc hbm hac hcb
    apply List.pairwise_cons.2 ⟨_, ih (ho.mono hsub) hrest⟩
    intro b hb
    obtain ⟨lane, hl, hbl⟩ := List.mem_flatten.1 (hout.perm.mem_iff.1 hb)
    rcases List.mem_or_eq_of_mem_set hl with hl | rfl
    · exact behind lane hl b hbl
    · exact behind _ hmem b (List.mem_cons_of_mem _ hbl)

end Merges

end DryDb
