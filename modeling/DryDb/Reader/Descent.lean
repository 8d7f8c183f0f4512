import DryDb.Reader.Answers
/-!
# The way down

`Spans t env fault ok h o leaves`: the subtree of height `h` at page `o` covers exactly
`leaves`, its internal pages have what `ok` asks of them, and loading its pages succeeds or
fails the way `fault` allows. A descent lands on the leaf of its key, and the walk along
an edge ends at the first or the last leaf.
-/

namespace DryDb

open List Program

/-- A page of the tree is `pin`, or loading it fails. -/
def Tree.Loads (t : Tree) (env : Env) (fault : Error → Prop) (o : Nat) (pin : PagePin) : Prop :=
  Meets fault (· = pin) (t.fetch env o)

/-- The subtree of height `h` at page `o` covers `leaves`. -/
inductive Spans (t : Tree) (env : Env) (fault : Error → Prop) (ok : PagePin → List (List PagePin) → Prop) :
    Nat → Nat → List PagePin → Prop where
  | leaf {o : Nat} {pin : PagePin} (hload : t.Loads env fault o pin) (hkind : pin.view.kind = .leaf) :
      Spans t env fault ok 0 o [pin]
  | internal {h o : Nat} {pin : PagePin} {children : List Nat} {segs : List (List PagePin)}
      (hload : t.Loads env fault o pin) (hkind : pin.view.kind = .internal) (hpos : 0 < pin.view.entryCount)
      (hcount : children.length = pin.view.entryCount) (hlen : segs.length = pin.view.entryCount) (hok : ok pin segs)
      (hentry : ∀ (i child : Nat), children[i]? = some child →
        (∃ entry, pin.view.internalEntry i = .ok entry ∧ entry.child = child) ∧ child ≠ o)
      (hchild : ∀ (i child : Nat) (seg : List PagePin), children[i]? = some child → segs[i]? = some seg →
        Spans t env fault ok h child seg) :
      Spans t env fault ok (h + 1) o segs.flatten

section

variable {t : Tree} {env : Env} {fault : Error → Prop} {ok : PagePin → List (List PagePin) → Prop} {o : Nat}
  {leaves : List PagePin} {segs : List (List PagePin)} {point : Prop} {key : Bytes} {d : UInt64} {current : Option PagePin}

theorem Spans.mono {ok' : PagePin → List (List PagePin) → Prop} {h : Nat}
    (hs : Spans t env fault ok h o leaves) (himp : ∀ pin segs, ok pin segs → ok' pin segs) :
    Spans t env fault ok' h o leaves := by
  induction hs with
  | leaf hload hkind => exact .leaf hload hkind
  | internal hload hkind hpos hcount hlen hok hentry _ ih =>
    exact .internal hload hkind hpos hcount hlen (himp _ _ hok) hentry ih

theorem Spans.ne_nil {h : Nat} (hs : Spans t env fault ok h o leaves) : leaves ≠ [] := by
  induction hs with
  | leaf _ _ => simp
  | @internal _ _ _ children segs _ _ hpos hcount hlen _ _ _ ih =>
    intro hnil
    have h0 : 0 < segs.length := by omega
    have h1 : 0 < children.length := by omega
    exact ih 0 children[0] segs[0] (getElem?_eq_getElem h1) (getElem?_eq_getElem h0)
      (flatten_eq_nil_iff.1 hnil _ (getElem_mem h0))

theorem Spans.fetch_meets {h : Nat} (hs : Spans t env fault ok h o leaves) :
    Meets fault (fun _ => True) (t.fetch env o) := by
  cases hs with
  | leaf hload _ => exact hload.mono fun _ _ => trivial
  | internal hload _ _ _ _ _ _ _ => exact hload.mono fun _ _ => trivial

/-! ## Descending by key -/

/-- The separators of a page against a key: `c` is how they compare. A separator at or
below the key has only smaller entries before its child. For point lookups, one above the
key has no equal entry from its child on, and one equal to it none after its child. Where
separators are known by their digests only, an equal one says nothing. -/
def Fenced (point : Prop) (t : Tree) (key : Bytes) (d : UInt64) (g : Place → Ordering) (pin : PagePin)
    (segs : List (List PagePin)) : Prop :=
  ∃ c, Sorted (t.compareInternal pin.view key d) (pin.view.lowerBoundRank d) pin.view.entryCount c ∧
    (∀ i < pin.view.entryCount, (c i = .lt ∨ (c i = .eq ∧ t.separatorsAreInexact pin.view = false)) →
      ∀ x ∈ places (segs.take i).flatten, g x = .lt) ∧
    (point → ∀ i < pin.view.entryCount, c i = .gt → ∀ x ∈ places (segs.drop i).flatten, g x ≠ .eq) ∧
    (point → ∀ i < pin.view.entryCount, c i = .eq → t.separatorsAreInexact pin.view = false →
      ∀ x ∈ places (segs.drop (i + 1)).flatten, g x ≠ .eq)

theorem mem_places_drop {i j : Nat} (hij : i ≤ j) {x : Place}
    (hx : x ∈ places (segs.drop j).flatten) : x ∈ places (segs.drop i).flatten := by
  obtain ⟨h1, h2⟩ := mem_places.1 hx
  obtain ⟨l, hl, hpl⟩ := mem_flatten.1 h1
  refine mem_places.2 ⟨mem_flatten.2 ⟨l, ?_, hpl⟩, h2⟩
  rw [show j = i + (j - i) by omega, ← drop_drop] at hl
  exact mem_of_mem_drop hl

/-- The child a descent takes from a fenced page. -/
theorem Fenced.internalChildIndex {g : Place → Ordering} {pin : PagePin}
    (hf : Fenced point t key d g pin segs) (hpos : 0 < pin.view.entryCount) (hlen : segs.length = pin.view.entryCount) :
    ∃ i inexact, i < pin.view.entryCount ∧ t.internalChildIndex pin.view key d = .ok (i, inexact) ∧
      (∀ x ∈ places (segs.take i).flatten, g x = .lt) ∧
      (point → inexact = false → ∀ x ∈ places (segs.drop (i + 1)).flatten, g x ≠ .eq) := by
  obtain ⟨c, hsorted, hbelow, habove, hequal⟩ := hf
  obtain ⟨i, hile, hlt, hat, hidx⟩ := Tree.internalChildIndex_eq hsorted
  -- The separator before the first one at or above the key is below it.
  have hprev : ∀ x ∈ places (segs.take (i - 1)).flatten, g x = .lt := by
    rcases Nat.eq_zero_or_pos i with rfl | hi
    · simp
    · exact hbelow (i - 1) (by omega) (Or.inl (hlt (i - 1) (by omega)))
  -- When that one does not equal the key it is above it.
  have hnext (hne : ¬ (i < pin.view.entryCount ∧ c i = .eq)) (hpoint : point) :
      ∀ x ∈ places (segs.drop (i - 1 + 1)).flatten, g x ≠ .eq := by
    intro x hx
    by_cases hi : i < pin.view.entryCount
    · have hgt : c i = .gt := by
        have h1 := hat hi
        have h2 : c i ≠ .eq := fun he => hne ⟨hi, he⟩
        cases hc : c i <;> simp_all
      exact habove hpoint i hi hgt x (mem_places_drop (by omega) hx)
    · rw [drop_of_length_le (by omega)] at hx
      simp at hx
  cases hinexact : t.separatorsAreInexact pin.view with
  | true =>
    refine ⟨i - 1, decide (i < pin.view.entryCount ∧ c i = .eq), by omega, by rw [hidx, hinexact]; rfl, hprev, ?_⟩
    intro hpoint hfalse
    exact hnext (by simpa using hfalse) hpoint
  | false =>
    by_cases he : i < pin.view.entryCount ∧ c i = .eq
    · exact ⟨i, false, he.1, by rw [hidx, hinexact]; simp [he], hbelow i he.1 (Or.inr ⟨he.2, hinexact⟩),
        fun hpoint _ => hequal hpoint i he.1 he.2 hinexact⟩
    · exact ⟨i - 1, false, by omega, by rw [hidx, hinexact]; simp [he], hprev, fun hpoint _ => hnext he hpoint⟩

/-- A part of the leaves placed in a list of parts. -/
theorem flatten_split {i : Nat} {seg : List PagePin} (h : segs[i]? = some seg) :
    segs.flatten = (segs.take i).flatten ++ seg ++ (segs.drop (i + 1)).flatten := by
  obtain ⟨hi, rfl⟩ := List.getElem?_eq_some_iff.1 h
  conv_lhs => rw [← take_append_drop i segs, flatten_append, drop_eq_getElem_cons hi, flatten_cons]
  rw [append_assoc]

/-- Where a descent comes out in the leaves of a subtree. -/
def LandsIn (point : Prop) (leaves : List PagePin) (g : Place → Ordering) (conservative : Bool)
    (found : PagePin × Bool) : Prop :=
  (found.2 = false → conservative = false) ∧
    ∃ pre rest, leaves = pre ++ found.1 :: rest ∧ (∀ x ∈ places pre, g x = .lt) ∧
      (point → found.2 = false → ∀ x ∈ places rest, g x ≠ .eq)

theorem Spans.descendFrom_meets (hh : env.Honest t) {g : Place → Ordering}
    {h : Nat} (hs : Spans t env fault (Fenced point t key d g) h o leaves) {depth : Nat}
    (hd : h < depth) (hc : ∀ pin, current = some pin → t.fetch env o = .ok pin) (conservative : Bool) :
    Meets fault (LandsIn point leaves g conservative)
      ((t.descendFrom key d depth o current conservative).run env) := by
  induction hs generalizing depth current conservative with
  | @leaf o pin hload hkind =>
    obtain ⟨depth, rfl⟩ : ∃ m, depth = m + 1 := ⟨depth - 1, by omega⟩
    rw [Tree.descendFrom]
    simp only [run_bind, hh.run_currentPage hc]
    refine Meets.bind hload fun p _ hp => ?_
    subst hp
    rw [hkind]
    exact ⟨fun h => h, [], [], rfl, by simp, by simp⟩
  | @internal h o pin children segs hload hkind hpos hcount hlen hok hentry _ ih =>
    obtain ⟨depth, rfl⟩ : ∃ m, depth = m + 1 := ⟨depth - 1, by omega⟩
    rw [Tree.descendFrom]
    simp only [run_bind, hh.run_currentPage hc]
    refine Meets.bind hload fun p _ hp => ?_
    subst hp
    obtain ⟨i, inexact, hi, hidx, hbefore, hafter⟩ := hok.internalChildIndex hpos hlen
    have hseg := getElem?_eq_getElem (show i < segs.length by omega)
    have hchild := getElem?_eq_getElem (show i < children.length by omega)
    obtain ⟨⟨entry, hent, hce⟩, hne⟩ := hentry i _ hchild
    have hchoose : t.chooseChild key d o p.view = .ok (children[i], inexact) := by
      unfold Tree.chooseChild
      rw [if_neg (by omega), hidx]
      simp only [ok_bind, hent]
      rw [if_neg (by rw [hce]; exact hne), hce]
    rw [hkind]
    simp only [run_bind, run_liftM, hchoose, ok_bind]
    refine (ih i _ _ hchild hseg (by omega) (by simp) (conservative || inexact)).mono fun found hfound => ?_
    obtain ⟨hcons, pre, rest, heq, hpre, hrest⟩ := hfound
    refine ⟨fun hf => ?_, (segs.take i).flatten ++ pre, rest ++ (segs.drop (i + 1)).flatten, ?_, ?_, ?_⟩
    · have := hcons hf
      simp only [Bool.or_eq_false_iff] at this
      exact this.1
    · rw [flatten_split hseg, heq]
      simp
    · intro x hx
      rw [places_append, mem_append] at hx
      exact hx.elim (hbefore x) (hpre x)
    · intro hpoint hf x hx
      rw [places_append, mem_append] at hx
      rcases hx with hx | hx
      · exact hrest hpoint hf x hx
      · have := hcons hf
        simp only [Bool.or_eq_false_iff] at this
        exact hafter hpoint this.2 x hx

/-- A descent from the root lands on the leaf of its key. -/
theorem Spans.descend_meets (hh : env.Honest t) {g : Place → Ordering} {h root : Nat} (hroot : t.root = some root)
    (hs : Spans t env fault (Fenced point t key d g) h root leaves) (hd : h < t.store.limits.maxTreeDepth) :
    Meets fault (Lands point leaves g) ((t.descend key d).run env) := by
  unfold Tree.descend
  simp only [run_bind, hh.run_rootPage, hroot]
  have hfetch := hs.fetch_meets
  cases hf : t.fetch env root with
  | error e =>
    rw [hf] at hfetch
    exact hfetch
  | ok pin =>
    have hord := hh.fetch_ordinal hf
    simp only [map_ok, ok_bind, run_bind, hord]
    have hcurrent : ∀ p, some pin = some p → t.fetch env root = .ok p := fun p hp => Option.some.inj hp ▸ hf
    refine Meets.bind (hs.descendFrom_meets hh hd hcurrent false)
      fun found _ hfound => ?_
    obtain ⟨-, pre, rest, heq, hpre, hrest⟩ := hfound
    exact ⟨pre, rest, heq, hpre, hrest⟩

/-! ## The edges -/

theorem Spans.edgeLeafFrom_meets (hh : env.Honest t) {h : Nat}
    (hs : Spans t env fault ok h o leaves) (leftmost : Bool) {depth : Nat} (hd : h < depth)
    (hc : ∀ pin, current = some pin → t.fetch env o = .ok pin) :
    Meets fault (· = if leftmost then leaves.head?.bind (fun pin => pin.places.head?)
        else leaves.getLast?.bind fun pin => pin.places.getLast?)
      ((t.edgeLeafFrom leftmost depth o current).run env) := by
  induction hs generalizing depth current with
  | @leaf o pin hload hkind =>
    obtain ⟨depth, rfl⟩ : ∃ m, depth = m + 1 := ⟨depth - 1, by omega⟩
    rw [Tree.edgeLeafFrom]
    simp only [run_bind, hh.run_currentPage hc]
    refine Meets.bind hload fun p _ hp => ?_
    subst hp
    rw [hkind]
    simp only [run_ite, run_pure]
    cases leftmost with
    | true =>
      simp only [if_true, head?_cons, Option.bind_some, PagePin.head?_places]
      by_cases hz : p.view.entryCount = 0
      · simp [hz]
      · simp [hz, Nat.pos_of_ne_zero hz]
    | false =>
      simp only [Bool.false_eq_true, if_false, getLast?_singleton, Option.bind_some, PagePin.getLast?_places]
      by_cases hz : p.view.entryCount = 0
      · simp [hz]
      · simp [hz, Nat.pos_of_ne_zero hz]
  | @internal h o pin children segs hload hkind hpos hcount hlen hok hentry hsub ih =>
    obtain ⟨depth, rfl⟩ : ∃ m, depth = m + 1 := ⟨depth - 1, by omega⟩
    rw [Tree.edgeLeafFrom]
    simp only [run_bind, hh.run_currentPage hc]
    refine Meets.bind hload fun p _ hp => ?_
    subst hp
    -- The edge child covers the edge part, which is not empty.
    have hedge : ∀ i, i = (if leftmost then 0 else p.view.entryCount - 1) → ∀ (h1 : i < children.length)
        (h2 : i < segs.length), Tree.edgeChild leftmost o p.view = .ok children[i] ∧
          (if leftmost then segs.flatten.head?.bind (fun pin => pin.places.head?)
            else segs.flatten.getLast?.bind fun pin => pin.places.getLast?) =
          (if leftmost then segs[i].head?.bind (fun pin => pin.places.head?)
            else segs[i].getLast?.bind fun pin => pin.places.getLast?) := by
      intro i hi h1 h2
      have hseg := getElem?_eq_getElem h2
      have hchild := getElem?_eq_getElem h1
      obtain ⟨⟨entry, hent, hce⟩, hne⟩ := hentry i _ hchild
      have hnil : segs[i] ≠ [] := (hsub i _ _ hchild hseg).ne_nil
      constructor
      · unfold Tree.edgeChild
        rw [if_neg (by omega), ← hi, hent]
        simp only [ok_bind]
        rw [if_neg (by rw [hce]; exact hne), hce]
      · rw [flatten_split hseg]
        cases leftmost with
        | true =>
          simp only [if_true] at hi ⊢
          subst hi
          obtain ⟨a, l, hl⟩ := exists_cons_of_ne_nil hnil
          simp [hl]
        | false =>
          simp only [Bool.false_eq_true, if_false] at hi ⊢
          rw [drop_of_length_le (show segs.length ≤ i + 1 by omega), flatten_nil, append_nil,
            getLast?_append_of_ne_nil _ hnil]
    have hlt : (if leftmost then 0 else p.view.entryCount - 1) < p.view.entryCount := by
      split <;> omega
    obtain ⟨hchoose, heq⟩ := hedge _ rfl (by omega) (by omega)
    rw [hkind]
    simp only [run_bind, run_liftM, hchoose, ok_bind]
    rw [heq]
    exact ih _ _ _ (getElem?_eq_getElem (by omega)) (getElem?_eq_getElem (by omega)) (by omega) (by simp)

theorem Spans.edgeLeaf_meets (hh : env.Honest t) {h root : Nat} (hroot : t.root = some root)
    (hs : Spans t env fault ok h root leaves) (hd : h < t.store.limits.maxTreeDepth) (leftmost : Bool) :
    Meets fault (· = if leftmost then leaves.head?.bind (fun pin => pin.places.head?)
        else leaves.getLast?.bind fun pin => pin.places.getLast?) ((t.edgeLeaf leftmost).run env) := by
  unfold Tree.edgeLeaf
  simp only [run_bind, hh.run_rootPage, hroot]
  have hfetch := hs.fetch_meets
  cases hf : t.fetch env root with
  | error e =>
    rw [hf] at hfetch
    exact hfetch
  | ok pin =>
    have hord := hh.fetch_ordinal hf
    simp only [map_ok, ok_bind, hord]
    exact hs.edgeLeafFrom_meets hh leftmost hd fun p hp => by cases hp; exact hf

end

end DryDb
