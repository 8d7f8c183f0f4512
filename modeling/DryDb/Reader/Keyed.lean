import DryDb.Model.Db
import DryDb.Page.InBounds
import DryDb.Reader.Keys
/-!
# A tree that holds its keys answers as a sorted map

`Spans.chain`: leaves that point at each other are a chain for every walk along them.
`Keyed t env rank probe leaves row`: the tree's leaves hold the entries `row`, ascending by
`rank`, and every key of `probe` finds its place among them. Lookups, scans in both
directions and counts of such a tree are those of the list of its entries.
-/

namespace DryDb

open List Program

/-- No error at all. -/
abbrev never : Error → Prop := fun _ => False

theorem meets_never {α : Type} {P : α → Prop} {x : Result α} : Meets never P x ↔ ∃ a, x = .ok a ∧ P a := by
  cases x with
  | error e => simp [never]
  | ok a => simp

/-! ## Leaves that point at each other -/

/-- Neighbouring leaves point at each other, and the outer ones at nothing. -/
def Joined (leaves : List PagePin) : Prop :=
  ∀ pre pin rest, leaves = pre ++ pin :: rest →
    pin.view.leftSibling = pre.getLast?.map PagePin.ordinal ∧ pin.view.rightSibling = rest.head?.map PagePin.ordinal

section

variable {t : Tree} {env : Env} {ok : PagePin → List (List PagePin) → Prop} {h o root : Nat} {leaves : List PagePin}
  {pin : PagePin}

theorem Spans.leaf_loads (hh : env.Honest t) (hs : Spans t env never ok h o leaves) :
    ∀ pin ∈ leaves, t.fetch env pin.ordinal = .ok pin ∧ pin.view.kind = .leaf := by
  induction hs with
  | @leaf o pin hload hkind =>
    intro p hp
    obtain rfl := mem_singleton.1 hp
    obtain ⟨q, hq, rfl⟩ := meets_never.1 hload
    rw [hh.fetch_ordinal hq]
    exact ⟨hq, hkind⟩
  | @internal h o pin children segs hload hkind hpos hcount hlen hok hentry hsub ih =>
    intro p hp
    obtain ⟨seg, hseg, hp⟩ := mem_flatten.1 hp
    obtain ⟨i, hi, rfl⟩ := getElem_of_mem hseg
    have hi' : i < children.length := by omega
    exact ih i children[i] segs[i] (getElem?_eq_getElem hi') (getElem?_eq_getElem hi) p hp

/-- The chain ends at the outermost leaf. -/
theorem Spans.endsAt (hh : env.Honest t) (hroot : t.root = some root) (hs : Spans t env never ok h root leaves)
    (hd : h < t.store.limits.maxTreeDepth) (hfull : Full leaves) (ascending : Bool)
    (hend : (if ascending then leaves.getLast? else leaves.head?) = some pin) :
    (t.endsAt pin.ordinal ascending).run env = .ok true := by
  obtain ⟨edge, hedge, heq⟩ := meets_never.1 (hs.edgeLeaf_meets hh hroot hd (!ascending))
  unfold Tree.endsAt
  rw [run_bind, hedge, ok_bind]
  -- The outermost leaf has an entry, or it is the only leaf and empty.
  have hcount : 0 < pin.view.entryCount ∨ (pin.view.entryCount = 0 ∧ leaves = [pin]) := by
    have hmem : pin ∈ leaves := by
      cases ascending with
      | true => exact mem_of_getLast? hend
      | false => exact mem_of_head? hend
    rcases hfull with hone | hall
    · rcases Nat.eq_zero_or_pos pin.view.entryCount with hz | hp
      · refine .inr ⟨hz, ?_⟩
        obtain ⟨p, rfl⟩ := length_eq_one_iff.1 (Nat.le_antisymm hone (length_pos_of_mem hmem))
        rw [mem_singleton.1 hmem]
      · exact .inl hp
    · exact .inl (hall pin hmem)
  rcases hcount with hp | ⟨hz, rfl⟩
  · have hsome : edge = some (pin, if ascending then pin.view.entryCount - 1 else 0) := by
      cases ascending with
      | true =>
        simp only [if_true] at hend
        simp [heq, hend, PagePin.getLast?_places, hp]
      | false =>
        simp only [Bool.false_eq_true, if_false] at hend
        simp [heq, hend, PagePin.head?_places, hp]
    rw [hsome]
    simp
  · have hnone : edge = none := by
      cases ascending <;> simp [heq, PagePin.getLast?_places, PagePin.head?_places, hz]
    rw [hnone]
    simp

theorem Spans.toSibling (hh : env.Honest t) (hroot : t.root = some root) (hs : Spans t env never ok h root leaves)
    (hd : h < t.store.limits.maxTreeDepth) (hfull : Full leaves) (ascending : Bool) {next : Option PagePin}
    (hlink : (if ascending then pin.view.rightSibling else pin.view.leftSibling) = next.map PagePin.ordinal)
    (hend : next = none → (if ascending then leaves.getLast? else leaves.head?) = some pin)
    (hback : ∀ p, next = some p → p ∈ leaves ∧
      (if ascending then p.view.leftSibling else p.view.rightSibling) = some pin.ordinal) :
    (t.toSibling ascending pin).run env = .ok next := by
  unfold Tree.toSibling
  rw [hlink]
  cases next with
  | none =>
    simp only [Option.map_none, run_bind, hs.endsAt hh hroot hd hfull ascending (hend rfl), ok_bind]
    rfl
  | some p =>
    obtain ⟨hmem, hb⟩ := hback p rfl
    obtain ⟨hfetch, hkind⟩ := hs.leaf_loads hh p hmem
    have hstep : (t.stepSibling pin.ordinal p.ordinal ascending).run env = .ok p :=
      hh.stepSibling_eq_ok.2 ⟨hfetch, hkind, hb⟩
    simp only [Option.map_some, run_bind, hstep, ok_bind]
    rfl

/-- Leaves under one root that point at each other are a chain. -/
theorem Spans.chain (hh : env.Honest t) (hroot : t.root = some root) (hs : Spans t env never ok h root leaves)
    (hd : h < t.store.limits.maxTreeDepth) (hfull : Full leaves) (hjoined : Joined leaves)
    (hbounded : leaves.length ≤ t.store.pageCount + 1) : Chain t env never leaves where
  bounded := hbounded
  right pre pin rest hl := by
    refine meets_never.2 ⟨_, hs.toSibling hh hroot hd hfull true (hjoined pre pin rest hl).2 ?_ ?_, rfl⟩
    · intro hnone
      rw [head?_eq_none_iff] at hnone
      simp [hl, hnone]
    · intro p hp
      obtain ⟨rest', rfl⟩ : ∃ l, rest = p :: l := by
        cases rest with
        | nil => cases hp
        | cons q l => exact ⟨l, by rw [Option.some.inj hp]⟩
      refine ⟨by simp [hl], ?_⟩
      rw [if_pos rfl, (hjoined (pre ++ [pin]) p rest' (by simp [hl])).1]
      simp
  left pre pin rest hl := by
    refine meets_never.2 ⟨_, hs.toSibling hh hroot hd hfull false (hjoined pre pin rest hl).1 ?_ ?_, rfl⟩
    · intro hnone
      rw [getLast?_eq_none_iff] at hnone
      simp [hl, hnone]
    · intro p hp
      obtain ⟨pre', rfl⟩ := getLast?_eq_some_iff.1 hp
      refine ⟨by simp [hl], ?_⟩
      rw [if_neg (by simp), (hjoined pre' p (pin :: rest) (by simp [hl])).2]
      rfl
  first := hs.edgeLeaf_meets hh hroot hd true
  last := hs.edgeLeaf_meets hh hroot hd false

end

/-! ## Bounds on keys -/

namespace KeyEncoding

/-- Whether a key is on the right side of a lower bound. -/
def aboveLower (enc : KeyEncoding) : Bound → Bytes → Bool
  | .unbounded, _ => true
  | .included k, key => decide (enc.compare key k ≠ .ok .lt)
  | .excluded k, key => decide (enc.compare key k = .ok .gt)

/-- Whether a key is on the right side of an upper bound. -/
def belowUpper (enc : KeyEncoding) : Bound → Bytes → Bool
  | .unbounded, _ => true
  | .included k, key => decide (enc.compare key k ≠ .ok .gt)
  | .excluded k, key => decide (enc.compare key k = .ok .lt)

/-- Whether a key is inside a pair of bounds. -/
def inside (enc : KeyEncoding) (lower upper : Bound) (key : Bytes) : Bool := enc.aboveLower lower key && enc.belowUpper upper key

end KeyEncoding

/-! ## Trees by their entries -/

/-- Every key of a bound is one of these. -/
def Bound.Of (probe : Bytes → Prop) (b : Bound) : Prop := ∀ k ∈ b.key, probe k

/-- The tree holds the entries `row`, ascending by `rank`, and finds the place of every key of
`probe` among them. -/
structure Keyed {ρ : Type} [LinearOrder ρ] (t : Tree) (env : Env) (rank : Bytes → ρ) (probe : Bytes → Prop)
    (leaves : List PagePin) (row : Place → Bytes × Bytes) : Prop where
  unrefused : env.Unrefused
  full : Full leaves
  chain : Chain t env never leaves
  ascending : (places leaves).Pairwise fun a b => rank (row a).1 < rank (row b).1
  rows : ∀ x ∈ places leaves, t.RowAt env x (row x)
  keys : ∀ x ∈ places leaves, probe (row x).1
  compare : ∀ a b, probe a → probe b → t.encoding.compare a b = .ok (Ord.compare (rank a) (rank b))
  inj : ∀ a b, probe a → probe b → rank a = rank b → a = b
  probes : ∀ q, probe q → ∃ d, t.encoding.digest q = .ok d ∧
    Placed t q d leaves (fun x => Ord.compare (rank (row x).1) (rank q)) ∧
    Meets never (Lands True leaves fun x => Ord.compare (rank (row x).1) (rank q)) ((t.descend q d).run env)

/-- The entries of a tree, in order. -/
def entriesOf (leaves : List PagePin) (row : Place → Bytes × Bytes) : List (Bytes × Bytes) := (places leaves).map row

namespace Keyed

variable {ρ : Type} [LinearOrder ρ] {t : Tree} {env : Env} {rank : Bytes → ρ} {probe : Bytes → Prop} {leaves : List PagePin}
  {row : Place → Bytes × Bytes} {lower upper : Bound}

/-- A point lookup finds the entry under its key, if there is one. -/
theorem find (hk : Keyed t env rank probe leaves row) {q : Bytes} (hq : probe q) : ∃ found, (t.find q).run env = .ok found ∧
    (∀ x, found = some x → x ∈ places leaves ∧ (row x).1 = q) ∧ (found = none → ∀ x ∈ places leaves, (row x).1 ≠ q) := by
  obtain ⟨d, hd, hplaced, hlands⟩ := hk.probes q hq
  have hsearch : Meets never (FirstHit leaves fun x => SearchOp.equal.finds (Ord.compare (rank (row x).1) (rank q)))
      ((t.find q).run env) := hk.chain.search_meets hd hplaced hlands fun _ => trivial
  obtain ⟨found, hrun, hfirst⟩ := meets_never.1 hsearch
  refine ⟨found, hrun, ?_, ?_⟩
  · rintro ⟨pin, i⟩ rfl
    obtain ⟨pre, rest, rfl, -, hi⟩ := hfirst
    have hlt : i < pin.view.entryCount := by simpa using mem_of_find?_eq_some hi
    have hmem : (pin, i) ∈ places (pre ++ pin :: rest) := mem_places.2 ⟨by simp, hlt⟩
    have heq := find?_some hi
    simp only [SearchOp.finds, beq_iff_eq, compare_eq_iff_eq] at heq
    exact ⟨hmem, hk.inj _ _ (hk.keys _ hmem) hq heq⟩
  · rintro rfl x hx rfl
    have := hfirst x hx
    simp [SearchOp.finds] at this

/-- The places a lower bound lets through. -/
def low (rank : Bytes → ρ) (row : Place → Bytes × Bytes) (lower : Bound) (x : Place) : Bool :=
  (startOp lower).elim true fun s => s.1.finds (Ord.compare (rank (row x).1) (rank s.2))

/-- The places behind an upper bound. -/
def high (rank : Bytes → ρ) (row : Place → Bytes × Bytes) (upper : Bound) (x : Place) : Bool :=
  (endOp upper).elim false fun s => s.1.finds (Ord.compare (rank (row x).1) (rank s.2))

theorem target (hk : Keyed t env rank probe leaves row) {q : Bytes} (hq : probe q) {op : SearchOp} (hop : op ≠ .equal) :
    Target t env never leaves op q fun x => op.finds (Ord.compare (rank (row x).1) (rank q)) := by
  obtain ⟨d, hd, hplaced, hlands⟩ := hk.probes q hq
  exact hk.chain.target hd hplaced hlands hop

theorem within (hk : Keyed t env rank probe leaves row) (hl : lower.Of probe) (hu : upper.Of probe) :
    Within t env never leaves lower upper (low rank row lower) (high rank row upper) where
  lower := by
    cases lower with
    | unbounded => rfl
    | included k => exact hk.target (hl k rfl) (by decide)
    | excluded k => exact hk.target (hl k rfl) (by decide)
  upper := by
    cases upper with
    | unbounded => rfl
    | included k => exact hk.target (hu k rfl) (by decide)
    | excluded k => exact hk.target (hu k rfl) (by decide)

/-- What the bounds let through are the entries whose keys are inside them. -/
theorem inBounds_eq (hk : Keyed t env rank probe leaves row) (hl : lower.Of probe) (hu : upper.Of probe) :
    (inBounds leaves (low rank row lower) (high rank row upper)).map row =
      (entriesOf leaves row).filter fun r => t.encoding.inside lower upper r.1 := by
  unfold inBounds entriesOf
  rw [filter_map]
  congr 1
  refine filter_congr fun x hx => ?_
  have hx := hk.keys x hx
  have hlow : low rank row lower x = t.encoding.aboveLower lower (row x).1 := by
    cases lower with
    | unbounded => rfl
    | included k | excluded k =>
      simp only [low, startOp, Option.elim, SearchOp.finds, KeyEncoding.aboveLower, hk.compare _ _ hx (hl k rfl)]
      cases Ord.compare (rank (row x).1) (rank k) <;> rfl
  have hhigh : (!high rank row upper x) = t.encoding.belowUpper upper (row x).1 := by
    cases upper with
    | unbounded => rfl
    | included k | excluded k =>
      simp only [high, endOp, Option.elim, SearchOp.finds, KeyEncoding.belowUpper, hk.compare _ _ hx (hu k rfl)]
      cases Ord.compare (rank (row x).1) (rank k) <;> rfl
  show (low rank row lower x && !high rank row upper x) = t.encoding.inside lower upper (row x).1
  rw [hlow, hhigh]
  rfl

/-- A cursor's rows in the order it goes. -/
def inOrder {α : Type} (order : Order) (rows : List α) : List α := if order = .ascending then rows else rows.reverse

/-- A cursor delivers the entries inside its bounds, in its order, and then ends. -/
theorem drains {envs : Nat → Env} (hk : ∀ n, Keyed t (envs n) rank probe leaves row) {c : Cursor} {order : Order} {empty : Bool}
    (hc : c = { tree := t, order, range := { lower, upper, empty }, pageStepsLeft := t.store.pageCount + 1 })
    (hl : lower.Of probe) (hu : upper.Of probe) :
    c.Drains envs (inOrder order ((entriesOf leaves row).filter fun r => t.encoding.inside lower upper r.1)) none := by
  have hwithin := fun n => (hk n).within hl hu
  have hdrains : c.DrainsTo envs never ((inOrder order (inBounds leaves (low rank row lower) (high rank row upper))).map row) := by
    subst hc
    refine drains_of_over rfl rfl rfl (fun n => ⟨rfl, (hk n).chain, hwithin n⟩) (fun n => (hk n).unrefused)
      (fun n => (hk n).rows) fun start hstart => ?_
    cases order with
    | ascending => exact emits_ascending (hk 0).full (hwithin 0) hstart
    | descending => exact emits_descending (hk 0).full (hwithin 0) hstart
  obtain ⟨got, out, hdrain, hgot, hout⟩ := hdrains
  cases out with
  | some e => exact (hout e rfl).elim
  | none =>
    rw [hgot rfl] at hdrain
    have heq := (hk 0).inBounds_eq hl hu
    cases order with
    | ascending =>
      rw [inOrder, if_pos rfl] at hdrain ⊢
      rwa [← heq]
    | descending =>
      rw [inOrder, if_neg (by decide)] at hdrain ⊢
      rwa [← heq, ← map_reverse]

/-- Bounds of these keys that do not cross pass the order check. -/
theorem checkOrder_eq_ok (hk : Keyed t env rank probe leaves row) (hl : lower.Of probe) (hu : upper.Of probe) :
    checkOrder t.encoding lower upper = .ok () ↔ ∀ lo ∈ lower.key, ∀ hi ∈ upper.key, rank lo ≤ rank hi := by
  unfold checkOrder
  cases hlo : lower.key with
  | none => simp
  | some lo =>
    cases hhi : upper.key with
    | none => simp
    | some hi =>
      simp only [hk.compare lo hi (hl lo hlo) (hu hi hhi), ok_bind, Option.mem_some_iff, forall_eq', compare_gt_iff_gt]
      by_cases hgt : rank hi < rank lo
      · simp [hgt]
      · simp [hgt, not_lt.1 hgt]

/-- A count is the number of entries inside the bounds. -/
theorem countRange (hk : Keyed t env rank probe leaves row) (hl : lower.Of probe) (hu : upper.Of probe)
    (hv : validateBounds t.encoding lower upper = .ok ()) (ho : checkOrder t.encoding lower upper = .ok ()) :
    (DryDb.countRange t lower upper).run env =
      .ok ((entriesOf leaves row).filter fun r => t.encoding.inside lower upper r.1).length := by
  have hwithin := hk.within hl hu
  obtain ⟨n, hrun, rfl⟩ := meets_never.1 (countRange_meets hk.chain hwithin hv ho
    fun start hstart => emits_ascending hk.full hwithin hstart)
  rw [hrun, ← hk.inBounds_eq hl hu, length_map]

end Keyed

/-! ## Lookups through a table -/

/-- The range of a resolved value is inside its page. -/
theorem intoGuard_of_resolve {env : Env} {pin page : PagePin} {i start stop : Nat} {entry : LeafEntry}
    (he : pin.view.leafEntry i = .ok entry) (hr : (resolveValue pin entry).run env = .ok (page, start, stop)) :
    page.intoGuard start stop = .ok ⟨page, start, stop⟩ := by
  have hin : start ≤ stop ∧ stop ≤ page.bytes.length := by
    cases hv : entry.value with
    | inline offset len =>
      simp only [resolveValue, hv, run_pure, Except.ok.injEq, Prod.mk.injEq] at hr
      obtain ⟨rfl, rfl, rfl⟩ := hr
      have hinside := (Words.inline_inside he hv).2
      rw [bytes_of_parse pin.parsed] at hinside
      exact ⟨Nat.le_add_right _ _, hinside⟩
    | overflow o =>
      simp only [resolveValue, hv, Read.blob, run_bind] at hr
      obtain ⟨p, -, hp⟩ := bind_eq_ok.1 hr
      simp only [run_liftM, blobFromPin, guard_eq_ok, Except.ok.injEq, Prod.mk.injEq] at hp
      obtain ⟨-, rfl, rfl, rfl⟩ := hp
      have hlen := (bounded_of_parse p.parsed).prefix_le
      rw [bytes_of_parse p.parsed] at hlen
      exact ⟨hlen, Nat.le_refl _⟩
  unfold PagePin.intoGuard PagePin.len
  rw [if_neg (by omega)]

namespace Keyed

variable {ρ : Type} [LinearOrder ρ] {env : Env} {rank : Bytes → ρ} {probe : Bytes → Prop} {leaves : List PagePin}
  {row : Place → Bytes × Bytes} {table : Table}

/-- The entries of a tree have one value for each key. -/
theorem unique {t : Tree} (hk : Keyed t env rank probe leaves row) {r r' : Bytes × Bytes} (hr : r ∈ entriesOf leaves row)
    (hr' : r' ∈ entriesOf leaves row) (heq : r.1 = r'.1) : r = r' := by
  have hasc : (entriesOf leaves row).Pairwise fun a b => rank a.1 < rank b.1 := pairwise_map.2 hk.ascending
  have hnodup : ((entriesOf leaves row).map Prod.fst).Nodup :=
    pairwise_map.2 (hasc.imp fun hlt he => hlt.ne (congrArg rank he))
  exact inj_on_of_nodup_map hnodup hr hr' heq

/-- `get` returns the value stored under the key, and nothing for a key that is not there. -/
theorem get (hk : Keyed table.primary env rank probe leaves row) {q : Bytes} (hq : probe q)
    (hv : table.primary.encoding.validateKey q = .ok ()) : ∃ found, (table.get q).run env = .ok found ∧
      found.map ValueGuard.asBytes = ((entriesOf leaves row).find? fun r => r.1 = q).map Prod.snd := by
  obtain ⟨found, hfind, hsome, hnone⟩ := hk.find hq
  unfold Table.get
  simp only [run_bind, run_liftM, hv, ok_bind, hfind]
  cases found with
  | none =>
    refine ⟨none, rfl, ?_⟩
    have hmiss : (entriesOf leaves row).find? (fun r => r.1 = q) = none := by
      simp only [find?_eq_none, entriesOf, mem_map]
      rintro _ ⟨x, hx, rfl⟩
      simpa using hnone rfl x hx
    rw [hmiss]
    rfl
  | some x =>
    obtain ⟨hx, hkey⟩ := hsome x rfl
    obtain ⟨entry, hentry, -, guard, hguard, hbytes⟩ := (hk.rows x hx).entry
    simp only [run_bind, run_liftM, hentry, ok_bind, hguard, intoGuard_of_resolve hentry hguard, run_pure]
    refine ⟨some guard, rfl, ?_⟩
    have hmem : row x ∈ entriesOf leaves row := mem_map_of_mem hx
    obtain ⟨r, hr⟩ : ∃ r, (entriesOf leaves row).find? (fun r => r.1 = q) = some r := by
      rw [← Option.isSome_iff_exists, find?_isSome]
      exact ⟨row x, hmem, by simpa using hkey⟩
    have hrq : r.1 = q := by simpa using find?_some hr
    have : r = row x := hk.unique (mem_of_find?_eq_some hr) hmem (hrq.trans hkey.symm)
    rw [hr, Option.map_some, Option.map_some, hbytes, this]

end Keyed

end DryDb
