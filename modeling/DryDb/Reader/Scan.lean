import DryDb.Reader.Window
/-!
# Cursors over a chain

A cursor on a chain of leaves emits exactly what its `Scan` says: `Cursor.At` is the
state between two steps, `step_meets` what one step does to it, and `Cursor.Pending`
the rows a cursor still owes. Everything holds up to the failures `fault` allows.
-/

namespace DryDb

open List

/-- The scan of a cursor with these bounds. A descending one takes a leaf without entries
to lie below its lower bound. -/
def scanOf (order : Order) (lower : Bound) (low high : Place → Bool) : Scan :=
  match order with
  | .ascending => { order, stop := high, emptyEnds := false }
  | .descending => { order, stop := fun x => !low x, emptyEnds := (startOp lower).isSome }

@[simp] theorem scanOf_order (order : Order) (lower : Bound) (low high : Place → Bool) :
    (scanOf order lower low high).order = order := by
  cases order <;> rfl

theorem pairwise_of_mem {leaves : List PagePin} {R : Place → Place → Prop} (h : (places leaves).Pairwise R)
    {pin : PagePin} (hp : pin ∈ leaves) {i j : Nat} (hij : i < j) (hj : j < pin.view.entryCount) : R (pin, i) (pin, j) := by
  have hleaf : (List.range pin.view.entryCount).Pairwise fun i j => R (pin, i) (pin, j) :=
    pairwise_map.1 ((pairwise_flatMap.1 h).1 pin hp)
  have hlen : (List.range pin.view.entryCount).length = pin.view.entryCount := length_range
  have hij := pairwise_iff_getElem.1 hleaf i j (by omega) (by omega) hij
  rwa [getElem_range, getElem_range] at hij

section

variable {t : Tree} {env : Env} {fault : Error → Prop} {leaves : List PagePin} {lower upper : Bound}
  {low high : Place → Bool} {order : Order} {pin : PagePin}

theorem Within.mono (hw : Within t env fault leaves lower upper low high) (order : Order)
    (hp : pin ∈ leaves) : (scanOf order lower low high).Mono pin := by
  cases order with
  | ascending =>
    intro i j hij hj hs
    have hu := hw.upper
    cases ho : endOp upper with
    | none =>
      rw [ho] at hu
      simp only [scanOf, Reaches] at hs hu
      simp [hu] at hs
    | some target =>
      rw [ho] at hu
      exact pairwise_of_mem hu.mono hp hij hj hs
  | descending =>
    have hl := hw.lower
    constructor
    · intro i j hij hj hs
      cases ho : startOp lower with
      | none =>
        rw [ho] at hl
        simp only [scanOf, Reaches] at hs hl
        simp [hl] at hs
      | some target =>
        rw [ho] at hl
        have := pairwise_of_mem hl.mono hp hij hj
        simp only [scanOf, Bool.not_eq_true'] at hs ⊢
        by_contra hc
        simp only [Bool.not_eq_false] at hc
        rw [this hc] at hs
        cases hs
    · intro he i
      cases ho : startOp lower with
      | none =>
        rw [ho] at hl
        simp only [Reaches] at hl
        simp [scanOf, hl]
      | some target => simp [scanOf, ho] at he

/-- The window a cursor computes on a leaf of the chain. -/
theorem Within.window_eq (hw : Within t env fault leaves lower upper low high) {c : Cursor} (ht : c.tree = t)
    (hl : c.range.lower = lower) (hu : c.range.upper = upper) (hp : pin ∈ leaves) :
    c.window pin.view = .ok ((scanOf c.order lower low high).window pin) := by
  subst ht hl hu
  unfold Cursor.window Scan.window
  cases ho : c.order with
  | ascending =>
    have hu := hw.upper
    simp only [scanOf, Cursor.ascendingWindow, Cursor.leafSearch]
    cases hb : c.range.upper with
    | unbounded =>
      rw [hb] at hu
      simp only [endOp, Reaches] at hu
      have : (List.range pin.view.entryCount).find? (fun i => high (pin, i)) = none := by
        rw [find?_eq_none]
        simp [hu]
      simp [this]
    | included k =>
      rw [hb] at hu
      obtain ⟨d, hd, hs⟩ := hu.leaf
      simp only [hd, ok_bind, hs pin hp]
      cases (List.range pin.view.entryCount).find? fun i => high (pin, i) <;> rfl
    | excluded k =>
      rw [hb] at hu
      obtain ⟨d, hd, hs⟩ := hu.leaf
      simp only [hd, ok_bind, hs pin hp]
      cases (List.range pin.view.entryCount).find? fun i => high (pin, i) <;> rfl
  | descending =>
    have hl := hw.lower
    simp only [scanOf, Cursor.descendingWindow, Cursor.leafSearch, Bool.not_not]
    cases hb : c.range.lower with
    | unbounded => rfl
    | included k =>
      rw [hb] at hl
      obtain ⟨d, hd, hs⟩ := hl.leaf
      simp only [hd, ok_bind, hs pin hp, startOp, Option.isSome_some, if_true]
      cases (List.range pin.view.entryCount).find? fun i => low (pin, i) <;> rfl
    | excluded k =>
      rw [hb] at hl
      obtain ⟨d, hd, hs⟩ := hl.leaf
      simp only [hd, ok_bind, hs pin hp, startOp, Option.isSome_some, if_true]
      cases (List.range pin.view.entryCount).find? fun i => low (pin, i) <;> rfl

end

/-! ## The state between two steps -/

/-- A cursor on the leaf `pin` of the chain, with the leaves `rest` before it. -/
structure Cursor.At (c : Cursor) (s : Scan) (leaves : List PagePin) (pin : PagePin) (rest : List PagePin) : Prop where
  page : c.page = some pin
  order : c.order = s.order
  before : s.Before leaves pin rest
  limit : c.leafLimit = (s.window pin).1
  ends : c.leafEndsScan = s.endsOn pin
  steps : rest.length < c.pageStepsLeft
  inside : c.index < pin.view.entryCount ∨ pin.view.entryCount = 0

/-- The fields of a cursor no step changes. -/
structure Cursor.Same (c c' : Cursor) : Prop where
  tree : c'.tree = c.tree
  order : c'.order = c.order
  range : c'.range = c.range
  started : c'.started = c.started
  finished : c'.finished = c.finished

theorem Cursor.Same.trans {a b c : Cursor} (h : a.Same b) (h' : b.Same c) : a.Same c :=
  ⟨h'.tree.trans h.tree, h'.order.trans h.order, h'.range.trans h.range, h'.started.trans h.started,
    h'.finished.trans h.finished⟩

/-- Where a move ends when `rows` are still owed: on the first of them, or at the end. -/
def Cursor.Reached (c : Cursor) (s : Scan) (leaves : List PagePin) (rows : List Place) (moved : Bool × Cursor) : Prop :=
  c.Same moved.2 ∧
  match rows with
  | [] => moved.1 = false
  | x :: xs => moved.1 = true ∧ ∃ pin rest, moved.2.At s leaves pin rest ∧ x = (pin, moved.2.index) ∧
      moved.2.index < pin.view.entryCount ∧ s.rowsFrom pin moved.2.index rest = x :: xs

section Steps

variable {t : Tree} {env : Env} {fault : Error → Prop} {leaves : List PagePin} {lower upper : Bound}
  {low high : Place → Bool} {c : Cursor} {pin : PagePin} {rest : List PagePin} {s : Scan}

/-- The bounds and the chain of a cursor. -/
structure Cursor.Over (c : Cursor) (t : Tree) (env : Env) (fault : Error → Prop) (leaves : List PagePin)
    (low high : Place → Bool) : Prop where
  tree : c.tree = t
  chain : Chain t env fault leaves
  within : Within t env fault leaves c.range.lower c.range.upper low high

/-- The scan of this cursor. -/
def Cursor.scan (c : Cursor) (low high : Place → Bool) : Scan := scanOf c.order c.range.lower low high

theorem Cursor.Same.over {c' : Cursor} (h : c.Same c') (ho : c.Over t env fault leaves low high) :
    c'.Over t env fault leaves low high :=
  ⟨h.tree.trans ho.tree, ho.chain, h.range ▸ ho.within⟩

theorem Cursor.Same.scan {c' : Cursor} (h : c.Same c') : c'.scan low high = c.scan low high := by
  unfold Cursor.scan
  rw [h.order, h.range]

theorem Cursor.Over.mono (ho : c.Over t env fault leaves low high) (hp : pin ∈ leaves) : (c.scan low high).Mono pin :=
  ho.within.mono c.order hp

theorem Cursor.Over.endsOn (ho : c.Over t env fault leaves low high) (hp : pin ∈ leaves) :
    ((c.scan low high).window pin).2 = (c.scan low high).endsOn pin := by
  refine Scan.window_ends (ho.mono hp) fun h => ?_
  unfold Cursor.scan at h ⊢
  rw [scanOf_order] at h
  rw [h]
  rfl

/-- Computing the window on a leaf of the chain puts the cursor on it. -/
theorem Cursor.Over.recompute (ho : c.Over t env fault leaves low high) (hpage : c.page = some pin)
    (hb : (c.scan low high).Before leaves pin rest) (hsteps : rest.length < c.pageStepsLeft)
    (hin : c.index < pin.view.entryCount ∨ pin.view.entryCount = 0) :
    ∃ c', c.recomputeLeafBounds = .ok c' ∧ c.Same c' ∧ c'.index = c.index ∧ c'.pageStepsLeft = c.pageStepsLeft ∧
      c'.At (c.scan low high) leaves pin rest := by
  have hp := Scan.mem_before hb
  have hwin := ho.within.window_eq ho.tree rfl rfl hp
  refine ⟨{ c with
      leafLimit := ((c.scan low high).window pin).1
      leafEndsScan := ((c.scan low high).window pin).2 }, ?_, ⟨rfl, rfl, rfl, rfl, rfl⟩, rfl, rfl,
    hpage, (scanOf_order ..).symm, hb, rfl, ho.endsOn hp, hsteps, hin⟩
  unfold Cursor.recomputeLeafBounds
  simp only [hpage, hwin, ok_bind]
  rfl

/-- The window test asks whether the entry at the index is still before the far bound. -/
theorem Cursor.At.inWindow_iff (h : c.At s leaves pin rest) (hm : s.Mono pin) :
    c.inWindow pin = true ↔ c.index < pin.view.entryCount ∧ s.stop (pin, c.index) = false := by
  have hin := h.inside
  unfold Cursor.inWindow
  rw [h.order, h.limit]
  cases ho : s.order with
  | ascending =>
    simp only [decide_eq_true_eq]
    constructor
    · intro hlt
      have hc : c.index < pin.view.entryCount := by omega
      exact ⟨hc, (Scan.lt_limit_ascending ho hm hc).1 (by omega)⟩
    · rintro ⟨hc, hs⟩
      have := (Scan.lt_limit_ascending ho hm hc).2 hs
      omega
  | descending =>
    simp only [decide_eq_true_eq]
    constructor
    · rintro ⟨-, hle, hc⟩
      exact ⟨hc, (Scan.limit_le_descending ho hm hc).1 hle⟩
    · rintro ⟨hc, hs⟩
      exact ⟨by omega, (Scan.limit_le_descending ho hm hc).2 hs, hc⟩

/-- One move to the next leaf. -/
theorem run_nextPage (c : Cursor) (env : Env) (steps : Nat) (pin : PagePin) (hp : c.page = some pin)
    (hs : c.pageStepsLeft = steps + 1) (he : c.leafEndsScan = false) :
    c.nextPage.run env = (do
      match ← (c.tree.toSibling (c.order == .ascending) pin).run env with
      | none => .ok (false, { c with pageStepsLeft := steps })
      | some next => do
        let moved ← Cursor.recomputeLeafBounds
          { c with
            page := some next
            index := if c.order == .ascending then 0 else next.view.entryCount - 1
            pageStepsLeft := steps }
        .ok (true, moved)) := by
  unfold Cursor.nextPage Tree.toSibling
  rw [if_neg (by simp [he]), hs]
  simp only [hp]
  cases (if c.order == .ascending then pin.view.rightSibling else pin.view.leftSibling) with
  | none =>
    simp only [Program.run_bind]
    cases (c.tree.endsAt pin.ordinal (c.order == .ascending)).run env with
    | error e => rfl
    | ok ends => cases ends <;> rfl
  | some sibling =>
    simp only [Program.run_bind]
    cases (c.tree.stepSibling pin.ordinal sibling (c.order == .ascending)).run env with
    | error e => rfl
    | ok next => simp

theorem Cursor.Over.toSibling (ho : c.Over t env fault leaves low high)
    (hb : (c.scan low high).Before leaves pin rest) :
    Meets fault (· = rest.head?) ((c.tree.toSibling (c.order == .ascending) pin).run env) := by
  obtain ⟨passed, hl⟩ := hb
  rw [ho.tree]
  simp only [Cursor.scan, scanOf_order] at hl
  cases hc : c.order with
  | ascending =>
    rw [hc] at hl
    exact ho.chain.right passed pin rest hl
  | descending =>
    rw [hc] at hl
    have := ho.chain.left rest.reverse pin passed hl
    rwa [getLast?_reverse] at this

/-- A move off a leaf: to the next leaf of the chain, unless the scan ends here. -/
theorem Cursor.At.nextPage_meets (h : c.At (c.scan low high) leaves pin rest) (ho : c.Over t env fault leaves low high) :
    Meets fault (fun moved => c.Same moved.2 ∧
      if (c.scan low high).endsOn pin then moved.1 = false
      else match rest with
        | [] => moved.1 = false
        | next :: rest => moved.1 = true ∧ moved.2.At (c.scan low high) leaves next rest ∧
            (c.scan low high).ahead next moved.2.index = (c.scan low high).entries next ∧
            moved.2.pageStepsLeft + 1 = c.pageStepsLeft) (c.nextPage.run env) := by
  cases hends : (c.scan low high).endsOn pin with
  | true =>
    have he : c.leafEndsScan = true := h.ends.trans hends
    unfold Cursor.nextPage
    rw [if_pos he]
    exact ⟨⟨rfl, rfl, rfl, rfl, rfl⟩, rfl⟩
  | false =>
    have he : c.leafEndsScan = false := h.ends.trans hends
    obtain ⟨steps, hsteps⟩ : ∃ m, c.pageStepsLeft = m + 1 := ⟨c.pageStepsLeft - 1, by have := h.steps; omega⟩
    rw [run_nextPage c env steps pin h.page hsteps he]
    refine Meets.bind (ho.toSibling h.before) fun moved _ hmoved => ?_
    subst hmoved
    cases rest with
    | nil => exact ⟨⟨rfl, rfl, rfl, rfl, rfl⟩, rfl⟩
    | cons next rest =>
      simp only [head?_cons]
      have hlt := h.steps
      rw [length_cons] at hlt
      -- The cursor as it stands on the next leaf, before the window is computed.
      have hover : Cursor.Over
          { c with
            page := some next
            index := if c.order == .ascending then 0 else next.view.entryCount - 1
            pageStepsLeft := steps } t env fault leaves low high := ⟨ho.tree, ho.chain, ho.within⟩
      have hin : (if c.order == .ascending then 0 else next.view.entryCount - 1) < next.view.entryCount ∨
          next.view.entryCount = 0 := by
        split <;> omega
      obtain ⟨c', hc', hsame, hindex, hleft, hat⟩ := hover.recompute rfl h.before.next
        (show rest.length < steps by omega) hin
      rw [hc', ok_bind]
      refine ⟨⟨hsame.tree, hsame.order, hsame.range, hsame.started, hsame.finished⟩, rfl, hat, ?_, ?_⟩
      · simp only at hindex
        rw [hindex]
        have : (c.scan low high).ahead next _ = _ := Scan.ahead_enter
        rwa [show (c.scan low high).order = c.order from scanOf_order ..] at this
      · simp only at hleft
        rw [hleft, hsteps]

theorem Scan.rowsFrom_of_stop {index : Nat} (hi : index < pin.view.entryCount)
    (hs : s.stop (pin, index) = true) : s.rowsFrom pin index rest = [] := by
  obtain ⟨more, hmore⟩ := Scan.exists_ahead (s := s) hi
  have hends : s.endsOn pin = true := by
    unfold Scan.endsOn
    rw [any_eq_true.2 ⟨_, Scan.stop_mem_entries.2 (PagePin.mem_places.2 ⟨rfl, hi⟩), hs⟩]
    rfl
  unfold Scan.rowsFrom
  rw [hmore, hends, takeWhile_cons_of_neg (by simp [hs])]
  rfl

/-- Leaving a leaf when nothing more is owed on it: what `k` does on the next leaf is what
the rest of the scan needs. -/
theorem Cursor.At.leave_meets (h : c.At (c.scan low high) leaves pin rest) (ho : c.Over t env fault leaves low high)
    {k : Cursor → Read (Bool × Cursor)}
    (hk : ∀ c' next rest', rest = next :: rest' → c'.Over t env fault leaves low high →
      c'.At (c'.scan low high) leaves next rest' → Meets fault
        (c'.Reached (c'.scan low high) leaves ((c'.scan low high).rowsFrom next c'.index rest')) ((k c').run env)) :
    Meets fault
      (c.Reached (c.scan low high) leaves (if (c.scan low high).endsOn pin then [] else (c.scan low high).rows rest))
      (c.nextPage.run env >>= fun moved => (if !moved.1 then pure (false, moved.2) else k moved.2).run env) := by
  refine Meets.bind (h.nextPage_meets ho) fun moved _ hmoved => ?_
  obtain ⟨hsame, hmoved⟩ := hmoved
  obtain ⟨more, c'⟩ := moved
  cases hends : (c.scan low high).endsOn pin with
  | true =>
    rw [hends, if_pos rfl] at hmoved
    simp only at hmoved
    subst hmoved
    exact ⟨hsame, rfl⟩
  | false =>
    rw [hends, if_neg (by simp)] at hmoved
    rw [if_neg (by simp)]
    cases rest with
    | nil =>
      simp only at hmoved
      subst hmoved
      exact ⟨hsame, rfl⟩
    | cons next rest =>
      obtain ⟨hmore, hat, hahead, -⟩ := hmoved
      simp only at hmore hat hahead
      subst hmore
      have hscan : c'.scan low high = c.scan low high := hsame.scan
      rw [← hscan] at hat
      refine (hk c' next rest rfl (hsame.over ho) hat).mono fun moved hmoved => ?_
      rw [hsame.scan] at hmoved
      have hrows : (c.scan low high).rowsFrom next c'.index rest = (c.scan low high).rows (next :: rest) := by
        unfold Scan.rowsFrom
        rw [hahead]
        rfl
      rw [hrows] at hmoved
      exact ⟨hsame.trans hmoved.1, hmoved.2⟩

/-- Walking on to the window ends on the first row still owed. -/
theorem Cursor.At.skip_meets {steps : Nat} (h : c.At (c.scan low high) leaves pin rest)
    (ho : c.Over t env fault leaves low high) (hsteps : rest.length < steps) :
    Meets fault (c.Reached (c.scan low high) leaves ((c.scan low high).rowsFrom pin c.index rest))
      ((Cursor.skipToValid steps c).run env) := by
  induction steps generalizing c pin rest with
  | zero => exact absurd hsteps (Nat.not_lt_zero _)
  | succ steps ih =>
    have hp := Scan.mem_before h.before
    have hwin := h.inWindow_iff (ho.mono hp)
    unfold Cursor.skipToValid
    simp only [h.page]
    by_cases hw : c.inWindow pin = true
    · -- The cursor already stands on the next row.
      obtain ⟨hi, hs⟩ := hwin.1 hw
      obtain ⟨more, hmore⟩ := Scan.exists_ahead (s := c.scan low high) hi
      have hrows : ∃ xs, (c.scan low high).rowsFrom pin c.index rest = (pin, c.index) :: xs := by
        unfold Scan.rowsFrom
        rw [hmore, takeWhile_cons_of_pos (by simp [hs])]
        exact ⟨_, rfl⟩
      obtain ⟨xs, hxs⟩ := hrows
      rw [if_pos hw, hxs]
      exact ⟨⟨rfl, rfl, rfl, rfl, rfl⟩, rfl, pin, rest, h, rfl, hi, hxs⟩
    · -- Nothing is left on this leaf, so the rows are those of the leaves to come.
      have hrows : (c.scan low high).rowsFrom pin c.index rest =
          if (c.scan low high).endsOn pin then [] else (c.scan low high).rows rest := by
        by_cases hi : c.index < pin.view.entryCount
        · have hs : (c.scan low high).stop (pin, c.index) = true := by
            by_contra hns
            exact hw (hwin.2 ⟨hi, by simpa using hns⟩)
          have hends : (c.scan low high).endsOn pin = true := by
            unfold Scan.endsOn
            rw [any_eq_true.2 ⟨_, Scan.stop_mem_entries.2 (PagePin.mem_places.2 ⟨rfl, hi⟩), hs⟩]
            rfl
          rw [Scan.rowsFrom_of_stop hi hs, if_pos hends]
        · have hz := h.inside.resolve_left hi
          unfold Scan.rowsFrom
          rw [Scan.ahead_empty hz]
          rfl
      rw [if_neg hw, hrows]
      simp only [Program.run_bind]
      refine h.leave_meets ho fun c' next rest' hrest hover hat => ?_
      subst hrest
      rw [length_cons] at hsteps
      exact ih hat hover (by omega)

/-- The move inside a leaf goes to the next entry, when that is still before the far bound. -/
theorem Cursor.At.stepInside_eq (h : c.At s leaves pin rest) (hm : s.Mono pin)
    (hi : c.index < pin.view.entryCount) (hs : s.stop (pin, c.index) = false) :
    (∃ c', c.stepInside = some c' ∧ c.Same c' ∧ c'.At s leaves pin rest ∧ c'.index < pin.view.entryCount ∧
        s.stop (pin, c'.index) = false ∧ s.ahead pin c.index = (pin, c.index) :: s.ahead pin c'.index) ∨
      (c.stepInside = none ∧ (s.ahead pin c.index).tail.takeWhile (fun x => !s.stop x) = []) := by
  have hlimit := h.limit
  cases ho : s.order with
  | ascending =>
    have hstep : c.stepInside = if c.index + 1 < c.leafLimit then some { c with index := c.index + 1 } else none := by
      have := h.order.trans ho
      unfold Cursor.stepInside
      split <;> simp_all
    rw [hstep, hlimit]
    have htail := Scan.ahead_ascending ho hi
    by_cases hlt : c.index + 1 < (s.window pin).1
    · left
      have hc : c.index + 1 < pin.view.entryCount := by
        by_contra hge
        have := (Scan.lt_limit_ascending ho hm hi).2 hs
        have hle : (s.window pin).1 ≤ pin.view.entryCount := by
          simp only [Scan.window, ho]
          cases hf : (List.range pin.view.entryCount).find? fun i => s.stop (pin, i) with
          | none => exact le_rfl
          | some i => exact (find?_range_lt hf).le
        omega
      have hs' := (Scan.lt_limit_ascending ho hm hc).1 hlt
      rw [if_pos hlt]
      exact ⟨_, rfl, ⟨rfl, rfl, rfl, rfl, rfl⟩,
        ⟨h.page, h.order, h.before, rfl, h.ends, h.steps, Or.inl hc⟩, hc, hs', htail⟩
    · right
      refine ⟨if_neg hlt, ?_⟩
      rw [htail, tail_cons]
      by_cases hc : c.index + 1 < pin.view.entryCount
      · have hstop : s.stop (pin, c.index + 1) = true := by
          by_contra hns
          exact hlt ((Scan.lt_limit_ascending ho hm hc).2 (by simpa using hns))
        rw [Scan.ahead_ascending ho hc, takeWhile_cons_of_neg (by simp [hstop])]
      · simp only [Scan.ahead, ho]
        rw [drop_of_length_le (by rw [PagePin.length_places]; omega)]
        rfl
  | descending =>
    have hstep : c.stepInside = if c.leafLimit < c.index then some { c with index := c.index - 1 } else none := by
      have := h.order.trans ho
      unfold Cursor.stepInside
      split <;> simp_all
    rw [hstep, hlimit]
    have htail := Scan.ahead_descending ho hi
    have hle := (Scan.limit_le_descending ho hm hi).2 hs
    by_cases hlt : (s.window pin).1 < c.index
    · left
      have hc : c.index - 1 < pin.view.entryCount := by omega
      have hs' := (Scan.limit_le_descending ho hm hc).1 (by omega)
      rw [if_pos hlt]
      refine ⟨_, rfl, ⟨rfl, rfl, rfl, rfl, rfl⟩,
        ⟨h.page, h.order, h.before, rfl, h.ends, h.steps, Or.inl hc⟩, hc, hs', ?_⟩
      rw [htail]
      simp only [Scan.ahead, ho]
      rw [Nat.sub_add_cancel (by omega)]
    · right
      refine ⟨if_neg hlt, ?_⟩
      rw [htail, tail_cons]
      rcases Nat.eq_zero_or_pos c.index with h0 | hpos
      · simp [h0]
      · have hc : c.index - 1 < pin.view.entryCount := by omega
        have hstop : s.stop (pin, c.index - 1) = true := by
          by_contra hns
          have := (Scan.limit_le_descending ho hm hc).2 (by simpa using hns)
          omega
        obtain ⟨more, hmore⟩ := Scan.exists_ahead (s := s) hc
        simp only [Scan.ahead, ho, Nat.sub_add_cancel (show 1 ≤ c.index by omega)] at hmore
        rw [hmore, takeWhile_cons_of_neg (by simp [hstop])]

/-- A step ends on the row after the current one. -/
theorem Cursor.At.step_meets (h : c.At (c.scan low high) leaves pin rest) (ho : c.Over t env fault leaves low high)
    (hi : c.index < pin.view.entryCount) {xs : List Place}
    (hrows : (c.scan low high).rowsFrom pin c.index rest = (pin, c.index) :: xs) :
    Meets fault (c.Reached (c.scan low high) leaves xs) (c.step.run env) := by
  have hp := Scan.mem_before h.before
  have hm := ho.mono hp
  have hs : (c.scan low high).stop (pin, c.index) = false := by
    by_contra hstop
    rw [Scan.rowsFrom_of_stop hi (by simpa using hstop)] at hrows
    cases hrows
  unfold Cursor.step
  rcases h.stepInside_eq hm hi hs with ⟨c', hc', hsame, hat, hi', hs', hahead⟩ | ⟨hnone, hdone⟩
  · rw [hc']
    have hxs : (c.scan low high).rowsFrom pin c'.index rest = xs := by
      unfold Scan.rowsFrom at hrows ⊢
      rw [hahead, takeWhile_cons_of_pos (by simp [hs]), cons_append, List.cons.injEq] at hrows
      exact hrows.2
    obtain ⟨more, hmore⟩ := Scan.exists_ahead (s := c.scan low high) hi'
    have hcons : ∃ ys, xs = (pin, c'.index) :: ys := by
      rw [← hxs]
      unfold Scan.rowsFrom
      rw [hmore, takeWhile_cons_of_pos (by simp [hs'])]
      exact ⟨_, rfl⟩
    obtain ⟨ys, rfl⟩ := hcons
    exact ⟨hsame, rfl, pin, rest, hat, rfl, hi', hxs⟩
  · rw [hnone]
    obtain ⟨more, hmore⟩ := Scan.exists_ahead (s := c.scan low high) hi
    have hxs : xs = if (c.scan low high).endsOn pin then [] else (c.scan low high).rows rest := by
      unfold Scan.rowsFrom at hrows
      rw [hmore, tail_cons] at hdone
      rw [hmore, takeWhile_cons_of_pos (by simp [hs]), hdone, cons_append, List.cons.injEq] at hrows
      exact hrows.2.symm
    rw [hxs]
    simp only [Program.run_bind]
    exact h.leave_meets ho fun c' next rest' _ hover hat => hat.skip_meets hover hat.steps

end Steps

end DryDb
