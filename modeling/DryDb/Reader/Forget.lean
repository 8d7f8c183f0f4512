import DryDb.Model.Buffers
/-!
# Forgetting the buffers

The calls of `Model.Buffers` are those of `Model.BTree`, `Model.Query` and `Model.Db` with the
identity of the buffers added. Leaving it out, and with it the two questions that only record what
happens, gives the same programs back (`Forgets`).
-/

namespace DryDb

/-- The program with every buffer reduced to its page. -/
def forget {α : Type} : Walk α → Read α
  | .done a => .done a
  | .fail e => .fail e
  | .ask (.page o) k => .ask (.page o) fun r => forget (k (r.map (⟨0, ·⟩)))
  | .ask (.pageCached o) k => .ask (.pageCached o) fun r => forget (k (r.map (⟨0, ·⟩)))
  | .ask (.retainedRoot tree) k => .ask (.retainedRoot tree) fun r => forget (k (r.map (⟨0, ·⟩)))
  | .ask (.retainRoot tree b) k => .ask (.retainRoot tree b.pin) fun r => forget (k r)
  | .ask (.reserve n) k => .ask (.reserve n) fun r => forget (k r)
  | .ask (.digestsCheckedBy tree b) k => .ask (.digestsCheckedBy tree b.pin) fun r => forget (k r)
  | .ask (.markDigestsChecked tree b) k => .ask (.markDigestsChecked tree b.pin) fun r => forget (k r)
  | .ask (.passed _ _) k => forget (k ())
  | .ask (.uses _ _) k => forget (k ())

/-- `p` without its buffers is `q`, once the result is reduced by `g`. -/
def Forgets {α β : Type} (g : α → β) (p : Walk α) (q : Read β) : Prop := (forget p).bind (fun a => .done (g a)) = q

namespace Forgets

variable {α β γ δ : Type} {g : α → β} {h : γ → δ} {p : Walk α} {q : Read β}

theorem pure {a : α} {b : β} (hab : g a = b) : Forgets g (pure a) (pure b) := by
  subst hab
  rfl

theorem fail (e : Error) : Forgets g (.fail e) (.fail e) := rfl

theorem lift (x : Result α) : Forgets id (liftM x : Walk α) (liftM x : Read α) := by
  cases x <;> rfl

/-- Two sequences of which the second parts agree whatever buffer the first handed them. -/
theorem bind {f : α → Walk γ} {k : β → Read δ} (hp : Forgets g p q) (hf : ∀ a, Forgets h (f a) (k (g a))) :
    Forgets h (p >>= f) (q >>= k) := by
  subst hp
  change (forget (p.bind f)).bind _ = ((forget p).bind _).bind _
  induction p with
  | done a => exact hf a
  | fail e => rfl
  | ask op next ih =>
    cases op with
    | passed tree b => exact ih ()
    | uses tree b => exact ih ()
    | _ =>
      simp only [Program.bind, forget]
      congr 1
      funext r
      exact ih _

theorem uses {tree : Nat} {b : PageBuffer} {f : Unit → Walk α} (hf : Forgets g (f ()) q) :
    Forgets g (Walk.uses tree b >>= f) q := hf

theorem ite {c : Prop} [Decidable c] {p' : Walk α} {q' : Read β} (hp : Forgets g p q) (hp' : Forgets g p' q') :
    Forgets g (if c then p else p') (if c then q else q') := by
  split
  · exact hp
  · exact hp'

theorem attempt (hp : Forgets g p q) : Forgets (Except.map g) p.attempt q.attempt := by
  subst hp
  change (forget p.attempt).bind _ = ((forget p).bind _).attempt
  induction p with
  | done a => rfl
  | fail e => rfl
  | ask op next ih =>
    cases op with
    | passed tree b => exact ih ()
    | uses tree b => exact ih ()
    | _ =>
      simp only [Program.attempt, Program.bind, forget]
      congr 1
      funext r
      exact ih _

end Forgets

/-! ## Trees -/

/-- The entry of a page, without its buffer. -/
def entryOf (x : PageBuffer × Nat) : PagePin × Nat := (x.1.pin, x.2)

section
variable {t : Tree}

theorem forgets_page (o : Nat) : Forgets PageBuffer.pin (Walk.page o) (Read.page o) := by
  unfold Walk.page Read.page
  change Program.ask _ _ = Program.ask _ _
  congr 1
  funext r
  cases r <;> rfl

theorem forgets_pageCached (o : Nat) : Forgets (Option.map PageBuffer.pin) (Walk.pageCached o) (Read.pageCached o) := by
  change Program.ask _ _ = Program.ask _ _
  congr 1
  funext r
  cases r <;> rfl

theorem forgets_retainedRoot (tree : Nat) :
    Forgets (Option.map PageBuffer.pin) (Walk.retainedRoot tree) (Read.retainedRoot tree) := by
  change Program.ask _ _ = Program.ask _ _
  congr 1
  funext r
  cases r <;> rfl

theorem forgets_reserve (n : Nat) : Forgets id (Walk.reserve n) (Read.reserve n) := by
  change Program.ask _ _ = Program.ask _ _
  congr 1
  funext r
  cases r <;> rfl

theorem forgets_checkPage (b : PageBuffer) : Forgets id (Buffered.checkPage t b) (t.checkPage b.pin) := by
  have hmark : Forgets id (Walk.digestsCheckedBy t.id b) (Read.digestsCheckedBy t.id b.pin) := rfl
  apply Forgets.ite (.pure rfl)
  apply hmark.bind
  intro marked
  apply Forgets.ite (.pure rfl)
  apply (Forgets.lift _).bind
  intro _
  rfl

theorem forgets_treePage (o : Nat) : Forgets PageBuffer.pin (Buffered.treePage t o) (t.treePage o) := by
  apply (forgets_page o).bind
  intro b
  apply (forgets_checkPage b).bind
  intro _
  exact .pure rfl

theorem forgets_rootPage : Forgets (Option.map PageBuffer.pin) (Buffered.rootPage t) t.rootPage := by
  unfold Buffered.rootPage Tree.rootPage
  cases t.root with
  | none => exact .pure rfl
  | some root =>
    apply (forgets_retainedRoot t.id).bind
    intro kept
    cases kept with
    | some b => exact .pure rfl
    | none =>
      apply (forgets_treePage root).bind
      intro b
      rfl

theorem forgets_rootPageCached : Forgets (Option.map PageBuffer.pin) (Buffered.rootPageCached t) t.rootPageCached := by
  apply (forgets_retainedRoot t.id).bind
  intro kept
  cases kept with
  | some b => exact .pure rfl
  | none =>
    cases t.root with
    | none => exact .pure rfl
    | some root =>
      apply (forgets_pageCached root).bind
      intro cached
      cases cached with
      | none => exact .pure rfl
      | some b =>
        apply (forgets_checkPage b).bind
        intro _
        exact .pure rfl

theorem forgets_currentPage (o : Nat) (current : Option PageBuffer) :
    Forgets PageBuffer.pin (Buffered.currentPage t o current) (t.currentPage o (current.map PageBuffer.pin)) := by
  cases current with
  | some b => exact .pure rfl
  | none => exact forgets_treePage o

theorem forgets_descendFrom (key : Bytes) (keyDigest : UInt64) (depth o : Nat) (current : Option PageBuffer)
    (conservative : Bool) :
    Forgets (fun x => (x.1.pin, x.2)) (Buffered.descendFrom t key keyDigest depth o current conservative)
      (t.descendFrom key keyDigest depth o (current.map PageBuffer.pin) conservative) := by
  induction depth generalizing o current conservative with
  | zero => exact .fail _
  | succ depth ih =>
    unfold Buffered.descendFrom Tree.descendFrom
    apply (forgets_currentPage o current).bind
    intro b
    cases b.pin.view.kind with
    | leaf => exact .pure rfl
    | internal =>
      apply Forgets.uses
      apply (Forgets.lift _).bind
      intro chosen
      exact ih _ none _

theorem forgets_descend (key : Bytes) (keyDigest : UInt64) :
    Forgets (Option.map fun x => (x.1.pin, x.2)) (Buffered.descend t key keyDigest) (t.descend key keyDigest) := by
  apply forgets_rootPage.bind
  intro root
  cases root with
  | none => exact .pure rfl
  | some root =>
    apply (forgets_descendFrom key keyDigest _ _ (some root) false).bind
    intro found
    exact .pure rfl

theorem forgets_edgeLeafFrom (leftmost : Bool) (depth o : Nat) (current : Option PageBuffer) :
    Forgets (Option.map entryOf) (Buffered.edgeLeafFrom t leftmost depth o current)
      (t.edgeLeafFrom leftmost depth o (current.map PageBuffer.pin)) := by
  induction depth generalizing o current with
  | zero => exact .fail _
  | succ depth ih =>
    unfold Buffered.edgeLeafFrom Tree.edgeLeafFrom
    apply (forgets_currentPage o current).bind
    intro b
    cases b.pin.view.kind with
    | leaf => exact .ite (.pure rfl) (.pure rfl)
    | internal =>
      apply Forgets.uses
      apply (Forgets.lift _).bind
      intro child
      exact ih _ none

theorem forgets_edgeLeaf (leftmost : Bool) :
    Forgets (Option.map entryOf) (Buffered.edgeLeaf t leftmost) (t.edgeLeaf leftmost) := by
  apply forgets_rootPage.bind
  intro root
  cases root with
  | none => exact .pure rfl
  | some root => exact forgets_edgeLeafFrom leftmost _ _ (some root)

theorem forgets_endsAt (o : Nat) (ascending : Bool) : Forgets id (Buffered.endsAt t o ascending) (t.endsAt o ascending) := by
  apply (forgets_edgeLeaf _).bind
  intro edge
  cases edge <;> exact .pure rfl

theorem forgets_chainEnd {α β : Type} {g : α → β} (o : Nat) (ascending : Bool) {p : Walk α} {q : Read β}
    (h : Forgets g p q) :
    Forgets g (do if ← Buffered.endsAt t o ascending then p else .fail (Tree.chainStops o))
      (do if ← t.endsAt o ascending then q else .fail (Tree.chainStops o)) := by
  apply (forgets_endsAt o ascending).bind
  intro ends
  exact .ite h (.fail _)

theorem forgets_stepSibling (source target : Nat) (ascending : Bool) :
    Forgets PageBuffer.pin (Buffered.stepSibling t source target ascending) (t.stepSibling source target ascending) := by
  have hleaf : Forgets PageBuffer.pin (Buffered.leafPage t target) (t.leafPage target) := by
    apply (forgets_treePage target).bind
    intro b
    exact .ite (.fail _) (.pure rfl)
  apply hleaf.bind
  intro b
  exact .ite (.fail _) (.pure rfl)

theorem forgets_searchFrom (key : Bytes) (keyDigest : UInt64) (op : SearchOp) (conservative : Bool) (steps : Nat)
    (b : PageBuffer) :
    Forgets (Option.map entryOf) (Buffered.searchFrom t key keyDigest op conservative steps b)
      (t.searchFrom key keyDigest op conservative steps b.pin) := by
  induction steps using Nat.strongRecOn generalizing b with
  | ind steps ih =>
    unfold Buffered.searchFrom Tree.searchFrom
    apply Forgets.uses
    apply (Forgets.lift _).bind
    intro found
    cases found with
    | some index => exact .pure rfl
    | none =>
      apply (Forgets.lift _).bind
      intro stops
      apply Forgets.ite (.pure rfl)
      cases b.pin.view.rightSibling with
      | none => exact forgets_chainEnd _ _ (.pure rfl)
      | some right =>
        cases steps with
        | zero => exact .fail _
        | succ steps =>
          apply (forgets_stepSibling _ _ _).bind
          intro next
          exact ih steps (Nat.lt_succ_self _) next

theorem forgets_search (key : Bytes) (op : SearchOp) :
    Forgets (Option.map entryOf) (Buffered.search t key op) (t.search key op) := by
  apply (Forgets.lift _).bind
  intro keyDigest
  apply (forgets_descend key _).bind
  intro found
  cases found with
  | none => exact .pure rfl
  | some found => exact forgets_searchFrom _ _ _ _ _ _

theorem forgets_cachedTurn (key : Bytes) (keyDigest : UInt64) (w : Buffered.CachedWalk) :
    Forgets (Sum.map Buffered.CachedWalk.walk id) (Buffered.cachedTurn t key keyDigest w)
      (t.cachedTurn key keyDigest w.walk) := by
  have hcurrent : ∀ w : Buffered.CachedWalk,
      Forgets (Option.map PageBuffer.pin) (Buffered.currentCached t w) (t.currentCached w.walk) := by
    intro w
    unfold Buffered.currentCached Buffered.CachedWalk.current Tree.currentCached
    cases w.walk.current with
    | some pin => exact .pure rfl
    | none =>
      apply (forgets_pageCached _).bind
      intro cached
      cases cached with
      | none => exact .pure rfl
      | some b =>
        apply (forgets_checkPage b).bind
        intro _
        exact .pure rfl
  apply Forgets.ite (.fail _)
  have hwalk : (if w.walk.descending then { w.walk with depthLeft := w.walk.depthLeft - 1 } else w.walk) =
      Buffered.CachedWalk.walk
        (if w.walk.descending then { w with walk := { w.walk with depthLeft := w.walk.depthLeft - 1 } } else w) := by
    split <;> rfl
  dsimp only
  rw [hwalk]
  apply (hcurrent _).bind
  intro current
  cases current with
  | none => exact .pure rfl
  | some b =>
    apply Forgets.uses
    have hturn : ∀ (x : Result (Tree.CachedWalk ⊕ Tree.CachedFind)) (buffer : Nat)
        (next : Tree.CachedWalk ⊕ Tree.CachedFind → Walk (Buffered.CachedWalk ⊕ Tree.CachedFind)),
        (∀ walk, next (.inl walk) = pure (.inl ⟨walk, buffer⟩)) → (∀ found, next (.inr found) = pure (.inr found)) →
        Forgets (Sum.map Buffered.CachedWalk.walk id) (liftM x >>= next) (liftM x) := by
      intro x buffer next hwalk hfound
      rcases x with e | walk | found
      · rfl
      · exact (congrArg (Forgets _ · _) (hwalk walk)).mpr rfl
      · exact (congrArg (Forgets _ · _) (hfound found)).mpr rfl
    exact hturn _ _ _ (fun _ => rfl) fun _ => rfl

theorem forgets_findCached (key : Bytes) (turns : Nat) :
    Forgets id (Buffered.findCached t key turns) (t.findCached key turns) := by
  have hturns : ∀ keyDigest turns (w : Buffered.CachedWalk),
      Forgets id (Buffered.cachedTurns t key keyDigest turns w) (t.cachedTurns key keyDigest turns w.walk) := by
    intro keyDigest turns
    induction turns with
    | zero =>
      intro w
      exact .pure rfl
    | succ turns ih =>
      intro w
      apply (forgets_cachedTurn key keyDigest w).bind
      intro turn
      cases turn with
      | inl next => exact ih next
      | inr found => exact .pure rfl
  apply Forgets.ite (.pure rfl)
  apply (Forgets.lift _).bind
  intro keyDigest
  apply forgets_rootPageCached.bind
  intro root
  cases root with
  | none => exact .pure rfl
  | some root => exact hturns _ _ _

theorem forgets_lowerStart (lower : Bound) :
    Forgets (Option.map entryOf) (Buffered.lowerStart t lower) (lowerStart t lower) := by
  cases lower with
  | unbounded => exact forgets_edgeLeaf true
  | included k => exact forgets_search k _
  | excluded k => exact forgets_search k _

theorem forgets_countFrom (upper : Bound) (steps : Nat) (b : PageBuffer) (index count : Nat) :
    Forgets id (Buffered.countFrom t upper steps b index count) (countFrom t upper steps b.pin index count) := by
  induction steps using Nat.strongRecOn generalizing b index count with
  | ind steps ih =>
    unfold Buffered.countFrom countFrom
    apply Forgets.uses
    apply (Forgets.lift _).bind
    intro bound
    cases bound with
    | some bound => exact .pure rfl
    | none =>
      dsimp only
      cases b.pin.view.rightSibling with
      | none => exact forgets_chainEnd _ _ (.pure rfl)
      | some right =>
        cases steps with
        | zero => exact .fail _
        | succ steps =>
          apply (forgets_stepSibling _ _ _).bind
          intro next
          exact ih steps (Nat.lt_succ_self _) next _ _

theorem forgets_countRange (lower upper : Bound) :
    Forgets id (Buffered.countRange t lower upper) (countRange t lower upper) := by
  apply (Forgets.lift _).bind
  intro _
  apply (Forgets.lift _).bind
  intro _
  apply (forgets_lowerStart lower).bind
  intro start
  cases start with
  | none => exact .pure rfl
  | some start => exact forgets_countFrom _ _ _ _ _

end

/-! ## Cursors -/

/-- A move's result, without the buffer. -/
def movedOf (x : Bool × Buffered.HeldCursor) : Bool × Cursor := (x.1, x.2.cursor)

theorem forgets_enter (c : Cursor) (b : PageBuffer) (index : Nat) :
    Forgets Buffered.HeldCursor.cursor (Buffered.HeldCursor.enter c b index)
      (liftM (Cursor.recomputeLeafBounds { c with page := some b.pin, index })) := by
  apply Forgets.uses
  have hlift : ∀ x : Result Cursor, Forgets Buffered.HeldCursor.cursor
      (do let c ← (liftM x : Walk Cursor); pure (⟨c, b.id⟩ : Buffered.HeldCursor)) (liftM x) := by
    intro x
    cases x <;> rfl
  exact hlift _

theorem forgets_nextPage (h : Buffered.HeldCursor) : Forgets movedOf h.nextPage h.cursor.nextPage := by
  unfold Buffered.HeldCursor.nextPage Cursor.nextPage
  apply Forgets.ite (.pure rfl)
  cases h.cursor.pageStepsLeft with
  | zero => exact .fail _
  | succ steps =>
    cases hp : h.cursor.page with
    | none =>
      simp only [hp]
      exact .pure rfl
    | some page =>
      simp only [hp]
      cases (if (h.cursor.order == Order.ascending) = true then page.view.rightSibling else page.view.leftSibling) with
      | none => exact forgets_chainEnd _ _ (.pure rfl)
      | some sibling =>
        apply (forgets_stepSibling _ _ _).bind
        intro b
        apply (forgets_enter _ b _).bind
        intro h'
        exact .pure rfl

theorem forgets_skipToValid (steps : Nat) (h : Buffered.HeldCursor) :
    Forgets movedOf (Buffered.HeldCursor.skipToValid steps h) (Cursor.skipToValid steps h.cursor) := by
  induction steps using Nat.strongRecOn generalizing h with
  | ind steps ih =>
    unfold Buffered.HeldCursor.skipToValid Cursor.skipToValid
    cases h.cursor.page with
    | none => exact .pure rfl
    | some page =>
      apply Forgets.ite (.pure rfl)
      apply (forgets_nextPage h).bind
      intro moved
      apply Forgets.ite (.pure rfl)
      cases steps with
      | zero => exact .fail _
      | succ steps => exact ih steps (Nat.lt_succ_self _) moved.2

theorem forgets_leftward (t : Tree) (steps : Nat) (b : PageBuffer) :
    Forgets (Option.map entryOf) (Buffered.HeldCursor.leftward t steps b) (Cursor.leftward t steps b.pin) := by
  induction steps using Nat.strongRecOn generalizing b with
  | ind steps ih =>
    unfold Buffered.HeldCursor.leftward Cursor.leftward
    cases b.pin.view.leftSibling with
    | none => exact forgets_chainEnd _ _ (.pure rfl)
    | some left =>
      cases steps with
      | zero => exact .fail _
      | succ steps =>
        apply (forgets_stepSibling _ _ _).bind
        intro next
        exact .ite (.pure rfl) (ih steps (Nat.lt_succ_self _) next)

theorem forgets_descendingStart (t : Tree) (key : Bytes) (op : SearchOp) :
    Forgets (Option.map entryOf) (Buffered.HeldCursor.descendingStart t key op) (Cursor.descendingStart t key op) := by
  apply (forgets_search key op).bind
  intro found
  cases found with
  | none => exact forgets_edgeLeaf false
  | some found => exact .ite (.pure rfl) (forgets_leftward _ _ _)

theorem forgets_firstEntry (h : Buffered.HeldCursor) :
    Forgets (Option.map entryOf) h.firstEntry h.cursor.firstEntry := by
  unfold Buffered.HeldCursor.firstEntry Cursor.firstEntry
  cases h.cursor.order with
  | ascending => exact forgets_lowerStart _
  | descending =>
    cases h.cursor.range.upper with
    | unbounded => exact forgets_edgeLeaf false
    | included k => exact forgets_descendingStart _ k _
    | excluded k => exact forgets_descendingStart _ k _

theorem forgets_seekFirst (h : Buffered.HeldCursor) : Forgets movedOf h.seekFirst h.cursor.seekFirst := by
  apply (forgets_firstEntry h).bind
  intro start
  cases start with
  | none => exact .pure rfl
  | some start =>
    apply (forgets_enter _ start.1 _).bind
    intro h'
    exact forgets_skipToValid _ h'

theorem forgets_step (h : Buffered.HeldCursor) : Forgets movedOf h.step h.cursor.step := by
  unfold Buffered.HeldCursor.step Cursor.step
  cases h.cursor.stepInside with
  | some c => exact .pure rfl
  | none =>
    apply (forgets_nextPage h).bind
    intro moved
    exact .ite (.pure rfl) (forgets_skipToValid _ moved.2)

theorem forgets_chargeAtLeast (charged bytes : Nat) :
    Forgets id (Buffered.HeldCursor.chargeAtLeast charged bytes) (chargeAtLeast charged bytes) := by
  apply Forgets.ite (.pure rfl)
  apply (forgets_reserve _).bind
  intro _
  exact .pure rfl

theorem forgets_charge (b : KeyBuffer) (len : Nat) :
    Forgets id (Buffered.HeldCursor.charge b len) (b.charge len) := by
  apply Forgets.ite (.pure rfl)
  apply (forgets_chargeAtLeast _ _).bind
  intro _
  exact .pure rfl

theorem forgets_readKey (c : Cursor) (page : PagePin) (entry : LeafEntry) :
    Forgets id (Buffered.HeldCursor.readKey c page entry) (c.readKey page entry) := by
  apply Forgets.ite (.pure rfl)
  cases c.tree.rebuiltKeyCapacity with
  | error e => exact .pure rfl
  | ok capacity =>
    apply (forgets_charge _ _).attempt.bind
    intro charged
    cases charged with
    | error e => exact .pure rfl
    | ok buf =>
      dsimp only [Except.map]
      cases c.tree.rebuildKey page.view c.index with
      | error e => exact .pure rfl
      | ok found =>
        cases found with
        | none => exact .pure rfl
        | some key =>
          apply (forgets_chargeAtLeast _ _).attempt.bind
          intro charged
          cases charged <;> exact .pure rfl

theorem forgets_readValue (entry : LeafEntry) :
    Forgets id (Buffered.HeldCursor.readValue entry) (Cursor.readValue entry) := by
  unfold Buffered.HeldCursor.readValue Cursor.readValue
  cases entry.value with
  | inline offset len => exact .pure rfl
  | overflow page =>
    have hblob : Forgets id (Walk.blob page) (Read.blob page) := by
      apply (forgets_page page).bind
      intro b
      exact .lift _
    apply hblob.bind
    intro found
    exact .pure rfl

/-- The state and the result of a call, without the buffer. -/
def calledOf {α : Type} (x : Buffered.HeldCursor × Result α) : Cursor × Result α := (x.1.cursor, x.2)

theorem forgets_materialize (h : Buffered.HeldCursor) : Forgets calledOf h.materialize h.cursor.materialize := by
  unfold Buffered.HeldCursor.materialize Cursor.materialize
  cases h.cursor.page with
  | none => exact .pure rfl
  | some page =>
    apply Forgets.uses
    dsimp only
    cases page.view.leafEntry h.cursor.index with
    | error e => exact .pure rfl
    | ok entry =>
      apply (forgets_readKey _ _ _).bind
      intro read
      obtain ⟨keyBuf, key⟩ := read
      cases key with
      | error e => exact .pure rfl
      | ok key =>
        apply (forgets_readValue entry).attempt.bind
        intro value
        cases value <;> exact .pure rfl

theorem forgets_stepAndRead (h : Buffered.HeldCursor) : Forgets calledOf h.stepAndRead h.cursor.stepAndRead := by
  have hmove : Forgets movedOf
      (if h.cursor.started then h.step
        else Buffered.HeldCursor.seekFirst { h with cursor := { h.cursor with started := true } })
      (if h.cursor.started then h.cursor.step else Cursor.seekFirst { h.cursor with started := true }) :=
    .ite (forgets_step h) (forgets_seekFirst _)
  apply hmove.attempt.bind
  intro moved
  rcases moved with e | ⟨_ | _, h'⟩
  · exact .pure rfl
  · exact .pure rfl
  · apply (forgets_materialize h').bind
    intro read
    exact .pure rfl

theorem forgets_advance (h : Buffered.HeldCursor) : Forgets calledOf h.advance h.cursor.advance := by
  unfold Buffered.HeldCursor.advance Cursor.advance
  apply Forgets.ite (.pure rfl)
  apply (forgets_stepAndRead _).bind
  intro moved
  obtain ⟨moved, result⟩ := moved
  cases result <;> exact .pure rfl

theorem forgets_advanceIndex (h : Buffered.HeldIndexCursor) :
    Forgets (fun x => (x.1.index, x.2)) h.advance h.index.advance := by
  have hinner : Forgets (fun x : Buffered.HeldIndexCursor × Result Bool => (x.1.index, x.2)) h.advanceInner
      h.index.advanceInner := by
    apply (forgets_advance h.held).bind
    intro moved
    obtain ⟨inner, moved⟩ := moved
    rcases moved with e | _ | _
    · exact .pure rfl
    · exact .pure rfl
    · dsimp only [calledOf]
      cases IndexCursor.entryReference { h.index with cursor := inner.cursor, value := none } with
      | error e => exact .pure rfl
      | ok found =>
        apply (forgets_charge _ _).attempt.bind
        intro charged
        cases charged with
        | error e => exact .pure rfl
        | ok key =>
          have hresolve : Forgets id (Buffered.HeldIndexCursor.resolveReference found.1)
              (IndexCursor.resolveReference found.1) := by
            apply (forgets_page _).bind
            intro b
            apply (Forgets.lift _).bind
            intro range
            exact .lift _
          apply hresolve.attempt.bind
          intro guard
          cases guard <;> exact .pure rfl
  apply hinner.bind
  intro moved
  obtain ⟨moved, result⟩ := moved
  cases result <;> exact .pure rfl

end DryDb
