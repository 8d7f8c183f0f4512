import DryDb.Lib.Retry
import DryDb.Reader.Env
/-!
# Reads of an unchanging file, with failures

The answers a tree may get from the store of an unchanging file (`Tree.Admits`): any page load
and any reservation may fail, a page that comes back is the one the file holds, a retained root
and a digest mark are what the tree itself left. `Tree.calm` answers the same questions with
nothing failing and nothing cached. Every walk of a tree returns the same pages under both
(`Tree.Steady`).
-/

namespace DryDb

/-- A page of the tree's file that passed its check. -/
def Tree.Holds (t : Tree) (ordinal : Nat) (pin : PagePin) : Prop :=
  t.store.page ordinal = .ok pin ∧ t.admit pin = .ok ()

/-- What the store of an unchanging file may answer; `failing` says whether loads and
reservations may fail for a reason outside the file. -/
def Tree.Admits (t : Tree) (failing : Prop) : (op : ReadOp) → op.Answer → Prop
  | .page o, r => r = t.store.page o ∨ (failing ∧ ∃ e, r = .error e)
  | .pageCached o, r => ∀ pin, r = some pin → t.store.page o = .ok pin
  | .retainedRoot id, r => ∀ pin, id = t.id → r = some pin → ∃ root, t.root = some root ∧ t.Holds root pin
  | .retainRoot _ _, _ => True
  | .reserve _, r => r = .ok () ∨ (failing ∧ ∃ e, r = .error e)
  | .digestsCheckedBy id pin, r => id = t.id → r = true → t.checkDigests pin.view = .ok ()
  | .markDigestsChecked _ _, _ => True

/-- The answers of a store with an empty cache in which nothing fails. -/
def Tree.calm (t : Tree) : Env
  | .page o => t.store.page o
  | .pageCached _ => none
  | .retainedRoot _ => none
  | .retainRoot _ _ => ()
  | .reserve _ => .ok ()
  | .digestsCheckedBy _ _ => false
  | .markDigestsChecked _ _ => ()

theorem Tree.admits_calm (t : Tree) (failing : Prop) (op : ReadOp) : t.Admits failing op (t.calm op) := by
  cases op with
  | page o => exact .inl rfl
  | pageCached o => intro pin h; cases h
  | retainedRoot id => intro pin _ h; cases h
  | retainRoot id pin => trivial
  | reserve n => exact .inl rfl
  | digestsCheckedBy id pin => intro _ h; cases h
  | markDigestsChecked id pin => trivial

/-- With any answers the store may give, the program comes to what it comes to when nothing
fails, or to a failure. -/
abbrev Tree.Steady (t : Tree) (failing : Prop) {α β : Type} (R : α → β → Prop) (p : Read α) (q : Read β) : Prop :=
  Program.Tracks (t.Admits failing) t.calm failing R p q

variable {t : Tree} {failing : Prop}

open Program

theorem Tree.honest_calm (t : Tree) : t.calm.Honest t where
  ordinal := fun _ _ h => PageStore.page_ordinal h
  cached := fun _ _ h => by cases h
  retained := fun _ h => by cases h
  checked := fun _ h => by cases h

theorem steady_page (o : Nat) : t.Steady failing Eq (Read.page o) (Read.page o) := by
  have hrun : (Read.page o).run t.calm = t.store.page o := Read.run_page t.calm o
  refine ⟨fun pin hpin => ⟨pin, ?_, rfl⟩, fun e he => ?_⟩
  · obtain ⟨r, ⟨x, hx, hr⟩, hpin⟩ | ⟨e, _, he⟩ := comes_bind.1 hpin
    · cases hr
      rw [comes_lift] at hpin
      rcases hx with rfl | ⟨_, e, rfl⟩
      · rw [hrun, hpin]
      · cases hpin
    · cases he
  · obtain ⟨r, ⟨x, hx, hr⟩, he⟩ | ⟨e', ⟨x, _, hr⟩, _⟩ := comes_bind.1 he
    · cases hr
      rw [comes_lift] at he
      rcases hx with rfl | ⟨hf, _⟩
      · exact .inr (by rw [hrun, he])
      · exact .inl hf
    · cases hr

/-- A reservation fails only when something outside the file does. -/
theorem forgiving_reserve (n : Nat) : Forgiving (t.Admits failing) t.calm failing (Read.reserve n) := by
  refine ⟨⟨(), Read.run_reserve t.calm n⟩, fun e he => ?_⟩
  obtain ⟨r, ⟨x, hx, hr⟩, he⟩ | ⟨e', ⟨x, _, hr⟩, _⟩ := comes_bind.1 he
  · cases hr
    rw [comes_lift] at he
    rcases hx with rfl | ⟨hf, _⟩
    · cases he
    · exact hf
  · cases hr

theorem forgiving_chargeAtLeast (charged bytes : Nat) :
    Forgiving (t.Admits failing) t.calm failing (chargeAtLeast charged bytes) :=
  .ite (.pure _) ((forgiving_reserve _).bind fun _ => .pure _)

theorem forgiving_charge (b : KeyBuffer) (len : Nat) :
    Forgiving (t.Admits failing) t.calm failing (b.charge len) :=
  .ite (.pure _) ((forgiving_chargeAtLeast _ _).bind fun _ => .pure _)

/-- A mark the tree finds on a page stands for a check that succeeds. -/
theorem steady_checkPage (pin : PagePin) : t.Steady failing Eq (t.checkPage pin) (t.checkPage pin) := by
  have hrun := t.honest_calm.run_checkPage pin
  have hcomes : ∀ r, (t.checkPage pin).Comes (t.Admits failing) r → r = t.admit pin := by
    intro r hr
    unfold Tree.checkPage at hr
    unfold Tree.admit
    cases hv : t.validateDigests with
    | false =>
      simp only [hv, Bool.not_false, if_true, comes_pure] at hr
      simpa using hr
    | true =>
      simp only [hv, Bool.not_true, Bool.false_eq_true, if_false, if_true] at hr ⊢
      rcases comes_bind.1 hr with ⟨marked, ⟨x, hx, hm⟩, hr⟩ | ⟨e, ⟨x, _, hm⟩, _⟩
      · cases hm
        cases hmark : marked with
        | true =>
          rw [hx rfl hmark]
          simpa [hmark] using hr
        | false =>
          simp only [hmark, Bool.false_eq_true, if_false] at hr
          rcases comes_bind.1 hr with ⟨u, hu, hr⟩ | ⟨e, he, hr⟩
          · obtain ⟨_, -, hr⟩ := comes_question.1 hr
            rw [← comes_lift.1 hu]
            exact hr
          · rw [← comes_lift.1 he]
            exact hr
      · cases hm
  refine ⟨fun u hu => ⟨u, ?_, rfl⟩, fun e he => .inr ?_⟩
  · rw [hrun, ← hcomes _ hu]
  · rw [hrun, ← hcomes _ he]

theorem steady_treePage (o : Nat) : t.Steady failing Eq (t.treePage o) (t.treePage o) :=
  (steady_page o).seq fun pin => (steady_checkPage pin).seq fun _ => .pure rfl

theorem steady_retainRoot (id : Nat) (pin : PagePin) :
    t.Steady failing Eq (Read.retainRoot id pin) (Read.retainRoot id pin) := by
  refine ⟨fun _ _ => ⟨(), rfl, rfl⟩, fun e he => ?_⟩
  obtain ⟨_, _, hr⟩ := comes_question.1 he
  cases hr

/-- A retained root is the page the tree would load again. -/
theorem steady_rootPage : t.Steady failing Eq t.rootPage t.rootPage := by
  have hrun := t.honest_calm.run_rootPage
  unfold Tree.rootPage at hrun ⊢
  cases hroot : t.root with
  | none => exact .pure rfl
  | some root =>
    simp only [hroot] at hrun ⊢
    have hload : t.Steady failing Eq
        (do let pin ← t.treePage root; Read.retainRoot t.id pin; pure (some pin))
        (do let pin ← t.treePage root; Read.retainRoot t.id pin; pure (some pin)) :=
      (steady_treePage root).seq fun pin => (steady_retainRoot _ _).seq fun _ => .pure rfl
    refine ⟨fun r hr => ?_, fun e he => ?_⟩
    · rcases comes_bind.1 hr with ⟨kept, ⟨x, hx, hk⟩, hr⟩ | ⟨e, _, he⟩
      · cases hk
        cases hkept : kept with
        | none =>
          simp only [hkept] at hr
          exact hload.1 r hr
        | some pin =>
          simp only [hkept, comes_pure] at hr
          obtain ⟨root', hroot', hpin, hadmits⟩ := hx pin rfl hkept
          rw [hroot] at hroot'
          cases hroot'
          cases hr
          have hfetch : t.fetch t.calm root = .ok pin := Tree.fetch_eq_ok.2 ⟨hpin, hadmits⟩
          refine ⟨some pin, ?_, rfl⟩
          rw [hrun, hfetch]
          rfl
      · cases he
    · rcases comes_bind.1 he with ⟨kept, ⟨x, _, hk⟩, hr⟩ | ⟨e', ⟨x, _, hk⟩, _⟩
      · cases hk
        cases hkept : kept with
        | none =>
          simp only [hkept] at hr
          exact hload.2 e hr
        | some pin =>
          simp only [hkept, comes_pure] at hr
          cases hr
      · cases hk

theorem steady_currentPage (o : Nat) (current : Option PagePin) :
    t.Steady failing Eq (t.currentPage o current) (t.currentPage o current) := by
  unfold Tree.currentPage
  cases current with
  | some pin => exact .pure rfl
  | none => exact steady_treePage o

theorem steady_descendFrom (key : Bytes) (keyDigest : UInt64) (depth o : Nat) (current : Option PagePin)
    (conservative : Bool) :
    t.Steady failing Eq (t.descendFrom key keyDigest depth o current conservative)
      (t.descendFrom key keyDigest depth o current conservative) := by
  induction depth generalizing o current conservative with
  | zero => exact .fail _
  | succ depth ih =>
    unfold Tree.descendFrom
    refine (steady_currentPage o current).seq fun pin => ?_
    cases pin.view.kind with
    | leaf => exact .pure rfl
    | internal => exact (Tracks.lift _).seq fun _ => ih _ _ _

theorem steady_descend (key : Bytes) (keyDigest : UInt64) :
    t.Steady failing Eq (t.descend key keyDigest) (t.descend key keyDigest) := by
  refine steady_rootPage.seq fun root => ?_
  cases root with
  | none => exact .pure rfl
  | some root => exact (steady_descendFrom _ _ _ _ _ _).seq fun _ => .pure rfl

theorem steady_edgeLeafFrom (leftmost : Bool) (depth o : Nat) (current : Option PagePin) :
    t.Steady failing Eq (t.edgeLeafFrom leftmost depth o current) (t.edgeLeafFrom leftmost depth o current) := by
  induction depth generalizing o current with
  | zero => exact .fail _
  | succ depth ih =>
    unfold Tree.edgeLeafFrom
    refine (steady_currentPage o current).seq fun pin => ?_
    cases pin.view.kind with
    | leaf => exact .ite (.pure rfl) (.pure rfl)
    | internal => exact (Tracks.lift _).seq fun _ => ih _ _

theorem steady_edgeLeaf (leftmost : Bool) : t.Steady failing Eq (t.edgeLeaf leftmost) (t.edgeLeaf leftmost) := by
  refine steady_rootPage.seq fun root => ?_
  cases root with
  | none => exact .pure rfl
  | some root => exact steady_edgeLeafFrom _ _ _ _

theorem steady_endsAt (o : Nat) (ascending : Bool) :
    t.Steady failing Eq (t.endsAt o ascending) (t.endsAt o ascending) := by
  refine (steady_edgeLeaf _).seq fun edge => ?_
  rcases edge with _ | ⟨pin, _⟩ <;> exact .pure rfl

theorem steady_stepSibling (source target : Nat) (ascending : Bool) :
    t.Steady failing Eq (t.stepSibling source target ascending) (t.stepSibling source target ascending) := by
  have hleaf : t.Steady failing Eq (t.leafPage target) (t.leafPage target) :=
    (steady_treePage target).seq fun pin => .ite (.fail _) (.pure rfl)
  exact hleaf.seq fun pin => .ite (.fail _) (.pure rfl)

/-- The question a walk asks when the chain stops. -/
theorem steady_chainEnd {α β : Type} {R : α → β → Prop} (o : Nat) (ascending : Bool) {p : Read α} {q : Read β}
    (h : t.Steady failing R p q) :
    t.Steady failing R (do if ← t.endsAt o ascending then p else .fail (Tree.chainStops o))
      (do if ← t.endsAt o ascending then q else .fail (Tree.chainStops o)) := by
  exact (steady_endsAt o ascending).seq fun _ => .ite h (.fail _)

theorem steady_searchFrom (key : Bytes) (keyDigest : UInt64) (op : SearchOp) (conservative : Bool) (steps : Nat)
    (pin : PagePin) :
    t.Steady failing Eq (t.searchFrom key keyDigest op conservative steps pin)
      (t.searchFrom key keyDigest op conservative steps pin) := by
  induction steps using Nat.strongRecOn generalizing pin with
  | ind steps ih =>
    unfold Tree.searchFrom
    refine (Tracks.lift _).seq fun found => ?_
    rcases found with _ | index
    · refine (Tracks.lift _).seq fun stops => .ite (.pure rfl) ?_
      cases pin.view.rightSibling with
      | none => exact steady_chainEnd _ _ (.pure rfl)
      | some right =>
        cases steps with
        | zero => exact .fail _
        | succ steps => exact (steady_stepSibling _ _ _).seq fun next => ih steps (Nat.lt_succ_self _) next
    · exact .pure rfl

theorem steady_search (key : Bytes) (op : SearchOp) : t.Steady failing Eq (t.search key op) (t.search key op) := by
  refine (Tracks.lift _).seq fun keyDigest => (steady_descend _ _).seq fun found => ?_
  rcases found with _ | ⟨pin, conservative⟩
  · exact .pure rfl
  · exact steady_searchFrom _ _ _ _ _ _

theorem steady_lowerStart (lower : Bound) : t.Steady failing Eq (lowerStart t lower) (lowerStart t lower) := by
  cases lower with
  | unbounded => exact steady_edgeLeaf true
  | included k => exact steady_search _ _
  | excluded k => exact steady_search _ _

theorem steady_leftward (steps : Nat) (pin : PagePin) :
    t.Steady failing Eq (Cursor.leftward t steps pin) (Cursor.leftward t steps pin) := by
  induction steps using Nat.strongRecOn generalizing pin with
  | ind steps ih =>
    unfold Cursor.leftward
    cases pin.view.leftSibling with
    | none => exact steady_chainEnd _ _ (.pure rfl)
    | some left =>
      cases steps with
      | zero => exact .fail _
      | succ steps =>
        exact (steady_stepSibling _ _ _).seq fun next => .ite (.pure rfl) (ih steps (Nat.lt_succ_self _) next)

theorem steady_descendingStart (key : Bytes) (op : SearchOp) :
    t.Steady failing Eq (Cursor.descendingStart t key op) (Cursor.descendingStart t key op) := by
  refine (steady_search _ _).seq fun found => ?_
  rcases found with _ | ⟨pin, index⟩
  · exact steady_edgeLeaf false
  · exact .ite (.pure rfl) (steady_leftward _ _)

theorem steady_upperStart (upper : Bound) :
    t.Steady failing Eq (Cursor.upperStart t upper) (Cursor.upperStart t upper) := by
  cases upper with
  | unbounded => exact steady_edgeLeaf false
  | included k => exact steady_descendingStart _ _
  | excluded k => exact steady_descendingStart _ _

end DryDb
