import DryDb.Lib.Knowledge
import DryDb.Model.Buffers
/-!
# No page is searched before its tree has checked it

A call may use a buffer, mark it or keep it as a root only when it knows that its tree's check has
passed on that very buffer. It learns so by running the check, from the mark on the buffer, or by
being handed the root kept for the tree. Every walk keeps to this (`Careful`), whatever the store
answers, and the store only says what is so (`BufferState.Sound`).
-/

namespace DryDb

/-- That the check of a tree has passed on a buffer. -/
abbrev Passed := Nat × PageBuffer

/-- What has to be known before a question is asked. -/
def WalkOp.need (f : Forest) : WalkOp → Set Passed → Prop
  | .retainRoot tree b, known => (tree, b) ∈ known
  | .markDigestsChecked tree b, known => (tree, b) ∈ known
  | .uses tree b, known => (tree, b) ∈ known
  | .digestsCheckedBy tree _, _ => 0 < tree
  | .passed tree b, _ => ∀ t ∈ f.trees, t.id = tree → t.checkDigests b.pin.view = .ok ()
  | _, _ => True

/-- What an answer teaches. -/
def WalkOp.gain : (op : WalkOp) → op.Answer → Set Passed
  | .retainedRoot tree, r => { x | r.map (fun b => (tree, b)) = some x }
  | .digestsCheckedBy tree b, r => { x | r = true ∧ x = (tree, b) }
  | .passed tree b, _ => { (tree, b) }
  | _, _ => ∅

/-- With this knowledge the program uses, marks and keeps only buffers its tree has checked. -/
abbrev Careful (f : Forest) {α : Type} (P : Set Passed → α → Prop) (p : Walk α) (known : Set Passed) : Prop :=
  p.Learns (WalkOp.need f) WalkOp.gain P known

open Program

/-- The buffer of a found entry has been checked. -/
def Found (t : Tree) (known : Set Passed) (r : Option (PageBuffer × Nat)) : Prop :=
  ∀ b i, r = some (b, i) → (t.id, b) ∈ known

section
variable {f : Forest} {t : Tree} {known : Set Passed} {b : PageBuffer} {current : Option PageBuffer} {w : Buffered.CachedWalk}

/-- A computation of the source that asks nothing. -/
theorem careful_lift {α : Type} (x : Result α) : Careful f (fun _ a => x = .ok a) (liftM x) known :=
  learns_lift fun _ ha => ha

theorem careful_page (o : Nat) : Careful f (fun _ _ => True) (Walk.page o) known := by
  have hasked : Careful f (fun _ _ => True) (question (WalkOp.page o)) known := learns_question trivial fun _ => trivial
  apply hasked.bind
  intro known' r _ _
  exact (careful_lift r).mono fun _ _ _ _ => trivial

theorem careful_reserve (n : Nat) : Careful f (fun _ _ => True) (Walk.reserve n) known := by
  have hasked : Careful f (fun _ _ => True) (question (WalkOp.reserve n)) known :=
    learns_question trivial fun _ => trivial
  apply hasked.bind
  intro known' r _ _
  exact (careful_lift r).mono fun _ _ _ _ => trivial

theorem careful_pageCached (o : Nat) : Careful f (fun _ _ => True) (Walk.pageCached o) known :=
  learns_question trivial fun _ => trivial

theorem careful_retainedRoot (tree : Nat) :
    Careful f (fun known' r => ∀ b, r = some b → (tree, b) ∈ known') (Walk.retainedRoot tree) known := by
  apply learns_question trivial
  intro r b hb
  subst hb
  exact .inr rfl

theorem careful_uses (h : (t.id, b) ∈ known) :
    Careful f (fun known' _ => known ⊆ known') (Walk.uses t.id b) known :=
  learns_question h fun _ _ hx => .inl hx

theorem careful_retainRoot (h : (t.id, b) ∈ known) :
    Careful f (fun known' _ => known ⊆ known') (Walk.retainRoot t.id b) known :=
  learns_question h fun _ _ hx => .inl hx

/-- After the check the tree knows that it has checked the buffer. -/
theorem careful_checkPage (ht : t ∈ f.trees) (b : PageBuffer) :
    Careful f (fun known' _ => (t.id, b) ∈ known') (Buffered.checkPage t b) known := by
  unfold Buffered.checkPage
  rw [f.validates t ht]
  simp only [Bool.not_true, Bool.false_eq_true, if_false]
  have hmark : Careful f (fun known' r => r = true → (t.id, b) ∈ known') (Walk.digestsCheckedBy t.id b) known := by
    apply learns_question (f.named t ht)
    intro r hr
    exact .inr ⟨hr, rfl⟩
  apply hmark.bind
  intro known' marked _ hmarked
  apply Learns.ite
  · intro hm
    exact learns_pure (hmarked hm)
  · intro _
    have hcheck : Careful f (fun _ _ => t.checkDigests b.pin.view = .ok ())
        (liftM ((t.checkDigests b.pin.view).mapError fun e => e.atPage b.pin.ordinal)) known' := by
      apply learns_lift
      intro u hu
      exact mapError_eq_ok.1 hu
    apply hcheck.bind
    intro known₁ _ _ hok
    have hpassed : Careful f (fun known' _ => (t.id, b) ∈ known') (Walk.passed t.id b) known₁ := by
      apply learns_question
      · -- The identity names this tree and no other.
        intro t' ht' hid
        cases f.distinct t' ht' t ht hid
        exact hok
      · intro _
        exact .inr rfl
    apply hpassed.bind
    intro known₂ _ _ hknown
    exact learns_question hknown fun _ => .inl hknown

theorem careful_treePage (ht : t ∈ f.trees) (o : Nat) :
    Careful f (fun known' b => (t.id, b) ∈ known') (Buffered.treePage t o) known := by
  apply (careful_page o).bind
  intro known' b _ _
  apply (careful_checkPage ht b).bind
  intro known₂ _ _ hknown
  exact learns_pure hknown

theorem careful_rootPage (ht : t ∈ f.trees) :
    Careful f (fun known' r => ∀ b, r = some b → (t.id, b) ∈ known') (Buffered.rootPage t) known := by
  unfold Buffered.rootPage
  cases t.root with
  | none =>
    apply learns_pure
    intro b hb
    cases hb
  | some root =>
    apply (careful_retainedRoot t.id).bind
    intro known' kept _ hkept
    cases kept with
    | some b => exact learns_pure hkept
    | none =>
      apply (careful_treePage ht root).bind
      intro known₂ b _ hb
      apply (careful_retainRoot hb).bind
      intro known₃ _ _ hsub
      apply learns_pure
      intro b' hb'
      cases hb'
      exact hsub hb

theorem careful_checkedPage (ht : t ∈ f.trees) (b : PageBuffer) :
    Careful f (fun known' r => ∀ b', r = some b' → (t.id, b') ∈ known')
      (do Buffered.checkPage t b; pure (some b)) known := by
  apply (careful_checkPage ht b).bind
  intro known' _ _ hknown
  apply learns_pure
  intro b' hb'
  cases hb'
  exact hknown

theorem careful_rootPageCached (ht : t ∈ f.trees) :
    Careful f (fun known' r => ∀ b, r = some b → (t.id, b) ∈ known') (Buffered.rootPageCached t) known := by
  apply (careful_retainedRoot t.id).bind
  intro known' kept _ hkept
  cases kept with
  | some b => exact learns_pure hkept
  | none =>
    cases t.root with
    | none =>
      apply learns_pure
      intro b hb
      cases hb
    | some root =>
      apply (careful_pageCached root).bind
      intro known₂ cached _ _
      cases cached with
      | none =>
        apply learns_pure
        intro b hb
        cases hb
      | some b => exact careful_checkedPage ht b

theorem careful_currentPage (ht : t ∈ f.trees) (o : Nat) (hc : ∀ b, current = some b → (t.id, b) ∈ known) :
    Careful f (fun known' b => (t.id, b) ∈ known') (Buffered.currentPage t o current) known := by
  unfold Buffered.currentPage
  cases current with
  | some b => exact learns_pure (hc b rfl)
  | none => exact careful_treePage ht o

theorem careful_descendFrom (ht : t ∈ f.trees) (key : Bytes) (keyDigest : UInt64) (depth o : Nat)
    (conservative : Bool) (hc : ∀ b, current = some b → (t.id, b) ∈ known) :
    Careful f (fun known' r => (t.id, r.1) ∈ known')
      (Buffered.descendFrom t key keyDigest depth o current conservative) known := by
  induction depth generalizing o current conservative known with
  | zero => exact learns_fail _
  | succ depth ih =>
    unfold Buffered.descendFrom
    apply (careful_currentPage ht o hc).bind
    intro known' b _ hb
    cases b.pin.view.kind with
    | leaf => exact learns_pure hb
    | internal =>
      apply (careful_uses hb).bind
      intro known₂ _ _ _
      apply (careful_lift _).bind
      intro known₃ chosen _ _
      apply ih
      intro b hb
      cases hb

theorem careful_descend (ht : t ∈ f.trees) (key : Bytes) (keyDigest : UInt64) :
    Careful f (fun known' r => ∀ b c, r = some (b, c) → (t.id, b) ∈ known')
      (Buffered.descend t key keyDigest) known := by
  apply (careful_rootPage ht).bind
  intro known' root _ hroot
  cases root with
  | none =>
    apply learns_pure
    intro b c h
    cases h
  | some root =>
    apply (careful_descendFrom ht key keyDigest _ _ false hroot).bind
    intro known₂ found _ hfound
    apply learns_pure
    intro b c h
    cases h
    exact hfound

theorem careful_edgeLeafFrom (ht : t ∈ f.trees) (leftmost : Bool) (depth o : Nat)
    (hc : ∀ b, current = some b → (t.id, b) ∈ known) :
    Careful f (Found t) (Buffered.edgeLeafFrom t leftmost depth o current) known := by
  induction depth generalizing o current known with
  | zero => exact learns_fail _
  | succ depth ih =>
    unfold Buffered.edgeLeafFrom
    apply (careful_currentPage ht o hc).bind
    intro known' b _ hb
    cases b.pin.view.kind with
    | leaf =>
      apply Learns.ite
      · intro _
        apply learns_pure
        intro b i h
        cases h
      · intro _
        apply learns_pure
        intro b i h
        cases h
        exact hb
    | internal =>
      apply (careful_uses hb).bind
      intro known₂ _ _ _
      apply (careful_lift _).bind
      intro known₃ chosen _ _
      apply ih
      intro b hb
      cases hb

theorem careful_edgeLeaf (ht : t ∈ f.trees) (leftmost : Bool) :
    Careful f (Found t) (Buffered.edgeLeaf t leftmost) known := by
  apply (careful_rootPage ht).bind
  intro known' root _ hroot
  cases root with
  | none =>
    apply learns_pure
    intro b i h
    cases h
  | some root => exact careful_edgeLeafFrom ht leftmost _ _ hroot

theorem careful_endsAt (ht : t ∈ f.trees) (o : Nat) (ascending : Bool) :
    Careful f (fun _ _ => True) (Buffered.endsAt t o ascending) known := by
  apply (careful_edgeLeaf ht _).bind
  intro known' edge _ _
  rcases edge with _ | ⟨b, _⟩ <;> exact learns_pure trivial

theorem careful_chainEnd {α : Type} {P : Set Passed → α → Prop} (ht : t ∈ f.trees) (o : Nat) (ascending : Bool)
    {p : Walk α} (h : ∀ known', known ⊆ known' → Careful f P p known') :
    Careful f P (do if ← Buffered.endsAt t o ascending then p else .fail (Tree.chainStops o)) known := by
  apply (careful_endsAt ht o ascending).bind
  intro known' ends hsub _
  apply Learns.ite
  · intro _
    exact h known' hsub
  · intro _
    exact learns_fail _

theorem careful_stepSibling (ht : t ∈ f.trees) (source target : Nat) (ascending : Bool) :
    Careful f (fun known' b => (t.id, b) ∈ known') (Buffered.stepSibling t source target ascending) known := by
  have hleaf : Careful f (fun known' b => (t.id, b) ∈ known') (Buffered.leafPage t target) known := by
    apply (careful_treePage ht target).bind
    intro known' b _ hb
    apply Learns.ite
    · intro _
      exact learns_fail _
    · intro _
      exact learns_pure hb
  apply hleaf.bind
  intro known' b _ hb
  apply Learns.ite
  · intro _
    exact learns_fail _
  · intro _
    exact learns_pure hb

theorem careful_searchFrom (ht : t ∈ f.trees) (key : Bytes) (keyDigest : UInt64) (op : SearchOp)
    (conservative : Bool) (steps : Nat) (hb : (t.id, b) ∈ known) :
    Careful f (Found t) (Buffered.searchFrom t key keyDigest op conservative steps b) known := by
  induction steps using Nat.strongRecOn generalizing b known with
  | ind steps ih =>
    unfold Buffered.searchFrom
    apply (careful_uses hb).bind
    intro known' _ hsub _
    apply (careful_lift _).bind
    intro known₂ found hsub₂ _
    cases found with
    | some index =>
      apply learns_pure
      intro b' i h
      cases h
      exact hsub₂ (hsub hb)
    | none =>
      apply (careful_lift _).bind
      intro known₃ stops _ _
      have hnone : ∀ known', Careful f (Found t) (pure none) known' := by
        intro known'
        apply learns_pure
        intro b' i h
        cases h
      apply Learns.ite
      · intro _
        exact hnone _
      · intro _
        cases b.pin.view.rightSibling with
        | none => exact careful_chainEnd ht _ _ fun known' _ => hnone known'
        | some right =>
          cases steps with
          | zero => exact learns_fail _
          | succ steps =>
            apply (careful_stepSibling ht _ _ _).bind
            intro known₄ next _ hnext
            exact ih steps (Nat.lt_succ_self _) hnext

theorem careful_search (ht : t ∈ f.trees) (key : Bytes) (op : SearchOp) :
    Careful f (Found t) (Buffered.search t key op) known := by
  apply (careful_lift _).bind
  intro known' keyDigest _ _
  apply (careful_descend ht key keyDigest).bind
  intro known₂ found _ hfound
  rcases found with _ | ⟨b, conservative⟩
  · apply learns_pure
    intro b i h
    cases h
  · exact careful_searchFrom ht key keyDigest op conservative _ (hfound b conservative rfl)

/-! ## The cached lookup -/

/-- Only the first turn is handed its page. -/
theorem current_of_cachedTurnOn {key : Bytes} {keyDigest : UInt64} {w next : Tree.CachedWalk} {pin : PagePin}
    (h : t.cachedTurnOn key keyDigest w pin = .ok (.inl next)) : next.current = none := by
  unfold Tree.cachedTurnOn at h
  cases hk : pin.view.kind with
  | leaf =>
    simp only [hk] at h
    obtain ⟨found, -, h⟩ := bind_eq_ok.1 h
    cases found with
    | some index => cases h
    | none =>
      obtain ⟨stops, -, h⟩ := bind_eq_ok.1 h
      split at h
      · cases h
      · split at h
        · cases h
        · split at h
          · cases h
          · cases h
            rfl
  | internal =>
    simp only [hk] at h
    obtain ⟨⟨child, inexact⟩, -, h⟩ := bind_eq_ok.1 h
    cases h
    rfl

theorem careful_currentCached (ht : t ∈ f.trees) (hw : ∀ b, w.current = some b → (t.id, b) ∈ known) :
    Careful f (fun known' r => ∀ b, r = some b → (t.id, b) ∈ known') (Buffered.currentCached t w) known := by
  unfold Buffered.currentCached
  cases hc : w.current with
  | some b =>
    apply learns_pure
    intro b' hb'
    cases hb'
    exact hw b hc
  | none =>
    apply (careful_pageCached _).bind
    intro known' cached _ _
    cases cached with
    | none =>
      apply learns_pure
      intro b hb
      cases hb
    | some b => exact careful_checkedPage ht b

theorem careful_cachedTurn (ht : t ∈ f.trees) (key : Bytes) (keyDigest : UInt64)
    (hw : ∀ b, w.current = some b → (t.id, b) ∈ known) :
    Careful f (fun _ r => ∀ next, r = .inl next → next.current = none)
      (Buffered.cachedTurn t key keyDigest w) known := by
  apply Learns.ite
  · intro _
    exact learns_fail _
  · intro _
    have hcurrent : ∀ w' : Buffered.CachedWalk, w'.current = w.current →
        ∀ b, w'.current = some b → (t.id, b) ∈ known := by
      intro w' hw' b hb
      exact hw b (hw'.symm.trans hb)
    refine (careful_currentCached ht (hcurrent _ ?_)).bind ?_
    · split <;> rfl
    · intro known' current _ hknown
      cases current with
      | none =>
        apply learns_pure
        intro next h
        cases h
      | some b =>
        apply (careful_uses (hknown b rfl)).bind
        intro known₂ _ _ _
        apply (careful_lift _).bind
        intro known₃ turn _ hturn
        cases turn with
        | inr found =>
          apply learns_pure
          intro next h
          cases h
        | inl next =>
          apply learns_pure
          intro next' h
          cases h
          have hnone := current_of_cachedTurnOn hturn
          simp [Buffered.CachedWalk.current, hnone]

theorem careful_cachedTurns (ht : t ∈ f.trees) (key : Bytes) (keyDigest : UInt64) (turns : Nat)
    (hw : ∀ b, w.current = some b → (t.id, b) ∈ known) :
    Careful f (fun _ _ => True) (Buffered.cachedTurns t key keyDigest turns w) known := by
  induction turns generalizing w known with
  | zero => exact learns_pure trivial
  | succ turns ih =>
    apply (careful_cachedTurn ht key keyDigest hw).bind
    intro known' turn _ hturn
    cases turn with
    | inr found => exact learns_pure trivial
    | inl next =>
      apply ih
      intro b hb
      rw [hturn next rfl] at hb
      cases hb

theorem careful_findCached (ht : t ∈ f.trees) (key : Bytes) (turns : Nat) :
    Careful f (fun _ _ => True) (Buffered.findCached t key turns) known := by
  apply Learns.ite
  · intro _
    exact learns_pure trivial
  · intro _
    apply (careful_lift _).bind
    intro known' keyDigest _ _
    apply (careful_rootPageCached ht).bind
    intro known₂ root _ hroot
    cases root with
    | none => exact learns_pure trivial
    | some root =>
      apply careful_cachedTurns ht
      intro b hb
      cases hb
      exact hroot root rfl

/-! ## Counting -/

theorem careful_lowerStart (ht : t ∈ f.trees) (lower : Bound) :
    Careful f (Found t) (Buffered.lowerStart t lower) known := by
  cases lower with
  | unbounded => exact careful_edgeLeaf ht true
  | included k => exact careful_search ht k _
  | excluded k => exact careful_search ht k _

theorem careful_countFrom (ht : t ∈ f.trees) (upper : Bound) (steps : Nat) (index count : Nat) (hb : (t.id, b) ∈ known) :
    Careful f (fun _ _ => True) (Buffered.countFrom t upper steps b index count) known := by
  induction steps using Nat.strongRecOn generalizing b index count known with
  | ind steps ih =>
    unfold Buffered.countFrom
    apply (careful_uses hb).bind
    intro known' _ _ _
    apply (careful_lift _).bind
    intro known₂ bound _ _
    cases bound with
    | some bound => exact learns_pure trivial
    | none =>
      cases b.pin.view.rightSibling with
      | none => exact careful_chainEnd ht _ _ fun _ _ => learns_pure trivial
      | some right =>
        cases steps with
        | zero => exact learns_fail _
        | succ steps =>
          apply (careful_stepSibling ht _ _ _).bind
          intro known₃ next _ hnext
          exact ih steps (Nat.lt_succ_self _) _ _ hnext

theorem careful_countRange (ht : t ∈ f.trees) (lower upper : Bound) :
    Careful f (fun _ _ => True) (Buffered.countRange t lower upper) known := by
  apply (careful_lift _).bind
  intro known₁ _ _ _
  apply (careful_lift _).bind
  intro known₂ _ _ _
  apply (careful_lowerStart ht lower).bind
  intro known₃ start _ hstart
  rcases start with _ | ⟨b, index⟩
  · exact learns_pure trivial
  · exact careful_countFrom ht upper _ _ _ (hstart b index rfl)

/-! ## Cursors -/

/-- The cursor belongs to the tree, which has checked the page the cursor is on. -/
structure OnChecked (t : Tree) (known : Set Passed) (h : Buffered.HeldCursor) : Prop where
  tree : h.cursor.tree = t
  page : ∀ b, h.page = some b → (t.id, b) ∈ known

theorem OnChecked.mono {known' : Set Passed} {h : Buffered.HeldCursor} (ho : OnChecked t known h)
    (hsub : known ⊆ known') : OnChecked t known' h :=
  ⟨ho.tree, fun b hb => hsub (ho.page b hb)⟩

/-- A change of the cursor that leaves its tree and its page. -/
theorem OnChecked.keep {h : Buffered.HeldCursor} {c : Cursor} (ho : OnChecked t known h)
    (htree : c.tree = h.cursor.tree) (hpage : c.page = h.cursor.page) : OnChecked t known ⟨c, h.buffer⟩ := by
  refine ⟨htree.trans ho.tree, ?_⟩
  intro b hb
  apply ho.page b
  simpa [Buffered.HeldCursor.page, hpage] using hb

theorem careful_enter {c : Cursor} (hc : c.tree = t) (hb : (t.id, b) ∈ known) (index : Nat) :
    Careful f (OnChecked t) (Buffered.HeldCursor.enter c b index) known := by
  unfold Buffered.HeldCursor.enter
  rw [hc]
  apply (careful_uses hb).bind
  intro known' _ hsub _
  apply (careful_lift _).bind
  intro known₂ d hsub₂ hd
  apply learns_pure
  obtain ⟨⟨limit, ends⟩, -, hd⟩ := bind_eq_ok.1 hd
  cases hd
  refine ⟨rfl, ?_⟩
  intro b' hb'
  cases hb'
  exact hsub₂ (hsub hb)

theorem careful_nextPage {h : Buffered.HeldCursor} (ht : t ∈ f.trees) (ho : OnChecked t known h) :
    Careful f (fun known' r => OnChecked t known' r.2) h.nextPage known := by
  unfold Buffered.HeldCursor.nextPage
  apply Learns.ite
  · intro _
    exact learns_pure ho
  · intro _
    cases h.cursor.pageStepsLeft with
    | zero => exact learns_fail _
    | succ steps =>
      cases hp : h.cursor.page with
      | none =>
        simp only [hp]
        apply learns_pure
        exact ho.keep rfl hp.symm
      | some page =>
        simp only [hp, ho.tree]
        cases (if (h.cursor.order == Order.ascending) = true then page.view.rightSibling else page.view.leftSibling) with
        | none =>
          apply careful_chainEnd ht
          intro known' hsub
          apply learns_pure
          exact (ho.mono hsub).keep ho.tree.symm hp.symm
        | some sibling =>
          apply (careful_stepSibling ht _ _ _).bind
          intro known' b _ hb
          refine (careful_enter ?_ hb _).bind ?_
          · rfl
          · intro known₂ h' _ hh
            exact learns_pure hh

theorem careful_skipToValid {h : Buffered.HeldCursor} (ht : t ∈ f.trees) (steps : Nat) (ho : OnChecked t known h) :
    Careful f (fun known' r => OnChecked t known' r.2) (Buffered.HeldCursor.skipToValid steps h) known := by
  induction steps using Nat.strongRecOn generalizing h known with
  | ind steps ih =>
    unfold Buffered.HeldCursor.skipToValid
    cases h.cursor.page with
    | none => exact learns_pure ho
    | some page =>
      apply Learns.ite
      · intro _
        exact learns_pure ho
      · intro _
        apply (careful_nextPage ht ho).bind
        intro known' moved _ hmoved
        apply Learns.ite
        · intro _
          exact learns_pure hmoved
        · intro _
          cases steps with
          | zero => exact learns_fail _
          | succ steps => exact ih steps (Nat.lt_succ_self _) hmoved

theorem careful_leftward (ht : t ∈ f.trees) (steps : Nat) (b : PageBuffer) :
    Careful f (Found t) (Buffered.HeldCursor.leftward t steps b) known := by
  induction steps using Nat.strongRecOn generalizing b known with
  | ind steps ih =>
    unfold Buffered.HeldCursor.leftward
    cases b.pin.view.leftSibling with
    | none =>
      apply careful_chainEnd ht
      intro known' _
      apply learns_pure
      intro b i h
      cases h
    | some left =>
      cases steps with
      | zero => exact learns_fail _
      | succ steps =>
        apply (careful_stepSibling ht _ _ _).bind
        intro known' next _ hnext
        apply Learns.ite
        · intro _
          apply learns_pure
          intro b i h
          cases h
          exact hnext
        · intro _
          exact ih steps (Nat.lt_succ_self _) next

theorem careful_descendingStart (ht : t ∈ f.trees) (key : Bytes) (op : SearchOp) :
    Careful f (Found t) (Buffered.HeldCursor.descendingStart t key op) known := by
  apply (careful_search ht key op).bind
  intro known' found _ hfound
  rcases found with _ | ⟨b, index⟩
  · exact careful_edgeLeaf ht false
  · apply Learns.ite
    · intro _
      apply learns_pure
      intro b' i h
      cases h
      exact hfound b index rfl
    · intro _
      exact careful_leftward ht _ b

theorem careful_firstEntry {h : Buffered.HeldCursor} (ht : t ∈ f.trees) (ho : OnChecked t known h) :
    Careful f (Found t) h.firstEntry known := by
  unfold Buffered.HeldCursor.firstEntry
  rw [ho.tree]
  cases h.cursor.order with
  | ascending => exact careful_lowerStart ht _
  | descending =>
    cases h.cursor.range.upper with
    | unbounded => exact careful_edgeLeaf ht false
    | included k => exact careful_descendingStart ht k _
    | excluded k => exact careful_descendingStart ht k _

theorem careful_seekFirst {h : Buffered.HeldCursor} (ht : t ∈ f.trees) (ho : OnChecked t known h) :
    Careful f (fun known' r => OnChecked t known' r.2) h.seekFirst known := by
  apply (careful_firstEntry ht ho).bind
  intro known' start hsub hstart
  rcases start with _ | ⟨b, index⟩
  · exact learns_pure (ho.mono hsub)
  · apply (careful_enter ho.tree (hstart b index rfl) index).bind
    intro known₂ h' _ hh
    exact careful_skipToValid ht _ hh

theorem careful_step {h : Buffered.HeldCursor} (ht : t ∈ f.trees) (ho : OnChecked t known h) :
    Careful f (fun known' r => OnChecked t known' r.2) h.step known := by
  unfold Buffered.HeldCursor.step
  cases hs : h.cursor.stepInside with
  | some c =>
    apply learns_pure
    unfold Cursor.stepInside at hs
    apply ho.keep
    · split at hs <;> split at hs <;> cases hs <;> rfl
    · split at hs <;> split at hs <;> cases hs <;> rfl
  | none =>
    apply (careful_nextPage ht ho).bind
    intro known' moved _ hmoved
    apply Learns.ite
    · intro _
      exact learns_pure hmoved
    · intro _
      exact careful_skipToValid ht _ hmoved

theorem careful_chargeAtLeast (charged bytes : Nat) :
    Careful f (fun _ _ => True) (Buffered.HeldCursor.chargeAtLeast charged bytes) known := by
  apply Learns.ite
  · intro _
    exact learns_pure trivial
  · intro _
    apply (careful_reserve _).bind
    intro known' _ _ _
    exact learns_pure trivial

theorem careful_charge (b : KeyBuffer) (len : Nat) :
    Careful f (fun _ _ => True) (Buffered.HeldCursor.charge b len) known := by
  apply Learns.ite
  · intro _
    exact learns_pure trivial
  · intro _
    apply (careful_chargeAtLeast _ _).bind
    intro known' _ _ _
    exact learns_pure trivial

theorem careful_readKey (c : Cursor) (page : PagePin) (entry : LeafEntry) :
    Careful f (fun _ _ => True) (Buffered.HeldCursor.readKey c page entry) known := by
  apply Learns.ite
  · intro _
    exact learns_pure trivial
  · intro _
    cases c.tree.rebuiltKeyCapacity with
    | error e => exact learns_pure trivial
    | ok capacity =>
      apply (careful_charge _ _).attempt.bind
      intro known' charged _ _
      cases charged with
      | error e => exact learns_pure trivial
      | ok buf =>
        dsimp only
        split
        · exact learns_pure trivial
        · exact learns_pure trivial
        · apply (careful_chargeAtLeast _ _).attempt.bind
          intro known₂ charged _ _
          cases charged <;> exact learns_pure trivial

theorem careful_readValue (entry : LeafEntry) :
    Careful f (fun _ _ => True) (Buffered.HeldCursor.readValue entry) known := by
  unfold Buffered.HeldCursor.readValue
  cases entry.value with
  | inline offset len => exact learns_pure trivial
  | overflow page =>
    have hblob : Careful f (fun _ _ => True) (Walk.blob page) known := by
      apply (careful_page page).bind
      intro known' b _ _
      exact (careful_lift _).mono fun _ _ _ _ => trivial
    apply hblob.bind
    intro known' found _ _
    exact learns_pure trivial

theorem careful_materialize {h : Buffered.HeldCursor} (ho : OnChecked t known h) :
    Careful f (fun known' r => OnChecked t known' r.1) h.materialize known := by
  unfold Buffered.HeldCursor.materialize
  cases hp : h.cursor.page with
  | none => exact learns_pure ho
  | some page =>
    have hb : (h.cursor.tree.id, (⟨h.buffer, page⟩ : PageBuffer)) ∈ known := by
      rw [ho.tree]
      apply ho.page
      simp [Buffered.HeldCursor.page, hp]
    apply (careful_uses hb).bind
    intro known' _ hsub _
    cases page.view.leafEntry h.cursor.index with
    | error e => exact learns_pure (ho.mono hsub)
    | ok entry =>
      apply (careful_readKey _ _ _).bind
      intro known₂ read hsub₂ _
      have ho₂ : OnChecked t known₂ ⟨{ h.cursor with keyBuf := read.1 }, h.buffer⟩ :=
        (ho.mono (hsub.trans hsub₂)).keep rfl rfl
      obtain ⟨keyBuf, key⟩ := read
      cases key with
      | error e => exact learns_pure ho₂
      | ok key =>
        apply (careful_readValue entry).attempt.bind
        intro known₃ value hsub₃ _
        cases value with
        | error e => exact learns_pure (ho₂.mono hsub₃)
        | ok value => exact learns_pure ((ho₂.mono hsub₃).keep rfl rfl)

theorem careful_stepAndRead {h : Buffered.HeldCursor} (ht : t ∈ f.trees) (ho : OnChecked t known h) :
    Careful f (fun known' r => OnChecked t known' r.1) h.stepAndRead known := by
  have hmove : Careful f (fun known' r => OnChecked t known' r.2)
      (if h.cursor.started then h.step
        else Buffered.HeldCursor.seekFirst { h with cursor := { h.cursor with started := true } }) known := by
    apply Learns.ite
    · intro _
      exact careful_step ht ho
    · intro _
      exact careful_seekFirst ht (ho.keep rfl rfl)
  apply hmove.attempt.bind
  intro known' moved hsub hmoved
  rcases moved with e | ⟨more, h'⟩
  · exact learns_pure (ho.mono hsub)
  · have ho' := hmoved _ rfl
    cases more with
    | false =>
      apply learns_pure
      refine ⟨ho'.tree, ?_⟩
      intro b hb
      cases hb
    | true =>
      apply (careful_materialize ho').bind
      intro known₂ read _ hread
      exact learns_pure hread

/-- A cursor is put back on the page it was on, which its tree has checked. -/
theorem careful_advance {h : Buffered.HeldCursor} (ht : t ∈ f.trees) (ho : OnChecked t known h) :
    Careful f (fun known' r => OnChecked t known' r.1) h.advance known := by
  have hcleared : OnChecked t known ⟨{ h.cursor with current := none, blob := none }, h.buffer⟩ := ho.keep rfl rfl
  apply Learns.ite
  · intro _
    exact learns_pure hcleared
  · intro _
    apply (careful_stepAndRead ht hcleared).bind
    intro known' moved hsub hmoved
    obtain ⟨moved, result⟩ := moved
    cases result with
    | ok more => exact learns_pure hmoved
    | error e =>
      apply learns_pure
      refine ⟨hmoved.tree, ?_⟩
      intro b hb
      exact hsub (ho.page b hb)

theorem careful_advanceIndex {h : Buffered.HeldIndexCursor} (ht : t ∈ f.trees) (ho : OnChecked t known h.held) :
    Careful f (fun known' r => OnChecked t known' r.1.held) h.advance known := by
  have hinner : Careful f (fun known' r => OnChecked t known' r.1.held) h.advanceInner known := by
    apply (careful_advance ht ho).bind
    intro known' moved _ hmoved
    obtain ⟨inner, moved⟩ := moved
    rcases moved with e | _ | _
    · exact learns_pure hmoved
    · exact learns_pure hmoved
    · dsimp only
      split
      · exact learns_pure hmoved
      · apply (careful_charge _ _).attempt.bind
        intro known₂ charged hsub₂ _
        cases charged with
        | error e => exact learns_pure (hmoved.mono hsub₂)
        | ok key =>
          have hresolve : ∀ r known, Careful f (fun _ _ => True) (Buffered.HeldIndexCursor.resolveReference r) known := by
            intro r known
            apply (careful_page _).bind
            intro known' b _ _
            apply (careful_lift _).bind
            intro known₂ range _ _
            exact (careful_lift _).mono fun _ _ _ _ => trivial
          apply (hresolve _ _).attempt.bind
          intro known₃ guard hsub₃ _
          cases guard <;> exact learns_pure (hmoved.mono (hsub₂.trans hsub₃))
  apply hinner.bind
  intro known' moved hsub hmoved
  obtain ⟨moved, result⟩ := moved
  cases result with
  | ok more => exact learns_pure hmoved
  | error e =>
    apply learns_pure
    refine ⟨hmoved.tree, ?_⟩
    intro b hb
    exact hsub (ho.page b hb)

end

end DryDb
