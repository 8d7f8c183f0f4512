import DryDb.Reader.Visits
/-!
# Where the cached lookup goes

The cached lookup mixes downward and sideways moves in one loop. Downward moves count
against the depth only until the first leaf; sideways moves count against the number
of pages. A sideways move to an internal page starts a second descent, which counts
against nothing. `cachedTurns_finish_iff` says exactly when the loop ends: when no
sideways move of the lookup leads to a child chain that never leaves the internal
pages.
-/

namespace DryDb

namespace Tree

section
variable (t : Tree) (env : Env) (key : Bytes) (d : UInt64) {w : CachedWalk} {depth o : Nat} {pin : PagePin}

/-! ## The page graph the loop sees -/

/-- The cached page at an ordinal, once it has passed the tree's check. -/
def cachedAt (o : Nat) : Result (Option PagePin) :=
  match env (.pageCached o) with
  | none => .ok none
  | some pin => do
    (t.checkPage pin).run env
    .ok (some pin)

/-- The child the search for `key` goes to from the internal page at an ordinal. -/
def childAt (o : Nat) : Option Nat :=
  match t.cachedAt env o with
  | .ok (some pin) =>
    match pin.view.kind with
    | .leaf => none
    | .internal => (t.chooseChild key d o pin.view).toOption.map (·.1)
  | _ => none

/-- `n` steps down the chosen children. -/
def chase : Nat → Nat → Option Nat
  | 0, o => some o
  | n + 1, o => (t.childAt env key d o).bind (chase n)

/-- The chosen children never leave the internal pages, so in a finite file they cycle. -/
def Endless (o : Nat) : Prop := ∀ n, (t.chase env key d n o).isSome

/-- A lookup for `key` leaves this leaf for its right sibling: no entry matches and all
of them are below the key. -/
def Passes (pin : PagePin) (right : Nat) : Prop :=
  t.leafSearch pin.view key d .equal = .ok none ∧ t.endsBelow pin.view key d = .ok true ∧
    pin.view.rightSibling = some right

/-- The page a turn of the loop is on. -/
def turnPage (o : Nat) (current : Option PagePin) : Result (Option PagePin) :=
  match current with
  | some pin => .ok (some pin)
  | none => t.cachedAt env o

/-- The leaf a conservative descent over cached pages ends at, within `depth` levels. -/
def cachedDescent : Nat → Nat → Option PagePin → Bool → Option PagePin
  | 0, _, _, _ => none
  | depth + 1, o, current, conservative =>
    match t.turnPage env o current with
    | .ok (some pin) =>
      match pin.view.kind with
      | .leaf => if conservative then some pin else none
      | .internal =>
        match t.chooseChild key d o pin.view with
        | .ok (child, inexact) => cachedDescent depth child none (conservative || inexact)
        | .error _ => none
    | _ => none

/-- The first leaf of the lookup, when its descent was conservative. -/
def firstCachedLeaf : Option PagePin :=
  match t.rootPageCached.run env with
  | .ok (some root) => t.cachedDescent env key d t.store.limits.maxTreeDepth root.ordinal (some root) false
  | _ => none

/-- The leaves of the lookup, by the number of sideways moves before them: from each it
goes to the right sibling, and from there down the chosen children to the next leaf. -/
inductive CachedLeaf : Nat → PagePin → Prop
  | first {pin : PagePin} : t.firstCachedLeaf env key d = some pin → CachedLeaf 0 pin
  | next {n m right o : Nat} {pin pin' : PagePin} : CachedLeaf n pin → n ≤ t.store.pageCount →
      t.Passes key d pin right → t.chase env key d m right = some o → t.cachedAt env o = .ok (some pin') →
      pin'.view.kind = .leaf → CachedLeaf (n + 1) pin'

/-- A sideways move of the lookup leads into a cycle of child links. -/
def SidewaysCycle : Prop :=
  ∃ n pin right, t.CachedLeaf env key d n pin ∧ n ≤ t.store.pageCount ∧ t.Passes key d pin right ∧
    t.Endless env key d right

/-! ## One turn -/

theorem run_currentCached (w : CachedWalk) : (t.currentCached w).run env = t.turnPage env w.ordinal w.current := by
  unfold currentCached turnPage cachedAt
  cases w.current with
  | some pin => rfl
  | none =>
    simp only [Program.run_bind, Read.run_pageCached, ok_bind]
    cases env (.pageCached w.ordinal) <;> simp

/-- One turn of the loop under the answers of `env`. -/
def turn (w : CachedWalk) : Result (CachedWalk ⊕ CachedFind) := (t.cachedTurn key d w).run env

/-- The loop ends from here. -/
def Stops (w : CachedWalk) : Prop := ∃ turns, (t.cachedTurns key d turns w).run env ≠ .ok none

theorem run_cachedTurns_succ (n : Nat) (w : CachedWalk) :
    (t.cachedTurns key d (n + 1) w).run env = match t.turn env key d w with
      | .error e => .error e
      | .ok (.inl w') => (t.cachedTurns key d n w').run env
      | .ok (.inr found) => .ok (some found) := by
  rw [cachedTurns, Program.run_bind, ← turn]
  cases t.turn env key d w with
  | error e => rfl
  | ok r => cases r <;> rfl

theorem stops_of_error {e : Error} (h : t.turn env key d w = .error e) : t.Stops env key d w :=
  ⟨1, by simp [run_cachedTurns_succ, h]⟩

theorem stops_of_found {f : CachedFind} (h : t.turn env key d w = .ok (.inr f)) :
    t.Stops env key d w :=
  ⟨1, by simp [run_cachedTurns_succ, h]⟩

theorem stops_step_iff {w' : CachedWalk} (h : t.turn env key d w = .ok (.inl w')) :
    t.Stops env key d w ↔ t.Stops env key d w' := by
  constructor
  · rintro ⟨n, hn⟩
    cases n with
    | zero => exact absurd rfl hn
    | succ n => exact ⟨n, by simpa [run_cachedTurns_succ, h] using hn⟩
  · rintro ⟨n, hn⟩
    exact ⟨n + 1, by simpa [run_cachedTurns_succ, h] using hn⟩

/-- What a turn does after the first leaf. -/
theorem turn_side (hd : w.descending = false) :
    t.turn env key d w = match t.turnPage env w.ordinal w.current with
      | .error e => .error e
      | .ok none => .ok (.inr none)
      | .ok (some pin) => t.cachedTurnOn key d w pin := by
  unfold turn cachedTurn
  simp only [hd, Bool.false_eq_true, false_and, if_false, Program.run_bind, run_currentCached]
  cases t.turnPage env w.ordinal w.current with
  | error e => rfl
  | ok r => cases r <;> simp

/-- What a turn does on the way down. -/
theorem turn_down (hd : w.descending = true) (hw : w.depthLeft = depth + 1) :
    t.turn env key d w = match t.turnPage env w.ordinal w.current with
      | .error e => .error e
      | .ok none => .ok (.inr none)
      | .ok (some pin) => t.cachedTurnOn key d { w with depthLeft := depth } pin := by
  unfold turn cachedTurn
  simp only [hd, hw, Nat.add_eq_zero_iff, one_ne_zero, and_false, if_false, if_true, Nat.add_sub_cancel,
    Program.run_bind, run_currentCached]
  cases t.turnPage env w.ordinal w.current with
  | error e => rfl
  | ok r => cases r <;> simp

/-! ## After the first leaf -/

/-- A walk that has been at a leaf: only its place and the sideways moves left matter. -/
def sideWalk (o steps depth : Nat) : CachedWalk where
  ordinal := o
  current := none
  conservative := true
  stepsLeft := steps
  depthLeft := depth
  descending := false

theorem cachedTurnOn_internal (hk : pin.view.kind = .internal) :
    t.cachedTurnOn key d w pin = match t.chooseChild key d w.ordinal pin.view with
      | .error e => .error e
      | .ok (child, inexact) =>
        .ok (.inl { w with ordinal := child, current := none, conservative := w.conservative || inexact }) := by
  unfold cachedTurnOn
  rw [hk]
  cases t.chooseChild key d w.ordinal pin.view <;> rfl

/-- A turn on a leaf answers or fails, unless the lookup passes it with moves left. -/
theorem cachedTurnOn_leaf (hk : pin.view.kind = .leaf) :
    (∃ e, t.cachedTurnOn key d w pin = .error e) ∨ (∃ f, t.cachedTurnOn key d w pin = .ok (.inr f)) ∨
      ∃ right steps, w.conservative = true ∧ t.Passes key d pin right ∧ w.stepsLeft = steps + 1 ∧
        t.cachedTurnOn key d w pin =
          .ok (.inl { w with ordinal := right, current := none, stepsLeft := steps, descending := false }) := by
  unfold cachedTurnOn
  simp only [hk]
  cases hs : t.leafSearch pin.view key d .equal with
  | error e => simp
  | ok found =>
    cases found with
    | some index => simp
    | none =>
      cases hc : w.conservative with
      | false => simp [stopsHere]
      | true =>
        simp only [ok_bind, stopsHere, if_true]
        cases hb : t.endsBelow pin.view key d with
        | error e => simp
        | ok below =>
          cases below with
          | false => simp
          | true =>
            cases hr : pin.view.rightSibling with
            | none => simp
            | some right =>
              cases hsteps : w.stepsLeft with
              | zero => simp
              | succ steps =>
                refine .inr (.inr ⟨right, steps, trivial, ⟨hs, hb, hr⟩, rfl, ?_⟩)
                simp

theorem cachedTurnOn_passes {right steps : Nat} (hk : pin.view.kind = .leaf)
    (hc : w.conservative = true) (hp : t.Passes key d pin right) (hs : w.stepsLeft = steps + 1) :
    t.cachedTurnOn key d w pin =
      .ok (.inl { w with ordinal := right, current := none, stepsLeft := steps, descending := false }) := by
  obtain ⟨hfind, hbelow, hright⟩ := hp
  unfold cachedTurnOn
  simp [hk, hfind, stopsHere, hc, hbelow, hright, hs]

theorem childAt_eq_some {child : Nat} :
    t.childAt env key d o = some child ↔
      ∃ pin inexact, t.cachedAt env o = .ok (some pin) ∧ pin.view.kind = .internal ∧
        t.chooseChild key d o pin.view = .ok (child, inexact) := by
  unfold childAt
  constructor
  · intro h
    split at h
    · rename_i pin hpin
      split at h
      · cases h
      · rename_i hk
        cases hc : t.chooseChild key d o pin.view with
        | error e => simp [hc, Except.toOption] at h
        | ok r =>
          simp only [hc, Except.toOption, Option.map_some, Option.some.injEq] at h
          exact ⟨pin, r.2, hpin, hk, by rw [hc, ← h]⟩
    · cases h
  · rintro ⟨pin, inexact, hpin, hk, hc⟩
    simp [hpin, hk, hc, Except.toOption]

/-- On a child link the walk goes down, and keeps what it has. -/
theorem turn_sideWalk_child {child steps : Nat} (h : t.childAt env key d o = some child) :
    t.turn env key d (sideWalk o steps depth) = .ok (.inl (sideWalk child steps depth)) := by
  obtain ⟨pin, inexact, hpin, hk, hc⟩ := (t.childAt_eq_some env key d).mp h
  rw [turn_side t env key d rfl]
  simp only [sideWalk, turnPage, hpin]
  rw [cachedTurnOn_internal t key d hk]
  simp [hc]

/-- A walk on an endless child chain never ends. -/
theorem not_stops_of_endless (steps depth : Nat) (h : t.Endless env key d o) :
    ¬ t.Stops env key d (sideWalk o steps depth) := by
  rintro ⟨n, hn⟩
  induction n generalizing o with
  | zero => exact hn rfl
  | succ n ih =>
    have hone := h 1
    obtain ⟨child, hchild⟩ : ∃ c, t.childAt env key d o = some c := by
      cases hc : t.childAt env key d o with
      | none => simp [chase, hc] at hone
      | some c => exact ⟨c, rfl⟩
    refine ih (fun m => ?_) (o := child) ?_
    · simpa [chase, hchild] using h (m + 1)
    · simpa [run_cachedTurns_succ, turn_sideWalk_child t env key d hchild] using hn

/-- After the first leaf the walk ends when no sideways move meets an endless chain. The
outer induction is on the sideways moves left, the inner one on the child chain. -/
theorem stops_sideWalk (hno : ¬ t.SidewaysCycle env key d) (depth : Nat) :
    ∀ steps o, steps ≤ t.store.pageCount + 1 → ¬ t.Endless env key d o →
      (∀ m o' pin, t.chase env key d m o = some o' → t.cachedAt env o' = .ok (some pin) → pin.view.kind = .leaf →
        t.CachedLeaf env key d (t.store.pageCount + 1 - steps) pin) →
      t.Stops env key d (sideWalk o steps depth) := by
  intro steps
  induction steps using Nat.strong_induction_on with
  | _ steps ihSteps =>
    intro o hsteps hend hleaf
    obtain ⟨m, hm⟩ : ∃ m, t.chase env key d m o = none := by
      by_contra hall
      exact hend fun m => Option.isSome_iff_ne_none.mpr fun hm => hall ⟨m, hm⟩
    clear hend
    induction m generalizing o with
    | zero => cases hm
    | succ m ihChain =>
      cases hc : t.childAt env key d o with
      | some child =>
        rw [stops_step_iff t env key d (turn_sideWalk_child t env key d hc)]
        refine ihChain child (fun m' o' pin ho' => hleaf (m' + 1) o' pin ?_) ?_
        · simpa [chase, hc] using ho'
        · simpa [chase, hc] using hm
      | none =>
        have hturn := turn_side t env key d (w := sideWalk o steps depth) rfl
        simp only [sideWalk, turnPage] at hturn
        cases hp : t.cachedAt env o with
        | error e =>
          simp only [hp] at hturn
          exact stops_of_error t env key d hturn
        | ok r =>
          cases r with
          | none =>
            simp only [hp] at hturn
            exact stops_of_found t env key d hturn
          | some pin =>
            simp only [hp] at hturn
            cases hk : pin.view.kind with
            | internal =>
              rw [cachedTurnOn_internal t key d hk] at hturn
              cases hch : t.chooseChild key d o pin.view with
              | error e =>
                simp only [hch] at hturn
                exact stops_of_error t env key d hturn
              | ok r =>
                have := (t.childAt_eq_some env key d).mpr ⟨pin, r.2, hp, hk, hch⟩
                rw [hc] at this
                cases this
            | leaf =>
              have hcl := hleaf 0 o pin rfl hp hk
              rcases cachedTurnOn_leaf t key d (w := sideWalk o steps depth) hk with
                ⟨e, he⟩ | ⟨f, hf⟩ | ⟨right, steps', -, hpass, hs, hstep⟩
              · exact stops_of_error t env key d (hturn.trans he)
              · exact stops_of_found t env key d (hturn.trans hf)
              · -- A sideways move: one fewer is left, and the leaves below it are leaves of the lookup.
                refine (stops_step_iff t env key d (hturn.trans hstep)).mpr ?_
                simp only [sideWalk] at hs
                have hn : t.store.pageCount + 1 - steps ≤ t.store.pageCount := by omega
                refine ihSteps steps' (by omega) right (by omega) ?_ ?_
                · intro hend
                  exact hno ⟨_, pin, right, hcl, hn, hpass, hend⟩
                · intro m' o' pin' ho' hpin' hk'
                  have := CachedLeaf.next hcl hn hpass ho' hpin' hk'
                  rwa [show t.store.pageCount + 1 - steps + 1 = t.store.pageCount + 1 - steps' by omega] at this

/-! ## The first descent -/

/-- A walk that has not been at a leaf yet. -/
def downWalk (o : Nat) (current : Option PagePin) (conservative : Bool) (depth : Nat) : CachedWalk where
  ordinal := o
  current := current
  conservative := conservative
  stepsLeft := t.store.pageCount + 1
  depthLeft := depth
  descending := true

/-- The descent is counted, so whether the walk ends is decided behind the leaf a
conservative descent reaches. -/
theorem stops_downWalk (depth o : Nat) (current : Option PagePin) (conservative : Bool) :
    ∃ depth', t.Stops env key d (t.downWalk o current conservative depth) ↔
      ∀ pin right, t.cachedDescent env key d depth o current conservative = some pin → t.Passes key d pin right →
        t.Stops env key d (sideWalk right t.store.pageCount depth') := by
  induction depth generalizing o current conservative with
  | zero =>
    have hturn : t.turn env key d (t.downWalk o current conservative 0) = .error t.tooDeep := by
      simp [turn, cachedTurn, downWalk]
    exact ⟨0, by simp [stops_of_error t env key d hturn, cachedDescent]⟩
  | succ depth ih =>
    have hturn := turn_down t env key d (w := t.downWalk o current conservative (depth + 1)) rfl rfl
    simp only [downWalk] at hturn
    simp only [cachedDescent]
    cases hp : t.turnPage env o current with
    | error e =>
      simp only [hp] at hturn
      exact ⟨0, by simp [downWalk, stops_of_error t env key d hturn]⟩
    | ok r =>
      cases r with
      | none =>
        simp only [hp] at hturn
        exact ⟨0, by simp [downWalk, stops_of_found t env key d hturn]⟩
      | some pin =>
        simp only [hp] at hturn
        cases hk : pin.view.kind with
        | internal =>
          rw [cachedTurnOn_internal t key d hk] at hturn
          cases hch : t.chooseChild key d o pin.view with
          | error e =>
            simp only [hch] at hturn
            exact ⟨0, by simp [downWalk, stops_of_error t env key d hturn, hk, hch]⟩
          | ok r =>
            simp only [hch] at hturn
            obtain ⟨depth', hiff⟩ := ih r.1 none (conservative || r.2)
            simp only [hk, hch]
            exact ⟨depth', (stops_step_iff t env key d hturn).trans hiff⟩
        | leaf =>
          refine ⟨depth, ?_⟩
          simp only [hk]
          rcases cachedTurnOn_leaf t key d (w := { t.downWalk o current conservative (depth + 1) with
              depthLeft := depth }) hk with ⟨e, he⟩ | ⟨f, hf⟩ | ⟨right, steps, hc, hpass, hs, hstep⟩
          · refine iff_of_true (stops_of_error t env key d (hturn.trans he)) fun pin' right hpin hpass => ?_
            cases conservative with
            | false => cases hpin
            | true =>
              cases hpin
              rw [cachedTurnOn_passes t key d hk rfl hpass rfl] at he
              cases he
          · refine iff_of_true (stops_of_found t env key d (hturn.trans hf)) fun pin' right hpin hpass => ?_
            cases conservative with
            | false => cases hpin
            | true =>
              cases hpin
              rw [cachedTurnOn_passes t key d hk rfl hpass rfl] at hf
              cases hf
          · simp only [downWalk] at hc hs
            subst hc
            obtain rfl : steps = t.store.pageCount := by omega
            refine (stops_step_iff t env key d (hturn.trans hstep)).trans ⟨fun h pin' right' hpin hpass' => ?_, fun h => ?_⟩
            · cases hpin
              cases hpass.2.2.symm.trans hpass'.2.2
              exact h
            · exact h pin right rfl hpass

/-- Going down child links decides nothing. -/
theorem stops_chase {m o' : Nat} (steps depth : Nat) (h : t.chase env key d m o = some o') :
    t.Stops env key d (sideWalk o steps depth) ↔ t.Stops env key d (sideWalk o' steps depth) := by
  induction m generalizing o with
  | zero =>
    cases h
    exact Iff.rfl
  | succ m ih =>
    obtain ⟨child, hchild, hrest⟩ := Option.bind_eq_some_iff.mp h
    exact (stops_step_iff t env key d (turn_sideWalk_child t env key d hchild)).trans (ih hrest)

/-- A walk that ends, ends from every leaf of the lookup on. -/
theorem stops_behind_leaf (h : ∀ pin right, t.firstCachedLeaf env key d = some pin → t.Passes key d pin right →
      t.Stops env key d (sideWalk right t.store.pageCount depth))
    {n : Nat} (hleaf : t.CachedLeaf env key d n pin) (hn : n ≤ t.store.pageCount) {right : Nat}
    (hpass : t.Passes key d pin right) : t.Stops env key d (sideWalk right (t.store.pageCount - n) depth) := by
  induction hleaf generalizing right with
  | first hfirst => exact h _ _ hfirst hpass
  | @next n m right' o pin pin' _ hn' hpass' hchase hpin' hk' ih =>
    have hstop := (stops_chase t env key d _ depth hchase).mp (ih hn' hpass')
    have hturn := turn_side t env key d (w := sideWalk o (t.store.pageCount - n) depth) rfl
    simp only [sideWalk, turnPage, hpin'] at hturn
    rw [cachedTurnOn_passes t key d hk' rfl hpass
      (show _ = t.store.pageCount - (n + 1) + 1 by dsimp only; omega)] at hturn
    exact (stops_step_iff t env key d hturn).mp hstop

/-- When the loop of the cached lookup ends. -/
theorem cachedTurns_finish_iff {root : PagePin} (hroot : t.rootPageCached.run env = .ok (some root)) :
    t.Stops env key d (t.cachedStart root) ↔ ¬ t.SidewaysCycle env key d := by
  obtain ⟨depth', hiff⟩ := stops_downWalk t env key d t.store.limits.maxTreeDepth root.ordinal (some root) false
  have hfirst : t.firstCachedLeaf env key d =
      t.cachedDescent env key d t.store.limits.maxTreeDepth root.ordinal (some root) false := by
    simp [firstCachedLeaf, hroot]
  refine hiff.trans ⟨fun h hcycle => ?_, fun hno pin right hpin hpass => ?_⟩
  · obtain ⟨n, pin, right, hleaf, hn, hpass, hend⟩ := hcycle
    rw [← hfirst] at h
    exact not_stops_of_endless t env key d _ depth' hend (stops_behind_leaf t env key d h hleaf hn hpass)
  · have hleaf : t.CachedLeaf env key d 0 pin := .first (hfirst.trans hpin)
    refine stops_sideWalk t env key d hno depth' t.store.pageCount right (by omega) ?_ ?_
    · intro hend
      exact hno ⟨0, pin, right, hleaf, Nat.zero_le _, hpass, hend⟩
    · intro m o pin' ho hpin' hk'
      have := CachedLeaf.next hleaf (Nat.zero_le _) hpass ho hpin' hk'
      rwa [show 0 + 1 = t.store.pageCount + 1 - t.store.pageCount by omega] at this

end

end Tree

end DryDb
