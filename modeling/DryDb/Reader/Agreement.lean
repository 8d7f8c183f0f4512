import DryDb.Reader.CachedWalk
import DryDb.Reader.Image
/-!
# Cached and ordinary lookups

`get_cached` descends like `get` and answers from the leaf it reaches in the same way.
Where a conservative descent makes both walk to the right, `get` checks every link it
follows and, at the end of the chain, that the tree ends there; `get_cached` checks
neither. `getCached_agrees_iff` says that an answer of the cached lookup is the answer
of `get` exactly when those checks would have passed.
-/

namespace DryDb

open Program

namespace Tree

section
variable {t : Tree} {env : Env} {key : Bytes} {d : UInt64} {pin root : PagePin} {steps : Nat} {w : CachedWalk}
  {found : Option (PagePin × Nat)}

/-! ## The same pages -/

theorem fetch_of_cachedAt (h : env.Honest t) {o : Nat} (hc : t.cachedAt env o = .ok (some pin)) :
    t.fetch env o = .ok pin := by
  unfold cachedAt at hc
  cases hp : env (.pageCached o) with
  | none => simp [hp] at hc
  | some p =>
    simp only [hp, bind_eq_ok, Except.ok.injEq, Option.some.injEq, h.run_checkPage] at hc
    obtain ⟨⟨⟩, hadmits, rfl⟩ := hc
    exact fetch_eq_ok.mpr ⟨h.cached o p hp, hadmits⟩

theorem root_of_rootPageCached (h : env.Honest t)
    (hr : t.rootPageCached.run env = .ok (some root)) : ∃ r, t.root = some r ∧ t.fetch env r = .ok root := by
  unfold rootPageCached at hr
  simp only [run_bind, Read.run_retainedRoot, ok_bind] at hr
  cases hk : env (.retainedRoot t.id) with
  | some pin =>
    simp only [hk, run_pure, Except.ok.injEq, Option.some.injEq] at hr
    subst hr
    exact h.retained pin hk
  | none =>
    simp only [hk] at hr
    cases hroot : t.root with
    | none => simp [hroot] at hr
    | some r =>
      simp only [hroot, run_bind, Read.run_pageCached, ok_bind] at hr
      cases hp : env (.pageCached r) with
      | none => simp [hp] at hr
      | some pin =>
        simp only [hp, run_bind, h.run_checkPage, bind_eq_ok, run_pure, Except.ok.injEq,
          Option.some.injEq] at hr
        obtain ⟨⟨⟩, hadmits, rfl⟩ := hr
        exact ⟨r, rfl, fetch_eq_ok.mpr ⟨h.cached r pin hp, hadmits⟩⟩

/-! ## Links that `get` accepts -/

/-- The lookup neither finds its key on this leaf nor knows that it comes before. -/
def PassesOver (t : Tree) (key : Bytes) (d : UInt64) (pin : PagePin) : Prop :=
  t.leafSearch pin.view key d .equal = .ok none ∧ t.endsBelow pin.view key d = .ok true

/-- The links a lookup of `key` follows from this leaf: every page it comes to is a leaf
of the tree that points back, and a chain that stops does so where the tree ends. -/
def LinksHold (t : Tree) (env : Env) (key : Bytes) (d : UInt64) (steps : Nat) (pin : PagePin) : Prop :=
  t.PassesOver key d pin →
    match pin.view.rightSibling with
    | none => (t.endsAt pin.ordinal true).run env = .ok true
    | some right =>
      match steps with
      | 0 => True
      | steps + 1 =>
        ∃ next, t.fetch env right = .ok next ∧ next.view.kind = .leaf ∧
          next.view.leftSibling = some pin.ordinal ∧ LinksHold t env key d steps next

theorem linksHold_of_not_passesOver (h : ¬ t.PassesOver key d pin) :
    t.LinksHold env key d steps pin := by
  unfold LinksHold
  exact fun hp => absurd hp h

/-- A cached walk answers from this leaf, with `steps` sideways moves left. -/
def AnswersAt (t : Tree) (env : Env) (key : Bytes) (d : UInt64) (w : CachedWalk) (pin : PagePin)
    (found : Option (PagePin × Nat)) : Prop :=
  t.cachedTurnOn key d w pin = .ok (.inr (some found)) ∨
    ∃ w' n, t.cachedTurnOn key d w pin = .ok (.inl w') ∧ (t.cachedTurns key d n w').run env = .ok (some (some found))

/-- How a turn on a leaf comes to an answer. -/
theorem cachedTurnOn_leaf_eq (hk : pin.view.kind = .leaf) (ha : t.cachedTurnOn key d w pin = .ok (.inr (some found))) :
    (∃ index, t.leafSearch pin.view key d .equal = .ok (some index) ∧ found = some (pin, index)) ∨
      (found = none ∧ t.leafSearch pin.view key d .equal = .ok none ∧
        t.stopsHere pin.view key d .equal w.conservative = .ok true) ∨
      (found = none ∧ w.conservative = true ∧ t.PassesOver key d pin ∧ pin.view.rightSibling = none) := by
  unfold cachedTurnOn at ha
  simp only [hk] at ha
  cases hs : t.leafSearch pin.view key d .equal with
  | error e => simp [hs] at ha
  | ok r =>
    cases r with
    | some index =>
      simp only [hs, ok_bind, Except.ok.injEq, Sum.inr.injEq, Option.some.injEq] at ha
      exact .inl ⟨index, rfl, ha.symm⟩
    | none =>
      simp only [hs, ok_bind] at ha
      cases hstop : t.stopsHere pin.view key d .equal w.conservative with
      | error e => simp [hstop] at ha
      | ok stops =>
        cases stops with
        | true =>
          simp only [hstop, ok_bind, if_true, Except.ok.injEq, Sum.inr.injEq, Option.some.injEq] at ha
          exact .inr (.inl ⟨ha.symm, rfl, rfl⟩)
        | false =>
          simp only [hstop, ok_bind, Bool.false_eq_true, if_false] at ha
          have hpass : w.conservative = true ∧ t.endsBelow pin.view key d = .ok true := by
            unfold stopsHere at hstop
            cases hc : w.conservative with
            | false => simp [hc] at hstop
            | true =>
              simp only [hc, if_true, bind_eq_ok, Except.ok.injEq, Bool.not_eq_false'] at hstop
              obtain ⟨below, hb, rfl⟩ := hstop
              exact ⟨rfl, hb⟩
          cases hr : pin.view.rightSibling with
          | none =>
            simp only [hr, Except.ok.injEq, Sum.inr.injEq, Option.some.injEq] at ha
            exact .inr (.inr ⟨ha.symm, hpass.1, ⟨hs, hpass.2⟩, rfl⟩)
          | some right =>
            simp only [hr] at ha
            cases hsteps : w.stepsLeft with
            | zero => simp [hsteps] at ha
            | succ n => simp [hsteps] at ha

/-! ## The walk to the right -/

theorem stopsHere_of_passesOver (hp : t.PassesOver key d pin) :
    t.stopsHere pin.view key d .equal true = .ok false := by
  simp [stopsHere, hp.2]

/-- Passing a leaf with a right sibling, the ordinary walk steps there with its checks. -/
theorem run_searchFrom_passes {right : Nat} (hp : t.PassesOver key d pin) (hr : pin.view.rightSibling = some right) :
    (t.searchFrom key d .equal true (steps + 1) pin).run env =
      ((t.stepSibling pin.ordinal right true).run env >>= fun next =>
        (t.searchFrom key d .equal true steps next).run env) := by
  rw [searchFrom]
  simp [hp.1, stopsHere_of_passesOver hp, hr]

theorem not_linksHold_of_stepSibling_error (h : env.Honest t) {right : Nat} {e : Error}
    (hp : t.PassesOver key d pin) (hr : pin.view.rightSibling = some right)
    (he : (t.stepSibling pin.ordinal right true).run env = .error e) :
    ¬ t.LinksHold env key d (steps + 1) pin := by
  intro hl
  unfold LinksHold at hl
  simp only [hr] at hl
  obtain ⟨next, hf, hk, hb, -⟩ := hl hp
  rw [h.stepSibling_eq_ok.mpr ⟨hf, hk, by simpa using hb⟩] at he
  cases he

/-- From one leaf on, either the links hold and the ordinary walk finds what the cached
one found, or they do not and it reports damage. The induction is on the moves left. -/
theorem searchFrom_agrees (h : env.Honest t) (steps : Nat) :
    ∀ (w : CachedWalk) (pin : PagePin) (found : Option (PagePin × Nat)), w.conservative = true →
      w.stepsLeft = steps → pin.view.kind = .leaf → t.AnswersAt env key d w pin found →
      (t.LinksHold env key d steps pin ∧ (t.searchFrom key d .equal true steps pin).run env = .ok found) ∨
        (¬ t.LinksHold env key d steps pin ∧ ∃ e, (t.searchFrom key d .equal true steps pin).run env = .error e) := by
  induction steps with
  | zero =>
    intro w pin found hc hs hk ha
    rcases ha with ha | ⟨w', n, hstep, -⟩
    · exact answers_here h hc hk ha
    · rcases cachedTurnOn_leaf t key d (w := w) hk with ⟨e, he⟩ | ⟨f, hf⟩ | ⟨right, steps', -, -, hs', -⟩
      · rw [he] at hstep
        cases hstep
      · rw [hf] at hstep
        cases hstep
      · omega
  | succ steps ih =>
    intro w pin found hc hs hk ha
    rcases ha with ha | ⟨w', n, hstep, hrun⟩
    · exact answers_here h hc hk ha
    · rcases cachedTurnOn_leaf t key d (w := w) hk with ⟨e, he⟩ | ⟨f, hf⟩ | ⟨right, steps', -, hpass, hs', hstep'⟩
      · rw [he] at hstep
        cases hstep
      · rw [hf] at hstep
        cases hstep
      · rw [hstep'] at hstep
        cases hstep
        obtain rfl : steps' = steps := by omega
        have hp : t.PassesOver key d pin := ⟨hpass.1, hpass.2.1⟩
        rw [run_searchFrom_passes hp hpass.2.2]
        cases hsib : (t.stepSibling pin.ordinal right true).run env with
        | error e => exact .inr ⟨not_linksHold_of_stepSibling_error h hp hpass.2.2 hsib, e, rfl⟩
        | ok next =>
          obtain ⟨hfetch, hkind, hback⟩ := h.stepSibling_eq_ok.mp hsib
          -- The cached walk goes on from the same page.
          have hnext : t.AnswersAt env key d
              { w with ordinal := right, current := none, stepsLeft := steps', descending := false } next found := by
            cases n with
            | zero => cases hrun
            | succ n =>
              rw [run_cachedTurns_succ, turn_side t env key d rfl] at hrun
              simp only [turnPage] at hrun
              cases hcached : t.cachedAt env right with
              | error e => simp [hcached] at hrun
              | ok r =>
                cases r with
                | none => simp [hcached] at hrun
                | some p =>
                  have hp' := fetch_of_cachedAt h hcached
                  rw [hfetch] at hp'
                  cases hp'
                  simp only [hcached] at hrun
                  split at hrun
                  · cases hrun
                  · rename_i w'' hw''
                    exact .inr ⟨w'', n, hw'', hrun⟩
                  · rename_i f hf
                    cases hrun
                    exact .inl hf
          have hlinks : t.LinksHold env key d (steps' + 1) pin ↔ t.LinksHold env key d steps' next := by
            conv_lhs => unfold LinksHold
            simp only [hp, hpass.2.2, forall_const]
            constructor
            · rintro ⟨next', hf', -, -, hl⟩
              rw [hfetch] at hf'
              cases hf'
              exact hl
            · intro hl
              exact ⟨next, hfetch, hkind, by simpa using hback, hl⟩
          rw [hlinks]
          exact ih { w with ordinal := right, current := none, stepsLeft := steps', descending := false } next found
            hc rfl hkind hnext
where
  /-- The case of an answer on the leaf itself. -/
  answers_here {steps : Nat} {w : CachedWalk} {pin : PagePin} {found : Option (PagePin × Nat)} (_ : env.Honest t)
      (hc : w.conservative = true) (hk : pin.view.kind = .leaf)
      (ha : t.cachedTurnOn key d w pin = .ok (.inr (some found))) :
      (t.LinksHold env key d steps pin ∧ (t.searchFrom key d .equal true steps pin).run env = .ok found) ∨
        (¬ t.LinksHold env key d steps pin ∧ ∃ e, (t.searchFrom key d .equal true steps pin).run env = .error e) := by
    rw [searchFrom.eq_def]
    rcases cachedTurnOn_leaf_eq hk ha with ⟨index, hs, rfl⟩ | ⟨rfl, hs, hstop⟩ | ⟨rfl, -, hp, hr⟩
    · refine .inl ⟨linksHold_of_not_passesOver fun hp => ?_, by simp [hs]⟩
      cases hs.symm.trans hp.1
    · rw [hc] at hstop
      refine .inl ⟨linksHold_of_not_passesOver fun hp => ?_, by simp [hs, hstop]⟩
      cases hstop.symm.trans (stopsHere_of_passesOver hp)
    · have hlinks : t.LinksHold env key d steps pin ↔ (t.endsAt pin.ordinal true).run env = .ok true := by
        unfold LinksHold
        simp [hp, hr]
      rw [hlinks]
      simp only [hp.1, stopsHere_of_passesOver hp, hr, run_bind, run_liftM, ok_bind,
        Bool.false_eq_true, if_false, run_ite, run_pure, run_fail]
      cases (t.endsAt pin.ordinal true).run env with
      | error e => simp
      | ok ends => cases ends <;> simp

/-! ## The descent -/

/-- A cached walk that answers has descended to the leaf the ordinary one descends to. -/
theorem descendFrom_of_answer (h : env.Honest t) :
    ∀ (depth o : Nat) (current : Option PagePin) (conservative : Bool) (n : Nat),
      (∀ pin, current = some pin → t.fetch env o = .ok pin) →
      (t.cachedTurns key d n (t.downWalk o current conservative depth)).run env = .ok (some (some found)) →
      ∃ leaf c w, (t.descendFrom key d depth o current conservative).run env = .ok (leaf, c) ∧
        leaf.view.kind = .leaf ∧ w.conservative = c ∧ w.stepsLeft = t.store.pageCount + 1 ∧
        t.AnswersAt env key d w leaf found := by
  intro depth
  induction depth with
  | zero =>
    intro o current conservative n _ hrun
    cases n with
    | zero => cases hrun
    | succ n =>
      rw [run_cachedTurns_succ] at hrun
      simp [turn, cachedTurn, downWalk] at hrun
  | succ depth ih =>
    intro o current conservative n hcur hrun
    cases n with
    | zero => cases hrun
    | succ n =>
      rw [run_cachedTurns_succ, turn_down t env key d rfl rfl] at hrun
      simp only [downWalk] at hrun
      cases hp : t.turnPage env o current with
      | error e => simp [hp] at hrun
      | ok r =>
        cases r with
        | none => simp [hp] at hrun
        | some pin =>
          simp only [hp] at hrun
          have hfetch : t.fetch env o = .ok pin := by
            cases hc : current with
            | some p =>
              simp only [turnPage, hc, Except.ok.injEq, Option.some.injEq] at hp
              exact hp ▸ hcur p hc
            | none =>
              simp only [turnPage, hc] at hp
              exact fetch_of_cachedAt h hp
          rw [descendFrom, run_bind, h.run_currentPage hcur, hfetch, ok_bind]
          cases hk : pin.view.kind with
          | leaf =>
            refine ⟨pin, conservative, { t.downWalk o current conservative (depth + 1) with depthLeft := depth }, rfl,
              hk, rfl, rfl, ?_⟩
            split at hrun
            · cases hrun
            · rename_i w' hw'
              exact .inr ⟨w', n, hw', hrun⟩
            · rename_i f hf
              cases hrun
              exact .inl hf
          | internal =>
            rw [cachedTurnOn_internal t key d hk] at hrun
            cases hch : t.chooseChild key d o pin.view with
            | error e => simp [hch] at hrun
            | ok r =>
              simp only [hch] at hrun
              obtain ⟨leaf, c, w, hd, hrest⟩ := ih r.1 none (conservative || r.2) n (by simp) hrun
              exact ⟨leaf, c, w, by simpa [hch] using hd, hrest⟩

/-- Without a conservative choice both lookups are done on the leaf they reach. -/
theorem searchFrom_exact (hc : w.conservative = false) (hk : pin.view.kind = .leaf) (ha : t.AnswersAt env key d w pin found) :
    (t.searchFrom key d .equal false steps pin).run env = .ok found := by
  rw [searchFrom.eq_def]
  rcases ha with ha | ⟨w', n, hstep, -⟩
  · rcases cachedTurnOn_leaf_eq hk ha with ⟨index, hs, rfl⟩ | ⟨rfl, hs, hstop⟩ | ⟨-, hc', -⟩
    · simp [hs]
    · rw [hc] at hstop
      simp [hs, hstop]
    · rw [hc] at hc'
      cases hc'
  · rcases cachedTurnOn_leaf t key d (w := w) hk with ⟨e, he⟩ | ⟨f, hf⟩ | ⟨right, steps', hc', -⟩
    · rw [he] at hstep
      cases hstep
    · rw [hf] at hstep
      cases hstep
    · rw [hc] at hc'
      cases hc'

/-- The key can be digested, and the links its lookup follows after a conservative
descent are the ones `get` accepts. -/
def LookupHolds (t : Tree) (env : Env) (key : Bytes) : Prop :=
  ∃ d, t.digestOf key = .ok d ∧ ∀ leaf, (t.descend key d).run env = .ok (some (leaf, true)) →
    t.LinksHold env key d (t.store.pageCount + 1) leaf

theorem run_descend (h : env.Honest t) {r : Nat} (hr : t.root = some r) (hroot : t.fetch env r = .ok root) :
    (t.descend key d).run env =
      some <$> (t.descendFrom key d t.store.limits.maxTreeDepth root.ordinal (some root) false).run env := by
  unfold descend
  simp only [run_bind, h.run_rootPage, hr, hroot, map_ok, ok_bind, run_pure]
  cases (t.descendFrom key d t.store.limits.maxTreeDepth root.ordinal (some root) false).run env <;> rfl

/-- What a cached lookup found is what the ordinary one finds, or the ordinary one
reports damage. -/
theorem find_agrees (h : env.Honest t) {turns : Nat} (ha : (t.findCached key turns).run env = .ok (some (some found))) :
    (t.LookupHolds env key ∧ (t.find key).run env = .ok found) ∨
      (¬ t.LookupHolds env key ∧ ∃ e, (t.find key).run env = .error e) := by
  unfold findCached at ha
  unfold find search
  simp only [run_bind, run_liftM]
  cases hd : t.digestOf key with
  | error e =>
    refine .inr ⟨?_, e, rfl⟩
    rintro ⟨d, hd', -⟩
    cases hd.symm.trans hd'
  | ok d =>
    simp only [LookupHolds, hd, Except.ok.injEq, exists_eq_left', ok_bind]
    cases hr : t.root with
    | none =>
      simp only [hr, Option.isNone_none, if_true, run_pure, Except.ok.injEq, Option.some.injEq] at ha
      have hdesc : (t.descend key d).run env = .ok none := by
        simp [descend, h.run_rootPage, hr]
      exact .inl ⟨by simp [hdesc], by simp [hdesc, ha]⟩
    | some r =>
      simp only [hr, Option.isNone_some, Bool.false_eq_true, if_false, run_bind, run_liftM, hd,
        ok_bind] at ha
      cases hroot : t.rootPageCached.run env with
      | error e => simp [hroot] at ha
      | ok root =>
        cases root with
        | none => simp [hroot] at ha
        | some root =>
          simp only [hroot, ok_bind] at ha
          obtain ⟨r', hr', hfetch⟩ := root_of_rootPageCached h hroot
          obtain ⟨leaf, c, w, hdesc, hk, hc, hs, hans⟩ := descendFrom_of_answer h t.store.limits.maxTreeDepth
            root.ordinal (some root) false turns (fun pin hpin => by
              cases hpin
              rw [h.fetch_ordinal hfetch]
              exact hfetch) ha
          rw [run_descend h hr' hfetch, hdesc]
          simp only [map_ok, Except.ok.injEq, Option.some.injEq, Prod.mk.injEq, ok_bind]
          cases c with
          | false => exact .inl ⟨by simp, searchFrom_exact hc hk hans⟩
          | true =>
            have := searchFrom_agrees h (t.store.pageCount + 1) w leaf found hc hs hk hans
            simpa using this

end

end Tree

/-! ## Lookups -/

/-- The answer of a cached lookup, as an ordinary lookup would give it. -/
def CachedLookup.answer : CachedLookup → Option (Option ValueGuard)
  | .value guard => some (some guard)
  | .missing => some none
  | .notCached => none

/-- When a cached lookup answers, `get` gives the same answer exactly when the links on
the way are the ones it accepts; otherwise it reports damage. -/
theorem getCached_agrees_iff {t : Table} {env : Env} {key : Bytes} {turns : Nat} {lookup : CachedLookup}
    {answer : Option ValueGuard} (h : env.Honest t.primary)
    (hrun : (t.getCached key turns).run env = .ok (some lookup)) (hans : lookup.answer = some answer) :
    (t.get key).run env = .ok answer ↔ t.primary.LookupHolds env key := by
  unfold Table.getCached at hrun
  simp only [run_bind, run_liftM, bind_eq_ok] at hrun
  obtain ⟨⟨⟩, hv, found, hfound, hrun⟩ := hrun
  unfold Table.get
  simp only [run_bind, run_liftM, hv, ok_bind]
  match found with
  | none => cases hrun
  | some none =>
    cases hrun
    cases hans
  | some (some none) =>
    cases hrun
    cases hans
    rcases Tree.find_agrees h hfound with ⟨hl, hf⟩ | ⟨hl, e, hf⟩
    · simp [hl, hf]
    · simp [hl, hf]
  | some (some (some (pin, index))) =>
    simp only [run_bind, run_liftM, bind_eq_ok] at hrun
    obtain ⟨entry, hentry, value, hvalue, hrun⟩ := hrun
    match value with
    | none =>
      cases hrun
      cases hans
    | some (valuePin, start, stop) =>
      simp only [run_bind, run_liftM, bind_eq_ok] at hrun
      obtain ⟨guard, hguard, hrun⟩ := hrun
      cases hrun
      cases hans
      have hresolve : (resolveValue pin entry).run env = .ok (valuePin, start, stop) := by
        unfold resolveValueCached at hvalue
        unfold resolveValue
        split at hvalue
        · cases hvalue
          simp
        · rename_i page _
          simp only [run_bind, Read.run_pageCached, ok_bind] at hvalue
          cases hp : env (.pageCached page) with
          | none => simp [hp] at hvalue
          | some p =>
            simp only [hp, run_bind, run_liftM, bind_eq_ok, run_pure, Except.ok.injEq,
              Option.some.injEq] at hvalue
            obtain ⟨r, hr, rfl⟩ := hvalue
            simp [Read.blob, h.cached page p hp, hr]
      rcases Tree.find_agrees h hfound with ⟨hl, hf⟩ | ⟨hl, e, hf⟩
      · simp [hl, hf, hentry, hresolve, hguard]
      · simp [hl, hf]

/-! ## A file on which they differ -/

namespace LostLink

/-- A custom encoding whose digest is a key prefix, and which names a size for rebuilt
keys, so that pages without key bytes are read under it. -/
def encoding : KeyEncoding where
  id := "tag"
  compare a b := .ok (Ord.compare a b)
  digest key := .ok (asciiDigest key)
  maxRebuiltKeyLen := some 8
  decodeKeyFromDigest d := .ok (leBytes 8 d.toNat).reverse

/-- Two leaves under one root; the first is empty and has lost its link to the second,
which holds the row of the key `k`. -/
def file : Bytes :=
  Image.file (Image.index [] (utf8Bytes "tag") true .rawData 0) []
    [Image.digestNode none none [(0, 1), (0x6B00000000000000, 2)], Image.emptyLeaf none none,
      Image.page (NodeLayout.flagBits { compactMeta := true, omittedKeys := true }) 1 (some 1) none
        (leBytes 8 0x6B00000000000000 ++ leBytes 2 40 ++ leBytes 2 40)]

def options : OpenOptions := { encodings := { custom := fun id => if id = "tag" then some encoding else none } }

def store : PageStore := { source := file, directoryBase := 178, pageCount := 3 }

def table : Table where
  descriptor :=
    { name := "t", secondaries := []
      primary := { name := "", isUnique := true, keyEncodingId := "tag", valueKind := .rawData, root := some 0,
                   rootFieldOffset := 40 } }
  primary := { store, root := some 0, encoding }
  secondaries := []

def database : Database where
  catalog := { pageSize := 4096, pageCount := 3, directoryPosition := 178, filters := [],
               tables := [table.descriptor], descriptorEnd := 50 }
  store := store
  tables := [table]

/-- The key `k`. -/
def key : Bytes := [0x6B]

set_option maxRecDepth 20000 in
theorem opens : openBytes options file = .ok database := by rfl

set_option maxRecDepth 20000 in
theorem cachedMissing : (table.getCached key 3).run (Env.warm store) = .ok (some .missing) := by rfl

/-- The kind of failure a read ends with, and the page it names. -/
def failure {α : Type} : Result α → Option (ErrorKind × Option Nat)
  | .ok _ => none
  | .error e => some (e.kind, e.location.page)

theorem getDamaged : failure ((table.get key).run (Env.warm store)) = some (.corruptData, some 1) := by
  decide +kernel

end LostLink

/-- The cached lookup of `k` says it is missing, where `get` reports the damage. -/
theorem getCached_contradicts_get :
    openBytes LostLink.options LostLink.file = .ok LostLink.database ∧
      LostLink.table ∈ LostLink.database.tables ∧
      (Env.warm LostLink.store).Reads LostLink.database.store ∧
      (Env.warm LostLink.store).Honest LostLink.table.primary ∧
      (LostLink.table.getCached LostLink.key 3).run (Env.warm LostLink.store) = .ok (some .missing) ∧
      LostLink.failure ((LostLink.table.get LostLink.key).run (Env.warm LostLink.store)) =
        some (.corruptData, some 1) :=
  ⟨LostLink.opens, by simp [LostLink.database], Env.warm_reads _, Env.warm_honest _ _, LostLink.cachedMissing,
    LostLink.getDamaged⟩

/-- The hypotheses hold on that file, where the links do not. -/
theorem getCached_agrees_iff_lostLink :
    (Env.warm LostLink.store).Honest LostLink.table.primary ∧
      (LostLink.table.getCached LostLink.key 3).run (Env.warm LostLink.store) = .ok (some .missing) ∧
      ((LostLink.table.get LostLink.key).run (Env.warm LostLink.store) = .ok none ↔
        LostLink.table.primary.LookupHolds (Env.warm LostLink.store) LostLink.key) :=
  ⟨Env.warm_honest _ _, LostLink.cachedMissing,
    getCached_agrees_iff (Env.warm_honest _ _) LostLink.cachedMissing rfl⟩

end DryDb
