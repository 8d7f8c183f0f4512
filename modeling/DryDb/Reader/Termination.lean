import DryDb.Reader.CachedWalk
import DryDb.Reader.Image
/-!
# Which reads end

Every read that counts its moves ends, whatever the page graph looks like; the bounds
are in `Reader.Visits`. The cached lookup is the exception: a right sibling that is an
internal page starts a descent that is not counted, so a cycle of child links behind
it is followed for ever. `read_walks_finish_iff` says that this is the only way a read
fails to end.
-/

namespace DryDb

open Program

/-- A cached lookup of this key steps sideways into a cycle of child links. -/
def Table.CachedCycle (t : Table) (env : Env) (key : Bytes) : Prop :=
  t.primary.encoding.validateKey key = .ok () ∧ t.primary.root.isSome = true ∧
    ∃ d, t.primary.digestOf key = .ok d ∧ t.primary.SidewaysCycle env key d

/-- A cached lookup is still going exactly when its walk is. -/
theorem Table.run_getCached_eq_none (t : Table) (env : Env) (key : Bytes) (turns : Nat) :
    (t.getCached key turns).run env = .ok none ↔
      t.primary.encoding.validateKey key = .ok () ∧ (t.primary.findCached key turns).run env = .ok none := by
  unfold Table.getCached
  simp only [run_bind, run_liftM, bind_eq_ok]
  constructor
  · rintro ⟨⟨⟩, hv, found, hf, h⟩
    refine ⟨hv, ?_⟩
    match found with
    | none => exact hf
    | some none => cases h
    | some (some none) => cases h
    | some (some (some (pin, index))) =>
      simp only [run_bind, run_liftM, bind_eq_ok] at h
      obtain ⟨entry, -, value, -, h⟩ := h
      match value with
      | none => cases h
      | some (valuePin, start, stop) =>
        simp only [run_bind, run_liftM, bind_eq_ok] at h
        obtain ⟨guard, -, h⟩ := h
        cases h
  · rintro ⟨hv, hf⟩
    exact ⟨(), hv, none, hf, rfl⟩

/-- Without a cached root there is no walk. -/
theorem Tree.not_sidewaysCycle_of_no_root {t : Tree} {env : Env} {key : Bytes} {d : UInt64}
    (h : ∀ root, t.rootPageCached.run env ≠ .ok (some root)) : ¬ t.SidewaysCycle env key d := by
  have hno : t.firstCachedLeaf env key d = none := by
    unfold Tree.firstCachedLeaf
    split
    · rename_i root hroot
      exact absurd hroot (h root)
    · rfl
  rintro ⟨n, pin, right, hleaf, -⟩
  have : ∀ n pin, ¬ t.CachedLeaf env key d n pin := by
    intro n pin hleaf
    induction hleaf with
    | first hfirst =>
      rw [hno] at hfirst
      cases hfirst
    | next _ _ _ _ _ _ ih => exact ih
  exact this n pin hleaf

/-- The cached lookup ends exactly when it steps into no cycle. -/
theorem Table.getCached_finishes_iff (t : Table) (env : Env) (key : Bytes) :
    (∃ turns, (t.getCached key turns).run env ≠ .ok none) ↔ ¬ t.CachedCycle env key := by
  simp only [ne_eq, Table.run_getCached_eq_none, Table.CachedCycle]
  cases hv : t.primary.encoding.validateKey key with
  | error e => simp
  | ok u =>
    simp only [Tree.findCached, true_and]
    cases hroot : t.primary.root with
    | none => simp
    | some root =>
      simp only [Option.isNone_some, Bool.false_eq_true, if_false, run_bind, run_liftM,
        Option.isSome_some, true_and]
      cases hd : t.primary.digestOf key with
      | error e => simp
      | ok d =>
        simp only [ok_bind, Except.ok.injEq, exists_eq_left']
        cases hr : t.primary.rootPageCached.run env with
        | error e =>
          have hno : ¬ t.primary.SidewaysCycle env key d := Tree.not_sidewaysCycle_of_no_root (by simp [hr])
          simp [hno]
        | ok found =>
          cases found with
          | none =>
            have hno : ¬ t.primary.SidewaysCycle env key d := Tree.not_sidewaysCycle_of_no_root (by simp [hr])
            simp [hno]
          | some page => exact t.primary.cachedTurns_finish_iff env key d hr

/-- Every read of a table ends after a bounded number of page visits, cycles included,
exactly when the cached lookup does not step into a cycle of child links. -/
theorem read_walks_finish_iff (t : Table) (env : Env) (key : Bytes) :
    (pageVisits env (t.get key) ≤ Visits.searchBound t.primary + 1 ∧
      pageVisits env (t.containsKey key) ≤ Visits.searchBound t.primary ∧
      (∀ lower upper, pageVisits env (t.countRange lower upper) ≤ Visits.seekBound t.primary) ∧
      (∀ c : Cursor, pageVisits env c.seekFirst ≤ Visits.moveBound c.tree c.pageStepsLeft ∧
        pageVisits env c.advance ≤ Visits.moveBound c.tree c.pageStepsLeft + 1) ∧
      (∀ c : IndexCursor, pageVisits env c.advance ≤ Visits.moveBound c.cursor.tree c.cursor.pageStepsLeft + 2) ∧
      ∃ turns, (t.getCached key turns).run env ≠ .ok none) ↔
    ¬ t.CachedCycle env key := by
  rw [← t.getCached_finishes_iff env key]
  refine ⟨fun h => h.2.2.2.2.2, fun h => ⟨Visits.get_le env t key, Visits.containsKey_le env t key,
    fun lower upper => Visits.countRange_le env t.primary lower upper,
    fun c => ⟨Visits.seekFirst_le env c, Visits.advance_le env c⟩, fun c => Visits.indexAdvance_le env c, h⟩⟩

/-! ## A file whose cached lookup never ends -/

namespace Cycle

/-- The root chooses the empty leaf 1 conservatively; its right sibling is the internal
page 2, and the pages 2 and 3 are each other's child. -/
def file : Bytes :=
  Image.file (Image.index [] (utf8Bytes "ascii") true .rawData 0) []
    [Image.digestNode none none [(0, 1), (0x6B00000000000000, 1)], Image.emptyLeaf none (some 2),
      Image.digestNode none none [(0, 3)], Image.digestNode none none [(0, 2)]]

def store : PageStore := { source := file, directoryBase := 228, pageCount := 4 }

def table : Table where
  descriptor :=
    { name := "t", secondaries := []
      primary := { name := "", isUnique := true, keyEncodingId := "ascii", valueKind := .rawData, root := some 0,
                   rootFieldOffset := 42 } }
  primary := { store, root := some 0, encoding := asciiEncoding, validateDigests := false }
  secondaries := []

def database : Database where
  catalog := { pageSize := 4096, pageCount := 4, directoryPosition := 228, filters := [],
               tables := [table.descriptor], descriptorEnd := 52 }
  store := store
  tables := [table]

/-- The key `k`. -/
def key : Bytes := [0x6B]

def digest : UInt64 := 0x6B00000000000000

set_option maxRecDepth 20000 in
theorem opens : openBytes { validateDigests := false } file = .ok database := by rfl

theorem endless : table.primary.Endless (Env.warm store) key digest 2 := by
  have h2 : table.primary.childAt (Env.warm store) key digest 2 = some 3 := by decide +kernel
  have h3 : table.primary.childAt (Env.warm store) key digest 3 = some 2 := by decide +kernel
  have both : ∀ n, (table.primary.chase (Env.warm store) key digest n 2).isSome ∧
      (table.primary.chase (Env.warm store) key digest n 3).isSome := by
    intro n
    induction n with
    | zero => exact ⟨rfl, rfl⟩
    | succ n ih => simp [Tree.chase, h2, h3, ih]
  exact fun n => (both n).1

theorem sideways : table.primary.SidewaysCycle (Env.warm store) key digest := by
  have hfirst : ((table.primary.firstCachedLeaf (Env.warm store) key digest).map fun pin =>
      ((table.primary.leafSearch pin.view key digest .equal).toOption,
        (table.primary.endsBelow pin.view key digest).toOption, pin.view.rightSibling)) =
        some (some none, some true, some 2) := by
    decide +kernel
  cases hp : table.primary.firstCachedLeaf (Env.warm store) key digest with
  | none => simp [hp] at hfirst
  | some pin =>
    simp only [hp, Option.map_some, Option.some.injEq, Prod.mk.injEq] at hfirst
    obtain ⟨hs, hb, hr⟩ := hfirst
    refine ⟨0, pin, 2, .first hp, Nat.zero_le _, ⟨?_, ?_, hr⟩, endless⟩
    · revert hs
      cases table.primary.leafSearch pin.view key digest .equal <;> simp [Except.toOption]
    · revert hb
      cases table.primary.endsBelow pin.view key digest <;> simp [Except.toOption]

end Cycle

/-- The file opens, and with every page cached the lookup of `k` goes on for ever. -/
theorem cached_lookup_never_ends :
    openBytes { validateDigests := false } Cycle.file = .ok Cycle.database ∧
      Cycle.table ∈ Cycle.database.tables ∧
      (Env.warm Cycle.store).Reads Cycle.database.store ∧ (Env.warm Cycle.store).Honest Cycle.table.primary ∧
      ∀ turns, (Cycle.table.getCached Cycle.key turns).run (Env.warm Cycle.store) = .ok none := by
  refine ⟨Cycle.opens, by simp [Cycle.database], Env.warm_reads _, Env.warm_honest _ _, fun turns => ?_⟩
  by_contra h
  refine (Cycle.table.getCached_finishes_iff (Env.warm Cycle.store) Cycle.key).mp ⟨turns, h⟩ ⟨rfl, rfl, ?_⟩
  exact ⟨Cycle.digest, by rfl, Cycle.sideways⟩

end DryDb
