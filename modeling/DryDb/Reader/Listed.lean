import DryDb.Keys.Laws
import DryDb.Reader.Keyed
/-!
# Tables over a listed tree

`Tree.Lists`: in every environment of its file, whatever is cached meanwhile, the tree answers as
one list of rows. `Tree.Lists.answers`: a table over such a tree is that sorted map: `get` by key,
cursors over every pair of bounds in both directions, and counts.
-/

namespace DryDb

/-- What a query may count on: the pages of the file, the promises of the store, and memory. -/
structure Env.Ready (env : Env) (t : Tree) : Prop where
  reads : env.Reads t.store
  honest : env.Honest t
  unrefused : env.Unrefused

/-- In every environment the tree answers as the list `rows`. -/
def Tree.Lists {ρ : Type} [LinearOrder ρ] (t : Tree) (rank : Bytes → ρ) (probe : Bytes → Prop) (rows : List (Bytes × Bytes)) :
    Prop :=
  ∃ pins row, entriesOf pins row = rows ∧ ∀ env : Env, env.Ready t → Keyed t env rank probe pins row

/-! ## Bounds -/

/-- Bounds of valid keys, the lower not above the upper. -/
structure KeyEncoding.Allows (enc : KeyEncoding) (lower upper : Bound) : Prop where
  low : lower.Of enc.Valid
  high : upper.Of enc.Valid
  order : ∀ lo ∈ lower.key, ∀ hi ∈ upper.key, enc.compare lo hi ≠ .ok .gt

variable {enc : KeyEncoding}

theorem validateBound_eq_ok {b : Bound} : validateBound enc b = .ok () ↔ b.Of enc.Valid := by
  unfold validateBound Bound.Of
  cases b.key with
  | none => simp
  | some k => simp [KeyEncoding.Valid]

theorem validateBounds_eq_ok {lower upper : Bound} :
    validateBounds enc lower upper = .ok () ↔ lower.Of enc.Valid ∧ upper.Of enc.Valid := by
  unfold validateBounds
  rw [bind_eq_ok, validateBound_eq_ok]
  constructor
  · rintro ⟨⟨⟩, hl, hu⟩
    exact ⟨validateBound_eq_ok.1 hl, hu⟩
  · rintro ⟨hl, hu⟩
    exact ⟨(), validateBound_eq_ok.2 hl, hu⟩

theorem Env.Unrefused.reserveBounds {env : Env} (h : env.Unrefused) (lower upper : Bound) (extra : Nat) :
    (DryDb.reserveBounds lower upper extra).run env = .ok () := by
  unfold DryDb.reserveBounds
  rw [Read.run_reserve]
  exact h _

namespace Tree.Lists

variable {ρ : Type} [LinearOrder ρ] {t : Tree} {rank : Bytes → ρ} {probe : Bytes → Prop} {rows : List (Bytes × Bytes)}
  {lower upper : Bound}

theorem checkOrder_eq_ok (h : t.Lists rank probe rows) {env : Env} (hready : env.Ready t) (hl : lower.Of probe)
    (hu : upper.Of probe) (ho : ∀ lo ∈ lower.key, ∀ hi ∈ upper.key, t.encoding.compare lo hi ≠ .ok .gt) :
    checkOrder t.encoding lower upper = .ok () := by
  obtain ⟨pins, row, -, hkeyed⟩ := h
  refine ((hkeyed env hready).checkOrder_eq_ok hl hu).2 fun lo hlo hi hhi => ?_
  have := ho lo hlo hi hhi
  rw [(hkeyed env hready).compare lo hi (hl lo hlo) (hu hi hhi), ne_eq, Except.ok.injEq] at this
  exact compare_le_iff_le.1 (by cases hc : Ord.compare (rank lo) (rank hi) <;> simp_all)

/-- A cursor inside bounds, once it is there. -/
theorem drains (h : t.Lists rank probe rows) {envs : Nat → Env} (hready : ∀ n, (envs n).Ready t) (order : Order) (empty : Bool)
    (hl : lower.Of probe) (hu : upper.Of probe) :
    ({ tree := t, order, range := { lower, upper, empty }, pageStepsLeft := t.store.pageCount + 1 } : Cursor).Drains envs
      (Keyed.inOrder order (rows.filter fun r => t.encoding.inside lower upper r.1)) none := by
  obtain ⟨pins, row, rfl, hkeyed⟩ := h
  exact Keyed.drains (fun n => hkeyed (envs n) (hready n)) rfl hl hu

end Tree.Lists

/-! ## Tables -/

/-- The table is the sorted map of these rows. -/
structure Table.AnswersAs (table : Table) (rows : List (Bytes × Bytes)) : Prop where
  /-- `get` returns the value under the key, and nothing for a valid key that is not there. -/
  get : ∀ env : Env, env.Ready table.primary → ∀ key, table.primary.encoding.Valid key →
    ∃ found, (table.get key).run env = .ok found ∧
      found.map ValueGuard.asBytes = (rows.find? fun r => r.1 = key).map Prod.snd
  /-- A cursor yields the rows inside its bounds, ascending or exactly reversed, and ends. -/
  range : ∀ (env : Env) (envs : Nat → Env), env.Ready table.primary → (∀ n, (envs n).Ready table.primary) →
    ∀ lower upper order, table.primary.encoding.Allows lower upper →
      ∃ c, (table.range lower upper order).run env = .ok c ∧
        c.Drains envs (Keyed.inOrder order (rows.filter fun r => table.primary.encoding.inside lower upper r.1)) none
  /-- A count is the number of rows inside the bounds. -/
  countRange : ∀ env : Env, env.Ready table.primary → ∀ lower upper, table.primary.encoding.Allows lower upper →
    (table.countRange lower upper).run env =
      .ok (rows.filter fun r => table.primary.encoding.inside lower upper r.1).length

/-- A table over a listed tree whose valid keys the search places. -/
theorem Tree.Lists.answers {ρ : Type} [LinearOrder ρ] {rank : Bytes → ρ} {probe : Bytes → Prop} {rows : List (Bytes × Bytes)}
    {table : Table} (h : table.primary.Lists rank probe rows) (hvalid : ∀ key, table.primary.encoding.Valid key → probe key) :
    table.AnswersAs rows where
  get env hready key hkey := by
    obtain ⟨pins, row, rfl, hkeyed⟩ := h
    exact (hkeyed env hready).get (hvalid key hkey) hkey
  range env envs hready hreadys lower upper order hb := by
    have hl : lower.Of probe := fun k hk => hvalid k (hb.low k hk)
    have hu : upper.Of probe := fun k hk => hvalid k (hb.high k hk)
    refine ⟨_, ?_, h.drains hreadys order false hl hu⟩
    unfold Table.range Cursor.new Cursor.build
    simp only [Program.run_bind, hready.unrefused.reserveBounds, ok_bind, Program.run_liftM, Bool.false_eq_true, if_false, if_true,
      validateBounds_eq_ok.2 ⟨hb.low, hb.high⟩, h.checkOrder_eq_ok hready hl hu hb.order]
  countRange env hready lower upper hb := by
    have hl : lower.Of probe := fun k hk => hvalid k (hb.low k hk)
    have hu : upper.Of probe := fun k hk => hvalid k (hb.high k hk)
    have horder := h.checkOrder_eq_ok hready hl hu hb.order
    obtain ⟨pins, row, rfl, hkeyed⟩ := h
    exact (hkeyed env hready).countRange hl hu (validateBounds_eq_ok.2 ⟨hb.low, hb.high⟩) horder

end DryDb
