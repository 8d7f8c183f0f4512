import DryDb.Reader.Listed
/-!
# Indexes over a listed tree

The tree of an index lists index keys, composite ones in a non-unique index, with references to the
values. `Index.Holds` says which rows that stands for. Bounds on index keys become bounds on composite
keys with extreme record ids (`Index.Sorts.scans`), and an index cursor resolves what the cursor under it
delivers (`IndexCursor.drains_of`).
-/

namespace DryDb

open Program

/-! ## Index cursors to the end -/

/-- An index cursor advanced until it is exhausted or fails: the index keys and values it showed, and the
error it ended with. -/
inductive IndexCursor.Drains : (Nat → Env) → IndexCursor → List (Bytes × Bytes) → Option Error → Prop where
  | done {envs : Nat → Env} {c c' : IndexCursor} (h : c.advance.run (envs 0) = .ok (c', .ok false)) : Drains envs c [] none
  | failed {envs : Nat → Env} {c c' : IndexCursor} {e : Error} (h : c.advance.run (envs 0) = .ok (c', .error e)) :
      Drains envs c [] (some e)
  | row {envs : Nat → Env} {c c' : IndexCursor} {row : Bytes × Bytes} {rows : List (Bytes × Bytes)} {out : Option Error}
      (h : c.advance.run (envs 0) = .ok (c', .ok true)) (hkey : c'.key.contents = row.1)
      (hvalue : c'.value.map ValueGuard.asBytes = some row.2)
      (hrest : Drains (fun n => envs (n + 1)) c' rows out) : Drains envs c (row :: rows) out

/-- The source key of a key of the index tree. -/
def Index.keyOf (unique : Bool) (key : Bytes) : Bytes := if unique then key else sourcePart key

/-- The key of an entry of an index tree: the index key, with a record id behind it if the index is not unique. -/
def Index.KeyFor (unique : Bool) (key entry : Bytes) : Prop :=
  if unique then entry = key else ∃ rid : Nat, rid ≤ i32Max ∧ entry = DuplicateKeyEncoding.encode key rid

/-- An entry of an index tree stands for a row: its key is made from the index key, and its value is a reference
that resolves to the row's value. -/
structure Index.EntryOf (unique : Bool) (ready : Env → Prop) (entry row : Bytes × Bytes) : Prop where
  key : KeyFor unique row.1 entry.1
  ref : ∃ ref : PageRef, entry.2.length = pageRefLen ∧ PageRef.parse entry.2 = .ok ref ∧ ∀ env : Env, ready env →
    ∃ guard : ValueGuard, (IndexCursor.resolveReference ref).run env = .ok guard ∧ guard.asBytes = row.2

theorem split_composite (source : Bytes) {rid : Nat} (h : rid ≤ i32Max) :
    DuplicateKeyEncoding.split (DuplicateKeyEncoding.encode source rid) = .ok (source, (rid : Int)) :=
  split_encode source (by simp only [i32Max] at h; omega)

theorem parts_composite (source : Bytes) {rid : Nat} (h : rid ≤ i32Max) :
    sourcePart (DuplicateKeyEncoding.encode source rid) = source ∧ ridPart (DuplicateKeyEncoding.encode source rid) = rid := by
  obtain ⟨-, -, hs, hr⟩ := split_eq_ok.1 (split_composite source h)
  exact ⟨hs.symm, hr.symm⟩

variable {unique : Bool} {c : IndexCursor} {ready : Env → Prop}

theorem Index.KeyFor.keyOf_eq {key entry : Bytes} (h : KeyFor unique key entry) : keyOf unique entry = key := by
  cases unique with
  | true => exact h
  | false =>
    obtain ⟨rid, hrid, rfl⟩ := h
    exact (parts_composite key hrid).1

/-- One advance of an index cursor onto an entry. -/
theorem IndexCursor.advance_row {env : Env} {moved : Cursor} {entry row : Bytes × Bytes}
    (hadvance : c.cursor.advance.run env = .ok (moved, .ok true)) (hcurrent : moved.currentRow = some entry)
    (hentry : Index.EntryOf c.unique ready entry row) (hready : ready env) (hu : env.Unrefused) :
    ∃ c' : IndexCursor, c.advance.run env = .ok (c', .ok true) ∧ c'.cursor = moved ∧ c'.unique = c.unique ∧
      c'.key.contents = row.1 ∧ c'.value.map ValueGuard.asBytes = some row.2 := by
  obtain ⟨ref, hlen, hparse, hresolve⟩ := hentry.ref
  obtain ⟨guard, hguard, hbytes⟩ := hresolve env hready
  have href : IndexCursor.entryReference { c with cursor := moved, value := none } = .ok (ref, row.1) := by
    have hkey := hentry.key
    unfold entryReference
    simp only [hcurrent, okOr_some, ok_bind, hlen, ne_eq, not_true_eq_false, if_false, hparse]
    cases hun : c.unique with
    | true =>
      rw [hun] at hkey
      rw [if_pos rfl, show entry.1 = row.1 from hkey]
    | false =>
      rw [hun] at hkey
      obtain ⟨rid, hrid, heq⟩ := hkey
      rw [if_neg (by simp), heq, split_composite row.1 hrid, ok_bind]
  obtain ⟨buffer, hcharge⟩ := hu.run_charge c.key row.1.length
  refine ⟨{ c with cursor := moved, key := { buffer with contents := row.1 }, value := some guard }, ?_, rfl, rfl, rfl, ?_⟩
  · unfold advance advanceInner
    simp only [run_bind, hadvance, ok_bind, href, run_attempt, hcharge, hguard, run_pure]
  · rw [Option.map_some, hbytes]

/-- An index cursor shows the rows of the entries the cursor under it delivers. -/
theorem IndexCursor.drains_of {entries rows : List (Bytes × Bytes)}
    (hentries : List.Forall₂ (Index.EntryOf unique ready) entries rows) {envs : Nat → Env} (hready : ∀ n, ready (envs n))
    (hu : ∀ n, (envs n).Unrefused) (hc : c.unique = unique) (hdrains : c.cursor.Drains envs entries none) :
    c.Drains envs rows none := by
  induction hentries generalizing envs c with
  | nil =>
    cases hdrains with
    | done h =>
      obtain ⟨c', hadvance⟩ : ∃ c', c.advance.run (envs 0) = .ok (c', .ok false) := by
        unfold advance advanceInner
        simp only [run_bind, h, ok_bind, run_pure]
        exact ⟨_, rfl⟩
      exact .done hadvance
  | cons hentry _ ih =>
    cases hdrains with
    | row h hcurrent hrest =>
      obtain ⟨c', hadvance, hmoved, hunique, hkey, hvalue⟩ :=
        IndexCursor.advance_row h hcurrent (hc ▸ hentry) (hready 0) (hu 0)
      exact .row hadvance hkey hvalue (ih (fun n => hready (n + 1)) (fun n => hu (n + 1)) (hunique.trans hc) (hmoved ▸ hrest))

/-! ## Bounds on composite keys -/

namespace Index

section

variable {ρ : Type} [LinearOrder ρ] {rank : Bytes → ρ} {source : KeyEncoding} {probe : Bytes → Prop}
  (hcompare : ∀ a b, probe a → probe b → source.compare a b = .ok (Ord.compare (rank a) (rank b))) {lower upper : Bound}

include hcompare

theorem compare_composite {a b : Bytes} {m n : Nat} (ha : probe a) (hb : probe b) (hm : m ≤ i32Max) (hn : n ≤ i32Max) :
    (duplicateKeyEncoding source).compare (DuplicateKeyEncoding.encode a m) (DuplicateKeyEncoding.encode b n) =
      .ok ((Ord.compare (rank a) (rank b)).then (Ord.compare (m : Int) n)) :=
  duplicate_compare (split_composite a hm) (split_composite b hn) (hcompare a b ha hb)

/-- The record ids of the widened bounds are extreme, so only the source key decides. -/
theorem inside_composite (hl : lower.Of probe) (hu : upper.Of probe) {key : Bytes} (hkey : probe key)
    {rid : Nat} (hrid : rid ≤ i32Max) :
    (duplicateKeyEncoding source).inside (lowerComposite lower) (upperComposite upper) (DuplicateKeyEncoding.encode key rid) =
      source.inside lower upper key := by
  have hbottom : Ord.compare (rid : Int) ((0 : Nat) : Int) ≠ .lt := by
    rw [ne_eq, compare_lt_iff_lt]
    omega
  have htop : Ord.compare (rid : Int) (i32Max : Int) ≠ .gt := by
    rw [ne_eq, compare_gt_iff_gt]
    omega
  have hlt : ∀ o c : Ordering, c ≠ .lt → (o.then c = .lt ↔ o = .lt) := by decide
  have hgt : ∀ o c : Ordering, c ≠ .gt → (o.then c = .gt ↔ o = .gt) := by decide
  have hlower : (duplicateKeyEncoding source).aboveLower (lowerComposite lower) (DuplicateKeyEncoding.encode key rid) =
      source.aboveLower lower key := by
    cases lower with
    | unbounded => rfl
    | included k =>
      simp only [lowerComposite, KeyEncoding.aboveLower, compare_composite hcompare hkey (hl k rfl) hrid (Nat.zero_le _),
        hcompare key k hkey (hl k rfl), ne_eq, Except.ok.injEq, hlt _ _ hbottom]
    | excluded k =>
      simp only [lowerComposite, KeyEncoding.aboveLower, compare_composite hcompare hkey (hl k rfl) hrid (Nat.le_refl _),
        hcompare key k hkey (hl k rfl), Except.ok.injEq, hgt _ _ htop]
  have hupper : (duplicateKeyEncoding source).belowUpper (upperComposite upper) (DuplicateKeyEncoding.encode key rid) =
      source.belowUpper upper key := by
    cases upper with
    | unbounded => rfl
    | included k =>
      simp only [upperComposite, KeyEncoding.belowUpper, compare_composite hcompare hkey (hu k rfl) hrid (Nat.le_refl _),
        hcompare key k hkey (hu k rfl), ne_eq, Except.ok.injEq, hgt _ _ htop]
    | excluded k =>
      simp only [upperComposite, KeyEncoding.belowUpper, compare_composite hcompare hkey (hu k rfl) hrid (Nat.zero_le _),
        hcompare key k hkey (hu k rfl), Except.ok.injEq, hlt _ _ hbottom]
  rw [KeyEncoding.inside, hlower, hupper, KeyEncoding.inside]

/-- Bounds that meet at one key with a side excluded let nothing through. -/
theorem inside_of_empty {i : Index} (hsource : i.sourceEncoding = source) (hl : lower.Of probe)
    (hu : upper.Of probe) (hempty : i.isEmptyRange lower upper = .ok true) {key : Bytes} (hkey : probe key) :
    source.inside lower upper key = false := by
  unfold isEmptyRange at hempty
  cases lower with
  | unbounded => cases hempty
  | included lo | excluded lo =>
    cases upper with
    | unbounded => cases hempty
    | included hi | excluded hi =>
      simp only [Bound.key, hsource, hcompare lo hi (hl lo rfl) (hu hi rfl), ok_bind] at hempty
      split at hempty
      · cases hempty
      · rename_i heq
        rw [not_ne_iff, compare_eq_iff_eq] at heq
        simp only [KeyEncoding.inside, KeyEncoding.aboveLower, KeyEncoding.belowUpper, hcompare key lo hkey (hl lo rfl),
          hcompare key hi hkey (hu hi rfl), heq]
        first
        | cases Ord.compare (rank key) (rank hi) <;> rfl
        | cases hempty

/-- Widened bounds cross only if the bounds do, or if they let nothing through. -/
theorem order_composite {i : Index} (hl : lower.Of probe) (hu : upper.Of probe)
    (ho : ∀ lo ∈ lower.key, ∀ hi ∈ upper.key, source.compare lo hi ≠ .ok .gt) (hsource : i.sourceEncoding = source)
    (hempty : i.isEmptyRange lower upper = .ok false) :
    ∀ lo ∈ (lowerComposite lower).key, ∀ hi ∈ (upperComposite upper).key, (duplicateKeyEncoding source).compare lo hi ≠ .ok .gt := by
  subst hsource
  have hmax : ¬ Ord.compare (0 : Int) (i32Max : Int) = .gt := by decide
  unfold isEmptyRange at hempty
  cases lower with
  | unbounded => simp [lowerComposite, Bound.key]
  | included lo | excluded lo =>
    cases upper with
    | unbounded => simp [upperComposite, Bound.key]
    | included hi | excluded hi =>
      have horder := ho lo rfl hi rfl
      simp only [Bound.key, hcompare lo hi (hl lo rfl) (hu hi rfl), ok_bind] at hempty horder
      simp only [lowerComposite, upperComposite, Bound.key, Option.mem_some_iff, forall_eq',
        compare_composite hcompare (hl lo rfl) (hu hi rfl) (Nat.zero_le _) (Nat.le_refl _),
        compare_composite hcompare (hl lo rfl) (hu hi rfl) (Nat.zero_le _) (Nat.zero_le _),
        compare_composite hcompare (hl lo rfl) (hu hi rfl) (Nat.le_refl _) (Nat.le_refl _),
        compare_composite hcompare (hl lo rfl) (hu hi rfl) (Nat.le_refl _) (Nat.zero_le _), ne_eq, Except.ok.injEq]
      revert hempty horder
      cases Ord.compare (rank lo) (rank hi) <;> simp [Ordering.then, isEmptyRange.isExcluded, hmax]

end

/-! ## Indexes by their rows -/

/-- The tree of the index lists these entries, and finds the place of every key of `probe` among them. -/
structure Sorts {ρ : Type} [LinearOrder ρ] (i : Index) (rank : Bytes → ρ) (probe : Bytes → Prop) (entries : List (Bytes × Bytes)) :
    Prop where
  compare : ∀ a b, probe a → probe b → i.sourceEncoding.compare a b = .ok (Ord.compare (rank a) (rank b))
  inj : ∀ a b, probe a → probe b → rank a = rank b → a = b
  keys : ∀ e ∈ entries, ∃ key, probe key ∧ KeyFor i.isUnique key e.1
  unique : i.isUnique = true → i.tree.encoding = i.sourceEncoding ∧ i.tree.Lists rank probe entries
  composite : i.isUnique = false → i.tree.encoding = duplicateKeyEncoding i.sourceEncoding ∧
    ∃ probe', i.tree.Lists (duplicateRank rank) probe' entries ∧ ∀ key (rid : Nat), probe key → rid ≤ i32Max →
      probe' (DuplicateKeyEncoding.encode key rid) ∧
        (i.sourceEncoding.Valid key → i.tree.encoding.Valid (DuplicateKeyEncoding.encode key rid))

section

variable {ρ : Type} [LinearOrder ρ] {i : Index} {rank : Bytes → ρ} {probe : Bytes → Prop} {entries rows : List (Bytes × Bytes)}
  {lower upper : Bound}

namespace Sorts

/-- What a pair of bounds comes to in the tree: the cursors over it, and its count. -/
structure Scans (i : Index) (range : KeyRange) (validate : Bool) (found : List (Bytes × Bytes)) : Prop where
  cursor : ∀ order, ∃ c, Cursor.build i.tree range order validate = .ok c ∧
    ∀ envs : Nat → Env, (∀ n, (envs n).Ready i.tree) → c.Drains envs (Keyed.inOrder order found) none
  count : validate = true → ∀ env : Env, env.Ready i.tree →
    (if range.empty then pure 0 else DryDb.countRange i.tree range.lower range.upper : Read Nat).run env = .ok found.length

variable {env : Env}

/-- A range over the tree's own keys. -/
theorem scans_of_lists {ρ : Type} [LinearOrder ρ] {rank : Bytes → ρ} {probe : Bytes → Prop} (h : i.tree.Lists rank probe entries)
    (hready : env.Ready i.tree) (hl : lower.Of probe) (hu : upper.Of probe)
    (ho : ∀ lo ∈ lower.key, ∀ hi ∈ upper.key, i.tree.encoding.compare lo hi ≠ .ok .gt) {validate : Bool}
    (hv : validate = true → validateBounds i.tree.encoding lower upper = .ok ()) :
    Scans i { lower, upper } validate (entries.filter fun r => i.tree.encoding.inside lower upper r.1) where
  cursor order := by
    refine ⟨_, ?_, fun envs hreadys => h.drains hreadys order false hl hu⟩
    unfold Cursor.build
    cases validate with
    | false => simp only [Bool.false_eq_true, if_false, ok_bind, h.checkOrder_eq_ok hready hl hu ho]
    | true => simp only [Bool.false_eq_true, if_false, if_true, hv rfl, ok_bind, h.checkOrder_eq_ok hready hl hu ho]
  count hvalidate env' hready' := by
    have horder := h.checkOrder_eq_ok hready hl hu ho
    obtain ⟨pins, row, rfl, hkeyed⟩ := h
    simp only [Bool.false_eq_true, if_false]
    exact (hkeyed env' hready').countRange hl hu (hv hvalidate) horder

theorem scans_none (i : Index) (validate : Bool) : Scans i .none validate [] where
  cursor order := by
    refine ⟨_, rfl, fun envs _ => ?_⟩
    have hdone : Keyed.inOrder order ([] : List (Bytes × Bytes)) = [] := by cases order <;> rfl
    rw [hdone]
    let c : Cursor := { tree := i.tree, order, range := .none, started := true, finished := true, pageStepsLeft := 0 }
    have hadvance : c.advance.run (envs 0) = .ok (c, .ok false) := rfl
    exact .done hadvance
  count _ _ _ := rfl

/-- The bounds of the tree for bounds on index keys. -/
theorem scans (h : i.Sorts rank probe entries) (hready : env.Ready i.tree) (hl : lower.Of probe)
    (hu : upper.Of probe) (ho : ∀ lo ∈ lower.key, ∀ hi ∈ upper.key, i.sourceEncoding.compare lo hi ≠ .ok .gt) (validate : Bool)
    (hv : validate = true → lower.Of i.sourceEncoding.Valid ∧ upper.Of i.sourceEncoding.Valid) :
    ∃ range, i.treeRange lower upper validate = .ok range ∧
      Scans i range validate (entries.filter fun r => i.sourceEncoding.inside lower upper (keyOf i.isUnique r.1)) := by
  have hrange : i.treeRange lower upper validate = (if i.isUnique then .ok { lower, upper }
      else i.isEmptyRange lower upper >>= fun empty => if empty then .ok .none
        else .ok { lower := lowerComposite lower, upper := upperComposite upper }) := by
    unfold treeRange
    cases validate with
    | false => rfl
    | true => simp only [if_true, validateBounds_eq_ok.2 (hv rfl), ok_bind]
  rw [hrange]
  cases hun : i.isUnique with
  | true =>
    obtain ⟨henc, hlists⟩ := h.unique hun
    refine ⟨_, rfl, ?_⟩
    rw [← henc]
    exact scans_of_lists hlists hready hl hu (henc ▸ ho) fun hval => henc ▸ validateBounds_eq_ok.2 (hv hval)
  | false =>
    obtain ⟨henc, probe', hlists, hcomposite⟩ := h.composite hun
    have hentry : ∀ r ∈ entries, ∃ key, probe key ∧ ∃ rid : Nat, rid ≤ i32Max ∧ r.1 = DuplicateKeyEncoding.encode key rid := by
      intro r hr
      obtain ⟨key, hkey, hfor⟩ := h.keys r hr
      rw [hun] at hfor
      exact ⟨key, hkey, hfor⟩
    simp only [Bool.false_eq_true, if_false]
    cases hempty : i.isEmptyRange lower upper with
    | error e =>
      exfalso
      unfold isEmptyRange at hempty
      cases hlo : lower.key with
      | none => rw [hlo] at hempty; cases hempty
      | some lo =>
        cases hhi : upper.key with
        | none => rw [hlo, hhi] at hempty; cases hempty
        | some hi =>
          simp only [hlo, hhi, h.compare lo hi (hl lo hlo) (hu hi hhi), ok_bind] at hempty
          split at hempty <;> cases hempty
    | ok empty =>
      cases empty with
      | true =>
        refine ⟨.none, rfl, ?_⟩
        have hnone : (entries.filter fun r => i.sourceEncoding.inside lower upper (keyOf false r.1)) = [] := by
          rw [List.filter_eq_nil_iff]
          intro r hr
          obtain ⟨key, hkey, rid, hrid, heq⟩ := hentry r hr
          rw [keyOf, if_neg (by simp), heq, (parts_composite key hrid).1, inside_of_empty h.compare rfl hl hu hempty hkey]
          simp
        rw [hnone]
        exact scans_none i validate
      | false =>
        refine ⟨_, rfl, ?_⟩
        have hfilter : (entries.filter fun r => i.sourceEncoding.inside lower upper (keyOf false r.1)) =
            entries.filter fun r => i.tree.encoding.inside (lowerComposite lower) (upperComposite upper) r.1 := by
          refine List.filter_congr fun r hr => ?_
          obtain ⟨key, hkey, rid, hrid, heq⟩ := hentry r hr
          rw [keyOf, if_neg (by simp), heq, (parts_composite key hrid).1, henc, inside_composite h.compare hl hu hkey hrid]
        have hlow : ∀ k ∈ (lowerComposite lower).key, ∃ key ∈ lower.key, ∃ rid : Nat, rid ≤ i32Max ∧
            k = DuplicateKeyEncoding.encode key rid := by
          cases lower with
          | unbounded => simp [lowerComposite, Bound.key]
          | included k => exact fun _ hk => ⟨k, rfl, 0, Nat.zero_le _, (Option.some.inj hk).symm⟩
          | excluded k => exact fun _ hk => ⟨k, rfl, i32Max, Nat.le_refl _, (Option.some.inj hk).symm⟩
        have hhigh : ∀ k ∈ (upperComposite upper).key, ∃ key ∈ upper.key, ∃ rid : Nat, rid ≤ i32Max ∧
            k = DuplicateKeyEncoding.encode key rid := by
          cases upper with
          | unbounded => simp [upperComposite, Bound.key]
          | included k => exact fun _ hk => ⟨k, rfl, i32Max, Nat.le_refl _, (Option.some.inj hk).symm⟩
          | excluded k => exact fun _ hk => ⟨k, rfl, 0, Nat.zero_le _, (Option.some.inj hk).symm⟩
        rw [hfilter]
        refine scans_of_lists hlists hready ?_ ?_ ?_ ?_
        · intro k hk
          obtain ⟨key, hkey, rid, hrid, rfl⟩ := hlow k hk
          exact (hcomposite key rid (hl key hkey) hrid).1
        · intro k hk
          obtain ⟨key, hkey, rid, hrid, rfl⟩ := hhigh k hk
          exact (hcomposite key rid (hu key hkey) hrid).1
        · exact fun lo hlo hi hhi => henc ▸ order_composite h.compare hl hu ho rfl hempty lo hlo hi hhi
        · intro hval
          refine validateBounds_eq_ok.2 ⟨fun k hk => ?_, fun k hk => ?_⟩
          · obtain ⟨key, hkey, rid, hrid, rfl⟩ := hlow k hk
            exact (hcomposite key rid (hl key hkey) hrid).2 ((hv hval).1 key hkey)
          · obtain ⟨key, hkey, rid, hrid, rfl⟩ := hhigh k hk
            exact (hcomposite key rid (hu key hkey) hrid).2 ((hv hval).2 key hkey)

theorem range (h : i.Sorts rank probe entries) (hprobe : ∀ key, i.sourceEncoding.Valid key → probe key)
    (hready : env.Ready i.tree) (hb : i.sourceEncoding.Allows lower upper) (order : Order) :
    ∃ c : Cursor, (i.range lower upper order).run env = .ok { cursor := c, unique := i.isUnique } ∧
      ∀ envs : Nat → Env, (∀ n, (envs n).Ready i.tree) → c.Drains envs (Keyed.inOrder order (entries.filter fun r =>
        i.sourceEncoding.inside lower upper (keyOf i.isUnique r.1))) none := by
  obtain ⟨range, hrange, hscans⟩ := h.scans hready (fun k hk => hprobe k (hb.low k hk)) (fun k hk => hprobe k (hb.high k hk))
    hb.order true fun _ => ⟨hb.low, hb.high⟩
  obtain ⟨c, hc, hdrains⟩ := hscans.cursor order
  refine ⟨c, ?_, hdrains⟩
  unfold Index.range Cursor.new
  simp only [run_bind, hready.unrefused.reserveBounds, ok_bind, run_liftM, hrange, hc, run_pure]

theorem countRange (h : i.Sorts rank probe entries) (hprobe : ∀ key, i.sourceEncoding.Valid key → probe key)
    (hready : env.Ready i.tree) (hb : i.sourceEncoding.Allows lower upper) : (i.countRange lower upper).run env =
      .ok (entries.filter fun r => i.sourceEncoding.inside lower upper (keyOf i.isUnique r.1)).length := by
  obtain ⟨range, hrange, hscans⟩ := h.scans hready (fun k hk => hprobe k (hb.low k hk)) (fun k hk => hprobe k (hb.high k hk))
    hb.order true fun _ => ⟨hb.low, hb.high⟩
  unfold Index.countRange
  simp only [run_bind, hready.unrefused.reserveBounds, ok_bind, run_liftM, hrange]
  exact hscans.count rfl env hready

theorem inside_same (h : i.Sorts rank probe entries) {key : Bytes} (hkey : probe key) {e : Bytes × Bytes} (he : e ∈ entries) :
    i.sourceEncoding.inside (.included key) (.included key) (keyOf i.isUnique e.1) = decide (keyOf i.isUnique e.1 = key) := by
  obtain ⟨own, hprobe, hfor⟩ := h.keys e he
  rw [hfor.keyOf_eq]
  simp only [KeyEncoding.inside, KeyEncoding.aboveLower, KeyEncoding.belowUpper, h.compare _ _ hprobe hkey, ne_eq,
    Except.ok.injEq]
  by_cases heq : own = key
  · simp [heq]
  · have hne : Ord.compare (rank own) (rank key) ≠ .eq := fun he => heq (h.inj _ _ hprobe hkey (compare_eq_iff_eq.1 he))
    revert hne
    cases Ord.compare (rank own) (rank key) <;> simp [heq]

theorem lookup (h : i.Sorts rank probe entries) (hprobe : ∀ key, i.sourceEncoding.Valid key → probe key)
    (hready : env.Ready i.tree) {key : Bytes} (hkey : i.sourceEncoding.Valid key) :
    ∃ c : Cursor, (i.lookup key).run env = .ok { cursor := c, unique := i.isUnique } ∧
      ∀ envs : Nat → Env, (∀ n, (envs n).Ready i.tree) →
        c.Drains envs (entries.filter fun r => decide (keyOf i.isUnique r.1 = key)) none := by
  have hb : i.sourceEncoding.Allows (.included key) (.included key) := by
    refine ⟨fun k hk => Option.some.inj hk ▸ hkey, fun k hk => Option.some.inj hk ▸ hkey, fun lo hlo hi hhi => ?_⟩
    obtain rfl := Option.some.inj hlo
    obtain rfl := Option.some.inj hhi
    rw [h.compare key key (hprobe key hkey) (hprobe key hkey)]
    simp
  obtain ⟨c, hrun, hdrains⟩ := h.range hprobe hready hb .ascending
  refine ⟨c, ?_, fun envs hreadys => ?_⟩
  · unfold Index.lookup
    have hvalid : i.sourceEncoding.validateKey key = .ok () := hkey
    simp only [run_bind, run_liftM, hvalid, ok_bind, hrun]
  · have := hdrains envs hreadys
    rwa [Keyed.inOrder, if_pos rfl, List.filter_congr fun e he => h.inside_same (hprobe key hkey) he] at this

end Sorts

/-! ### What the index answers -/

/-- The index holds these rows under the entries of its tree. -/
structure Holds {ρ : Type} [LinearOrder ρ] (i : Index) (rank : Bytes → ρ) (probe : Bytes → Prop)
    (entries rows : List (Bytes × Bytes)) : Prop extends Sorts i rank probe entries where
  entries : List.Forall₂ (EntryOf i.isUnique fun env => env.Ready i.tree) entries rows

namespace Holds

theorem filter_rows (h : i.Holds rank probe entries rows) (p : Bytes → Bool) :
    List.Forall₂ (EntryOf i.isUnique fun env => env.Ready i.tree) (entries.filter fun r => p (keyOf i.isUnique r.1))
      (rows.filter fun r => p r.1) := by
  refine List.rel_filter (fun e r hof => ?_) h.entries
  simp only [hof.key.keyOf_eq]

theorem probes (h : i.Holds rank probe entries rows) : ∀ row ∈ rows, probe row.1 := by
  intro row hrow
  obtain ⟨e, he, hof⟩ := exists_of_mem_left h.entries.flip hrow
  obtain ⟨key, hkey, hfor⟩ := h.keys e he
  rwa [← hof.key.keyOf_eq, hfor.keyOf_eq]

theorem inOrder_rows {R : Bytes × Bytes → Bytes × Bytes → Prop} {xs ys : List (Bytes × Bytes)} (h : List.Forall₂ R xs ys)
    (order : Order) : List.Forall₂ R (Keyed.inOrder order xs) (Keyed.inOrder order ys) := by
  cases order with
  | ascending => exact h
  | descending => exact List.forall₂_reverse_iff.2 h

variable {env : Env} {envs : Nat → Env}

theorem range (h : i.Holds rank probe entries rows) (hprobe : ∀ key, i.sourceEncoding.Valid key → probe key)
    (hready : env.Ready i.tree) (hreadys : ∀ n, (envs n).Ready i.tree)
    (hb : i.sourceEncoding.Allows lower upper) (order : Order) : ∃ c, (i.range lower upper order).run env = .ok c ∧
      c.Drains envs (Keyed.inOrder order (rows.filter fun r => i.sourceEncoding.inside lower upper r.1)) none := by
  obtain ⟨c, hrun, hdrains⟩ := h.toSorts.range hprobe hready hb order
  exact ⟨_, hrun, IndexCursor.drains_of (inOrder_rows (h.filter_rows _) order) hreadys (fun n => (hreadys n).unrefused) rfl
    (hdrains envs hreadys)⟩

theorem countRange (h : i.Holds rank probe entries rows) (hprobe : ∀ key, i.sourceEncoding.Valid key → probe key)
    (hready : env.Ready i.tree) (hb : i.sourceEncoding.Allows lower upper) :
    (i.countRange lower upper).run env = .ok (rows.filter fun r => i.sourceEncoding.inside lower upper r.1).length := by
  rw [h.toSorts.countRange hprobe hready hb, (h.filter_rows (i.sourceEncoding.inside lower upper)).length_eq]

/-- Bounds that cross are refused. -/
theorem refused (h : i.Holds rank probe entries rows) (hprobe : ∀ key, i.sourceEncoding.Valid key → probe key)
    (hready : env.Ready i.tree) (hl : lower.Of i.sourceEncoding.Valid) (hu : upper.Of i.sourceEncoding.Valid) {lo hi : Bytes}
    (hlo : lower.key = some lo) (hhi : upper.key = some hi) (hgt : i.sourceEncoding.compare lo hi = .ok .gt) (order : Order) :
    ∃ e : Error, e.kind = .invalidArgument ∧ (i.range lower upper order).run env = .error e ∧
      (i.countRange lower upper).run env = .error e := by
  have hvalid := validateBounds_eq_ok.2 ⟨hl, hu⟩
  -- The range of the tree is not empty, its bounds are valid, and they cross as well.
  obtain ⟨range, hrange, hfull, hbounds, horder⟩ : ∃ range, i.treeRange lower upper true = .ok range ∧ range.empty = false ∧
      validateBounds i.tree.encoding range.lower range.upper = .ok () ∧
      checkOrder i.tree.encoding range.lower range.upper =
        .error (.invalid "range lower bound sorts above its upper bound") := by
    unfold treeRange
    simp only [if_true, hvalid, ok_bind]
    cases hun : i.isUnique with
    | true =>
      obtain ⟨henc, -⟩ := h.unique hun
      refine ⟨_, rfl, rfl, henc ▸ hvalid, ?_⟩
      unfold checkOrder
      simp only [hlo, hhi, henc, hgt, ok_bind, if_true]
    | false =>
      obtain ⟨henc, probe', -, hcomposite⟩ := h.composite hun
      have hempty : i.isEmptyRange lower upper = .ok false := by
        unfold isEmptyRange
        simp [hlo, hhi, hgt, ok_bind]
      have hplow : probe lo := hprobe lo (hl lo hlo)
      have hphigh : probe hi := hprobe hi (hu hi hhi)
      have hrank : Ord.compare (rank lo) (rank hi) = .gt := by
        rw [h.compare lo hi hplow hphigh, Except.ok.injEq] at hgt
        exact hgt
      obtain ⟨m, hm, hlow⟩ : ∃ m : Nat, m ≤ i32Max ∧ (lowerComposite lower).key = some (DuplicateKeyEncoding.encode lo m) := by
        cases lower with
        | unbounded => cases hlo
        | included k => exact ⟨0, Nat.zero_le _, by rw [← Option.some.inj hlo]; rfl⟩
        | excluded k => exact ⟨i32Max, Nat.le_refl _, by rw [← Option.some.inj hlo]; rfl⟩
      obtain ⟨n, hn, hhigh⟩ : ∃ n : Nat, n ≤ i32Max ∧ (upperComposite upper).key = some (DuplicateKeyEncoding.encode hi n) := by
        cases upper with
        | unbounded => cases hhi
        | included k => exact ⟨i32Max, Nat.le_refl _, by rw [← Option.some.inj hhi]; rfl⟩
        | excluded k => exact ⟨0, Nat.zero_le _, by rw [← Option.some.inj hhi]; rfl⟩
      simp only [Bool.false_eq_true, if_false, hempty, ok_bind]
      refine ⟨_, rfl, rfl, validateBounds_eq_ok.2 ⟨fun k hk => ?_, fun k hk => ?_⟩, ?_⟩
      · rw [hlow, Option.mem_some_iff] at hk
        exact hk ▸ (hcomposite lo m hplow hm).2 (hl lo hlo)
      · rw [hhigh, Option.mem_some_iff] at hk
        exact hk ▸ (hcomposite hi n hphigh hn).2 (hu hi hhi)
      · unfold checkOrder
        simp only [hlow, hhigh, henc, compare_composite h.compare hplow hphigh hm hn, hrank, Ordering.then, ok_bind, if_true]
  refine ⟨.invalid "range lower bound sorts above its upper bound", rfl, ?_, ?_⟩
  · unfold Index.range Cursor.new Cursor.build
    simp only [run_bind, hready.unrefused.reserveBounds, ok_bind, run_liftM, hrange, hfull, Bool.false_eq_true,
      if_false, if_true, hbounds, horder, error_bind]
  · unfold Index.countRange DryDb.countRange
    simp only [run_bind, hready.unrefused.reserveBounds, ok_bind, run_liftM, hrange, hfull, Bool.false_eq_true,
      if_false, hbounds, horder, error_bind]

theorem lookup (h : i.Holds rank probe entries rows) (hprobe : ∀ key, i.sourceEncoding.Valid key → probe key)
    (hready : env.Ready i.tree) (hreadys : ∀ n, (envs n).Ready i.tree) {key : Bytes}
    (hkey : i.sourceEncoding.Valid key) : ∃ c, (i.lookup key).run env = .ok c ∧
      c.Drains envs (rows.filter fun r => r.1 = key) none := by
  obtain ⟨c, hrun, hdrains⟩ := h.toSorts.lookup hprobe hready hkey
  exact ⟨_, hrun, IndexCursor.drains_of (h.filter_rows fun k => k = key) hreadys (fun n => (hreadys n).unrefused) rfl
    (hdrains envs hreadys)⟩

theorem get (h : i.Holds rank probe entries rows) (hprobe : ∀ key, i.sourceEncoding.Valid key → probe key)
    (hready : env.Ready i.tree) {key : Bytes} (hkey : i.sourceEncoding.Valid key) :
    ∃ found, (i.get key).run env = .ok found ∧
      found.map ValueGuard.asBytes = (rows.find? fun r => r.1 = key).map Prod.snd := by
  have hreadys : ∀ n, ((fun _ => env : Nat → Env) n).Ready i.tree := fun _ => hready
  obtain ⟨c, hrun, hdrains⟩ := h.lookup hprobe hready hreadys hkey
  rw [← List.head?_filter]
  unfold Index.get
  simp only [run_bind, hrun, ok_bind]
  generalize (rows.filter fun r => decide (r.1 = key)) = found at hdrains
  cases hdrains with
  | done hadvance =>
    refine ⟨none, ?_, rfl⟩
    rw [hadvance]
    rfl
  | @row _ _ c' row rest _ hadvance _ hvalue _ =>
    refine ⟨c'.value, ?_, ?_⟩
    · rw [hadvance]
      rfl
    · rw [hvalue]
      rfl

theorem inside_unbounded (rows : List (Bytes × Bytes)) :
    (rows.filter fun r => i.sourceEncoding.inside .unbounded .unbounded r.1) = rows :=
  List.filter_eq_self.2 fun _ _ => rfl

end Holds

/-- Lookups, point reads and scans of the index are those of these rows. -/
structure AnswersAs (i : Index) (rows : List (Bytes × Bytes)) : Prop where
  lookup : ∀ (env : Env) (envs : Nat → Env), env.Ready i.tree → (∀ n, (envs n).Ready i.tree) → ∀ key, i.sourceEncoding.Valid key →
    ∃ c, (i.lookup key).run env = .ok c ∧ c.Drains envs (rows.filter fun r => r.1 = key) none
  get : ∀ env : Env, env.Ready i.tree → ∀ key, i.sourceEncoding.Valid key → ∃ found, (i.get key).run env = .ok found ∧
    found.map ValueGuard.asBytes = (rows.find? fun r => r.1 = key).map Prod.snd
  scan : ∀ (env : Env) (envs : Nat → Env), env.Ready i.tree → (∀ n, (envs n).Ready i.tree) → ∀ order,
    ∃ c, (i.scan order).run env = .ok c ∧ c.Drains envs (Keyed.inOrder order rows) none

namespace Holds

theorem answers (h : i.Holds rank probe entries rows) (hprobe : ∀ key, i.sourceEncoding.Valid key → probe key) : i.AnswersAs rows where
  lookup env envs hready hreadys key hkey := h.lookup hprobe hready hreadys hkey
  get env hready key hkey := h.get hprobe hready hkey
  scan env envs hready hreadys order := by
    have hall : i.sourceEncoding.Allows .unbounded .unbounded := ⟨nofun, nofun, nofun⟩
    have hscan := h.range hprobe hready hreadys hall order
    rwa [inside_unbounded] at hscan

end Holds

end

end Index

end DryDb
