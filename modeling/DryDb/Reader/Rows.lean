import DryDb.Reader.Scan
/-!
# Reading a row

What it takes to read the row at an entry, and that a cursor standing there reads it.
-/

namespace DryDb

/-- The key and the value of the entry `x` are those of `row`. -/
structure Tree.RowAt (t : Tree) (env : Env) (x : Place) (row : Bytes × Bytes) : Prop where
  entry : ∃ entry, x.1.view.leafEntry x.2 = .ok entry ∧
    (if x.1.view.layout.omittedKeys then
      t.encoding.maxRebuiltKeyLen.isSome ∧ t.rebuildKey x.1.view x.2 = .ok (some row.1)
    else (x.1.bytes.drop entry.keyOffset).take entry.keyLen = row.1) ∧
    ∃ guard : ValueGuard, (resolveValue x.1 entry).run env = .ok (guard.pin, guard.start, guard.stop) ∧
      guard.asBytes = row.2

section

variable {env : Env}

theorem Env.Unrefused.run_chargeAtLeast (hu : env.Unrefused) (charged bytes : Nat) :
    ∃ n, (chargeAtLeast charged bytes).run env = .ok n := by
  unfold chargeAtLeast
  by_cases h : bytes + bufferOverhead ≤ charged
  · exact ⟨charged, by simp [h]⟩
  · exact ⟨bytes + bufferOverhead, by simp [h, hu _]⟩

theorem Env.Unrefused.run_charge (hu : env.Unrefused) (b : KeyBuffer) (len : Nat) :
    ∃ b', (b.charge len).run env = .ok b' := by
  unfold KeyBuffer.charge
  by_cases h : len ≤ b.capacity
  · exact ⟨b, by simp [h]⟩
  · obtain ⟨n, hn⟩ := hu.run_chargeAtLeast b.charged len
    exact ⟨{ capacity := len, charged := n }, by simp [h, hn]⟩

/-- Reading the entry under a cursor: the row becomes current and the position stays. -/
theorem Cursor.materialize_eq (hu : env.Unrefused) {c : Cursor} {t : Tree} (ht : c.tree = t) {pin : PagePin} (hp : c.page = some pin)
    {row : Bytes × Bytes} (hrow : t.RowAt env (pin, c.index) row) :
    ∃ c', c.materialize.run env = .ok (c', .ok ()) ∧ c'.currentRow = some row ∧ c'.toPosition = c.toPosition ∧
      c.Same c' := by
  obtain ⟨entry, hentry, hkey, guard, hguard, hbytes⟩ := hrow.entry
  subst ht
  simp only at hentry hkey hguard
  -- The key: from the page, or rebuilt into the buffer.
  have hread : ∃ buf key, (c.readKey pin entry).run env = .ok (buf, .ok key) ∧
      (∀ offset len, key = .page offset len → (pin.bytes.drop offset).take len = row.1) ∧
        (key = .rebuilt → buf.contents = row.1) := by
    unfold Cursor.readKey
    cases ho : pin.view.layout.omittedKeys with
    | false =>
      rw [ho] at hkey
      exact ⟨c.keyBuf, .page entry.keyOffset entry.keyLen, rfl, by simpa using hkey⟩
    | true =>
      rw [ho] at hkey
      simp only [if_true] at hkey
      obtain ⟨hlen, hrebuild⟩ := hkey
      obtain ⟨n, hn⟩ := Option.isSome_iff_exists.1 hlen
      have hcap : c.tree.rebuiltKeyCapacity = .ok n := by
        unfold Tree.rebuiltKeyCapacity
        rw [hn]
        rfl
      obtain ⟨buf, hbuf⟩ := hu.run_charge c.keyBuf n
      obtain ⟨m, hm⟩ := hu.run_chargeAtLeast buf.charged (max buf.capacity row.1.length)
      refine ⟨{ contents := row.1, capacity := max buf.capacity row.1.length, charged := m }, .rebuilt, ?_, nofun, fun _ => rfl⟩
      simp [hcap, hbuf, hrebuild, hm]
  obtain ⟨buf, key, hread, hkeyEq⟩ := hread
  unfold Cursor.materialize
  simp only [hp, hentry, Program.run_bind, hread, ok_bind, Program.run_attempt]
  -- The value: on the leaf, or on its own page.
  unfold resolveValue at hguard
  unfold Cursor.readValue
  cases hv : entry.value with
  | inline offset len =>
    rw [hv] at hguard
    simp only [Program.run_pure, Except.ok.injEq, Prod.mk.injEq] at hguard ⊢
    obtain ⟨rfl, rfl, hstop⟩ := hguard
    refine ⟨_, ⟨rfl, trivial⟩, ?_, rfl, ⟨rfl, rfl, rfl, rfl, rfl⟩⟩
    unfold Cursor.currentRow
    unfold ValueGuard.asBytes at hbytes
    rw [← hstop] at hbytes
    cases key <;> simp_all
  | overflow page =>
    rw [hv] at hguard
    simp only at hguard
    simp only [Program.run_bind, hguard, ok_bind, Program.run_pure, Except.ok.injEq, Prod.mk.injEq]
    refine ⟨_, ⟨rfl, trivial⟩, ?_, rfl, ⟨rfl, rfl, rfl, rfl, rfl⟩⟩
    unfold Cursor.currentRow
    unfold ValueGuard.asBytes at hbytes
    cases key <;> simp_all

end

end DryDb
