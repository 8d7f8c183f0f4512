import DryDb.Spool.Streams
/-!
# What a spool owes its caller

`SpoolTakes enc rows s`: the spool took exactly `rows`, whatever its files did meanwhile. A
push adds its row or changes nothing, or else the spool is spoiled and every later call is
refused. So a spool that still hands out its records hands out the rows it took.
-/

namespace DryDb

open RecordSpool

/-- The row a record stands for. -/
def Record.row (r : Record) : Bytes × Bytes := (r.key, r.value)

/-- A spool that took these rows and nothing else. Its records carry the order they came in, until
there are more of them than the counter can tell apart. -/
structure SpoolTakes (enc : KeyEncoding) (rows : List (Bytes × Bytes)) (s : RecordSpool) : Prop where
  holds : ∃ taken contents, SpoolHolds enc taken s contents ∧ taken.map Record.row = rows ∧
    (rows.length ≤ 2 ^ 64 → taken = numbered rows)
  accepted : ∀ row ∈ rows, enc.Accepts row.1
  seq : s.nextSeq = rows.length % 2 ^ 64
  count : s.len = rows.length
  unspoiled : s.spoiled = none

section

variable {enc : KeyEncoding} {rows : List (Bytes × Bytes)} {s : RecordSpool}

theorem SpoolTakes.new (enc : KeyEncoding) (budget : Nat) (fate : Fate) : SpoolTakes enc [] (RecordSpool.new enc budget fate) where
  holds := ⟨[], [], ⟨rfl, by simp [RecordSpool.new], by simp, rfl, .nil, by simp [RecordSpool.new], by simp⟩, rfl, fun _ => rfl⟩
  accepted := by simp
  seq := rfl
  count := rfl
  unspoiled := rfl

theorem SpoolTakes.setBudget (h : SpoolTakes enc rows s) (budget : Nat) : SpoolTakes enc rows (s.setBudget budget) := by
  obtain ⟨taken, contents, hh, hmap, hnum⟩ := h.holds
  exact ⟨⟨taken, contents, hh.setBudget budget, hmap, hnum⟩, h.accepted, h.seq, h.count, h.unspoiled⟩

/-- A push takes the row, changes nothing, or spoils the spool. -/
theorem SpoolTakes.push (h : SpoolTakes enc rows s) {key value : Bytes} (hkey : key.length < 2 ^ 32)
    (hvalue : value.length < 2 ^ 32) :
    (RecordSpool.push key value).Leads s (fun _ t => SpoolTakes enc (rows ++ [(key, value)]) t)
      fun _ t => t = s ∨ t.spoiled ≠ none := by
  obtain ⟨taken, contents, hh, hmap, hnum⟩ := h.holds
  apply (push_leads hh h.unspoiled hkey hvalue).mono
  · rintro _ t ⟨hacc, ⟨merged, ht⟩, hgood, hseq, hcount, -, -⟩
    refine ⟨⟨_, merged, ht, by simp [hmap, Record.row], fun hmany => ?_⟩, ?_, ?_, ?_, hgood⟩
    · rw [List.length_append, List.length_singleton] at hmany
      rw [hnum (by omega), numbered_concat, h.seq, Nat.mod_eq_of_lt (by omega)]
    · intro row hrow
      rcases List.mem_append.1 hrow with hrow | hrow
      · exact h.accepted row hrow
      · obtain rfl := List.mem_singleton.1 hrow
        exact hacc
    · rw [hseq, h.seq, List.length_append, List.length_singleton]
      omega
    · have hlen := h.count
      unfold RecordSpool.len at hlen ⊢
      rw [hcount, hlen, List.length_append, List.length_singleton]
  · rintro e t (⟨rfl, -⟩ | ⟨-, -, hspoiled, -⟩)
    · exact .inl rfl
    · exact .inr (by rw [hspoiled]; simp)

theorem SpoolTakes.flush (h : SpoolTakes enc rows s) :
    RecordSpool.flush.Leads s (fun _ t => SpoolTakes enc rows t) fun _ t => t.spoiled ≠ none := by
  obtain ⟨taken, contents, hh, hmap, hnum⟩ := h.holds
  apply (flush_leads hh h.unspoiled).mono
  · rintro _ t ⟨⟨⟨merged, ht⟩, -⟩, hkept⟩
    refine ⟨⟨taken, merged, ht, hmap, hnum⟩, h.accepted, hkept.nextSeq.trans h.seq, ?_, hkept.spoiled.trans h.unspoiled⟩
    have hlen := h.count
    unfold RecordSpool.len at hlen ⊢
    rw [hkept.count, hlen]
  · rintro e t ⟨-, hspoiled, -⟩
    rw [hspoiled]
    simp

/-! ## Spoiled spools -/

/-- Every call on a spool starts with a check that a spoiled one fails. -/
theorem usable_fails {α : Type} (h : s.spoiled ≠ none) (k : Unit → Do α) :
    ∃ e, (do let a ← (MonadLiftT.monadLift s.checkUsable : Do Unit); k a).run s = (.error e, s) := by
  obtain ⟨kind, hkind⟩ := Option.ne_none_iff_exists'.1 h
  obtain ⟨e, he⟩ : ∃ e, s.checkUsable = .error e := by
    unfold checkUsable
    rw [hkind]
    exact ⟨_, rfl⟩
  exact ⟨e, by rw [Act.run_bind, he]; rfl⟩

theorem push_spoiled (h : s.spoiled ≠ none) (key value : Bytes) :
    ∃ e, (RecordSpool.push key value).run s = (.error e, s) := usable_fails h _

theorem flush_spoiled (h : s.spoiled ≠ none) : ∃ e, RecordSpool.flush.run s = (.error e, s) := usable_fails h _

theorem intoSorted_spoiled (h : s.spoiled ≠ none) : ∃ e, intoSorted.run s = (.error e, s) := usable_fails h _

end

end DryDb
