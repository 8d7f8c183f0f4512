import Mathlib
/-!
# Tables and what their values add up to

A hash map is an `AList`: keys are unique and the order of the entries means nothing.
`weigh f m` adds `f` over the values, and the lemmas say how an insertion and a removal
change it.
-/

namespace DryDb

/-- A hash map from `κ` to `α`. -/
abbrev Dict (κ α : Type) := AList fun _ : κ => α

namespace Dict

variable {κ α : Type}

/-- The sum of `f` over the values. -/
def weigh (f : α → Nat) (m : Dict κ α) : Nat := (m.entries.map fun e => f e.2).sum

@[simp] theorem weigh_empty (f : α → Nat) : weigh f (∅ : Dict κ α) = 0 := rfl

variable [DecidableEq κ] {m : Dict κ α} {k : κ} {v : α}

theorem weigh_insert {f : α → Nat} (h : m.lookup k = none) :
    weigh f (m.insert k v) = f v + weigh f m := by
  rw [AList.lookup_eq_none] at h
  unfold weigh
  rw [AList.entries_insert_of_notMem h, List.map_cons, List.sum_cons]

theorem weigh_erase {f : α → Nat} (h : m.lookup k = some v) :
    weigh f (m.erase k) + f v = weigh f m := by
  have hmem : k ∈ m.entries.keys := AList.mem_keys.1 (AList.lookup_isSome.1 (by rw [h]; rfl))
  obtain ⟨v', before, after, hnot, hentries, hrest⟩ := List.exists_of_kerase hmem
  have hv : v' = v := by
    have hin : (⟨k, v'⟩ : Sigma fun _ : κ => α) ∈ m.entries := by rw [hentries]; simp
    have := (List.mem_dlookup_iff m.nodupKeys).2 hin
    exact Option.some.inj (this.symm.trans h)
  subst hv
  have herase : (m.erase k).entries = before ++ after := hrest
  simp only [weigh, herase, hentries, List.map_append, List.map_cons, List.sum_append, List.sum_cons]
  omega

theorem erase_of_lookup_none (h : m.lookup k = none) : m.erase k = m := by
  refine AList.ext ?_
  exact List.kerase_of_notMem_keys (AList.lookup_eq_none.1 h)

/-- Replacing a value. -/
theorem weigh_replace {f : α → Nat} (v' : α) (h : m.lookup k = some v) :
    weigh f (m.insert k v') + f v = weigh f m + f v' := by
  have hsame : m.insert k v' = (m.erase k).insert k v' := by
    refine AList.ext ?_
    rw [AList.entries_insert, AList.entries_insert]
    have : List.kerase k (m.erase k).entries = (m.erase k).entries :=
      List.kerase_of_notMem_keys (AList.lookup_eq_none.1 (AList.lookup_erase k m))
    rw [this]
    rfl
  rw [hsame, weigh_insert (AList.lookup_erase k m), ← weigh_erase h]
  omega

/-- A table whose values all weigh nothing weighs nothing, and the other way round. -/
theorem weigh_eq_zero {f : α → Nat} : weigh f m = 0 ↔ ∀ k v, m.lookup k = some v → f v = 0 := by
  constructor
  · intro h k v hv
    have := weigh_erase (f := f) hv
    omega
  · intro h
    simp only [weigh, List.sum_eq_zero_iff, List.mem_map]
    rintro _ ⟨⟨k, v⟩, he, rfl⟩
    exact h k v ((List.mem_dlookup_iff m.nodupKeys).2 he)

end Dict

end DryDb
