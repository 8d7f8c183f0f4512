import DryDb.Model.Db
/-!
# Reading the catalog by growing prefixes

`read_catalog` parses a prefix of the file, and where the prefix runs out it reads a
longer one. The catalog's parser is stable, so the answer is that of the longest prefix
the limit allows, and each round raises the capacity, so there are at most as many
rounds as the limit has bytes.
-/

namespace DryDb

namespace Catalog

open DryDb.Parser

theorem stable_filterId (i : Nat) : Stable (filterId i) :=
  stable_bind (stable_take 1) fun _ => stable_bind (stable_take _) fun _ => stable_lift _

theorem stable_indexDescriptor : Stable indexDescriptor :=
  stable_bind (stable_take 4) fun _ => stable_bind (stable_lift _) fun _ => stable_bind (stable_lift _) fun _ =>
  stable_bind (stable_take _) fun _ => stable_bind (stable_lift _) fun _ => stable_bind (stable_take _) fun _ =>
  stable_bind (stable_lift _) fun _ => stable_bind (stable_take 10) fun _ => stable_bind (stable_lift _) fun _ =>
  stable_bind (stable_lift _) fun _ => stable_bind (stable_lift _) fun _ => stable_bind (stable_lift _) fun _ =>
  stable_bind (stable_lift _) fun _ => stable_bind (stable_lift _) fun _ => stable_bind stable_position fun _ =>
  stable_pure _

theorem stable_tableDescriptor (i : Nat) : Stable (tableDescriptor i) :=
  stable_bind (stable_take 4) fun _ => stable_bind (stable_lift _) fun _ => stable_bind (stable_lift _) fun _ =>
  stable_bind (stable_take _) fun _ => stable_bind (stable_lift _) fun _ =>
  stable_bind stable_indexDescriptor fun _ => stable_bind (stable_take 2) fun _ => stable_bind (stable_lift _) fun _ =>
  stable_bind (stable_replicate (fun _ => stable_indexDescriptor) _ _) fun _ => stable_bind (stable_lift _) fun _ =>
  stable_pure _

theorem stable_catalog (h : Header) : Stable (parser h) :=
  stable_bind (stable_replicate stable_filterId _ _) fun _ =>
  stable_bind (stable_replicate stable_tableDescriptor _ _) fun _ => stable_bind (stable_lift _) fun _ =>
  stable_bind stable_position fun _ => stable_pure _

end Catalog

/-! ## The growing loop over any source -/

/-- One round of `read_catalog`, on what the source answered when it was asked for the
first `capacity` bytes: an answer, or the capacity of the next round. -/
def catalogRound (h : Header) (maxBytes capacity : Nat) : Result Bytes → Result Catalog ⊕ Nat
  | .error e => .inl (.error e)
  | .ok buf =>
    if buf.length < headerLen then
      .inl (.error (.new .unsupportedFormat "file is shorter than the 26-byte header")) else
    match Catalog.parse h buf with
    | .error e => .inl (.error e)
    | .ok (.complete catalog _) => .inl (.ok catalog)
    | .ok (.needMore needed) =>
      if buf.length < capacity then .inl (.error (.corrupt "table descriptors are truncated at the end of the file"))
      else if maxBytes ≤ capacity then
        .inl (.error (.corrupt s!"table descriptors need more than the {maxBytes} byte catalog limit"))
      else .inr (min (max needed (capacity * 2)) maxBytes)

/-- The loop of `read_catalog` over any source. No two rounds ask for the same number of
bytes, so a source is what it answers for each capacity. `none` says the rounds were
used up. -/
def growCatalog (read : Nat → Result Bytes) (h : Header) (maxBytes : Nat) : Nat → Nat → Option (Result Catalog)
  | 0, _ => none
  | rounds + 1, capacity =>
    match catalogRound h maxBytes capacity (read capacity) with
    | .inl r => some r
    | .inr capacity => growCatalog read h maxBytes rounds capacity

section Growing

variable {h : Header} {file : Bytes} {maxBytes rounds capacity : Nat} {r : Result Catalog}

/-- A round that goes on asks for more, and stays inside the limit. -/
theorem catalogRound_grows {answer : Result Bytes} {next : Nat} (hpos : 0 < capacity)
    (hnext : catalogRound h maxBytes capacity answer = .inr next) : capacity < next ∧ next ≤ maxBytes := by
  unfold catalogRound at hnext
  repeat' split at hnext
  all_goals cases hnext
  omega

/-- The loop ends: more rounds than the limit leaves room for change nothing. -/
theorem growCatalog_ends (read : Nat → Result Bytes) (h : Header) (hpos : 0 < capacity) :
    ∃ r, ∀ rounds, maxBytes - capacity < rounds → growCatalog read h maxBytes rounds capacity = some r := by
  -- The measure is what the capacity can still grow by.
  generalize hgap : maxBytes - capacity = gap
  induction gap using Nat.strong_induction_on generalizing capacity with
  | _ gap ih =>
    cases hround : catalogRound h maxBytes capacity (read capacity) with
    | inl r =>
      refine ⟨r, fun rounds hrounds => ?_⟩
      obtain ⟨k, rfl⟩ : ∃ k, rounds = k + 1 := ⟨rounds - 1, by omega⟩
      simp only [growCatalog, hround]
    | inr next =>
      obtain ⟨hlt, hle⟩ := catalogRound_grows hpos hround
      obtain ⟨r, hr⟩ := ih (maxBytes - next) (by omega) (Nat.lt_trans hpos hlt) rfl
      refine ⟨r, fun rounds hrounds => ?_⟩
      obtain ⟨k, rfl⟩ : ∃ k, rounds = k + 1 := ⟨rounds - 1, by omega⟩
      simp only [growCatalog, hround]
      exact hr k (by omega)

/-- The loop of `read_catalog` ends, from the capacity it starts with. -/
theorem growCatalog_starts (read : Nat → Result Bytes) (h : Header) (maxBytes : Nat) : ∃ r, ∀ rounds, maxBytes < rounds →
    growCatalog read h maxBytes rounds (max (min 8192 maxBytes) headerLen) = some r := by
  have hpos : 0 < max (min 8192 maxBytes) headerLen := by
    rw [headerLen]
    omega
  obtain ⟨r, hr⟩ := growCatalog_ends read h hpos
  exact ⟨r, fun rounds hrounds => hr rounds (by omega)⟩

/-- Over a file the loop is the one `read_catalog` runs. -/
theorem readCatalogFrom_eq (hr : growCatalog (fun n => .ok (file.take n)) h maxBytes rounds capacity = some r) :
    readCatalogFrom file h maxBytes rounds capacity = r := by
  induction rounds generalizing capacity with
  | zero => cases hr
  | succ rounds ih =>
    unfold growCatalog catalogRound at hr
    unfold readCatalogFrom
    by_cases hshort : (file.take capacity).length < headerLen
    · simp only [if_pos hshort, Option.some.injEq] at hr ⊢
      exact hr
    simp only [if_neg hshort] at hr ⊢
    cases hparse : Catalog.parse h (file.take capacity) with
    | error e =>
      simp only [hparse, Option.some.injEq] at hr
      exact hr
    | ok parsed =>
      cases parsed with
      | complete catalog stop =>
        simp only [hparse, Option.some.injEq] at hr
        exact hr
      | needMore needed =>
        simp only [hparse] at hr
        show (if _ then _ else if _ then _ else _ : Result Catalog) = r
        split_ifs at hr ⊢ with hend hlimit
        · exact Option.some.inj hr
        · exact Option.some.inj hr
        · exact ih hr

/-- What a round over a file that answers says about parsing everything the limit allows. -/
theorem catalogRound_answers (hheader : headerLen ≤ capacity) (hle : capacity ≤ maxBytes)
    (hround : catalogRound h maxBytes capacity (.ok (file.take capacity)) = .inl r) (c : Catalog) :
    r = .ok c ↔ headerLen ≤ file.length ∧ ∃ stop, Catalog.parse h (file.take maxBytes) = .ok (.complete c stop) := by
  have hstable := Catalog.stable_catalog h
  unfold catalogRound at hround
  by_cases hshort : (file.take capacity).length < headerLen
  · simp only [if_pos hshort, Sum.inl.injEq] at hround
    rw [List.length_take] at hshort
    subst hround
    constructor
    · intro hc
      cases hc
    · intro hc
      omega
  simp only [if_neg hshort] at hround
  have hfile : headerLen ≤ file.length := by
    rw [List.length_take] at hshort
    omega
  cases hparse : Catalog.parse h (file.take capacity) with
  | error e =>
    simp only [hparse, Sum.inl.injEq] at hround
    subst hround
    have hwhole : Catalog.parse h (file.take maxBytes) = .error e := hstable.failure_take hle hparse
    simp [hwhole]
  | ok parsed =>
    cases parsed with
    | complete catalog stop =>
      simp only [hparse, Sum.inl.injEq] at hround
      subst hround
      have hwhole : Catalog.parse h (file.take maxBytes) = .ok (.complete catalog stop) :=
        hstable.complete_take hle hparse
      simp [hwhole, hfile]
    | needMore needed =>
      simp only [hparse] at hround
      -- The prefix that ran out is all there is to read.
      have hall : r ≠ .ok c ∧ file.take maxBytes = file.take capacity := by
        split_ifs at hround with hend hlimit
        · cases hround
          rw [List.length_take] at hend
          refine ⟨nofun, ?_⟩
          rw [List.take_of_length_le (by omega), List.take_of_length_le (by omega)]
        · cases hround
          exact ⟨nofun, by rw [Nat.le_antisymm hle hlimit]⟩
      rw [hall.2, hparse]
      simp [hall.1]

theorem growCatalog_answers (hheader : headerLen ≤ capacity) (hle : capacity ≤ maxBytes)
    (hr : growCatalog (fun n => .ok (file.take n)) h maxBytes rounds capacity = some r) (c : Catalog) :
    r = .ok c ↔ headerLen ≤ file.length ∧ ∃ stop, Catalog.parse h (file.take maxBytes) = .ok (.complete c stop) := by
  induction rounds generalizing capacity with
  | zero => cases hr
  | succ rounds ih =>
    unfold growCatalog at hr
    cases hround : catalogRound h maxBytes capacity (.ok (file.take capacity)) with
    | inl r' =>
      simp only [hround, Option.some.injEq] at hr
      subst hr
      exact catalogRound_answers hheader hle hround c
    | inr next =>
      simp only [hround] at hr
      have hpos : 0 < capacity := Nat.lt_of_lt_of_le (by decide) hheader
      obtain ⟨hlt, hnext⟩ := catalogRound_grows hpos hround
      exact ih (by omega) hnext hr

end Growing

end DryDb
