import DryDb.Builder.Finished
import DryDb.Spool.Taken
/-!
# A finished file holds the rows the caller was told went in

An append can fail after its row is buffered: the spill it sets off may be another table's, and
the row may already be in a run. What ties the two together is that such a failure spoils a spool
for good, and a build does not go past a spoiled spool. So either some spool is spoiled, or every
table's spool took exactly the rows whose append returned `Ok`.
-/

namespace DryDb

open List

/-! ## The rows a caller was told went in -/

/-- What a call on `b` put into the table `i`, by its answer. -/
def BuilderCall.rows (i : Nat) (b : DatabaseBuilder) : BuilderCall → List (Bytes × Bytes)
  | append table key value =>
    if table = i ∧ ((DatabaseBuilder.append table key value).run b).1 = .ok () then [(key, value)] else []
  | _ => []

/-- The rows of the appends to a table that returned `Ok`, in order. -/
def acceptedRows (i : Nat) : List (Event DatabaseBuilder BuilderCall) → List (Bytes × Bytes)
  | [] => []
  | e :: past => acceptedRows i past ++ e.label.rows i e.before

/-- Values are short of the length a page can have. -/
def BuilderCall.Fits : BuilderCall → Prop
  | append _ _ value => pagePrefixLen + value.length ≤ i32Max
  | _ => True

instance : DecidablePred BuilderCall.Fits
  | .append _ _ value => inferInstanceAs (Decidable (pagePrefixLen + value.length ≤ i32Max))
  | .pageSize _ | .eytzingerDigests _ | .pageFilter _ | .sortBuffer _ | .createTable .. | .addSecondaryIndex .. =>
    inferInstanceAs (Decidable True)

namespace DatabaseBuilder

variable {b : DatabaseBuilder} {rows : Nat → List (Bytes × Bytes)} {spec : TableSpec} {t : RecordSpool} {table handle : Nat}
  {value : Bytes} {name : String} {encoding : KeyEncoding} {b' : DatabaseBuilder} {index : SecondarySpec}

/-- The spool of some table refuses everything from now on. -/
def Spoiled (b : DatabaseBuilder) : Prop := ∃ spec ∈ b.tables, spec.spool.spoiled ≠ none

/-- The spool of every table took the rows of that table. -/
structure Takes (b : DatabaseBuilder) (rows : Nat → List (Bytes × Bytes)) : Prop where
  spools : ∀ i spec, b.tables[i]? = some spec → SpoolTakes spec.encoding (rows i) spec.spool
  others : ∀ i, b.tables.length ≤ i → rows i = []

/-! ## Spilling -/

theorem Takes.set (h : b.Takes rows) {i : Nat} (hi : b.tables[i]? = some spec)
    {more : List (Bytes × Bytes)} (ht : SpoolTakes spec.encoding more t) (buffered : Nat) :
    Takes { b.setSpool i spec t with buffered } (Function.update rows i more) := by
  have hlt := (List.getElem?_eq_some_iff.1 hi).1
  constructor
  · intro j spec' hj
    rcases eq_or_ne j i with rfl | hne
    · have hset : (b.tables.set j { spec with spool := t })[j]? = some spec' := hj
      rw [getElem?_set_self hlt, Option.some.injEq] at hset
      subst hset
      rw [Function.update_self]
      exact ht
    · have hset : (b.tables.set i { spec with spool := t })[j]? = some spec' := hj
      rw [getElem?_set_ne hne.symm] at hset
      rw [Function.update_of_ne hne]
      exact h.spools j spec' hset
  · intro j hj
    have hlen : (b.tables.set i { spec with spool := t }).length ≤ j := hj
    rw [length_set] at hlen
    rw [Function.update_of_ne (by omega)]
    exact h.others j hlen

theorem spoiled_set {i : Nat} (hi : b.tables[i]? = some spec) (ht : t.spoiled ≠ none)
    (buffered : Nat) : Spoiled { b.setSpool i spec t with buffered } :=
  ⟨{ spec with spool := t }, mem_of_getElem? (i := i) (getElem?_set_self (List.getElem?_eq_some_iff.1 hi).1), ht⟩

theorem Takes.spillFullestTable (h : b.Takes rows) :
    DatabaseBuilder.spillFullestTable.Leads b (fun _ b' => b'.Takes rows) fun _ b' => b'.Spoiled := by
  unfold Act.Leads
  rcases spillFullestTable_cases b with ⟨-, hrun⟩ | ⟨-, i, spec, hi, -, hrun⟩
  · rw [hrun]
    exact h
  · have hflush := (h.spools i spec hi).flush
    rw [hrun]
    cases hf : RecordSpool.flush.run spec.spool with
    | mk out t =>
      cases out with
      | ok _ =>
        have ht := h.set hi (hflush.post hf) (b.setSpool i spec t).held
        rwa [Function.update_eq_self] at ht
      | error e => exact spoiled_set hi (hflush.fault hf) b.buffered

theorem Takes.keepInside (h : b.Takes rows) :
    keepInsideTheSortBuffer.Leads b (fun _ b' => b'.Takes rows) fun _ b' => b'.Spoiled := by
  unfold keepInsideTheSortBuffer
  apply Act.Leads.bind (Act.Leads.get (Q := fun _ b' => b' = b) rfl)
  rintro _ _ rfl
  refine Act.Leads.repeatWhile (I := fun _ b' => Takes b' rows) (fun n b' hb => ?_) (fun _ hb => hb) _ h
  refine hb.spillFullestTable.mono (fun more b'' hb' => ?_) fun _ _ he => he
  cases more <;> exact hb'

/-! ## Appending -/

theorem Takes.pushRow (h : b.Takes rows) (hi : b.tables[table]? = some spec)
    {key : Bytes} (hkey : key.length < 2 ^ 32) (hvalue : value.length < 2 ^ 32) :
    (DatabaseBuilder.pushRow table key value spec).Leads b
      (fun _ b' => b'.Takes (Function.update rows table (rows table ++ [(key, value)])))
      fun _ b' => b'.Spoiled ∨ b'.Takes rows := by
  have hpush := (h.spools table spec hi).push hkey hvalue
  unfold Act.Leads
  rw [pushRow_run]
  cases hp : (RecordSpool.push key value).run spec.spool with
  | mk out t =>
    cases out with
    | ok _ => exact h.set hi (hpush.post hp) _
    | error e =>
      rcases hpush.fault hp with rfl | hspoiled
      · right
        have ht := h.set hi (h.spools table spec hi) (b.buffered - spec.spool.buffered + spec.spool.buffered)
        rwa [Function.update_eq_self] at ht
      · exact .inl (spoiled_set hi hspoiled _)

theorem checkRow_length {key : Bytes} (h : b.checkRow spec key = .ok ()) : key.length ≤ u16Max := by
  obtain ⟨hlen, -⟩ := guard_eq_ok.1 h
  exact Nat.le_of_not_lt hlen

/-- An append that returns `Ok` puts its row in. One that does not puts nothing in, or ends the
build. -/
theorem Takes.append (h : b.Takes rows) (table : Nat) (key : Bytes) (hvalue : value.length < 2 ^ 32) :
    (DatabaseBuilder.append table key value).Leads b
      (fun _ b' => b'.Takes (Function.update rows table (rows table ++ [(key, value)])))
      fun _ b' => b'.Spoiled ∨ b'.Takes rows := by
  rcases append_cases b table key value with ⟨e, hrun⟩ | ⟨spec, hi, hcheck, hrun⟩
  · unfold Act.Leads
    rw [hrun]
    exact .inr h
  · have hkey := checkRow_length hcheck
    simp only [u16Max] at hkey
    unfold Act.Leads
    rw [hrun]
    exact (h.pushRow hi (by omega) hvalue).bind fun _ b' hb => hb.keepInside.mono (fun _ _ hq => hq) fun _ _ he => .inl he

/-! ## The other calls -/

theorem Takes.createTable (h : b.Takes rows) {fate : Fate}
    (hb : b.createTable name encoding fate = .ok (handle, b')) : b'.Takes rows := by
  obtain ⟨-, hb⟩ := guard_eq_ok.1 hb
  obtain ⟨-, hb⟩ := guard_eq_ok.1 hb
  cases hb
  constructor
  · intro i spec hi
    rcases Nat.lt_trichotomy i b.tables.length with hlt | rfl | hgt
    · rw [getElem?_append_left hlt] at hi
      exact h.spools i spec hi
    · obtain rfl : _ = spec := by simpa using hi
      rw [h.others _ (Nat.le_refl _)]
      exact SpoolTakes.new ..
    · rw [getElem?_eq_none (by simp; omega)] at hi
      cases hi
  · intro i hi
    rw [length_append, length_singleton] at hi
    exact h.others i (by omega)

theorem Takes.addSecondaryIndex (h : b.Takes rows) (hb : b.addSecondaryIndex table index = .ok b') : b'.Takes rows := by
  obtain ⟨spec, hspec, hb⟩ := bind_eq_ok.1 hb
  have hspec := okOr_eq_ok.1 hspec
  obtain ⟨-, hb⟩ := guard_eq_ok.1 hb
  obtain ⟨-, hb⟩ := guard_eq_ok.1 hb
  cases hb
  constructor
  · intro i spec' hi
    rcases eq_or_ne i table with rfl | hne
    · rw [getElem?_set_self (List.getElem?_eq_some_iff.1 hspec).1, Option.some.injEq] at hi
      subst hi
      exact h.spools i spec hspec
    · rw [getElem?_set_ne hne.symm] at hi
      exact h.spools i spec' hi
  · intro i hi
    rw [length_set] at hi
    exact h.others i hi

theorem Takes.setSortBuffer (h : b.Takes rows) (bytes : Nat) : (b.setSortBuffer bytes).Takes rows := by
  constructor
  · intro i spec hi
    obtain ⟨spec', hi', rfl⟩ := Option.map_eq_some_iff.1 ((getElem?_map ..).symm.trans hi)
    exact (h.spools i spec' hi').setBudget _
  · intro i hi
    exact h.others i (by simpa [DatabaseBuilder.setSortBuffer] using hi)

theorem Spoiled.respooled (h : b.Spoiled) (hb : b.Respooled b') : b'.Spoiled := by
  obtain ⟨spec, hspec, hspoiled⟩ := h
  obtain ⟨spec', hspec', -, hreach⟩ := exists_of_mem_left hb.tables hspec
  refine ⟨spec', hspec', hreach.induction (P := fun s => s.spoiled ≠ none) hspoiled fun op s hs => ?_⟩
  cases op with
  | push key value =>
    obtain ⟨e, he⟩ := push_spoiled hs key value
    show ((RecordSpool.push key value).run s).2.spoiled ≠ none
    rw [he]
    exact hs
  | flush =>
    obtain ⟨e, he⟩ := flush_spoiled hs
    show (RecordSpool.flush.run s).2.spoiled ≠ none
    rw [he]
    exact hs
  | setBudget budget => exact hs

/-- A spoiled spool stays in its table. -/
theorem Spoiled.createTable (h : b.Spoiled) {fate : Fate}
    (hb : b.createTable name encoding fate = .ok (handle, b')) : b'.Spoiled := by
  obtain ⟨-, hb⟩ := guard_eq_ok.1 hb
  obtain ⟨-, hb⟩ := guard_eq_ok.1 hb
  cases hb
  obtain ⟨spec, hspec, hspoiled⟩ := h
  exact ⟨spec, mem_append_left _ hspec, hspoiled⟩

theorem Spoiled.addSecondaryIndex (h : b.Spoiled) (hb : b.addSecondaryIndex table index = .ok b') : b'.Spoiled := by
  obtain ⟨spec, hspec, hb⟩ := bind_eq_ok.1 hb
  have hspec := okOr_eq_ok.1 hspec
  obtain ⟨-, hb⟩ := guard_eq_ok.1 hb
  obtain ⟨-, hb⟩ := guard_eq_ok.1 hb
  cases hb
  obtain ⟨spec', hspec', hspoiled⟩ := h
  obtain ⟨i, hi⟩ := mem_iff_getElem?.1 hspec'
  rcases eq_or_ne i table with rfl | hne
  · obtain rfl : spec = spec' := by rw [hspec] at hi; exact Option.some.inj hi
    exact ⟨_, mem_of_getElem? (getElem?_set_self (List.getElem?_eq_some_iff.1 hspec).1), hspoiled⟩
  · exact ⟨spec', mem_of_getElem? ((getElem?_set_ne hne.symm).trans hi), hspoiled⟩

end DatabaseBuilder

variable {b : DatabaseBuilder} {rows : List (Bytes × Bytes)} {src : SortedRecords} {rs : List Record} {enc : KeyEncoding}
  {s t : RecordSpool}

theorem update_state {f : DatabaseBuilder → Result DatabaseBuilder} {P : DatabaseBuilder → Prop} (h : P b)
    (hf : ∀ b', f b = .ok b' → P b') : P ((Act.update f).run b).2 := by
  rcases Act.update_run f b with ⟨b', hb', hrun⟩ | ⟨e, -, hrun⟩
  · rw [hrun]
    exact hf b' hb'
  · rw [hrun]
    exact h

theorem BuilderCall.spoiled (call : BuilderCall) (h : b.Spoiled) : (call.run.run b).2.Spoiled := by
  cases call with
  | pageSize bytes =>
    refine update_state h fun b' hb' => ?_
    obtain ⟨-, hb'⟩ := guard_eq_ok.1 hb'
    obtain ⟨-, hb'⟩ := guard_eq_ok.1 hb'
    cases hb'
    exact h
  | eytzingerDigests enabled => exact h
  | pageFilter filter => exact h
  | sortBuffer bytes =>
    exact (show ({ b with sortBuffer := max bytes (64 * 1024) } : DatabaseBuilder).Spoiled from h).respooled
      (b.respooled_setSortBuffer bytes)
  | createTable name encoding fate =>
    refine update_state h fun b' hb' => ?_
    obtain ⟨⟨handle, b''⟩, hcreate, rfl⟩ := map_eq_ok.1 hb'
    exact h.createTable hcreate
  | addSecondaryIndex table index => exact update_state h fun b' hb' => h.addSecondaryIndex hb'
  | append table key value => exact h.respooled (b.respooled_append table key value)

/-- What one call leaves. -/
theorem BuilderCall.takes (call : BuilderCall) {rows : Nat → List (Bytes × Bytes)} (hfits : call.Fits)
    (h : b.Takes rows) : (call.run.run b).2.Spoiled ∨ (call.run.run b).2.Takes fun i => rows i ++ call.rows i b := by
  cases call with
  | append table key value =>
    have hvalue : value.length < 2 ^ 32 := by
      have : pagePrefixLen + value.length ≤ i32Max := hfits
      simp only [i32Max] at this
      omega
    have happend := h.append table key hvalue
    show ((DatabaseBuilder.append table key value).run b).2.Spoiled ∨ ((DatabaseBuilder.append table key value).run b).2.Takes _
    cases hrun : (DatabaseBuilder.append table key value).run b with
    | mk out b' =>
      cases out with
      | ok _ =>
        have hrows : (fun i => rows i ++ (BuilderCall.append table key value).rows i b) =
            Function.update rows table (rows table ++ [(key, value)]) := by
          funext i
          rcases eq_or_ne i table with rfl | hne
          · simp [BuilderCall.rows, hrun]
          · simp [BuilderCall.rows, Function.update_of_ne hne, hne.symm]
        rw [hrows]
        exact .inr (happend.post hrun)
      | error e =>
        have hrows : (fun i => rows i ++ (BuilderCall.append table key value).rows i b) = rows := by
          funext i
          simp [BuilderCall.rows, hrun]
        rw [hrows]
        exact happend.fault hrun
  | pageSize bytes =>
    simp only [BuilderCall.rows, append_nil]
    refine .inr (update_state (P := fun b' => b'.Takes rows) h fun b' hb' => ?_)
    obtain ⟨-, hb'⟩ := guard_eq_ok.1 hb'
    obtain ⟨-, hb'⟩ := guard_eq_ok.1 hb'
    cases hb'
    exact ⟨h.spools, h.others⟩
  | eytzingerDigests enabled =>
    simp only [BuilderCall.rows, append_nil]
    exact .inr ⟨h.spools, h.others⟩
  | pageFilter filter =>
    simp only [BuilderCall.rows, append_nil]
    exact .inr ⟨h.spools, h.others⟩
  | sortBuffer bytes =>
    simp only [BuilderCall.rows, append_nil]
    exact .inr (h.setSortBuffer bytes)
  | createTable name encoding fate =>
    simp only [BuilderCall.rows, append_nil]
    refine .inr (update_state (P := fun b' => b'.Takes rows) h fun b' hb' => ?_)
    obtain ⟨⟨handle, b''⟩, hcreate, rfl⟩ := map_eq_ok.1 hb'
    exact h.createTable hcreate
  | addSecondaryIndex table index =>
    simp only [BuilderCall.rows, append_nil]
    exact .inr (update_state h fun b' hb' => h.addSecondaryIndex hb')

/-- After every run some spool is spoiled, or every table took the rows its callers were told of. -/
theorem BuilderRun.takes {past : List (Event DatabaseBuilder BuilderCall)} (h : BuilderRun past b)
    (hfits : ∀ e ∈ past, e.label.Fits) : b.Spoiled ∨ b.Takes fun i => acceptedRows i past := by
  induction h with
  | start hstart =>
    subst hstart
    exact .inr ⟨by simp, fun _ _ => rfl⟩
  | @next past b b' call _ hstep ih =>
    subst hstep
    rcases ih fun e he => hfits e (mem_cons_of_mem _ he) with hspoiled | htakes
    · exact .inl (call.spoiled hspoiled)
    · exact call.takes (hfits _ mem_cons_self) htakes

/-! ## Reading the spools out -/

theorem Streams.unique {rs' : List Record} {fin fin' : Option Error} (h : Streams src rs fin)
    (h' : Streams src rs' fin') : rs = rs' ∧ fin = fin' := by
  induction h generalizing rs' fin' with
  | done hnext =>
    cases h' with
    | done _ => exact ⟨rfl, rfl⟩
    | fail hnext' => rw [hnext] at hnext'; cases hnext'
    | next hnext' _ => rw [hnext] at hnext'; cases hnext'
  | fail hnext =>
    cases h' with
    | done hnext' => rw [hnext] at hnext'; cases hnext'
    | fail hnext' => rw [hnext] at hnext'; cases hnext'; exact ⟨rfl, rfl⟩
    | next hnext' _ => rw [hnext] at hnext'; cases hnext'
  | next hnext _ ih =>
    cases h' with
    | done hnext' => rw [hnext] at hnext'; cases hnext'
    | fail hnext' => rw [hnext] at hnext'; cases hnext'
    | next hnext' hrest =>
      rw [hnext] at hnext'
      cases hnext'
      obtain ⟨rfl, rfl⟩ := ih hrest
      exact ⟨rfl, rfl⟩

/-- What is read out of a spool is what it took. -/
structure ReadRows (enc : KeyEncoding) (rows : List (Bytes × Bytes)) (rs : List Record) : Prop where
  perm : (rs.map Record.row).Perm rows
  accepted : ∀ r ∈ rs, enc.Accepts r.key
  stable : enc.Ranks → rows.length ≤ 2 ^ 64 → rs.Perm (numbered rows) ∧ Stable enc rs

theorem SpoolTakes.readOut (h : SpoolTakes enc rows s) (hrun : RecordSpool.intoSorted.run s = (.ok src, t))
    (hread : Streams src rs none) : ReadRows enc rows rs := by
  obtain ⟨taken, contents, hh, hmap, hnum⟩ := h.holds
  obtain ⟨all, fin, hstream, hends⟩ := (intoSorted_leads hh h.unspoiled).post hrun
  obtain ⟨rfl, rfl⟩ := hstream.unique hread
  obtain ⟨hperm, hasc⟩ := hends
  have hrows : (all.map Record.row).Perm rows := hmap ▸ hperm.map Record.row
  refine ⟨hrows, fun r hr => ?_, fun henc hmany => ?_⟩
  · exact h.accepted _ (hrows.mem_iff.1 (mem_map_of_mem (f := Record.row) hr))
  · obtain rfl := hnum hmany
    exact ⟨hperm, stable_of_ascends henc (accepts_numbered h.accepted) (nodup_numbered _) hperm hasc⟩

theorem SpoolTakes.flushed (h : SpoolTakes enc rows s) (hflush : s.FlushesTo t) : SpoolTakes enc rows t := by
  induction hflush with
  | refl => exact h
  | tail _ hstep ih => exact ih.flush.post hstep

/-- A spoiled spool cannot be flushed. -/
theorem flushed_spoiled (h : s.spoiled ≠ none) (hflush : s.FlushesTo t) : t.spoiled ≠ none := by
  induction hflush with
  | refl => exact h
  | tail _ hstep ih =>
    obtain ⟨e, he⟩ := flush_spoiled ih
    rw [hstep] at he
    cases he

namespace DatabaseBuilder

variable {b : DatabaseBuilder}

theorem makeShare_cases {spec : TableSpec} {share : Nat} {spool : RecordSpool} (h : makeShare spec share = .ok spool) :
    spec.spool.FlushesTo spool := by
  unfold makeShare at h
  split at h
  · obtain ⟨⟨_, t⟩, hflush, rfl⟩ := map_eq_ok.1 h
    exact .single (outcome_eq_ok.1 hflush)
  · cases h
    exact .refl


end DatabaseBuilder

end DryDb
