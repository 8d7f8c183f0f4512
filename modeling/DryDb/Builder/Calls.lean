import DryDb.Builder.Spilling
/-!
# Runs of builder calls

What a call changes: a setting or a declaration, or the spools of the tables. `Ok` is what holds
of the builder after every run of calls, whatever they returned.
-/

namespace DryDb

open List

/-! ## Spools of tables -/

theorem map_spool_set (tables : List TableSpec) (i : Nat) (spec : TableSpec) :
    (tables.set i spec).map TableSpec.spool = (tables.map TableSpec.spool).set i spec.spool := map_set

variable {tables : List TableSpec} {spec : TableSpec} {b : DatabaseBuilder}

/-- Another spool in the place of one. -/
theorem withSpools_set {i : Nat} (h : tables[i]? = some spec) (t : RecordSpool) :
    withSpools ((tables.map TableSpec.spool).set i t) tables = tables.set i { spec with spool := t } := by
  obtain ⟨hlt, rfl⟩ := List.getElem?_eq_some_iff.1 h
  refine ext_getElem (by simp [withSpools]) fun j hj hj' => ?_
  simp only [withSpools, getElem_zipWith, getElem_set, getElem_map]
  split
  · rename_i hij
    subst hij
    rfl
  · rfl

theorem onSpools_flushAt {i : Nat} (h : tables[i]? = some spec) :
    (onSpools (RecordSpool.flushAt i)).run tables =
      ((RecordSpool.flush.run spec.spool).1, tables.set i { spec with spool := (RecordSpool.flush.run spec.spool).2 }) := by
  have hspool : (tables.map TableSpec.spool)[i]? = some spec.spool := by rw [getElem?_map, h, Option.map_some]
  show (((RecordSpool.flushAt i).run (tables.map TableSpec.spool)).1,
    withSpools ((RecordSpool.flushAt i).run (tables.map TableSpec.spool)).2 tables) = _
  rw [RecordSpool.flushAt_run hspool, withSpools_set h]

namespace DatabaseBuilder

variable {b : DatabaseBuilder} {b' : DatabaseBuilder}

/-- The builder with another spool in the place of one. -/
def setSpool (b : DatabaseBuilder) (i : Nat) (spec : TableSpec) (t : RecordSpool) : DatabaseBuilder :=
  { b with tables := b.tables.set i { spec with spool := t } }

/-- One turn of the loop of `append`: nothing to do, or the spool of a table that holds something
is flushed. -/
theorem spillFullestTable_cases (b : DatabaseBuilder) :
    ((b.buffered ≤ b.sortBuffer ∨ b.held = 0) ∧ spillFullestTable.run b = (.ok false, b)) ∨
    (b.sortBuffer < b.buffered ∧ ∃ i spec, b.tables[i]? = some spec ∧ 0 < spec.spool.buffered ∧
      spillFullestTable.run b =
        match RecordSpool.flush.run spec.spool with
        | (.ok _, t) => (.ok true, { b.setSpool i spec t with buffered := (b.setSpool i spec t).held })
        | (.error e, t) => (.error e, b.setSpool i spec t)) := by
  by_cases hle : b.buffered ≤ b.sortBuffer
  · refine .inl ⟨.inl hle, ?_⟩
    show (if _ then _ else _ : Act DatabaseBuilder Error Bool).run b = _
    rw [if_pos hle]
    rfl
  have hsum : b.held = (b.tables.map fun table => table.spool.bufferedBytes).sum := by
    rw [held, DryDb.bufferedBytes, map_map]
    rfl
  cases hmax : maxByKey (b.tables.map fun table => table.spool.bufferedBytes) with
  | none =>
    have hturn : spillFullestTable.run b = (.ok false, b) := by
      show (if _ then _ else _ : Act DatabaseBuilder Error Bool).run b = _
      rw [if_neg hle, hmax]
      rfl
    exact .inl ⟨.inr (by rw [hsum, maxByKey_eq_none hmax]; rfl), hturn⟩
  | some p =>
    obtain ⟨i, m⟩ := p
    obtain ⟨hi, hall⟩ := maxByKey_eq_some hmax
    rw [getElem?_map, Option.map_eq_some_iff] at hi
    obtain ⟨spec, hspec, hm⟩ := hi
    have hturn : spillFullestTable.run b = (if m = 0 then pure false else do
        onTables (onSpools (RecordSpool.flushAt i))
        Act.modify fun b => { b with buffered := b.held }
        pure true : Act DatabaseBuilder Error Bool).run b := by
      show (if _ then _ else _ : Act DatabaseBuilder Error Bool).run b = _
      rw [if_neg hle, hmax]
    by_cases hzero : m = 0
    · subst hzero
      exact .inl ⟨.inr (by rw [hsum]; exact sum_eq_zero fun x hx => Nat.le_zero.1 (hall x hx)), hturn⟩
    refine .inr ⟨Nat.lt_of_not_le hle, i, spec, hspec, by rw [← hm] at hzero; exact Nat.pos_of_ne_zero hzero, ?_⟩
    rw [hturn]
    show (if _ then _ else _ : Act DatabaseBuilder Error Bool).run b = _
    rw [if_neg hzero, Act.run_bind]
    have hflush : (onTables (onSpools (RecordSpool.flushAt i))).run b =
        ((RecordSpool.flush.run spec.spool).1, b.setSpool i spec (RecordSpool.flush.run spec.spool).2) := by
      show (((onSpools (RecordSpool.flushAt i)).run b.tables).1, _) = _
      rw [onSpools_flushAt hspec]
      rfl
    rw [hflush]
    cases hf : RecordSpool.flush.run spec.spool with
    | mk r t => cases r <;> rfl

/-- The spools moved on, and nothing else but the total. -/
structure Respooled (b b' : DatabaseBuilder) : Prop where
  pageSize : b'.pageSize = b.pageSize
  eytzingerDigests : b'.eytzingerDigests = b.eytzingerDigests
  filter : b'.filter = b.filter
  sortBuffer : b'.sortBuffer = b.sortBuffer
  tables : List.Forall₂ (fun spec spec' => spec' = { spec with spool := spec'.spool } ∧ spec.spool.Reaches spec'.spool)
    b.tables b'.tables

namespace Respooled

theorem refl (b : DatabaseBuilder) : b.Respooled b :=
  ⟨rfl, rfl, rfl, rfl, forall₂_same.2 fun _ _ => ⟨rfl, .refl _⟩⟩

theorem trans {a b c : DatabaseBuilder} (h : a.Respooled b) (h' : b.Respooled c) : a.Respooled c := by
  refine ⟨h'.pageSize.trans h.pageSize, h'.eytzingerDigests.trans h.eytzingerDigests, h'.filter.trans h.filter,
    h'.sortBuffer.trans h.sortBuffer, ?_⟩
  have hfirst := h.tables
  have hsecond := h'.tables
  generalize a.tables = as at hfirst
  generalize b.tables = bs at hfirst hsecond
  generalize c.tables = cs at hsecond
  induction hfirst generalizing cs with
  | nil => exact hsecond
  | cons hab _ ih =>
    cases hsecond with
    | cons hbc hrest =>
      refine .cons ⟨?_, hab.2.trans hbc.2⟩ (ih _ hrest)
      rw [hbc.1, hab.1]

theorem setSpool {i : Nat} {spec : TableSpec} (h : b.tables[i]? = some spec) {t : RecordSpool} (ht : spec.spool.Reaches t)
    (buffered : Nat) : b.Respooled { b.setSpool i spec t with buffered } := by
  refine ⟨rfl, rfl, rfl, rfl, ?_⟩
  obtain ⟨hlt, rfl⟩ := List.getElem?_eq_some_iff.1 h
  refine forall₂_iff_get.2 ⟨by simp [DatabaseBuilder.setSpool], fun j hj hj' => ?_⟩
  simp only [DatabaseBuilder.setSpool, get_eq_getElem, getElem_set]
  split
  · rename_i hij
    subst hij
    exact ⟨rfl, ht⟩
  · exact ⟨rfl, .refl _⟩

end Respooled

theorem respooled_spillFullestTable (b : DatabaseBuilder) : b.Respooled (spillFullestTable.run b).2 := by
  rcases spillFullestTable_cases b with ⟨-, hrun⟩ | ⟨-, i, spec, hspec, -, hrun⟩
  · rw [hrun]
    exact .refl b
  · have hreach := RecordSpool.reaches_flush spec.spool
    rw [hrun]
    cases hf : RecordSpool.flush.run spec.spool with
    | mk r t =>
      rw [hf] at hreach
      cases r with
      | ok _ => exact .setSpool hspec hreach _
      | error e => exact .setSpool hspec hreach b.buffered

theorem respooled_keepInside (b : DatabaseBuilder) : b.Respooled (keepInsideTheSortBuffer.run b).2 := by
  have hloop : ∀ n (b : DatabaseBuilder), b.Respooled ((spillFullestTable.repeatWhile n).run b).2 := by
    intro n
    induction n with
    | zero => exact Respooled.refl
    | succ n ih =>
      intro b
      have hstep := respooled_spillFullestTable b
      rw [Act.repeatWhile, Act.run_bind]
      cases hr : spillFullestTable.run b with
      | mk r b' =>
        rw [hr] at hstep
        cases r with
        | error e => exact hstep
        | ok more =>
          cases more with
          | true => exact hstep.trans (ih b')
          | false => exact hstep
  exact hloop _ b

/-- What `append` does: it refuses the row, or hands it to the spool of its table and then keeps
the spools inside the buffer. -/
theorem append_cases (b : DatabaseBuilder) (table : Nat) (key value : Bytes) :
    (∃ e, (append table key value).run b = (.error e, b)) ∨
    ∃ spec, b.tables[table]? = some spec ∧ b.checkRow spec key = .ok () ∧
      (append table key value).run b = (do pushRow table key value spec; keepInsideTheSortBuffer).run b := by
  have hrun : (append table key value).run b =
      (do
        let spec ← (MonadLiftT.monadLift (okOr b.tables[table]? (Error.invalid "unknown table handle")) :
          Act DatabaseBuilder Error TableSpec)
        (MonadLiftT.monadLift (b.checkRow spec key) : Act DatabaseBuilder Error Unit)
        pushRow table key value spec
        keepInsideTheSortBuffer).run b := rfl
  cases hspec : b.tables[table]? with
  | none =>
    rw [hspec] at hrun
    exact .inl ⟨_, hrun⟩
  | some spec =>
    rw [hspec, okOr_some, Act.run_bind] at hrun
    cases hcheck : b.checkRow spec key with
    | error e =>
      refine .inl ⟨e, hrun.trans ?_⟩
      show ((MonadLiftT.monadLift (b.checkRow spec key) : Act DatabaseBuilder Error Unit) >>= _).run b = _
      rw [hcheck]
      rfl
    | ok _ =>
      refine .inr ⟨spec, rfl, hcheck, hrun.trans ?_⟩
      show ((MonadLiftT.monadLift (b.checkRow spec key) : Act DatabaseBuilder Error Unit) >>= _).run b = _
      rw [hcheck]
      rfl

theorem pushRow_run (b : DatabaseBuilder) (table : Nat) (key value : Bytes) (spec : TableSpec) :
    (pushRow table key value spec).run b = (((RecordSpool.push key value).run spec.spool).1,
      { b.setSpool table spec ((RecordSpool.push key value).run spec.spool).2 with
        buffered := b.buffered - spec.spool.buffered + ((RecordSpool.push key value).run spec.spool).2.buffered }) := rfl

theorem respooled_append (b : DatabaseBuilder) (table : Nat) (key value : Bytes) :
    b.Respooled ((append table key value).run b).2 := by
  rcases append_cases b table key value with ⟨e, hrun⟩ | ⟨spec, hspec, -, hrun⟩
  · rw [hrun]
    exact .refl b
  · have hpush := Respooled.setSpool hspec (RecordSpool.reaches_push spec.spool key value)
      (b.buffered - spec.spool.buffered + ((RecordSpool.push key value).run spec.spool).2.buffered)
    rw [hrun, Act.run_bind, pushRow_run]
    cases ((RecordSpool.push key value).run spec.spool).1 with
    | error e => exact hpush
    | ok _ => exact hpush.trans (respooled_keepInside _)

/-- What the declarations and the spools of a builder are like. -/
structure Ok (b : DatabaseBuilder) : Prop where
  pageSize : minPageSize ≤ b.pageSize ∧ b.pageSize ≤ i32Max
  names : (b.tables.map TableSpec.name).Nodup
  indexes : ∀ spec ∈ b.tables, (spec.secondaries.map SecondarySpec.name).Nodup
  encodings : ∀ spec ∈ b.tables, spec.spool.encoding = spec.encoding
  sound : ∀ spec ∈ b.tables, spec.spool.Sound

theorem ok_new : ({} : DatabaseBuilder).Ok := by
  refine ⟨⟨by decide, by decide⟩, by simp, ?_, ?_, ?_⟩ <;> simp

theorem Ok.respooled (h : b.Ok) (hb : b.Respooled b') : b'.Ok := by
  have hmem : ∀ spec' ∈ b'.tables, ∃ spec ∈ b.tables, spec' = { spec with spool := spec'.spool } ∧
      spec.spool.Reaches spec'.spool := fun spec' hspec' => exists_of_mem_left hb.tables.flip hspec'
  refine ⟨hb.pageSize ▸ h.pageSize, ?_, ?_, ?_, ?_⟩
  · have hnames : b'.tables.map TableSpec.name = b.tables.map TableSpec.name := by
      have htables := hb.tables
      generalize b'.tables = ts' at htables
      generalize b.tables = ts at htables
      induction htables with
      | nil => rfl
      | cons ht _ ih => rw [map_cons, map_cons, ih, ht.1]
    exact hnames ▸ h.names
  · intro spec' hspec'
    obtain ⟨spec, hspec, heq, -⟩ := hmem spec' hspec'
    rw [heq]
    exact h.indexes spec hspec
  · intro spec' hspec'
    obtain ⟨spec, hspec, heq, hreach⟩ := hmem spec' hspec'
    rw [hreach.encoding, h.encodings spec hspec, heq]
  · intro spec' hspec'
    obtain ⟨spec, hspec, -, hreach⟩ := hmem spec' hspec'
    exact hreach.sound (h.sound spec hspec)

theorem Ok.setPageSize (h : b.Ok) {bytes : Nat} (hb : b.setPageSize bytes = .ok b') : b'.Ok := by
  obtain ⟨hmin, hb⟩ := guard_eq_ok.1 hb
  obtain ⟨hmax, hb⟩ := guard_eq_ok.1 hb
  cases hb
  exact ⟨⟨Nat.le_of_not_lt hmin, Nat.le_of_not_lt hmax⟩, h.names, h.indexes, h.encodings, h.sound⟩

theorem respooled_setSortBuffer (bytes : Nat) (b : DatabaseBuilder) :
    ({ b with sortBuffer := max bytes (64 * 1024) } : DatabaseBuilder).Respooled (b.setSortBuffer bytes) := by
  refine ⟨rfl, rfl, rfl, rfl, ?_⟩
  exact forall₂_map_right_iff.2 (forall₂_same.2 fun spec _ => ⟨rfl, RecordSpool.reaches_setBudget _ _⟩)

theorem Ok.createTable (h : b.Ok) {name : String} {encoding : KeyEncoding} {fate : Fate} {handle : Nat}
    (hb : b.createTable name encoding fate = .ok (handle, b')) : b'.Ok := by
  obtain ⟨-, hb⟩ := guard_eq_ok.1 hb
  obtain ⟨hnew, hb⟩ := guard_eq_ok.1 hb
  cases hb
  have hspool : (RecordSpool.new encoding b.sortBuffer fate).Sound := fun _ _ => rfl
  refine ⟨h.pageSize, ?_, ?_, ?_, ?_⟩
  · rw [map_append, nodup_append]
    refine ⟨h.names, by simp, fun a ha c hc => ?_⟩
    rintro rfl
    simp only [map_cons, map_nil, mem_singleton] at hc
    exact hnew (hc ▸ ha)
  · simpa [mem_append, or_imp, forall_and] using h.indexes
  · simpa [mem_append, or_imp, forall_and, RecordSpool.new] using h.encodings
  · simp only [mem_append, mem_singleton, or_imp, forall_and, forall_eq]
    exact ⟨h.sound, hspool⟩

theorem Ok.addSecondaryIndex (h : b.Ok) {table : Nat} {index : SecondarySpec}
    (hb : b.addSecondaryIndex table index = .ok b') : b'.Ok := by
  obtain ⟨spec, hspec, hb⟩ := bind_eq_ok.1 hb
  have hspec := okOr_eq_ok.1 hspec
  obtain ⟨hnew, hb⟩ := guard_eq_ok.1 hb
  obtain ⟨-, hb⟩ := guard_eq_ok.1 hb
  cases hb
  have hmem := mem_of_getElem? hspec
  have hset : ∀ x ∈ b.tables.set table { spec with secondaries := spec.secondaries ++ [index] },
      x ∈ b.tables ∨ x = { spec with secondaries := spec.secondaries ++ [index] } :=
    fun x hx => mem_or_eq_of_mem_set hx
  refine ⟨h.pageSize, ?_, ?_, ?_, ?_⟩
  · obtain ⟨hlt, rfl⟩ := List.getElem?_eq_some_iff.1 hspec
    have hnames : (b.tables.set table { b.tables[table] with secondaries := b.tables[table].secondaries ++ [index] }).map
        TableSpec.name = b.tables.map TableSpec.name := by
      have hlt' : table < (b.tables.map TableSpec.name).length := by simpa using hlt
      have hself := set_getElem_self hlt'
      rw [getElem_map] at hself
      rw [map_set]
      exact hself
    exact hnames.symm ▸ h.names
  · intro x hx
    rcases hset x hx with hx | rfl
    · exact h.indexes x hx
    · rw [map_append, nodup_append]
      refine ⟨h.indexes spec hmem, by simp, fun a ha c hc => ?_⟩
      rintro rfl
      simp only [map_cons, map_nil, mem_singleton] at hc
      exact hnew (hc ▸ ha)
  · intro x hx
    rcases hset x hx with hx | rfl
    · exact h.encodings x hx
    · exact h.encodings spec hmem
  · intro x hx
    rcases hset x hx with hx | rfl
    · exact h.sound x hx
    · exact h.sound spec hmem

end DatabaseBuilder

theorem Act.update_run {σ ε : Type} (f : σ → Except ε σ) (s : σ) :
    (∃ s', f s = .ok s' ∧ (Act.update f).run s = (.ok (), s')) ∨ ∃ e, f s = .error e ∧ (Act.update f).run s = (.error e, s) := by
  cases h : f s with
  | ok s' => exact .inl ⟨s', rfl, by simp only [Act.update, h]⟩
  | error e => exact .inr ⟨e, rfl, by simp only [Act.update, h]⟩

/-- A call that either gives a new builder or leaves the old one. -/
theorem ok_update {f : DatabaseBuilder → Result DatabaseBuilder} (h : b.Ok)
    (hf : ∀ b', f b = .ok b' → b'.Ok) : ((Act.update f).run b).2.Ok := by
  rcases Act.update_run f b with ⟨b', hb', hrun⟩ | ⟨e, -, hrun⟩
  · rw [hrun]
    exact hf b' hb'
  · rw [hrun]
    exact h

theorem BuilderCall.ok (call : BuilderCall) (h : b.Ok) : (call.run.run b).2.Ok := by
  cases call with
  | pageSize bytes => exact ok_update h fun b' hb' => h.setPageSize hb'
  | eytzingerDigests enabled => exact ⟨h.pageSize, h.names, h.indexes, h.encodings, h.sound⟩
  | pageFilter filter => exact ⟨h.pageSize, h.names, h.indexes, h.encodings, h.sound⟩
  | sortBuffer bytes =>
    have hset : ({ b with sortBuffer := max bytes (64 * 1024) } : DatabaseBuilder).Ok :=
      ⟨h.pageSize, h.names, h.indexes, h.encodings, h.sound⟩
    exact hset.respooled (b.respooled_setSortBuffer bytes)
  | createTable name encoding fate =>
    refine ok_update h fun b' hb' => ?_
    obtain ⟨⟨handle, b''⟩, hcreate, rfl⟩ := map_eq_ok.1 hb'
    exact h.createTable hcreate
  | addSecondaryIndex table index => exact ok_update h fun b' hb' => h.addSecondaryIndex hb'
  | append table key value => exact h.respooled (b.respooled_append table key value)

/-- After every run of calls. -/
theorem BuilderRun.ok {past : List (Event DatabaseBuilder BuilderCall)} (h : BuilderRun past b) : b.Ok := by
  refine Run.state (I := DatabaseBuilder.Ok) ?_ ?_ h
  · rintro _ rfl
    exact DatabaseBuilder.ok_new
  · rintro b call _ hb rfl
    exact call.ok hb

/-- The calls that make a builder, first to last. -/
def BuilderCall.runAll (calls : List BuilderCall) : DatabaseBuilder :=
  calls.foldl (fun b call => (call.run.run b).2) {}

/-- The events of a list of calls, the last one first. -/
def BuilderCall.history (calls : List BuilderCall) : List (Event DatabaseBuilder BuilderCall) :=
  (calls.foldl (fun (b, past) call => ((call.run.run b).2, ⟨b, call, (call.run.run b).2⟩ :: past)) ({}, [])).2

theorem BuilderCall.run_history (calls : List BuilderCall) : BuilderRun (history calls) (runAll calls) := by
  suffices h : ∀ b past, BuilderRun past b → BuilderRun (calls.foldl (fun (b, past) call =>
      ((call.run.run b).2, (⟨b, call, (call.run.run b).2⟩ : Event DatabaseBuilder BuilderCall) :: past)) (b, past)).2
      (calls.foldl (fun b call => (call.run.run b).2) b) from h {} [] (.start rfl)
  induction calls with
  | nil => exact fun _ _ h => h
  | cons call calls ih => exact fun b past h => ih _ _ (h.next rfl)

end DryDb
