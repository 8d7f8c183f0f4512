import DryDb.Builder.Accepted
import DryDb.Builder.Front
/-!
# The sort buffer

As long as no spill fails, the running total of a builder is what the spools of its tables hold, an
append that returns `Ok` leaves it inside the sort buffer, and the tables that wait while another is
written hold at most half of it.
-/

namespace DryDb

open List

namespace DatabaseBuilder

variable {b b' : DatabaseBuilder}

/-- The running total is what the spools hold. -/
def Counted (b : DatabaseBuilder) : Prop := b.buffered = b.held

theorem held_setSpool {i : Nat} {spec : TableSpec} (hi : b.tables[i]? = some spec) (t : RecordSpool) :
    (b.setSpool i spec t).held + spec.spool.buffered = b.held + t.buffered := by
  have hget : ((b.tables.map TableSpec.spool).map RecordSpool.bufferedBytes)[i]? = some spec.spool.buffered := by
    simp only [getElem?_map, hi, Option.map_some]
    rfl
  rw [held, held, setSpool, map_spool_set, bufferedBytes, map_set]
  exact sum_set hget _

/-- Where the loop stands with `n` turns left: at most `n` spools hold something. -/
def Turning (n : Nat) (b : DatabaseBuilder) : Prop :=
  (∀ spec ∈ b.tables, spec.spool.Sound) ∧ RecordSpool.holding (b.tables.map TableSpec.spool) ≤ n

/-- One turn of the loop of `keep_inside_the_sort_buffer`. -/
theorem Turning.step {n : Nat} (h : Turning (n + 1) b) :
    spillFullestTable.Leads b (fun more b' => if more then Turning n b' ∧ b'.Counted else b' = b ∧ (b.buffered ≤ b.sortBuffer ∨ b.held = 0))
      fun _ b' => b'.Spoiled := by
  unfold Act.Leads
  rcases spillFullestTable_cases b with ⟨hend, hrun⟩ | ⟨-, i, spec, hi, hpos, hrun⟩
  · rw [hrun]
    exact ⟨rfl, hend⟩
  · have hsound := h.1 spec (mem_of_getElem? hi)
    rw [hrun]
    cases hf : RecordSpool.flush.run spec.spool with
    | mk out t =>
      cases out with
      | error e => exact spoiled_set hi ((RecordSpool.flush_held hsound).fault hf) b.buffered
      | ok _ =>
        have hempty := RecordSpool.flush_eq_ok hf hsound
        refine ⟨⟨fun spec' hspec' => ?_, ?_⟩, rfl⟩
        · rcases mem_or_eq_of_mem_set hspec' with hold | rfl
          · exact h.1 spec' hold
          · exact RecordSpool.sound_of_held hempty
        · have hget : (b.tables.map TableSpec.spool)[i]? = some spec.spool := by rw [getElem?_map, hi]; rfl
          have hcount := RecordSpool.holding_set hget hpos (congrArg Prod.snd hempty)
          have hn := h.2
          have hset : (b.tables.set i { spec with spool := t }).map TableSpec.spool = (b.tables.map TableSpec.spool).set i t :=
            map_spool_set ..
          show RecordSpool.holding ((b.tables.set i { spec with spool := t }).map TableSpec.spool) ≤ n
          rw [hset]
          omega

theorem Turning.start (h : ∀ spec ∈ b.tables, spec.spool.Sound) : Turning b.tables.length b :=
  ⟨h, countP_le_length.trans_eq (length_map ..)⟩

/-- The loop ends by its own test. -/
theorem keepInsideTheSortBuffer_ends (h : ∀ spec ∈ b.tables, spec.spool.Sound) (more : Nat) :
    (spillFullestTable.repeatWhile (b.tables.length + more)).run b = keepInsideTheSortBuffer.run b := by
  refine Act.repeatWhile_add (I := Turning) (fun n b b' hb hrun => (hb.step.post hrun).1) (fun b hb => ?_) (Turning.start h) more
  rcases spillFullestTable_cases b with ⟨-, hrun⟩ | ⟨-, i, spec, hi, hpos, -⟩
  · exact hrun
  · have hget : (b.tables.map TableSpec.spool)[i]? = some spec.spool := by rw [getElem?_map, hi]; rfl
    have hcount := RecordSpool.holding_set (t := { spec.spool with buffered := 0 }) hget hpos rfl
    have hn := hb.2
    omega

theorem Counted.keepInside (hc : b.Counted) (h : ∀ spec ∈ b.tables, spec.spool.Sound) :
    keepInsideTheSortBuffer.Leads b (fun _ b' => b'.Counted ∧ b'.held ≤ b'.sortBuffer) fun _ b' => b'.Spoiled := by
  unfold keepInsideTheSortBuffer
  apply Act.Leads.bind (Act.Leads.get (Q := fun a b' => a = b ∧ b' = b) ⟨rfl, rfl⟩)
  rintro _ _ ⟨rfl, rfl⟩
  refine Act.Leads.repeatWhile (I := fun n b => Turning n b ∧ b.Counted) (fun n b hb => ?_) (fun b hb => ⟨hb.2, ?_⟩) _ ⟨Turning.start h, hc⟩
  · refine hb.1.step.mono (fun more b' hb' => ?_) fun _ _ he => he
    cases more with
    | true => exact hb'
    | false =>
      obtain ⟨rfl, hle | hzero⟩ := hb'
      · exact ⟨hb.2, hb.2 ▸ hle⟩
      · exact ⟨hb.2, hzero ▸ Nat.zero_le _⟩
  · have hzero : b.held = 0 := RecordSpool.bufferedBytes_of_holding (Nat.le_zero.1 hb.1.2)
    exact hzero ▸ Nat.zero_le _

theorem Counted.append (hc : b.Counted) (h : b.Ok) (table : Nat) (key value : Bytes) :
    (DatabaseBuilder.append table key value).Leads b (fun _ b' => b'.Counted ∧ b'.held ≤ b'.sortBuffer)
      fun _ b' => b'.Spoiled ∨ b'.Counted := by
  rcases append_cases b table key value with ⟨e, hrun⟩ | ⟨spec, hi, -, hrun⟩
  · unfold Act.Leads
    rw [hrun]
    exact .inr hc
  · -- The total is brought up to date whether or not the push succeeds.
    have hpushed : ((pushRow table key value spec).run b).2.Counted := by
      rw [pushRow_run]
      have hset := held_setSpool hi ((RecordSpool.push key value).run spec.spool).2
      have hle : spec.spool.buffered ≤ b.held := le_sum_of_mem
        (mem_map_of_mem (mem_map_of_mem (mem_of_getElem? hi)))
      show b.buffered - _ + _ = (b.setSpool table spec _).held
      rw [hc]
      omega
    have hsound := (h.respooled (.setSpool hi (RecordSpool.reaches_push spec.spool key value)
      (b.buffered - spec.spool.buffered + ((RecordSpool.push key value).run spec.spool).2.buffered))).sound
    unfold Act.Leads
    rw [hrun]
    refine Act.Leads.bind (Q := fun _ b' => b'.Counted ∧ ∀ spec ∈ b'.tables, spec.spool.Sound) ?_ fun _ b' hb =>
      (hb.1.keepInside hb.2).mono (fun _ _ hq => hq) fun _ _ he => .inl he
    unfold Act.Leads
    rw [pushRow_run] at hpushed ⊢
    cases ((RecordSpool.push key value).run spec.spool).1 with
    | ok _ => exact ⟨hpushed, hsound⟩
    | error e => exact .inr hpushed

theorem Counted.same (hc : b.Counted) (hbuffered : b'.buffered = b.buffered) (hheld : b'.held = b.held) : b'.Counted :=
  (hbuffered.trans hc).trans hheld.symm

/-! ## The tables that wait -/

/-- How a table is written while the tables after it wait. -/
abbrev TableWriter := PageSink → TableSpec → TableRoots → List TableSpec → Result (BuiltTable × PageSink)

/-- `buildTables` with another way to write a table. -/
def buildTablesBy (b : DatabaseBuilder) (write : TableWriter) :
    List TableRoots → List TableSpec → PageSink → Result (List BuiltTable × PageSink)
  | roots :: more, spec :: tables, sink => do
    let ((), tables) ← (onSpools (RecordSpool.keepInside (b.sortBuffer / 2))).outcome tables
    let (table, sink) ← write sink spec roots tables
    let (rest, sink) ← buildTablesBy b write more tables sink
    .ok (table :: rest, sink)
  | _, _, sink => .ok ([], sink)

/-- `buildTrees` with another way to write a table. -/
def buildTreesBy (b : DatabaseBuilder) (write : TableWriter) : Result (List BuiltTable × PageSink) := do
  let (roots, sink) ← b.writeDescriptors
  let ((), tables) ← (onSpools (RecordSpool.keepInside b.sortBuffer)).outcome b.tables
  b.buildTablesBy write roots tables sink

/-- The writer of `buildTables`. -/
def tableWriter (b : DatabaseBuilder) : TableWriter := fun sink spec roots rest =>
  b.buildTable sink spec roots (bufferedBytes (rest.map TableSpec.spool))

theorem buildTables_eq (b : DatabaseBuilder) (roots : List TableRoots) (tables : List TableSpec) (sink : PageSink) :
    b.buildTables roots tables sink = b.buildTablesBy b.tableWriter roots tables sink := by
  induction roots generalizing tables sink with
  | nil => rfl
  | cons root more ih =>
    cases tables with
    | nil => rfl
    | cons spec tables =>
      simp only [buildTables, buildTablesBy, tableWriter, ih]

/-- Writes a table as `write` does while the others hold at most half of the sort buffer. -/
def whileHalf (b : DatabaseBuilder) (write other : TableWriter) : TableWriter := fun sink spec roots rest =>
  if bufferedBytes (rest.map TableSpec.spool) ≤ b.sortBuffer / 2 then write sink spec roots rest else other sink spec roots rest

theorem buildTablesBy_whileHalf (write other : TableWriter) (roots : List TableRoots) {tables : List TableSpec} (sink : PageSink)
    (hsound : ∀ spec ∈ tables, spec.spool.Sound) :
    b.buildTablesBy (b.whileHalf write other) roots tables sink = b.buildTablesBy write roots tables sink := by
  induction roots generalizing tables sink with
  | nil => rfl
  | cons root more ih =>
    cases tables with
    | nil => rfl
    | cons spec tables =>
      unfold buildTablesBy
      cases hkept : (onSpools (RecordSpool.keepInside (b.sortBuffer / 2))).outcome tables with
      | error e => rfl
      | ok kept =>
        obtain ⟨⟨⟩, left⟩ := kept
        obtain ⟨hflushed, hle⟩ := keepInside_tables (fun spec hspec => hsound spec (mem_cons_of_mem _ hspec)) hkept
        have hleft : ∀ spec ∈ left, spec.spool.Sound := by
          intro spec' hspec'
          obtain ⟨spec, hspec, hflush⟩ := exists_of_mem_left hflushed.flip hspec'
          exact hflush.spool.sound (hsound spec (mem_cons_of_mem _ hspec))
        simp only [ok_bind, whileHalf, if_pos hle]
        refine bind_congr fun done => ?_
        rw [← ih done.2 hleft]

end DatabaseBuilder

open DatabaseBuilder

variable {b : DatabaseBuilder}

theorem BuilderCall.counted (call : BuilderCall) (h : b.Ok) (hc : b.Counted) :
    (call.run.run b).2.Spoiled ∨ (call.run.run b).2.Counted := by
  cases call with
  | append table key value =>
    have happend := hc.append h table key value
    show ((DatabaseBuilder.append table key value).run b).2.Spoiled ∨ ((DatabaseBuilder.append table key value).run b).2.Counted
    cases hrun : (DatabaseBuilder.append table key value).run b with
    | mk out b' =>
      cases out with
      | ok _ => exact .inr (happend.post hrun).1
      | error e => exact happend.fault hrun
  | pageSize bytes =>
    refine .inr (update_state hc fun b' hb' => ?_)
    obtain ⟨-, hb'⟩ := guard_eq_ok.1 hb'
    obtain ⟨-, hb'⟩ := guard_eq_ok.1 hb'
    cases hb'
    exact hc
  | eytzingerDigests enabled => exact .inr hc
  | pageFilter filter => exact .inr hc
  | sortBuffer bytes =>
    refine .inr (hc.same rfl ?_)
    show (b.setSortBuffer bytes).held = b.held
    simp only [held, bufferedBytes, setSortBuffer, map_map]
    rfl
  | createTable name encoding fate =>
    refine .inr (update_state hc fun b' hb' => ?_)
    obtain ⟨⟨handle, b''⟩, hcreate, rfl⟩ := map_eq_ok.1 hb'
    obtain ⟨-, hcreate⟩ := guard_eq_ok.1 hcreate
    obtain ⟨-, hcreate⟩ := guard_eq_ok.1 hcreate
    cases hcreate
    refine hc.same rfl ?_
    rw [held, held, map_append, bufferedBytes, map_append, sum_append]
    rfl
  | addSecondaryIndex table index =>
    refine .inr (update_state hc fun b' hb' => ?_)
    obtain ⟨spec, hspec, hb'⟩ := bind_eq_ok.1 hb'
    obtain ⟨-, hb'⟩ := guard_eq_ok.1 hb'
    obtain ⟨-, hb'⟩ := guard_eq_ok.1 hb'
    cases hb'
    refine hc.same rfl ?_
    obtain ⟨hlt, hget⟩ := List.getElem?_eq_some_iff.1 (okOr_eq_ok.1 hspec)
    have hsame : (b.tables.map TableSpec.spool).set table spec.spool = b.tables.map TableSpec.spool := by
      rw [← map_set, ← hget, set_getElem_self]
    rw [held, held, map_spool_set, hsame]

/-- After every run some spool is spoiled, or the total is what the spools hold. -/
theorem BuilderRun.counted {past : List (Event DatabaseBuilder BuilderCall)} (h : BuilderRun past b) :
    b.Spoiled ∨ b.Counted := by
  induction h with
  | start hstart =>
    subst hstart
    exact .inr rfl
  | @next past b b' call hrun hstep ih =>
    subst hstep
    rcases ih with hspoiled | hc
    · exact .inl (call.spoiled hspoiled)
    · exact call.counted (BuilderRun.ok hrun) hc

/-- The sort buffer bounds all tables together. -/
theorem sort_buffer_bounds_tables {past : List (Event DatabaseBuilder BuilderCall)} {b : DatabaseBuilder} (hrun : BuilderRun past b)
    (hspills : ¬ b.Spoiled) :
    b.buffered = b.held ∧
    (∀ table key value b', (append table key value).run b = (.ok (), b') →
      b'.buffered = b'.held ∧ b'.held ≤ b'.sortBuffer ∧ b'.sortBuffer = b.sortBuffer) ∧
    (∀ (table : Nat) key value spec, b.tables[table]? = some spec → ∀ more,
      let pushed := ((pushRow table key value spec).run b).2
      (spillFullestTable.repeatWhile (pushed.tables.length + more)).run pushed = keepInsideTheSortBuffer.run pushed) ∧
    (∀ (spools : List RecordSpool) budget, (∀ s ∈ spools, ∃ enc budget fate, (RecordSpool.new enc budget fate).Reaches s) → ∀ more,
      ((RecordSpool.spillFullest budget).repeatWhile (spools.length + more)).run spools = (RecordSpool.keepInside budget).run spools) ∧
    ∀ other, b.buildTrees = b.buildTreesBy (b.whileHalf b.tableWriter other) := by
  have hcounted := hrun.counted.resolve_left hspills
  refine ⟨hcounted, fun table key value b' happend => ?_, fun table key value spec hi more => ?_, fun spools budget hspools more => ?_,
    fun other => ?_⟩
  · obtain ⟨hc, hle⟩ := (hcounted.append hrun.ok table key value).post happend
    refine ⟨hc, hle, ?_⟩
    have := (b.respooled_append table key value).sortBuffer
    rwa [happend] at this
  · exact keepInsideTheSortBuffer_ends (hrun.ok.respooled (.setSpool hi (RecordSpool.reaches_push spec.spool key value) _)).sound more
  · refine RecordSpool.keepInside_ends (fun s hs => ?_) more
    obtain ⟨enc, budget, fate, hreach⟩ := hspools s hs
    exact hreach.sound fun _ _ => rfl
  · unfold buildTrees buildTreesBy
    refine bind_congr fun start => ?_
    cases hkept : (onSpools (RecordSpool.keepInside b.sortBuffer)).outcome b.tables with
    | error e => rfl
    | ok kept =>
      obtain ⟨⟨⟩, tables⟩ := kept
      obtain ⟨hflushed, -⟩ := keepInside_tables hrun.ok.sound hkept
      simp only [ok_bind, buildTables_eq]
      rw [buildTablesBy_whileHalf]
      intro spec' hspec'
      obtain ⟨spec, hspec, hflush⟩ := exists_of_mem_left hflushed.flip hspec'
      exact hflush.spool.sound (hrun.ok.sound spec hspec)

/-- Two tables with a row each. -/
def pairCalls : List BuilderCall :=
  [.createTable "a" int64Encoding {}, .createTable "b" asciiEncoding {}, .append 0 (leBytes 8 7) [65], .append 1 [66] [67]]

/-- The second table waits with its row in memory while the first is written, inside half of the buffer: the build
is the same with a writer that refuses anything more. -/
theorem sort_buffer_bounds_tables_pair :
    let b := BuilderCall.runAll pairCalls
    b.buffered = b.held ∧ b.tables.map (fun spec => decide (0 < spec.spool.buffered)) = [true, true] ∧
    (∀ key value b', (append 0 key value).run b = (.ok (), b') → b'.held ≤ b'.sortBuffer) ∧
    (b.buildTreesBy (b.whileHalf b.tableWriter fun _ _ _ _ => .error (.corrupt "too much waits"))).map (·.1.length) = .ok 2 := by
  have hspills : ¬ (BuilderCall.runAll pairCalls).Spoiled := by
    rintro ⟨spec, hspec, hspoiled⟩
    rcases mem_cons.1 (show spec ∈ [_, _] from hspec) with rfl | hspec
    · exact hspoiled rfl
    · obtain rfl := mem_singleton.1 hspec
      exact hspoiled rfl
  obtain ⟨hcounted, happend, -, -, hwaits⟩ := sort_buffer_bounds_tables
    (BuilderCall.run_history pairCalls) hspills
  refine ⟨hcounted, rfl, fun key value b' h => (happend 0 key value b' h).2.1, ?_⟩
  rw [← hwaits]
  rfl

end DryDb
