import DryDb.Model.Budget
/-!
# The budget is conserved

`Ledger.Balanced` says where every byte of the counter is: in what the threads own, or in
the hands of an operation in progress. Each instruction keeps it, so the counter is the sum
of the live charges whenever no operation is in progress, and never less than the sum of the
others.
-/

namespace DryDb

open List

/-- Bytes of what is owned. -/
def total (owned : Multiset Owned) : Nat := (owned.map Owned.bytes).sum

@[simp] theorem total_zero : total 0 = 0 := rfl

@[simp] theorem total_add (a b : Multiset Owned) : total (a + b) = total a + total b := by
  simp [total]

@[simp] theorem total_singleton (o : Owned) : total {o} = o.bytes := by
  simp [total]

@[simp] theorem total_cons (o : Owned) (owned : Multiset Owned) : total (o ::ₘ owned) = o.bytes + total owned := by
  simp [total]

/-! ## What one operation does to what it owns -/

theorem Charge.givenBack_le (c : Charge) (bytes : UInt64) : (c.givenBack bytes).toNat ≤ c.bytes.toNat := by
  unfold Charge.givenBack
  rw [show min bytes c.bytes = if bytes ≤ c.bytes then bytes else c.bytes from rfl]
  split
  · exact UInt64.le_iff_toNat_le.1 ‹_›
  · exact Nat.le_refl _

theorem Charge.shrunk_bytes (c : Charge) (bytes : UInt64) :
    (c.shrunk bytes).bytes.toNat + (c.givenBack bytes).toNat = c.bytes.toNat := by
  have hle := c.givenBack_le bytes
  simp only [Charge.shrunk, UInt64.toNat_sub_of_le _ _ (UInt64.le_iff_toNat_le.2 hle)]
  omega

variable {bytes : UInt64}

theorem Charge.grown_bytes {c : Charge} (h : c.bytes.toNat + bytes.toNat < 2 ^ 64) :
    (c.grown bytes).bytes.toNat = c.bytes.toNat + bytes.toNat := by
  simp only [Charge.grown, UInt64.toNat_add]
  exact Nat.mod_eq_of_lt h

/-- The charge a settling works on is the one of the book. -/
def Settling.On (charge : Option Charge) : Settling → Prop
  | .grow c _ => charge = some c
  | .reserve _ => charge = none
  | .clear c => charge = some c
  | .shrink c _ => charge = some c
  | .nothing => True

theorem Bookkeeping.settling_on (charge : Option Charge) (want : UInt64) :
    (Bookkeeping.settling ⟨charge⟩ want).On charge := by
  unfold Bookkeeping.settling
  by_cases hgrow : (⟨charge⟩ : Bookkeeping).bytes < want
  · cases charge <;> simp [hgrow, Settling.On]
  · by_cases hshrink : want < (⟨charge⟩ : Bookkeeping).bytes
    · cases charge with
      | none => simp [hgrow, Settling.On]
      | some c =>
        simp only [if_neg hgrow, if_pos hshrink]
        split <;> rfl
    · simp [hgrow, hshrink, Settling.On]

/-- Bytes an operation asks the budget for. -/
def Call.requested (call : Call) : Nat :=
  match call.enter with
  | .load bytes => bytes.toNat
  | _ => 0

/-- Bytes an operation gives back. -/
def Call.released (call : Call) : Nat :=
  match call.enter with
  | .release bytes => bytes.toNat
  | _ => 0

/-- What an operation hands back is what it was given, plus what it asked for, less what it
gave back. -/
theorem Call.total_result (call : Call) (h : total call.held + call.requested < 2 ^ 64) :
    total call.result + call.released = total call.held + call.requested := by
  cases call with
  | tryReserve bytes => simp [Call.result, Call.held, Call.released, Call.requested, Call.enter, Owned.bytes]
  | grow c bytes =>
    simp only [Call.held, Call.requested, Call.enter, total_singleton, Owned.bytes] at h
    simp [Call.result, Call.held, Call.released, Call.requested, Call.enter, Owned.bytes, Charge.grown_bytes h]
  | shrink c bytes =>
    simp [Call.result, Call.held, Call.released, Call.requested, Call.enter, Owned.bytes, Charge.shrunk_bytes]
  | absorb c other =>
    simp only [Call.held, Call.requested, Call.enter, Multiset.insert_eq_cons, total_cons,
      total_singleton, Owned.bytes, Nat.add_zero] at h
    simp [Call.result, Call.held, Call.released, Call.requested, Call.enter, Owned.bytes, Charge.grown_bytes h]
  | drop c => simp [Call.result, Call.held, Call.released, Call.requested, Call.enter, Owned.bytes]
  | newBook =>
    simp [Call.result, Call.held, Call.released, Call.requested, Call.enter, Owned.bytes, Bookkeeping.bytes]
  | bookAbsorb b c =>
    obtain ⟨charge⟩ := b
    cases charge with
    | none =>
      simp [Call.result, Call.held, Call.released, Call.requested, Call.enter, Owned.bytes, Bookkeeping.bytes]
    | some held =>
      simp only [Call.held, Call.requested, Call.enter, Multiset.insert_eq_cons, total_cons,
      total_singleton, Owned.bytes, Bookkeeping.bytes, Nat.add_zero] at h
      simp [Call.result, Call.held, Call.released, Call.requested, Call.enter, Owned.bytes, Bookkeeping.bytes,
        Charge.grown_bytes h]
  | settle b want =>
    obtain ⟨charge⟩ := b
    have hcases := Bookkeeping.settling_on charge want
    simp only [Call.result, Call.held, Call.released, Call.requested, Call.enter, total_singleton] at h ⊢
    cases hs : Bookkeeping.settling ⟨charge⟩ want with
    | grow c bytes =>
      simp only [hs, Settling.On] at hcases h
      subst hcases
      simp only [Owned.bytes, Bookkeeping.bytes] at h
      simp [Owned.bytes, Bookkeeping.bytes, Charge.grown_bytes h]
    | reserve bytes =>
      simp only [hs, Settling.On] at hcases
      subst hcases
      simp [Owned.bytes, Bookkeeping.bytes]
    | clear c =>
      simp only [hs, Settling.On] at hcases
      subst hcases
      simp [Owned.bytes, Bookkeeping.bytes]
    | shrink c bytes =>
      simp only [hs, Settling.On] at hcases
      subst hcases
      simp [Owned.bytes, Bookkeeping.bytes, Charge.shrunk_bytes]
    | nothing => simp
  | dropBook b =>
    obtain ⟨charge⟩ := b
    cases charge <;>
      simp [Call.result, Call.held, Call.released, Call.requested, Call.enter, Owned.bytes, Bookkeeping.bytes]

theorem Call.released_le (call : Call) : call.released ≤ total call.held := by
  cases call with
  | shrink c bytes => simpa [Call.released, Call.enter, Call.held, Owned.bytes] using c.givenBack_le bytes
  | bookAbsorb b c =>
    simp only [Call.released, Call.enter]
    cases b.charge <;> simp
  | settle b want =>
    obtain ⟨charge⟩ := b
    have hon := Bookkeeping.settling_on charge want
    simp only [Call.released, Call.held, Call.enter, total_singleton]
    cases hs : Bookkeeping.settling ⟨charge⟩ want with
    | clear c =>
      simp only [hs, Settling.On] at hon
      subst hon
      exact Nat.le_refl _
    | shrink c bytes =>
      simp only [hs, Settling.On] at hon
      subst hon
      exact c.givenBack_le bytes
    | _ => exact Nat.zero_le _
  | dropBook b =>
    obtain ⟨charge⟩ := b
    cases charge <;> simp [Call.released, Call.enter, Call.held, Owned.bytes, Bookkeeping.bytes]
  | _ => simp [Call.released, Call.enter, Call.held, Owned.bytes]

/-! ## Operations in progress -/

/-- An operation is at a place its own code can reach. -/
def Task.InCode (t : Task) : Prop :=
  match t.pc with
  | .exchange bytes _ => t.call.enter = .load bytes
  | .record _ => t.call.released = 0
  | pc => t.call.enter = pc

/-- Bytes of the counter an operation answers for. -/
def Task.accounted (t : Task) : Nat :=
  total t.call.held +
    match t.pc with
    | .record _ => t.call.requested
    | _ => 0

/-- Every byte of the counter is accounted for. -/
structure Ledger.Balanced (bound : UInt64) (w : Ledger) : Prop where
  limit : w.budget.limit = bound
  used : w.budget.used.toNat = total w.owned + (w.tasks.map Task.accounted).sum
  below : w.budget.used ≤ bound
  code : ∀ t ∈ w.tasks, t.InCode

theorem Budget.reserved_eq_some {b : Budget} {used next : UInt64} (h : b.reserved used bytes = some next) :
    next.toNat = used.toNat + bytes.toNat ∧ next ≤ b.limit := by
  unfold Budget.reserved at h
  split at h
  · rename_i hfits
    cases h
    refine ⟨?_, hfits.2⟩
    rw [UInt64.toNat_add]
    exact Nat.mod_eq_of_lt hfits.1
  · cases h

/-- What one instruction can do. -/
theorem Pc.turn_cases {b b' : Budget} {spurious : Bool} {pc : Pc} {turn : Turn} (h : pc.turn b spurious = (b', turn)) :
    (∃ bytes, b' = b ∧ turn = .goOn (.exchange bytes b.used) ∧ (pc = .load bytes ∨ ∃ used, pc = .exchange bytes used)) ∨
    (∃ bytes next, pc = .exchange bytes b.used ∧ b.reserved b.used bytes = some next ∧
      b' = { b with used := next } ∧ turn = .goOn (.record next)) ∨
    (∃ bytes used info, pc = .exchange bytes used ∧ b.reserved used bytes = none ∧ b' = b ∧ turn = .refused info) ∨
    (∃ next, pc = .record next ∧ b' = { b with peak := max b.peak next } ∧ turn = .returned) ∨
    (∃ bytes, pc = .release bytes ∧ b' = { b with used := b.used - bytes } ∧ turn = .returned) ∨
    (pc = .finished ∧ b' = b ∧ turn = .returned) := by
  cases pc with
  | load bytes =>
    cases h
    exact .inl ⟨bytes, rfl, rfl, .inl rfl⟩
  | exchange bytes used =>
    simp only [Pc.turn] at h
    split at h
    · rename_i hr
      cases h
      exact .inr (.inr (.inl ⟨bytes, used, _, rfl, hr, rfl, rfl⟩))
    · rename_i next hr
      split at h
      · rename_i hsame
        cases h
        exact .inr (.inl ⟨bytes, next, by rw [hsame.1], hsame.1 ▸ hr, rfl, rfl⟩)
      · cases h
        exact .inl ⟨bytes, rfl, rfl, .inr ⟨used, rfl⟩⟩
  | record next =>
    cases h
    exact .inr (.inr (.inr (.inl ⟨next, rfl, rfl, rfl⟩)))
  | release bytes =>
    cases h
    exact .inr (.inr (.inr (.inr (.inl ⟨bytes, rfl, rfl, rfl⟩))))
  | finished =>
    cases h
    exact .inr (.inr (.inr (.inr (.inr ⟨rfl, rfl, rfl⟩))))

section Balance
variable {bound : UInt64} {w : Ledger} {task : Task} {rest : Multiset Task} {spurious : Bool} {b : Budget}

theorem Ledger.Balanced.start (bound : UInt64) : Ledger.Balanced bound { budget := Budget.new bound } where
  limit := rfl
  used := rfl
  below := UInt64.le_iff_toNat_le.2 (Nat.zero_le _)
  code t ht := absurd ht (Multiset.notMem_zero t)

/-- The counter covers what an operation in progress answers for. -/
theorem Ledger.Balanced.split (h : w.Balanced bound) (htask : w.tasks = task ::ₘ rest) :
    w.budget.used.toNat = total w.owned + task.accounted + (rest.map Task.accounted).sum ∧ task.InCode ∧
      ∀ t ∈ rest, t.InCode := by
  have hused := h.used
  have hcode := h.code
  rw [htask] at hused hcode
  rw [Multiset.map_cons, Multiset.sum_cons, ← Nat.add_assoc] at hused
  exact ⟨hused, hcode task (Multiset.mem_cons_self _ _), fun t ht => hcode t (Multiset.mem_cons_of_mem ht)⟩

/-- An operation starts by reserving, by releasing, or with nothing shared to do. -/
theorem Call.enter_cases (call : Call) :
    (∃ bytes, call.enter = .load bytes) ∨ (∃ bytes, call.enter = .release bytes) ∨ call.enter = .finished := by
  cases call with
  | bookAbsorb b c =>
    simp only [Call.enter]
    cases b.charge <;> simp
  | settle b want =>
    simp only [Call.enter]
    cases b.settling want <;> simp
  | dropBook b =>
    simp only [Call.enter]
    cases b.charge <;> simp
  | _ => simp [Call.enter]

theorem Call.accounted_enter (id : Nat) (call : Call) : (⟨id, call, call.enter⟩ : Task).accounted = total call.held := by
  rcases call.enter_cases with ⟨bytes, h⟩ | ⟨bytes, h⟩ | h <;> simp [Task.accounted, h]

theorem Call.inCode_enter (id : Nat) (call : Call) : (⟨id, call, call.enter⟩ : Task).InCode := by
  rcases call.enter_cases with ⟨bytes, h⟩ | ⟨bytes, h⟩ | h <;> simp [Task.InCode, h]

/-- Starting an operation moves what it was given into its hands. -/
theorem Ledger.Balanced.begin (h : w.Balanced bound) {call : Call} {owned : Multiset Owned}
    (howned : w.owned = call.held + owned) :
    Ledger.Balanced bound
      { w with owned, tasks := ⟨w.nextId, call, call.enter⟩ ::ₘ w.tasks, nextId := w.nextId + 1 } where
  limit := h.limit
  used := by
    have hused := h.used
    rw [howned, total_add] at hused
    simp only [Multiset.map_cons, Multiset.sum_cons, call.accounted_enter]
    omega
  below := h.below
  code t ht := by
    rcases Multiset.mem_cons.1 ht with rfl | ht
    · exact call.inCode_enter _
    · exact h.code t ht

/-- An instruction after which the operation goes on. -/
theorem Ledger.Balanced.goOn (h : w.Balanced bound) (htask : w.tasks = task ::ₘ rest)
    {pc : Pc} (hturn : task.pc.turn w.budget spurious = (b, .goOn pc)) :
    Ledger.Balanced bound { w with budget := b, tasks := { task with pc } ::ₘ rest } := by
  obtain ⟨hused, hcode, hrest⟩ := h.split htask
  rcases Pc.turn_cases hturn with ⟨bytes, rfl, hgo, hpc⟩ | ⟨bytes, next, hpc, hnext, rfl, hgo⟩ |
    ⟨_, _, _, _, _, _, hgo⟩ | ⟨_, _, _, hgo⟩ | ⟨_, _, _, hgo⟩ | ⟨_, _, hgo⟩
  · -- Reading the counter changes nothing.
    cases hgo
    have henter : task.call.enter = .load bytes ∧ task.accounted = total task.call.held := by
      rcases hpc with hpc | ⟨used, hpc⟩ <;> simpa [Task.InCode, Task.accounted, hpc] using hcode
    refine ⟨h.limit, ?_, h.below, ?_⟩
    · simp only [Multiset.map_cons, Multiset.sum_cons]
      rw [hused, henter.2]
      simp only [Task.accounted]
      omega
    · intro t ht
      rcases Multiset.mem_cons.1 ht with rfl | ht
      · exact henter.1
      · exact hrest t ht
  · -- The exchange adds exactly what the operation asked for.
    cases hgo
    have henter : task.call.enter = .load bytes := by simpa [Task.InCode, hpc] using hcode
    have hrequested : task.call.requested = bytes.toNat := by simp [Call.requested, henter]
    have hreleased : task.call.released = 0 := by simp [Call.released, henter]
    obtain ⟨hsum, hle⟩ := Budget.reserved_eq_some hnext
    refine ⟨h.limit, ?_, h.limit ▸ hle, ?_⟩
    · simp only [Multiset.map_cons, Multiset.sum_cons, hsum]
      rw [hused]
      simp only [Task.accounted, hpc, hrequested]
      omega
    · intro t ht
      rcases Multiset.mem_cons.1 ht with rfl | ht
      · exact hreleased
      · exact hrest t ht
  all_goals cases hgo

/-- An instruction with which the operation returns. -/
theorem Ledger.Balanced.returned (h : w.Balanced bound) (htask : w.tasks = task ::ₘ rest)
    (hturn : task.pc.turn w.budget spurious = (b, .returned)) :
    Ledger.Balanced bound { w with budget := b, tasks := rest, owned := task.call.result + w.owned } := by
  obtain ⟨hused, hcode, hrest⟩ := h.split htask
  have hlt := w.budget.used.toNat_lt
  have hresult := task.call.total_result
  rcases Pc.turn_cases hturn with ⟨_, _, hgo, _⟩ | ⟨_, _, _, _, _, hgo⟩ | ⟨_, _, _, _, _, _, hgo⟩ |
    ⟨next, hpc, rfl, -⟩ | ⟨bytes, hpc, rfl, -⟩ | ⟨hpc, rfl, -⟩
  · cases hgo
  · cases hgo
  · cases hgo
  · have hreleased : task.call.released = 0 := by simpa [Task.InCode, hpc] using hcode
    simp only [Task.accounted, hpc] at hused
    have := hresult (by omega)
    refine ⟨h.limit, ?_, h.below, hrest⟩
    simp only [total_add]
    omega
  · have henter : task.call.enter = .release bytes := by simpa [Task.InCode, hpc] using hcode
    have hreleased : task.call.released = bytes.toNat := by simp [Call.released, henter]
    have hrequested : task.call.requested = 0 := by simp [Call.requested, henter]
    have hle := task.call.released_le
    simp only [Task.accounted, hpc] at hused
    have := hresult (by omega)
    have hsub : (w.budget.used - bytes).toNat = w.budget.used.toNat - bytes.toNat :=
      UInt64.toNat_sub_of_le _ _ (UInt64.le_iff_toNat_le.2 (by omega))
    have hbelow := UInt64.le_iff_toNat_le.1 h.below
    refine ⟨h.limit, ?_, UInt64.le_iff_toNat_le.2 (by simp only [hsub]; omega), hrest⟩
    simp only [total_add, hsub]
    omega
  · have henter : task.call.enter = .finished := by simpa [Task.InCode, hpc] using hcode
    have hreleased : task.call.released = 0 := by simp [Call.released, henter]
    have hrequested : task.call.requested = 0 := by simp [Call.requested, henter]
    simp only [Task.accounted, hpc] at hused
    have := hresult (by omega)
    refine ⟨h.limit, ?_, h.below, hrest⟩
    simp only [total_add]
    omega

theorem Ledger.Balanced.refused (h : w.Balanced bound) (htask : w.tasks = task ::ₘ rest)
    {info : BudgetInfo} (hturn : task.pc.turn w.budget spurious = (b, .refused info)) :
    Ledger.Balanced bound { w with budget := b, tasks := rest, owned := task.call.held + w.owned } := by
  obtain ⟨hused, -, hrest⟩ := h.split htask
  rcases Pc.turn_cases hturn with ⟨_, _, hgo, _⟩ | ⟨_, _, _, _, _, hgo⟩ | ⟨bytes, used, info', hpc, -, rfl, -⟩ |
    ⟨_, _, _, hgo⟩ | ⟨_, _, _, hgo⟩ | ⟨_, _, hgo⟩
  case inr.inr.inl =>
    refine ⟨h.limit, ?_, h.below, hrest⟩
    simp only [Task.accounted, hpc] at hused
    simp only [total_add]
    omega
  all_goals cases hgo

/-- Every instruction keeps every byte accounted for. -/
theorem Ledger.Balanced.step {w' : Ledger} {l : LedgerLabel} (h : w.Balanced bound) (hs : LedgerStep w l w') :
    w'.Balanced bound := by
  cases hs with
  | begin howned => exact h.begin howned
  | goOn htask hturn => exact h.goOn htask hturn
  | returned htask hturn => exact h.returned htask hturn
  | refused htask hturn => exact h.refused htask hturn

end Balance

/-! ## Refused operations -/

/-- An event of an operation that leaves the counter alone and takes or puts back exactly what
the operation was given. -/
def LeavesAll (call : Call) (e : Event Ledger LedgerLabel) : Prop :=
  e.after.budget = e.before.budget ∧
    match e.label with
    | .begun _ c => c = call ∧ e.before.owned = call.held + e.after.owned
    | .worked _ => e.after.owned = e.before.owned
    | .returned _ _ => False
    | .refused _ c _ => c = call ∧ e.after.owned = call.held + e.before.owned

/-- The operation has not yet changed the counter. -/
def Pc.undecided : Pc → Bool
  | .load _ => true
  | .exchange _ _ => true
  | _ => false

/-- What the record of a run says about the operations in progress and those refused. -/
structure Ledger.Logged (past : List (Event Ledger LedgerLabel)) (w : Ledger) : Prop where
  fresh : ∀ e ∈ past, e.label.id < w.nextId
  ids : (w.tasks.map Task.id).Nodup
  running : ∀ t ∈ w.tasks, t.id < w.nextId ∧
    (t.pc.undecided = true → ∀ e ∈ past, e.label.id = t.id → LeavesAll t.call e)
  refused : ∀ e ∈ past, ∀ id call info, e.label = .refused id call info →
    (∀ e' ∈ past, e'.label.id = id → LeavesAll call e') ∧ ∀ t ∈ w.tasks, t.id ≠ id

section Log
variable {w : Ledger} {past : List (Event Ledger LedgerLabel)} {task : Task} {rest : Multiset Task}

/-- The record of an operation in progress, and that no other one shares its name. -/
theorem Ledger.Logged.split (h : w.Logged past) (htask : w.tasks = task ::ₘ rest) :
    task ∈ w.tasks ∧ (∀ t ∈ rest, t ∈ w.tasks ∧ t.id ≠ task.id) ∧ (rest.map Task.id).Nodup := by
  have hids := h.ids
  rw [htask, Multiset.map_cons, Multiset.nodup_cons] at hids
  refine ⟨htask ▸ Multiset.mem_cons_self _ _, fun t ht => ⟨htask ▸ Multiset.mem_cons_of_mem ht, fun heq => ?_⟩, hids.2⟩
  exact hids.1 (heq ▸ Multiset.mem_map_of_mem _ ht)

/-- Operations other than the one that moved keep their record. -/
theorem Ledger.Logged.others (h : w.Logged past) (e : Event Ledger LedgerLabel) {t : Task} (ht : t ∈ w.tasks)
    (hne : t.id ≠ e.label.id) :
    t.id < w.nextId ∧ (t.pc.undecided = true → ∀ e' ∈ e :: past, e'.label.id = t.id → LeavesAll t.call e') := by
  obtain ⟨hlt, hleaves⟩ := h.running t ht
  refine ⟨hlt, fun hu e' he' hid => ?_⟩
  rcases mem_cons.1 he' with rfl | he'
  · exact absurd hid.symm hne
  · exact hleaves hu e' he' hid

/-- An earlier refusal stays as it was: no later event carries its name. -/
theorem Ledger.Logged.earlier (h : w.Logged past) {e e' : Event Ledger LedgerLabel} {tasks : Multiset Task}
    (hname : (∃ t ∈ w.tasks, t.id = e.label.id) ∨ e.label.id = w.nextId)
    (htasks : ∀ t ∈ tasks, t ∈ w.tasks ∨ t.id = e.label.id) (he' : e' ∈ past) {id : Nat} {call : Call}
    {info : BudgetInfo} (hl : e'.label = .refused id call info) :
    (∀ e'' ∈ e :: past, e''.label.id = id → LeavesAll call e'') ∧ ∀ t ∈ tasks, t.id ≠ id := by
  obtain ⟨hleaves, hgone⟩ := h.refused e' he' id call info hl
  have hlt : id < w.nextId := by simpa [hl, LedgerLabel.id] using h.fresh e' he'
  have hne : e.label.id ≠ id := by
    rcases hname with ⟨t, ht, hid⟩ | hid
    · exact hid ▸ hgone t ht
    · omega
  refine ⟨fun e'' he'' hid => ?_, fun t ht => ?_⟩
  · rcases mem_cons.1 he'' with rfl | he''
    · exact absurd hid hne
    · exact hleaves e'' he'' hid
  · rcases htasks t ht with ht | hid
    · exact hgone t ht
    · exact hid ▸ hne

theorem Ledger.Logged.step {w' : Ledger} {l : LedgerLabel} (h : w.Logged past) (hs : LedgerStep w l w') :
    w'.Logged (⟨w, l, w'⟩ :: past) := by
  cases hs with
  | @begin call owned howned =>
    have hnew : ∀ t ∈ w.tasks, t.id ≠ w.nextId := fun t ht => Nat.ne_of_lt (h.running t ht).1
    refine ⟨fun e he => ?_, ?_, fun t ht => ?_, fun e he id call' info hl => ?_⟩
    · rcases mem_cons.1 he with rfl | he
      · exact Nat.lt_succ_self _
      · exact Nat.lt_succ_of_lt (h.fresh e he)
    · rw [Multiset.map_cons, Multiset.nodup_cons]
      refine ⟨fun hmem => ?_, h.ids⟩
      obtain ⟨t, ht, hid⟩ := Multiset.mem_map.1 hmem
      exact hnew t ht hid
    · rcases Multiset.mem_cons.1 ht with rfl | ht
      · refine ⟨Nat.lt_succ_self _, fun _ e he hid => ?_⟩
        rcases mem_cons.1 he with rfl | he
        · exact ⟨rfl, rfl, howned⟩
        · exact absurd hid (Nat.ne_of_lt (h.fresh e he))
      · exact ⟨Nat.lt_succ_of_lt (h.running t ht).1, (h.others ⟨w, .begun w.nextId call, _⟩ ht (hnew t ht)).2⟩
    · rcases mem_cons.1 he with rfl | he
      · cases hl
      · refine h.earlier (.inr rfl) (fun t ht => ?_) he hl
        rcases Multiset.mem_cons.1 ht with rfl | ht
        · exact .inr rfl
        · exact .inl ht
  | @goOn task rest spurious b pc htask hturn =>
    obtain ⟨hmem, hrest, hnodup⟩ := h.split htask
    refine ⟨fun e he => ?_, ?_, fun t ht => ?_, fun e he id call info hl => ?_⟩
    · rcases mem_cons.1 he with rfl | he
      · exact (h.running task hmem).1
      · exact h.fresh e he
    · have hids := h.ids
      rw [htask, Multiset.map_cons] at hids
      rw [Multiset.map_cons]
      exact hids
    · rcases Multiset.mem_cons.1 ht with rfl | ht
      · refine ⟨(h.running task hmem).1, fun hu e he hid => ?_⟩
        rcases Pc.turn_cases hturn with ⟨bytes, rfl, hgo, hpc⟩ | ⟨_, _, _, _, _, hgo⟩ |
          ⟨_, _, _, _, _, _, hgo⟩ | ⟨_, _, _, hgo⟩ | ⟨_, _, _, hgo⟩ | ⟨_, _, hgo⟩
        · have hbefore : task.pc.undecided = true := by rcases hpc with hpc | ⟨used, hpc⟩ <;> rw [hpc] <;> rfl
          rcases mem_cons.1 he with rfl | he
          · exact ⟨rfl, rfl⟩
          · exact (h.running task hmem).2 hbefore e he hid
        · cases hgo
          cases hu
        all_goals cases hgo
      · exact h.others _ (hrest t ht).1 (hrest t ht).2
    · rcases mem_cons.1 he with rfl | he
      · cases hl
      · refine h.earlier (.inl ⟨task, hmem, rfl⟩) (fun t ht => ?_) he hl
        rcases Multiset.mem_cons.1 ht with rfl | ht
        · exact .inr rfl
        · exact .inl (hrest t ht).1
  | @returned task rest spurious b htask hturn =>
    obtain ⟨hmem, hrest, hnodup⟩ := h.split htask
    refine ⟨fun e he => ?_, hnodup, fun t ht => h.others _ (hrest t ht).1 (hrest t ht).2, fun e he id call info hl => ?_⟩
    · rcases mem_cons.1 he with rfl | he
      · exact (h.running task hmem).1
      · exact h.fresh e he
    · rcases mem_cons.1 he with rfl | he
      · cases hl
      · exact h.earlier (.inl ⟨task, hmem, rfl⟩) (fun t ht => .inl (hrest t ht).1) he hl
  | @refused task rest spurious b info htask hturn =>
    obtain ⟨hmem, hrest, hnodup⟩ := h.split htask
    refine ⟨fun e he => ?_, hnodup, fun t ht => h.others _ (hrest t ht).1 (hrest t ht).2, fun e he id call info' hl => ?_⟩
    · rcases mem_cons.1 he with rfl | he
      · exact (h.running task hmem).1
      · exact h.fresh e he
    · rcases mem_cons.1 he with rfl | he
      · -- The refusal itself: the operation was still undecided, so nothing it did before counts.
        cases hl
        refine ⟨fun e' he' hid => ?_, fun t ht => (hrest t ht).2⟩
        rcases Pc.turn_cases hturn with ⟨_, _, hgo, _⟩ | ⟨_, _, _, _, _, hgo⟩ | ⟨bytes, used, info', hpc, -, rfl, -⟩ |
          ⟨_, _, _, hgo⟩ | ⟨_, _, _, hgo⟩ | ⟨_, _, hgo⟩
        case inr.inr.inl =>
          rcases mem_cons.1 he' with rfl | he'
          · exact ⟨rfl, rfl, rfl⟩
          · exact (h.running task hmem).2 (by rw [hpc]; rfl) e' he' hid
        all_goals cases hgo
      · exact h.earlier (.inl ⟨task, hmem, rfl⟩) (fun t ht => .inl (hrest t ht).1) he hl

theorem LedgerRun.logged {bound : UInt64} (h : LedgerRun bound past w) : w.Logged past := by
  refine h.invariant (I := fun past w => w.Logged past) ?_ fun _ _ _ _ hi hs => hi.step hs
  rintro _ rfl
  exact ⟨by simp, by simp, by simp, by simp⟩

end Log

/-! ## The peak -/

/-- The recorded peak and the records still to be made cover every value the counter had. -/
structure Ledger.Peaked (past : List (Event Ledger LedgerLabel)) (w : Ledger) : Prop where
  covered : ∀ s ∈ visited past w, s.budget.used.toNat ≤ w.budget.peak.toNat ∨
    ∃ t ∈ w.tasks, ∃ next, t.pc = .record next ∧ s.budget.used.toNat ≤ next.toNat
  reached : ∃ s ∈ visited past w, s.budget.used = w.budget.peak
  records : ∀ t ∈ w.tasks, ∀ next, t.pc = .record next → ∃ s ∈ visited past w, s.budget.used = next

theorem toNat_max (a b : UInt64) : (max a b).toNat = max a.toNat b.toNat := by
  rw [show max a b = if a ≤ b then b else a from rfl]
  split
  · have := UInt64.le_iff_toNat_le.1 ‹a ≤ b›
    omega
  · have := UInt64.lt_iff_toNat_lt.1 (UInt64.not_le.1 ‹¬ a ≤ b›)
    omega

section Peak
variable {w w' : Ledger} {past : List (Event Ledger LedgerLabel)} {l : LedgerLabel} {rest : Multiset Task} {next bound : UInt64}

/-- Steps that neither raise the counter nor record a peak. -/
theorem Ledger.Peaked.quiet (h : w.Peaked past) (hpeak : w'.budget.peak = w.budget.peak)
    (hused : w'.budget.used.toNat ≤ w.budget.used.toNat)
    (htasks : ∀ next, (∃ t ∈ w'.tasks, t.pc = .record next) ↔ ∃ t ∈ w.tasks, t.pc = .record next) :
    w'.Peaked (⟨w, l, w'⟩ :: past) where
  covered s hs := by
    obtain ⟨s', hs', hle⟩ : ∃ s' ∈ visited past w, s.budget.used.toNat ≤ s'.budget.used.toNat := by
      rcases mem_cons.1 hs with rfl | hs
      · exact ⟨w, mem_cons_self, hused⟩
      · exact ⟨s, hs, Nat.le_refl _⟩
    rcases h.covered s' hs' with hle' | ⟨t, ht, next, hpc, hle'⟩
    · exact .inl (hpeak ▸ Nat.le_trans hle hle')
    · obtain ⟨t', ht', hpc'⟩ := (htasks next).2 ⟨t, ht, hpc⟩
      exact .inr ⟨t', ht', next, hpc', Nat.le_trans hle hle'⟩
  reached := by
    obtain ⟨s, hs, heq⟩ := h.reached
    exact ⟨s, mem_cons_of_mem _ hs, hpeak ▸ heq⟩
  records t ht next hpc := by
    obtain ⟨t', ht', hpc'⟩ := (htasks next).1 ⟨t, ht, hpc⟩
    obtain ⟨s, hs, heq⟩ := h.records t' ht' next hpc'
    exact ⟨s, mem_cons_of_mem _ hs, heq⟩

/-- A reservation that succeeds announces the counter it brought about. -/
theorem Ledger.Peaked.raise (h : w.Peaked past) {task : Task}
    (htask : w.tasks = task ::ₘ rest) (hold : ∀ n, task.pc ≠ .record n) (hpeak : w'.budget.peak = w.budget.peak)
    (hused : w'.budget.used = next) (htasks : w'.tasks = { task with pc := .record next } ::ₘ rest) :
    w'.Peaked (⟨w, l, w'⟩ :: past) where
  covered s hs := by
    rcases mem_cons.1 hs with rfl | hs
    · exact .inr ⟨_, htasks ▸ Multiset.mem_cons_self _ _, next, rfl, by rw [hused]⟩
    · rcases h.covered s hs with hle | ⟨t, ht, n, hpc, hle⟩
      · exact .inl (hpeak ▸ hle)
      · rcases Multiset.mem_cons.1 (htask ▸ ht) with rfl | ht
        · exact absurd hpc (hold n)
        · exact .inr ⟨t, htasks ▸ Multiset.mem_cons_of_mem ht, n, hpc, hle⟩
  reached := by
    obtain ⟨s, hs, heq⟩ := h.reached
    exact ⟨s, mem_cons_of_mem _ hs, hpeak ▸ heq⟩
  records t ht n hpc := by
    rw [htasks] at ht
    rcases Multiset.mem_cons.1 ht with rfl | ht
    · cases hpc
      exact ⟨w', mem_cons_self, hused⟩
    · obtain ⟨s, hs, heq⟩ := h.records t (htask ▸ Multiset.mem_cons_of_mem ht) n hpc
      exact ⟨s, mem_cons_of_mem _ hs, heq⟩

/-- Recording the peak keeps what was announced. -/
theorem Ledger.Peaked.record (h : w.Peaked past) {task : Task}
    (htask : w.tasks = task ::ₘ rest) (hpc : task.pc = .record next) (hpeak : w'.budget.peak = max w.budget.peak next)
    (hused : w'.budget.used = w.budget.used) (htasks : w'.tasks = rest) : w'.Peaked (⟨w, l, w'⟩ :: past) where
  covered s hs := by
    rw [hpeak, toNat_max]
    have hs' : ∃ s' ∈ visited past w, s'.budget.used = s.budget.used := by
      rcases mem_cons.1 hs with rfl | hs
      · exact ⟨w, mem_cons_self, hused.symm⟩
      · exact ⟨s, hs, rfl⟩
    obtain ⟨s', hs', heq⟩ := hs'
    rw [← heq]
    rcases h.covered s' hs' with hle | ⟨t, ht, n, hpc', hle⟩
    · exact .inl (Nat.le_trans hle (Nat.le_max_left _ _))
    · rcases Multiset.mem_cons.1 (htask ▸ ht) with rfl | ht
      · rw [hpc] at hpc'
        cases hpc'
        exact .inl (Nat.le_trans hle (Nat.le_max_right _ _))
      · exact .inr ⟨t, htasks ▸ ht, n, hpc', hle⟩
  reached := by
    rw [hpeak, show max w.budget.peak next = if w.budget.peak ≤ next then next else w.budget.peak from rfl]
    split
    · obtain ⟨s, hs, heq⟩ := h.records task (htask ▸ Multiset.mem_cons_self _ _) next hpc
      exact ⟨s, mem_cons_of_mem _ hs, heq⟩
    · obtain ⟨s, hs, heq⟩ := h.reached
      exact ⟨s, mem_cons_of_mem _ hs, heq⟩
  records t ht n hpc' := by
    obtain ⟨s, hs, heq⟩ := h.records t (htask ▸ Multiset.mem_cons_of_mem (htasks ▸ ht)) n hpc'
    exact ⟨s, mem_cons_of_mem _ hs, heq⟩

theorem Ledger.Peaked.step (h : w.Peaked past) (hb : w.Balanced bound) (hs : LedgerStep w l w') :
    w'.Peaked (⟨w, l, w'⟩ :: past) := by
  cases hs with
  | @begin call owned howned =>
    refine h.quiet rfl (Nat.le_refl _) fun next => ?_
    have hnot : call.enter ≠ .record next := by
      rcases call.enter_cases with ⟨_, he⟩ | ⟨_, he⟩ | he <;> rw [he] <;> exact Pc.noConfusion
    simp [hnot]
  | @goOn task rest spurious b pc htask hturn =>
    rcases Pc.turn_cases hturn with ⟨bytes, rfl, hgo, hpc⟩ | ⟨bytes, next, hpc, hnext, rfl, hgo⟩ |
      ⟨_, _, _, _, _, _, hgo⟩ | ⟨_, _, _, hgo⟩ | ⟨_, _, _, hgo⟩ | ⟨_, _, hgo⟩
    · cases hgo
      refine h.quiet rfl (Nat.le_refl _) fun next => ?_
      have hnot : task.pc ≠ .record next := by
        rcases hpc with hpc | ⟨used, hpc⟩ <;> rw [hpc] <;> exact Pc.noConfusion
      simp [htask, hnot]
    · cases hgo
      exact h.raise htask (fun n => by rw [hpc]; exact Pc.noConfusion) rfl rfl rfl
    all_goals cases hgo
  | @returned task rest spurious b htask hturn =>
    rcases Pc.turn_cases hturn with ⟨_, _, hgo, _⟩ | ⟨_, _, _, _, _, hgo⟩ | ⟨_, _, _, _, _, _, hgo⟩ |
      ⟨next, hpc, rfl, -⟩ | ⟨bytes, hpc, rfl, -⟩ | ⟨hpc, rfl, -⟩
    · cases hgo
    · cases hgo
    · cases hgo
    · exact h.record htask hpc rfl rfl rfl
    · -- Giving back only lowers the counter, because what is given back is in it.
      obtain ⟨hused, hcode, -⟩ := hb.split htask
      have henter : task.call.enter = .release bytes := by simpa [Task.InCode, hpc] using hcode
      have hle : bytes.toNat ≤ total task.call.held := by
        simpa [Call.released, henter] using task.call.released_le
      simp only [Task.accounted, hpc] at hused
      refine h.quiet rfl ?_ fun next => by simp [htask, hpc]
      rw [UInt64.toNat_sub_of_le _ _ (UInt64.le_iff_toNat_le.2 (by omega))]
      exact Nat.sub_le _ _
    · exact h.quiet rfl (Nat.le_refl _) fun next => by simp [htask, hpc]
  | @refused task rest spurious b info htask hturn =>
    rcases Pc.turn_cases hturn with ⟨_, _, hgo, _⟩ | ⟨_, _, _, _, _, hgo⟩ | ⟨bytes, used, info', hpc, -, rfl, -⟩ |
      ⟨_, _, _, hgo⟩ | ⟨_, _, _, hgo⟩ | ⟨_, _, hgo⟩
    case inr.inr.inl => exact h.quiet rfl (Nat.le_refl _) fun next => by simp [htask, hpc]
    all_goals cases hgo

theorem LedgerRun.peaked (h : LedgerRun bound past w) : w.Balanced bound ∧ w.Peaked past := by
  refine h.invariant (I := fun past w => w.Balanced bound ∧ w.Peaked past) ?_
    fun _ _ _ _ hi hs => ⟨hi.1.step hs, hi.2.step hi.1 hs⟩
  rintro _ rfl
  refine ⟨.start bound, fun s hs => .inl ?_, ⟨_, mem_cons_self, rfl⟩, fun t ht => absurd ht (Multiset.notMem_zero t)⟩
  rw [mem_singleton.1 hs]
  exact Nat.le_refl _

end Peak

/-! ## Conservation -/

/-- A reservation in progress. -/
def Pc.reserving : Pc → Bool
  | .load _ => true
  | .exchange _ _ => true
  | .record _ => true
  | _ => false

/-- The budget is conserved over every interleaving: with no operation in progress the counter
is the sum of the live charges; at every moment it is inside the limit, covers the charges no
operation is working on and whatever is about to be given back; a refused operation changes
neither the counter nor a charge; and with no reservation in progress the recorded peak is the
largest value the counter had. -/
theorem budget_conserved (limit : UInt64) {past : List (Event Ledger LedgerLabel)} {w : Ledger}
    (h : LedgerRun limit past w) :
    (w.tasks = 0 → w.budget.used.toNat = total w.owned) ∧
    w.budget.used ≤ limit ∧ total w.owned ≤ w.budget.used.toNat ∧
    (∀ t ∈ w.tasks, ∀ bytes, t.pc = .release bytes → bytes ≤ w.budget.used) ∧
    (∀ e ∈ past, ∀ id call info, e.label = .refused id call info →
      ∀ e' ∈ past, e'.label.id = id → LeavesAll call e') ∧
    ((∀ t ∈ w.tasks, t.pc.reserving = false) →
      IsGreatest { v | ∃ s ∈ visited past w, v = s.budget.used.toNat } w.budget.peak.toNat) := by
  obtain ⟨hb, hp⟩ := LedgerRun.peaked h
  refine ⟨fun hidle => ?_, hb.below, ?_, fun t ht bytes hpc => ?_, ?_, fun hidle => ⟨?_, ?_⟩⟩
  · simpa [hidle] using hb.used
  · exact hb.used ▸ Nat.le_add_right _ _
  · obtain ⟨rest, hrest⟩ := Multiset.exists_cons_of_mem ht
    obtain ⟨hused, hcode, -⟩ := hb.split hrest
    have henter : t.call.enter = .release bytes := by simpa [Task.InCode, hpc] using hcode
    have hle : bytes.toNat ≤ total t.call.held := by simpa [Call.released, henter] using t.call.released_le
    simp only [Task.accounted, hpc] at hused
    exact UInt64.le_iff_toNat_le.2 (by omega)
  · exact fun e he id call info hl => ((LedgerRun.logged h).refused e he id call info hl).1
  · obtain ⟨s, hs, heq⟩ := hp.reached
    exact ⟨s, hs, by rw [heq]⟩
  · rintro v ⟨s, hs, rfl⟩
    rcases hp.covered s hs with hle | ⟨t, ht, next, hpc, -⟩
    · exact hle
    · have := hidle t ht
      simp [hpc, Pc.reserving] at this

/-- Ten bytes reserved of sixteen, and a growth by ten more refused. -/
theorem budget_conserved_refusal : ∃ past w, LedgerRun 16 past w ∧ w.tasks = 0 ∧ w.budget.used.toNat = total w.owned ∧
    total w.owned = 10 ∧ past.map (·.label.id) = [1, 1, 1, 0, 0, 0, 0] := by
  have load : Pc.turn ⟨16, 0, 0⟩ false (.load 10) = (⟨16, 0, 0⟩, .goOn (.exchange 10 0)) := rfl
  have exchange : Pc.turn ⟨16, 0, 0⟩ false (.exchange 10 0) = (⟨16, 10, 0⟩, .goOn (.record 10)) := rfl
  have record : Pc.turn ⟨16, 10, 0⟩ false (.record 10) = (⟨16, 10, 10⟩, .returned) := rfl
  have reload : Pc.turn ⟨16, 10, 10⟩ false (.load 10) = (⟨16, 10, 10⟩, .goOn (.exchange 10 10)) := rfl
  have refuse : Pc.turn ⟨16, 10, 10⟩ false (.exchange 10 10) = (⟨16, 10, 10⟩, .refused ⟨10, 10, 16, true⟩) := rfl
  have h0 : LedgerRun 16 [] { budget := ⟨16, 0, 0⟩ } := Run.start rfl
  have h1 := h0.next (.begin (show (0 : Multiset Owned) = Call.held (.tryReserve 10) + 0 from rfl))
  have h2 := h1.next (.goOn (show _ = (⟨0, .tryReserve 10, .load 10⟩ : Task) ::ₘ 0 from rfl) load)
  have h3 := h2.next (.goOn (show _ = (⟨0, .tryReserve 10, .exchange 10 0⟩ : Task) ::ₘ 0 from rfl) exchange)
  have h4 := h3.next (.returned (show _ = (⟨0, .tryReserve 10, .record 10⟩ : Task) ::ₘ 0 from rfl) record)
  have h5 := h4.next (.begin (show Call.result (.tryReserve 10) + 0 = Call.held (.grow ⟨10⟩ 10) + 0 from rfl))
  have h6 := h5.next (.goOn (show _ = (⟨1, .grow ⟨10⟩ 10, .load 10⟩ : Task) ::ₘ 0 from rfl) reload)
  have h7 := h6.next (.refused (show _ = (⟨1, .grow ⟨10⟩ 10, .exchange 10 10⟩ : Task) ::ₘ 0 from rfl) refuse)
  exact ⟨_, _, h7, rfl, (budget_conserved 16 h7).1 rfl, by decide, rfl⟩

end DryDb
