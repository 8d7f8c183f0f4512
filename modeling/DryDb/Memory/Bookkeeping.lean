import DryDb.Lib.Noted
import DryDb.Memory.Costs
import DryDb.Memory.SingleFlight
/-!
# The charge covers the table and the ring

A shard pays for its table and its ring before either grows. The critical sections are rewritten
to note every ring push and every settling that must not fail, with what was charged at that
moment (`Note`); erasing the notes gives the sections back. `Paid` is what holds inside of a
section: the charge is at least the footprint, and the ring target behind it already counts the
pushes loads in flight are still to make.
-/

namespace DryDb

open Program

variable {π : Type}

/-! ## What is known of the allocator -/

/-- What the allocator may answer. `again` says that an insertion puts back the key just taken out. -/
def ShardOp.Allows (cfg : CacheConfig) (again : Bool) : (op : ShardOp) → op.Answer → Prop
  | .grow _ _ => fun _ => True
  -- No allocation is larger than `isize::MAX`, and only a full table grows.
  | .mapInserted slots capacity len => fun (r : Nat) =>
    len < r ∧ hashTableBytes r cfg.slotBytes < 2 ^ 63 ∧
      (r ≤ slots ∨ again = false ∧ capacity ≤ len ∧
        hashTableBytes r cfg.slotBytes ≤ hashTableBytes (if slots = 0 then 1 else satMul slots 2) cfg.slotBytes)
  | .mapRemoved capacity _ => fun (r : Nat) => r ≤ capacity
  -- A table with removed entries can report less than its buckets hold, so a rebuilt one can report more.
  | .mapShrunk slots _ _ => fun (r : Nat) => r ≤ slots
  | .ringPushed capacity len => fun (r : Nat) => r = if len < capacity then capacity else max (2 * capacity) 4
  | .ringShrunk _ keep => fun (r : Nat) => r = keep

namespace ShardInner

/-! ## Notes -/

/-- What a section does that has to be paid for already. -/
inductive Note where
  /-- a ring push, with what the table is charged for and the ring's capacity before and after -/
  | push (charge table before after : Nat)
  /-- a settling after a marker or a page went in -/
  | settle (charge want : Nat)

/-- The charge covers the table and, while the ring moves, both rings; a settling grows nothing. -/
def Note.Covered : Note → Prop
  | push charge table before after => table + ringBytes before + (if after = before then 0 else ringBytes after) ≤ charge
  | settle charge want => want ≤ charge

section
variable (cfg : CacheConfig)

def pushBackNoted (s : ShardInner π) (o : Nat) : Section (ShardInner π × List Note) :=
  (s.pushBack o).note fun s' => .push s.book (hashTableBytes s.mapSlots cfg.slotBytes) s.clockCapacity s'.clockCapacity

def settleBookkeepingNoted (s : ShardInner π) : Section ((Bool × ShardInner π) × List Note) :=
  (s.settleBookkeeping cfg).note fun _ => .settle s.book (s.bookkeepingFootprint cfg)

def evictFromNoted : Nat → ShardInner π → Section ((Option Nat × ShardInner π) × List Note)
  | 0, s => pure ((none, s), [])
  | steps + 1, s =>
    match s.clock with
    | [] => pure ((none, s), [])
    | o :: clock =>
      match s.map.lookup o with
      | some (.ready pin bytes referenced) =>
        if referenced then
          ({ s with clock, map := s.map.insert o (.ready pin bytes false) }.pushBackNoted cfg o).noting (evictFromNoted steps)
        else do
          let s ← { s with clock }.removeSlot o
          let s := { s with resident := s.resident - bytes }
          let s ← s.releaseBookkeeping cfg
          pure ((some bytes, s), [])
      | _ => evictFromNoted steps { s with clock }

def evictOneNoted (s : ShardInner π) : Section ((Option Nat × ShardInner π) × List Note) :=
  s.evictFromNoted cfg (2 * s.clock.length + 1)

def evictDownFromNoted : Nat → ShardInner π → Section (ShardInner π × List Note)
  | 0, s => pure (s, [])
  | fuel + 1, s =>
    if cfg.capacityPerShard < s.resident then
      (s.evictOneNoted cfg).noting fun (evicted, s) =>
        match evicted with
        | none => pure (s, [])
        | some _ => evictDownFromNoted fuel s
    else pure (s, [])

def evictDownToCapacityNoted (s : ShardInner π) : Section (ShardInner π × List Note) :=
  s.evictDownFromNoted cfg (s.clock.length + 1)

def settleOrEvictNoted : Nat → ShardInner π → Section (ShardInner π × List Note)
  | 0, s => pure (s, [])
  | fuel + 1, s =>
    (s.settleBookkeepingNoted cfg).noting fun (ok, s) =>
      if ok then pure (s, [])
      else
        (s.evictOneNoted cfg).noting fun (evicted, s) =>
          match evicted with
          | none => pure (s, [])
          | some _ => settleOrEvictNoted fuel s

def settleOrRemoveNoted (s : ShardInner π) (o : Nat) : Section (ShardInner π × List Note) :=
  (s.settleBookkeepingNoted cfg).noting fun (ok, s) =>
    if ok then pure (s, [])
    else
      match s.map.lookup o with
      | some (.ready _ bytes _) => do
        let s ← s.removeSlot o
        let s ← { s with resident := s.resident - bytes }.releaseBookkeeping cfg
        pure (s, [])
      | _ => do
        let s ← s.removeSlot o
        let s ← s.releaseBookkeeping cfg
        pure (s, [])

def publishNoted (s : ShardInner π) (o : Nat) (pin : π) (bytes : Nat) : Section (ShardInner π × List Note) := do
  let s ← s.unmark o
  let s := { s with resident := s.resident + bytes }
  let s ← s.insertSlot o (.ready pin bytes true)
  (s.pushBackNoted cfg o).noting fun s =>
    (s.noteTable.evictDownToCapacityNoted cfg).noting fun s =>
      (s.settleOrEvictNoted cfg (s.clock.length + 1)).noting fun s => s.settleOrRemoveNoted cfg o

def markNoted (s : ShardInner π) (o charge : Nat) : Section (ShardInner π × List Note) := do
  let s ← s.insertSlot o .loading
  let s := s.noteTable
  let s := { s with pendingPushes := s.pendingPushes + 1, book := s.book + charge }
  (s.settleBookkeepingNoted cfg).noting fun r => pure (r.2, [])

def enterNoted (s : ShardInner π) (o : Nat) (charge : Option Nat) (attempts : Nat) :
    Section ((Entered π × ShardInner π) × List Note) :=
  match s.map.lookup o with
  | some (.ready pin bytes _) => pure ((.hit pin, s.touch o pin bytes), [])
  | some .loading => pure ((.wait, s), [])
  | none =>
    let needed := s.growthForOneMore cfg
    match charge with
    | none => pure ((.reserve (loadingSlotBytes + needed) attempts, s), [])
    | some charge =>
      if charge < needed then
        if reserveAttempts < attempts + 1 then pure ((.refused needed, s), [])
        else pure ((.reserve (loadingSlotBytes + needed) (attempts + 1), s), [])
      else (s.markNoted cfg o charge).noting fun s => pure ((.load, s), [])

end

/-! ## Erasing the notes -/

variable {cfg : CacheConfig}

theorem pushBackNoted_erases (s : ShardInner π) (o : Nat) : Erases (s.pushBackNoted cfg o) (s.pushBack o) := erases_note _ _

theorem settleBookkeepingNoted_erases (s : ShardInner π) :
    Erases (s.settleBookkeepingNoted cfg) (s.settleBookkeeping cfg) := erases_note _ _

theorem evictFromNoted_erases (steps : Nat) (s : ShardInner π) :
    Erases (s.evictFromNoted cfg steps) (s.evictFrom cfg steps) := by
  induction steps generalizing s with
  | zero => exact erases_pure _ _
  | succ steps ih =>
    unfold evictFromNoted evictFrom
    cases s.clock with
    | nil => exact erases_pure _ _
    | cons o clock =>
      simp only
      cases s.map.lookup o with
      | none => exact ih _
      | some slot =>
        cases slot with
        | loading => exact ih _
        | ready pin bytes referenced =>
          refine Erases.ite (fun _ => (pushBackNoted_erases _ o).noting fun s => ih s) fun _ => ?_
          exact Erases.after _ fun _ => Erases.after _ fun _ => erases_pure _ _

theorem evictOneNoted_erases (s : ShardInner π) : Erases (s.evictOneNoted cfg) (s.evictOne cfg) := evictFromNoted_erases _ s

theorem evictDownFromNoted_erases (fuel : Nat) (s : ShardInner π) :
    Erases (s.evictDownFromNoted cfg fuel) (s.evictDownFrom cfg fuel) := by
  induction fuel generalizing s with
  | zero => exact erases_pure _ _
  | succ fuel ih =>
    unfold evictDownFromNoted evictDownFrom
    refine Erases.ite (fun _ => (evictOneNoted_erases s).noting fun r => ?_) fun _ => erases_pure _ _
    obtain ⟨evicted, s'⟩ := r
    cases evicted with
    | none => exact erases_pure _ _
    | some bytes => exact ih s'

theorem settleOrEvictNoted_erases (fuel : Nat) (s : ShardInner π) :
    Erases (s.settleOrEvictNoted cfg fuel) (s.settleOrEvict cfg fuel) := by
  induction fuel generalizing s with
  | zero => exact erases_pure _ _
  | succ fuel ih =>
    unfold settleOrEvictNoted settleOrEvict
    refine (settleBookkeepingNoted_erases s).noting fun r => ?_
    obtain ⟨ok, s'⟩ := r
    refine Erases.ite (fun _ => erases_pure _ _) fun _ => (evictOneNoted_erases s').noting fun r => ?_
    obtain ⟨evicted, s''⟩ := r
    cases evicted with
    | none => exact erases_pure _ _
    | some bytes => exact ih s''

theorem settleOrRemoveNoted_erases (s : ShardInner π) (o : Nat) :
    Erases (s.settleOrRemoveNoted cfg o) (s.settleOrRemove cfg o) := by
  unfold settleOrRemoveNoted settleOrRemove
  refine (settleBookkeepingNoted_erases s).noting fun r => ?_
  obtain ⟨ok, s'⟩ := r
  refine Erases.ite (fun _ => erases_pure _ _) fun _ => ?_
  cases s'.map.lookup o with
  | none => exact Erases.after _ fun _ => erases_silent _
  | some slot =>
    cases slot with
    | loading => exact Erases.after _ fun _ => erases_silent _
    | ready pin bytes referenced => exact Erases.after _ fun _ => erases_silent _

theorem publishNoted_erases (s : ShardInner π) (o : Nat) (pin : π) (bytes : Nat) :
    Erases (s.publishNoted cfg o pin bytes) (s.publish cfg o pin bytes) := by
  unfold publishNoted publish
  refine Erases.after _ fun _ => Erases.after _ fun _ => (pushBackNoted_erases _ o).noting fun s₁ => ?_
  refine (evictDownFromNoted_erases _ _).noting fun s₂ => (settleOrEvictNoted_erases _ s₂).noting fun s₃ => ?_
  exact settleOrRemoveNoted_erases s₃ o

theorem markNoted_erases (s : ShardInner π) (o charge : Nat) : Erases (s.markNoted cfg o charge) (s.mark cfg o charge) := by
  unfold markNoted mark
  exact Erases.after _ fun _ => (settleBookkeepingNoted_erases _).noting fun _ => erases_pure _ _

theorem enterNoted_erases (s : ShardInner π) (o : Nat) (charge : Option Nat) (attempts : Nat) :
    Erases (s.enterNoted cfg o charge attempts) (s.enter cfg o charge attempts) := by
  unfold enterNoted enter
  cases s.map.lookup o with
  | some slot => cases slot <;> exact erases_pure _ _
  | none =>
    cases charge with
    | none => exact erases_pure _ _
    | some charge =>
      refine Erases.ite (fun _ => ?_) fun _ => ?_
      · exact Erases.ite (fun _ => erases_pure _ _) fun _ => erases_pure _ _
      · exact (markNoted_erases s o charge).noting fun _ => erases_pure _ _

/-! ## Inside of a section -/

variable {s : ShardInner π} {again : Bool}

/-- The charge is at least what the table and the ring, grown for every push to come, cost. -/
structure Paid (cfg : CacheConfig) (s : ShardInner π) : Prop where
  covered : s.bookkeepingFootprint cfg ≤ s.book
  ring : s.clock.length ≤ s.clockCapacity
  table : s.mapCapacity ≤ s.mapSlots
  fits : hashTableBytes s.mapSlots cfg.slotBytes < 2 ^ 63
  few : s.clock.length + s.pendingPushes ≤ 2 ^ 58
  wide : s.clockCapacity ≤ 2 ^ 59

theorem satAdd_eq {a b : Nat} (h : a + b ≤ 2 ^ 60) : satAdd a b = a + b := by
  unfold satAdd
  omega

theorem footprint_eq (h : s.clock.length + s.pendingPushes ≤ 2 ^ 58) :
    s.bookkeepingFootprint cfg =
      hashTableBytes s.mapSlots cfg.slotBytes + ringTargetBytes s.clockCapacity (s.clock.length + s.pendingPushes) := by
  rw [bookkeepingFootprint, satAdd_eq (by omega)]

theorem Paid.rebook (h : s.Paid cfg) {book : Nat} (hb : s.bookkeepingFootprint cfg ≤ book) : Paid cfg { s with book } :=
  ⟨hb, h.ring, h.table, h.fits, h.few, h.wide⟩

/-- Less to pay for with the same charge. -/
theorem Paid.less {s' : ShardInner π} (h : s.Paid cfg) (hbook : s'.book = s.book) (hslots : s'.mapSlots ≤ s.mapSlots)
    (hcap : s'.mapCapacity ≤ s'.mapSlots) (hclock : s'.clockCapacity = s.clockCapacity)
    (hlen : s'.clock.length ≤ s.clock.length) (hpending : s'.pendingPushes ≤ s.pendingPushes) : s'.Paid cfg := by
  have hfew := h.few
  have hring := h.ring
  have hcovered := h.covered
  have hT : hashTableBytes s'.mapSlots cfg.slotBytes ≤ hashTableBytes s.mapSlots cfg.slotBytes := hashTableBytes_mono hslots
  refine ⟨?_, by omega, hcap, lt_of_le_of_lt hT h.fits, by omega, hclock ▸ h.wide⟩
  have hR := ringTargetBytes_mono (c := s.clockCapacity) (show s.clock.length + s.pendingPushes ≤ 2 ^ 62 by omega)
    (show s'.clock.length + s'.pendingPushes ≤ s.clock.length + s.pendingPushes by omega)
  rw [footprint_eq hfew] at hcovered
  rw [footprint_eq (by omega), hbook, hclock]
  omega

theorem settle_paid (h : s.Paid cfg) {want : Nat} (hwant : s.bookkeepingFootprint cfg ≤ want) :
    (s.settle want).Ensures fun r => r.2 = { s with book := r.2.book } ∧ r.2.Paid cfg := by
  unfold settle
  refine Ensures.ite (fun _ granted => ?_) fun _ => ⟨rfl, h.rebook hwant⟩
  cases granted with
  | true => exact ⟨rfl, h.rebook hwant⟩
  | false => exact ⟨rfl, h⟩

/-- A settling of what is paid for does not ask the budget. -/
theorem settleBookkeeping_paid (h : s.Paid cfg) :
    (s.settleBookkeeping cfg).Ensures fun r => r.1 = true ∧ r.2.Settled cfg ∧ r.2.Paid cfg := by
  unfold settleBookkeeping settle
  refine Ensures.ite (fun hlt => absurd hlt (Nat.not_lt.2 h.covered)) fun _ => ?_
  exact ⟨rfl, rfl, h.rebook le_rfl⟩

theorem settleBookkeepingNoted_paid (h : s.Paid cfg) :
    (s.settleBookkeepingNoted cfg).Upholds (fun _ => True) (ShardOp.Allows cfg again)
      (Noted Note.Covered fun r => r.1 = true ∧ r.2.Settled cfg ∧ r.2.Paid cfg) :=
  Upholds.note ((settleBookkeeping_paid h).upholds.mono fun _ hr => ⟨hr, h.covered⟩)

theorem shrinkTable_paid (h : s.Paid cfg) :
    (s.shrinkTable cfg).Upholds (fun _ => True) (ShardOp.Allows cfg again) (Paid cfg) := by
  unfold shrinkTable
  refine Upholds.ite (fun _ => (settle_paid h (Nat.le_add_right _ _)).upholds.bind fun r hr => ?_) fun _ => h
  refine Upholds.ite (fun _ => ⟨trivial, fun (capacity : Nat) hc => ?_⟩) fun _ => hr.2
  have hc : capacity ≤ r.2.mapSlots := hc
  have htable := hr.2.table
  refine hr.2.less rfl ?_ ?_ rfl le_rfl le_rfl
  · simp only
    split <;> omega
  · simp only
    split
    · exact le_rfl
    · omega

theorem shrinkRing_paid (h : s.Paid cfg) :
    (s.shrinkRing cfg).Upholds (fun _ => True) (ShardOp.Allows cfg again) (Paid cfg) := by
  unfold shrinkRing
  refine Upholds.ite (fun hlt => (settle_paid h (Nat.le_add_right _ _)).upholds.bind fun r hr => ?_) fun _ => h
  obtain ⟨hsame, hpaid⟩ := hr
  refine Upholds.ite (fun _ => ⟨trivial, fun (capacity : Nat) hc => ?_⟩) fun _ => hpaid
  have hfew := h.few
  rw [satAdd_eq (by omega)] at hlt
  have hkeep : capacity = s.clock.length + s.pendingPushes := by
    rw [← satAdd_eq (show s.clock.length + s.pendingPushes ≤ 2 ^ 60 by omega)]
    exact hc
  have hclock : r.2.clock = s.clock := by rw [hsame]
  have hpending : r.2.pendingPushes = s.pendingPushes := by rw [hsame]
  have hcap : r.2.clockCapacity = s.clockCapacity := by rw [hsame]
  have hcovered := hpaid.covered
  refine ⟨?_, ?_, hpaid.table, hpaid.fits, hpaid.few, ?_⟩
  · -- The ring that is left holds the promised pushes without growing.
    have htarget : ringTargetBytes capacity (s.clock.length + s.pendingPushes) ≤
        ringTargetBytes s.clockCapacity (s.clock.length + s.pendingPushes) := by
      rw [ringTargetBytes, if_pos (by omega)]
      refine le_trans ?_ (ringBytes_le_target (by omega))
      unfold ringBytes
      omega
    rw [footprint_eq hpaid.few, hclock, hpending, hcap] at hcovered
    refine le_trans (le_of_eq (footprint_eq hpaid.few)) ?_
    simp only [hclock, hpending]
    omega
  · simp only [hclock]
    omega
  · simp only
    omega

theorem releaseBookkeeping_paid (h : s.Paid cfg) :
    (s.releaseBookkeeping cfg).Upholds (fun _ => True) (ShardOp.Allows cfg again) fun s' => s'.Settled cfg ∧ s'.Paid cfg := by
  unfold releaseBookkeeping
  refine (shrinkTable_paid h).bind fun s₁ h₁ => (shrinkRing_paid h₁).bind fun s₂ h₂ => ?_
  exact (settleBookkeeping_paid h₂).upholds.bind fun r hr => hr.2

/-! ## CLOCK steps -/

/-- A ring from which an entry was just taken has room for it. -/
theorem pushBackNoted_room (h : s.Paid cfg) (hroom : s.clock.length < s.clockCapacity)
    (hfew : s.clock.length + 1 + s.pendingPushes ≤ 2 ^ 58)
    (hcovered : hashTableBytes s.mapSlots cfg.slotBytes +
      ringTargetBytes s.clockCapacity (s.clock.length + 1 + s.pendingPushes) ≤ s.book) (o : Nat) :
    (s.pushBackNoted cfg o).Upholds (fun _ => True) (ShardOp.Allows cfg again) (Noted Note.Covered (Paid cfg)) := by
  refine Upholds.note ⟨trivial, fun (capacity : Nat) hc => ?_⟩
  have hc : capacity = s.clockCapacity := by
    have hc : capacity = if s.clock.length < s.clockCapacity then s.clockCapacity else _ := hc
    rw [if_pos hroom] at hc
    exact hc
  subst hc
  have hlen : (s.clock ++ [o]).length = s.clock.length + 1 := by simp
  refine ⟨⟨?_, ?_, h.table, h.fits, ?_, h.wide⟩, ?_⟩
  · refine le_trans (le_of_eq (footprint_eq ?_)) ?_
    · simp only [hlen]
      exact hfew
    · simp only [hlen]
      exact hcovered
  · simp only [hlen]
    omega
  · simp only [hlen]
    exact hfew
  · have hle := h.covered
    rw [footprint_eq h.few] at hle
    have hring : ringBytes s.clockCapacity ≤ ringTargetBytes s.clockCapacity (s.clock.length + s.pendingPushes) :=
      ringBytes_le_target (by omega)
    simp only [Note.Covered, if_true]
    omega

theorem removeSlot_paid (h : s.Paid cfg) (o : Nat) :
    (s.removeSlot o).Upholds (fun _ => True) (ShardOp.Allows cfg again) fun s' =>
      s'.Paid cfg ∧ s'.book = s.book ∧ s'.mapSlots = s.mapSlots ∧ s'.clock = s.clock ∧
        s'.clockCapacity = s.clockCapacity ∧ s'.pendingPushes = s.pendingPushes := by
  refine ⟨trivial, fun (capacity : Nat) hc => ⟨?_, rfl, rfl, rfl, rfl, rfl⟩⟩
  have hc : capacity ≤ s.mapCapacity := hc
  exact h.less rfl le_rfl (le_trans hc h.table) rfl le_rfl le_rfl

theorem evictFromNoted_paid {steps : Nat} (h : s.Paid cfg) :
    (s.evictFromNoted cfg steps).Upholds (fun _ => True) (ShardOp.Allows cfg again)
      (Noted Note.Covered fun r => r.2.Paid cfg ∧ (r.1.isSome → r.2.Settled cfg)) := by
  -- A second chance takes an entry out of the ring and puts it back in.
  induction steps generalizing s with
  | zero => exact Noted.nil ⟨h, fun hn => absurd hn (by simp)⟩
  | succ steps ih =>
    unfold evictFromNoted
    cases hclock : s.clock with
    | nil => exact Noted.nil ⟨h, fun hn => absurd hn (by simp)⟩
    | cons o clock =>
      have hlen : s.clock.length = clock.length + 1 := by rw [hclock, List.length_cons]
      have hpop : ∀ map, Paid cfg { s with clock, map } := fun map =>
        h.less rfl le_rfl h.table rfl (by simp only; omega) le_rfl
      simp only
      cases s.map.lookup o with
      | none => exact ih (hpop s.map)
      | some slot =>
        cases slot with
        | loading => exact ih (hpop s.map)
        | ready pin bytes referenced =>
          refine Upholds.ite (fun _ => ?_) fun _ => ?_
          · refine Upholds.noting ?_ fun s' hs' => ih hs'
            have hring := h.ring
            have hfew := h.few
            have hcovered := h.covered
            rw [footprint_eq hfew] at hcovered
            refine pushBackNoted_room (hpop _) ?_ ?_ ?_ o
            · simp only
              omega
            · simp only
              omega
            · simp only
              rw [← hlen]
              exact hcovered
          · refine (removeSlot_paid (hpop s.map) o).bind fun s₁ h₁ => ?_
            have h₂ : Paid cfg { s₁ with resident := s₁.resident - bytes } := h₁.1.less rfl le_rfl h₁.1.table rfl le_rfl le_rfl
            exact (releaseBookkeeping_paid h₂).bind fun s₃ h₃ => Noted.nil ⟨h₃.2, fun _ => h₃.1⟩

theorem evictDownFromNoted_paid {fuel : Nat} (h : s.Paid cfg) :
    (s.evictDownFromNoted cfg fuel).Upholds (fun _ => True) (ShardOp.Allows cfg again) (Noted Note.Covered (Paid cfg)) := by
  induction fuel generalizing s with
  | zero => exact Noted.nil h
  | succ fuel ih =>
    unfold evictDownFromNoted
    refine Upholds.ite (fun _ => (evictFromNoted_paid h).noting fun r hr => ?_) fun _ => Noted.nil h
    obtain ⟨evicted, s'⟩ := r
    cases evicted with
    | none => exact Noted.nil hr.1
    | some bytes => exact ih hr.1

theorem settleOrEvictNoted_paid {fuel : Nat} (h : s.Paid cfg) :
    (s.settleOrEvictNoted cfg fuel).Upholds (fun _ => True) (ShardOp.Allows cfg again) (Noted Note.Covered (Paid cfg)) := by
  cases fuel with
  | zero => exact Noted.nil h
  | succ fuel =>
    unfold settleOrEvictNoted
    refine (settleBookkeepingNoted_paid h).noting fun r hr => ?_
    obtain ⟨ok, s'⟩ := r
    exact Upholds.ite (fun _ => Noted.nil hr.2.2) fun hno => absurd hr.1 hno

theorem settleOrRemoveNoted_paid (h : s.Paid cfg) (o : Nat) :
    (s.settleOrRemoveNoted cfg o).Upholds (fun _ => True) (ShardOp.Allows cfg again)
      (Noted Note.Covered fun s' => s'.Settled cfg ∧ s'.Paid cfg) := by
  unfold settleOrRemoveNoted
  refine (settleBookkeepingNoted_paid h).noting fun r hr => ?_
  obtain ⟨ok, s'⟩ := r
  exact Upholds.ite (fun _ => Noted.nil hr.2) fun hno => absurd hr.1 hno

/-! ## The sections -/

/-- The push of a page uses what was charged when its load began. -/
theorem pushBackNoted_promised (h : s.Paid cfg) (pending : Nat) (hfew : s.clock.length + (pending + 1) ≤ 2 ^ 58)
    (hpending : s.pendingPushes = pending)
    (hbook : s.book = hashTableBytes s.mapSlots cfg.slotBytes +
      ringTargetBytes s.clockCapacity (s.clock.length + (pending + 1))) (o : Nat) :
    (s.pushBackNoted cfg o).Upholds (fun _ => True) (ShardOp.Allows cfg again) (Noted Note.Covered (Paid cfg)) := by
  by_cases hroom : s.clock.length < s.clockCapacity
  · refine pushBackNoted_room h hroom (by omega) (le_of_eq ?_) o
    rw [hbook, hpending, Nat.add_right_comm, Nat.add_assoc]
  · have hfull : s.clockCapacity = s.clock.length := le_antisymm (Nat.not_lt.1 hroom) h.ring
    refine Upholds.note ⟨trivial, fun (capacity : Nat) hc => ?_⟩
    have hc : capacity = ringStep s.clockCapacity := by
      have hc : capacity = if s.clock.length < s.clockCapacity then _ else max (2 * s.clockCapacity) 4 := hc
      rw [if_neg hroom] at hc
      exact hc
    have hstep := lt_ringStep s.clockCapacity
    obtain ⟨hboth, hafter⟩ := ringTargetBytes_step (c := s.clockCapacity) (n := s.clock.length + (pending + 1)) (by omega)
      (by omega)
    have hlen : (s.clock ++ [o]).length = s.clock.length + 1 := by simp
    have hsum : s.clock.length + 1 + s.pendingPushes = s.clock.length + (pending + 1) := by omega
    refine ⟨⟨?_, ?_, h.table, h.fits, ?_, ?_⟩, ?_⟩
    · refine le_trans (le_of_eq (footprint_eq ?_)) ?_
      · simp only [hlen]
        omega
      · simp only [hlen, hsum, hc, hbook]
        omega
    · simp only [hlen]
      omega
    · simp only [hlen]
      omega
    · simp only [hc, ringStep, ringMinCapacity]
      omega
    · simp only [Note.Covered, hc, hbook, if_neg (Nat.ne_of_gt hstep)]
      omega

theorem insertSlot_allowed (s : ShardInner π) (o : Nat) (slot : Slot π) :
    (s.insertSlot o slot).Upholds (fun _ => True) (ShardOp.Allows cfg again) fun s' =>
      ∃ capacity : Nat, ShardOp.Allows cfg again (.mapInserted s.mapSlots s.mapCapacity s.map.entries.length) capacity ∧
        s' = { s with map := s.map.insert o slot, mapCapacity := capacity } :=
  ⟨trivial, fun capacity hc => ⟨capacity, hc, rfl⟩⟩

/-- A key that was in the table a moment ago goes back in without growing it. -/
theorem insertSlot_back (h : s.Paid cfg) (o : Nat) (slot : Slot π) :
    (s.insertSlot o slot).Upholds (fun _ => True) (ShardOp.Allows cfg true) fun s' =>
      s'.Paid cfg ∧ s'.book = s.book ∧ s'.mapSlots = s.mapSlots ∧ s'.clock = s.clock ∧
        s'.clockCapacity = s.clockCapacity ∧ s'.pendingPushes = s.pendingPushes := by
  refine (insertSlot_allowed s o slot).mono fun s' hs' => ?_
  obtain ⟨capacity, hc, rfl⟩ := hs'
  have hle : capacity ≤ s.mapSlots := hc.2.2.resolve_right fun hg => Bool.noConfusion hg.1
  exact ⟨h.less rfl le_rfl hle rfl le_rfl le_rfl, rfl, rfl, rfl, rfl, rfl⟩

theorem publishNoted_paid (hs : s.Settled cfg) (h : s.Paid cfg) (o : Nat) (hpending : 0 < s.pendingPushes) (pin : π)
    (bytes : Nat) :
    (s.publishNoted cfg o pin bytes).Upholds (fun _ => True) (ShardOp.Allows cfg true)
      (Noted Note.Covered fun s' => s'.Settled cfg ∧ s'.Paid cfg) := by
  obtain ⟨pending, hp⟩ : ∃ n, s.pendingPushes = n + 1 := ⟨s.pendingPushes - 1, by omega⟩
  have hfew := h.few
  rw [Settled, footprint_eq hfew, hp] at hs
  rw [hp] at hfew
  unfold publishNoted unmark
  refine ((removeSlot_paid h o).bind (R := fun s₁ => s₁.Paid cfg ∧ s₁.book = s.book ∧ s₁.mapSlots = s.mapSlots ∧
    s₁.clock = s.clock ∧ s₁.clockCapacity = s.clockCapacity ∧ s₁.pendingPushes = pending) fun s₁ h₁ => ?_).bind fun s₁ h₁ => ?_
  · obtain ⟨hpaid, hbook, hslots, hclock, hcap, hpend⟩ := h₁
    exact ⟨hpaid.less rfl le_rfl hpaid.table rfl le_rfl (Nat.sub_le _ _), hbook, hslots, hclock, hcap, by
      simp only [hpend, hp, Nat.add_sub_cancel]⟩
  · obtain ⟨hpaid, hbook, hslots, hclock, hcap, hpend⟩ := h₁
    have h₁' : Paid cfg { s₁ with resident := s₁.resident + bytes } := hpaid.less rfl le_rfl hpaid.table rfl le_rfl le_rfl
    refine (insertSlot_back h₁' o (.ready pin bytes true)).bind fun s₂ hs₂ => ?_
    obtain ⟨h₂, hbook₂, hslots₂, hclock₂, hcap₂, hpend₂⟩ := hs₂
    simp only at hbook₂ hslots₂ hclock₂ hcap₂ hpend₂
    refine Upholds.noting (P := Paid cfg) ?_ fun s₃ h₃ => ?_
    · refine pushBackNoted_promised h₂ pending ?_ (hpend₂.trans hpend) ?_ o
      · rw [hclock₂, hclock]
        exact hfew
      · rw [hbook₂, hslots₂, hclock₂, hcap₂, hbook, hslots, hclock, hcap]
        exact hs
    · have h₄ : s₃.noteTable.Paid cfg :=
        h₃.less rfl (by simp only [noteTable]; exact max_le le_rfl h₃.table) (le_max_right _ _) rfl le_rfl le_rfl
      refine (evictDownFromNoted_paid h₄).noting fun s₅ h₅ => (settleOrEvictNoted_paid h₅).noting fun s₆ h₆ => ?_
      exact settleOrRemoveNoted_paid h₆ o

/-- What is asked for before a marker goes in covers the table and the ring afterwards. -/
theorem markNoted_paid (hslot : 32 ≤ cfg.slotBytes) (h : s.Paid cfg) (o : Nat)
    (hlen : s.clock.length + s.pendingPushes ≤ s.map.entries.length) {charge : Nat} (hcharge : s.growthForOneMore cfg ≤ charge) :
    (s.markNoted cfg o charge).Upholds (fun _ => True) (ShardOp.Allows cfg false)
      (Noted Note.Covered fun s' => s'.Settled cfg ∧ s'.Paid cfg) := by
  have hfew := h.few
  have hring := h.ring
  have hfits := h.fits
  unfold markNoted
  refine (insertSlot_allowed s o .loading).bind fun s₁ h₁ => ?_
  obtain ⟨capacity, hc, rfl⟩ := h₁
  obtain ⟨hroom, hcfits, hgrown⟩ : s.map.entries.length < capacity ∧ hashTableBytes capacity cfg.slotBytes < 2 ^ 63 ∧
    (capacity ≤ s.mapSlots ∨ false = false ∧ s.mapCapacity ≤ s.map.entries.length ∧
      hashTableBytes capacity cfg.slotBytes ≤
        hashTableBytes (if s.mapSlots = 0 then 1 else satMul s.mapSlots 2) cfg.slotBytes) := hc
  have hslots : hashTableBytes (max s.mapSlots capacity) cfg.slotBytes < 2 ^ 63 := by
    rcases Nat.le_total capacity s.mapSlots with hle | hle
    · rw [Nat.max_eq_left hle]
      exact hfits
    · rw [Nat.max_eq_right hle]
      exact hcfits
  have hsmall := lt_of_hashTableBytes hslot hslots
  have hR := ringTargetBytes_lt (c := s.clockCapacity) (n := s.clock.length + s.pendingPushes + 1) (by omega) h.wide
  have hpeak := hashTableBytes_le_peak hfits hcfits (hgrown.imp_right fun hg => hg.2)
  have hbook : hashTableBytes (max s.mapSlots capacity) cfg.slotBytes +
      ringTargetBytes s.clockCapacity (s.clock.length + (s.pendingPushes + 1)) ≤ s.book + charge := by
    have hsum := le_satAdd hpeak (le_refl (ringTargetBytes s.clockCapacity (s.clock.length + s.pendingPushes + 1))) (by omega)
    have hneed : s.growthForOneMore cfg = satAdd
        (hashTablePeakBytes s.mapSlots s.mapCapacity s.map.entries.length cfg.slotBytes)
        (ringTargetBytes s.clockCapacity (s.clock.length + s.pendingPushes + 1)) - s.book := by
      rw [growthForOneMore, satAdd_eq (show s.clock.length + s.pendingPushes ≤ 2 ^ 60 by omega),
        satAdd_eq (show s.clock.length + s.pendingPushes + 1 ≤ 2 ^ 60 by omega)]
    rw [← Nat.add_assoc s.clock.length]
    omega
  refine Upholds.noting (settleBookkeepingNoted_paid ?_) fun r hr => Noted.nil hr.2
  refine ⟨?_, hring, le_max_right _ _, hslots, ?_, h.wide⟩
  · refine le_trans (le_of_eq (footprint_eq ?_)) hbook
    simp only [noteTable]
    omega
  · simp only [noteTable]
    omega

/-- Every ring entry and every marker has a slot of its own. -/
theorem Consistent.length_le (h : s.Consistent) : s.clock.length + s.pendingPushes ≤ s.map.entries.length := by
  -- The cached pages are the entries that are not markers.
  let ready : (Σ _ : Nat, Slot π) → Bool := fun e => e.2.markers == 0
  have hsub : s.clock ⊆ (s.map.entries.filter ready).map Sigma.fst := by
    intro o ho
    obtain ⟨pin, bytes, r, hlookup⟩ := (h.ring o).1 ho
    refine List.mem_map.2 ⟨⟨o, .ready pin bytes r⟩, List.mem_filter.2 ⟨?_, rfl⟩, rfl⟩
    exact AList.mem_lookup_iff.1 hlookup
  have hpages := (List.subperm_of_subset h.once hsub).length_le
  have hmarkers : s.map.weigh Slot.markers + (s.map.entries.filter ready).length = s.map.entries.length := by
    unfold Dict.weigh
    induction s.map.entries with
    | nil => rfl
    | cons e entries ih =>
      obtain ⟨o, slot⟩ := e
      cases slot <;> simp [ready, Slot.markers] at ih ⊢ <;> omega
  rw [h.pending]
  rw [List.length_map] at hpages
  omega

theorem Paid.empty : Paid cfg ({} : ShardInner π) := ⟨by simp [bookkeepingFootprint, hashTableBytes, ringTargetBytes, ringBytes, satAdd],
  le_rfl, le_rfl, by simp [hashTableBytes], by simp, by simp⟩

theorem enterNoted_paid (hslot : 32 ≤ cfg.slotBytes) (hc : s.Consistent) (hs : s.Settled cfg) (h : s.Paid cfg) (o : Nat)
    (charge : Option Nat) (attempts : Nat) :
    (s.enterNoted cfg o charge attempts).Upholds (fun _ => True) (ShardOp.Allows cfg false)
      (Noted Note.Covered fun r => r.2.Settled cfg ∧ r.2.Paid cfg) := by
  unfold enterNoted
  cases s.map.lookup o with
  | some slot =>
    cases slot with
    | ready pin bytes r => exact Noted.nil ⟨hs, h.less rfl le_rfl h.table rfl le_rfl le_rfl⟩
    | loading => exact Noted.nil ⟨hs, h⟩
  | none =>
    cases charge with
    | none => exact Noted.nil ⟨hs, h⟩
    | some charge =>
      refine Upholds.ite (fun _ => ?_) fun hge => ?_
      · exact Upholds.ite (fun _ => Noted.nil ⟨hs, h⟩) fun _ => Noted.nil ⟨hs, h⟩
      · exact (markNoted_paid hslot h o hc.length_le (Nat.not_lt.1 hge)).noting fun s' hs' => Noted.nil hs'

theorem abandon_paid (h : s.Paid cfg) (o : Nat) :
    (s.abandon cfg o).Upholds (fun _ => True) (ShardOp.Allows cfg again) fun s' => s'.Settled cfg ∧ s'.Paid cfg := by
  unfold abandon unmark
  refine ((removeSlot_paid h o).bind (R := Paid cfg) fun s₁ h₁ => ?_).bind fun s₁ h₁ => releaseBookkeeping_paid h₁
  exact h₁.1.less rfl le_rfl h₁.1.table rfl le_rfl (Nat.sub_le _ _)

/-- A step on an empty ring does nothing. -/
theorem evictOneNoted_idle (hclock : s.clock = []) : s.evictOneNoted cfg = pure ((none, s), []) := by
  unfold evictOneNoted evictFromNoted
  rw [hclock]

theorem evictOneNoted_paid (hc : s.Consistent) (hs : s.Settled cfg) (h : s.Paid cfg) {r : Option Nat × ShardInner π}
    {notes : List Note} (hr : (s.evictOneNoted cfg).Within (ShardOp.Allows cfg again) (r, notes)) :
    (r.2.Settled cfg ∧ r.2.Paid cfg) ∧ ∀ n ∈ notes, n.Covered := by
  obtain ⟨⟨hpaid, hsettled⟩, hnotes⟩ := (evictFromNoted_paid h).of_within hr
  refine ⟨⟨?_, hpaid⟩, hnotes⟩
  have hev := (evictOne_spec hc).of_yields ((evictOneNoted_erases s _ r).2 ⟨notes, hr⟩).yields
  cases hr1 : r.1 with
  | some bytes => exact hsettled (by rw [hr1]; rfl)
  | none =>
    rw [evictOneNoted_idle (hev.idle hr1).1, within_pure, Prod.mk.injEq] at hr
    exact hr.1 ▸ hs

end ShardInner

/-! ## Every interleaving -/

/-- The critical section a step runs was answered by an allocator of the kind described. A section
that publishes a page puts back the key it has just taken out. -/
def ShardSystem.Answered (cfg : CacheConfig) (w : ShardSystem π) (l : ShardLabel π) (w' : ShardSystem π) : Prop :=
  match l with
  | .entered o outcome => ∃ charge attempts, Caller.entering o charge attempts ∈ w.callers ∧
    (w.inner.enter cfg o charge attempts).Within (ShardOp.Allows cfg false) (outcome, w'.inner)
  | .published o pin bytes => (w.inner.publish cfg o pin bytes).Within (ShardOp.Allows cfg true) w'.inner
  | .abandoned o => (w.inner.abandon cfg o).Within (ShardOp.Allows cfg false) w'.inner
  | .evicted bytes => (w.inner.evictOne cfg).Within (ShardOp.Allows cfg false) (bytes, w'.inner)
  | _ => True

/-- What the critical section of a step notes. -/
def ShardSystem.Notes (cfg : CacheConfig) (w : ShardSystem π) (l : ShardLabel π) (w' : ShardSystem π)
    (notes : List ShardInner.Note) : Prop :=
  match l with
  | .entered o outcome => ∃ charge attempts, Caller.entering o charge attempts ∈ w.callers ∧
    (w.inner.enterNoted cfg o charge attempts).Within (ShardOp.Allows cfg false) ((outcome, w'.inner), notes)
  | .published o pin bytes => (w.inner.publishNoted cfg o pin bytes).Within (ShardOp.Allows cfg true) (w'.inner, notes)
  | .evicted bytes => (w.inner.evictOneNoted cfg).Within (ShardOp.Allows cfg false) ((bytes, w'.inner), notes)
  | _ => notes = []

/-- Executions at one shard with such an allocator. -/
def AllocatedRun (cfg : CacheConfig) : List (Event (ShardSystem π) (ShardLabel π)) → ShardSystem π → Prop :=
  Run (fun w => w = {}) fun w l w' => ShardStep cfg w l w' ∧ w.Answered cfg l w'

namespace ShardSystem

variable {cfg : CacheConfig} {w w' : ShardSystem π} {l : ShardLabel π}

/-- Erasing the notes loses no execution. -/
theorem Answered.notes (h : w.Answered cfg l w') : ∃ notes, w.Notes cfg l w' notes := by
  cases l with
  | entered o outcome =>
    obtain ⟨charge, attempts, hmem, hrun⟩ := h
    obtain ⟨notes, hnotes⟩ := (ShardInner.enterNoted_erases w.inner o charge attempts _ _).1 hrun
    exact ⟨notes, charge, attempts, hmem, hnotes⟩
  | published o pin bytes => exact (ShardInner.publishNoted_erases w.inner o pin bytes _ _).1 h
  | evicted bytes => exact (ShardInner.evictOneNoted_erases w.inner _ _).1 h
  | _ => exact ⟨[], rfl⟩

/-- What holds between two sections. -/
structure Balanced (cfg : CacheConfig) (w : ShardSystem π) : Prop where
  coordinated : w.Coordinated
  settled : w.inner.Settled cfg
  paid : w.inner.Paid cfg

theorem Balanced.pending (h : w.Balanced cfg) {o : Nat} (hloading : w.inner.map.lookup o = some .loading) :
    0 < w.inner.pendingPushes := by
  have := Dict.weigh_erase (f := Slot.markers) hloading
  rw [h.coordinated.shard.pending]
  simp only [Slot.markers] at this
  omega

/-- A step leaves the charge at the footprint, and what it notes was covered. -/
theorem Balanced.step (hslot : 32 ≤ cfg.slotBytes) (h : w.Balanced cfg) (hs : ShardStep cfg w l w')
    (ha : w.Answered cfg l w') :
    w'.Balanced cfg ∧ ∀ notes, w.Notes cfg l w' notes → ∀ n ∈ notes, n.Covered := by
  have hco := h.coordinated.step hs
  obtain ⟨hcw, hset, hpaid⟩ := h
  -- Between two sections the shard stays as it is.
  have idle : ∀ {callers : Multiset (Caller π)}, w' = { w with callers } → w'.Balanced cfg := by
    rintro callers rfl
    exact ⟨hco, hset, hpaid⟩
  have silent : ∀ notes : List ShardInner.Note, notes = [] → ∀ n ∈ notes, n.Covered := by
    rintro _ rfl n hn
    exact absurd hn List.not_mem_nil
  cases hs with
  | call o => exact ⟨idle rfl, silent⟩
  | @enter o charge attempts rest outcome inner hcaller hrun =>
    have hkeep : ∀ {notes}, w.Notes cfg (.entered o outcome) { inner, callers := outcome.next o charge attempts + rest } notes →
        (inner.Settled cfg ∧ inner.Paid cfg) ∧ ∀ n ∈ notes, n.Covered := by
      rintro notes ⟨charge', attempts', -, hnotes⟩
      exact (ShardInner.enterNoted_paid hslot hcw.shard hset hpaid o charge' attempts').of_within hnotes
    obtain ⟨notes, hnotes⟩ := ha.notes
    exact ⟨⟨hco, (hkeep hnotes).1.1, (hkeep hnotes).1.2⟩, fun notes hn => (hkeep hn).2⟩
  | wake hcaller => exact ⟨idle rfl, silent⟩
  | reserve charge hcaller => exact ⟨idle rfl, silent⟩
  | unreserve hcaller => exact ⟨idle rfl, silent⟩
  | loadReturn pin bytes hcaller => exact ⟨idle rfl, silent⟩
  | loadFail hcaller => exact ⟨idle rfl, silent⟩
  | @publish o pin bytes rest inner hcaller hrun =>
    have hloading := hcw.marker_of_owner hcaller (o := o) (beq_self_eq_true o)
    have hkept := ShardInner.publishNoted_paid hset hpaid o (Balanced.pending ⟨hcw, hset, hpaid⟩ hloading) pin bytes
    obtain ⟨notes, hnotes⟩ := ha.notes
    have hend := (hkept.of_within hnotes).1
    exact ⟨⟨hco, hend.1, hend.2⟩, fun notes hn => (hkept.of_within hn).2⟩
  | @abandon o rest inner hcaller hrun =>
    have hend := (ShardInner.abandon_paid hpaid o).of_within ha
    exact ⟨⟨hco, hend.1, hend.2⟩, silent⟩
  | notify hcaller => exact ⟨idle rfl, silent⟩
  | get o =>
    refine ⟨⟨hco, ?_, ?_⟩, silent⟩
    · show ShardInner.Settled cfg (w.inner.get o).2
      unfold ShardInner.get
      split
      · exact hset
      · exact hset
    · show ShardInner.Paid cfg (w.inner.get o).2
      unfold ShardInner.get
      split
      · exact hpaid.less rfl le_rfl hpaid.table rfl le_rfl le_rfl
      · exact hpaid
  | @evict bytes inner hrun =>
    obtain ⟨notes, hnotes⟩ := ha.notes
    have hend := (ShardInner.evictOneNoted_paid hcw.shard hset hpaid hnotes).1
    exact ⟨⟨hco, hend.1, hend.2⟩, fun notes hn => (ShardInner.evictOneNoted_paid hcw.shard hset hpaid hn).2⟩

end ShardSystem

theorem AllocatedRun.balanced {cfg : CacheConfig} (hslot : 32 ≤ cfg.slotBytes)
    {past : List (Event (ShardSystem π) (ShardLabel π))} {w : ShardSystem π} (h : AllocatedRun cfg past w) :
    w.Balanced cfg := by
  refine h.state ?_ fun _ _ _ hi hs => (hi.step hslot hs.1 hs.2).1
  rintro _ rfl
  exact ⟨ShardRun.coordinated (show ShardRun cfg [] _ from Run.start rfl), by
    simp [ShardInner.Settled, ShardInner.bookkeepingFootprint, hashTableBytes, ringTargetBytes, ringBytes, satAdd],
    ShardInner.Paid.empty⟩

/-- Over every interleaving the charge is the footprint after every critical section; every push
that moves the ring was made with both rings charged, next to the table; and the settling after
a marker went in or a page was published never asks for more. -/
theorem bookkeeping_covers {cfg : CacheConfig} (hslot : 32 ≤ cfg.slotBytes)
    {past : List (Event (ShardSystem π) (ShardLabel π))} {w : ShardSystem π} (h : AllocatedRun cfg past w) :
    w.inner.book = w.inner.bookkeepingFootprint cfg ∧
    ∀ e ∈ past, e.after.inner.book = e.after.inner.bookkeepingFootprint cfg ∧
      (∃ notes, e.before.Notes cfg e.label e.after notes) ∧
      ∀ notes, e.before.Notes cfg e.label e.after notes → ∀ n ∈ notes, n.Covered := by
  refine ⟨(h.balanced hslot).settled, fun e he => ?_⟩
  obtain ⟨before, hbefore, hstep, hanswered⟩ := Run.event h he
  obtain ⟨hafter, hnotes⟩ := (AllocatedRun.balanced hslot hbefore).step hslot hstep hanswered
  exact ⟨hafter.settled, hanswered.notes, hnotes⟩

/-- A page is loaded and published, and the ring grows to take it. -/
theorem bookkeeping_covers_published : ∃ past w, AllocatedRun ⟨1000, 32⟩ past (w : ShardSystem Unit) ∧
    w.inner.clock = [7] ∧ w.inner.clockCapacity = 4 ∧ w.inner.book = w.inner.bookkeepingFootprint ⟨1000, 32⟩ := by
  have miss : (ShardInner.enter ⟨1000, 32⟩ ({} : ShardInner Unit) 7 none 0).Within (ShardOp.Allows ⟨1000, 32⟩ false)
      (.reserve 336 0, {}) := rfl
  obtain ⟨s₁, mark, hs₁⟩ : ∃ s₁ : ShardInner Unit, (ShardInner.enter ⟨1000, 32⟩ ({} : ShardInner Unit) 7 (some 336) 0).Within
      (ShardOp.Allows ⟨1000, 32⟩ false) (.load, s₁) ∧
        s₁ = { map := AList.insert 7 .loading ∅, mapSlots := 3, pendingPushes := 1, book := 208, mapCapacity := 3 } :=
    ⟨_, ⟨(3 : Nat), ⟨by decide, by decide, .inr ⟨rfl, by decide, by decide⟩⟩, rfl⟩, rfl⟩
  subst hs₁
  obtain ⟨s₂, publish, hclock, hcapacity⟩ : ∃ s₂ : ShardInner Unit, (ShardInner.publish ⟨1000, 32⟩
      ({ map := AList.insert 7 .loading ∅, mapSlots := 3, pendingPushes := 1, book := 208, mapCapacity := 3 } :
        ShardInner Unit) 7 () 10).Within (ShardOp.Allows ⟨1000, 32⟩ true) s₂ ∧ s₂.clock = [7] ∧ s₂.clockCapacity = 4 :=
    ⟨_, ⟨(3 : Nat), Nat.le_refl 3, (3 : Nat), ⟨by decide, by decide, .inl (Nat.le_refl 3)⟩, (4 : Nat), rfl, rfl⟩, rfl, rfl⟩
  have h0 : AllocatedRun ⟨1000, 32⟩ [] ({} : ShardSystem Unit) := Run.start rfl
  have h1 := h0.next ⟨.call _ 7, trivial⟩
  have h2 := h1.next ⟨.enter (show _ = Caller.entering 7 none 0 ::ₘ 0 from rfl) miss.yields, none, 0,
    by simp, miss⟩
  have h3 := h2.next ⟨.reserve 336 (show _ = Caller.reserving 7 336 0 ::ₘ 0 from rfl), trivial⟩
  have h4 := h3.next ⟨.enter (show _ = Caller.entering 7 (some 336) 0 ::ₘ 0 from rfl) mark.yields, some 336, 0,
    by simp, mark⟩
  have h5 := h4.next ⟨.loadReturn () 10 (show _ = Caller.loading 7 ::ₘ 0 from rfl), trivial⟩
  have h6 := h5.next ⟨.publish (show _ = Caller.loaded 7 () 10 ::ₘ 0 from rfl) publish.yields, publish⟩
  exact ⟨_, _, h6, hclock, hcapacity, (bookkeeping_covers (by decide) h6).1⟩

end DryDb
