import DryDb.Model.Cache
/-!
# What the critical sections of a shard keep

`ShardInner.Consistent` ties the counters and the ring to the table. One lemma per function
says that it keeps this and what it does to the slots, whatever the allocator and the budget
answer; the functions that only settle the charge touch neither (`SameCore`).
-/

namespace DryDb

open Program List

variable {π : Type}

/-- Bytes a slot counts for. -/
def Slot.bytes : Slot π → Nat
  | .ready _ bytes _ => bytes
  | .loading => 0

/-- Markers a slot counts for. -/
def Slot.markers : Slot π → Nat
  | .ready _ _ _ => 0
  | .loading => 1

namespace ShardInner

variable {cfg : CacheConfig} {s s' s'' : ShardInner π} {o : Nat} {clock : List Nat} {pin : π} {bytes : Nat} {r : Bool}
  {evicted : Option Nat}

/-- The page of an ordinal, when it is cached. -/
def Holds (s : ShardInner π) (o : Nat) (pin : π) (bytes : Nat) : Prop :=
  ∃ referenced, s.map.lookup o = some (.ready pin bytes referenced)

/-- The counters and the ring say what the table holds. -/
structure Consistent (s : ShardInner π) : Prop where
  resident : s.resident = s.map.weigh Slot.bytes
  once : s.clock.Nodup
  ring : ∀ o, o ∈ s.clock ↔ ∃ pin bytes, s.Holds o pin bytes
  pending : s.pendingPushes = s.map.weigh Slot.markers

theorem Consistent.empty : Consistent ({} : ShardInner π) where
  resident := rfl
  once := nodup_nil
  ring o := by simp [Holds]
  pending := rfl

/-! ## Settling -/

/-- Nothing but the charge and the capacities differs. -/
structure SameCore (s s' : ShardInner π) : Prop where
  map : s'.map = s.map
  clock : s'.clock = s.clock
  resident : s'.resident = s.resident
  pending : s'.pendingPushes = s.pendingPushes

theorem SameCore.refl (s : ShardInner π) : s.SameCore s := ⟨rfl, rfl, rfl, rfl⟩

theorem SameCore.trans (h : s.SameCore s') (h' : s'.SameCore s'') : s.SameCore s'' :=
  ⟨h'.map.trans h.map, h'.clock.trans h.clock, h'.resident.trans h.resident, h'.pending.trans h.pending⟩

theorem SameCore.consistent (h : s.SameCore s') (hs : s.Consistent) : s'.Consistent where
  resident := by rw [h.resident, h.map, hs.resident]
  once := h.clock ▸ hs.once
  ring o := by simp only [h.clock, hs.ring, Holds, h.map]
  pending := by rw [h.pending, h.map, hs.pending]

/-- The charge is what the table and the ring cost. -/
def Settled (cfg : CacheConfig) (s : ShardInner π) : Prop := s.book = s.bookkeepingFootprint cfg

/-- Settling touches the charge alone, and reaches what was wanted unless the budget refuses. -/
theorem settle_spec (s : ShardInner π) (want : Nat) :
    (s.settle want).Ensures fun r => r.2 = { s with book := r.2.book } ∧ (r.1 = true → r.2.book = want) ∧
      (want ≤ s.book → r.1 = true) := by
  unfold settle
  refine Ensures.ite (fun hlt granted => ?_) fun hge => ?_
  · cases granted with
    | true => exact ⟨rfl, fun _ => rfl, fun _ => rfl⟩
    | false => exact ⟨rfl, fun h => absurd h Bool.false_ne_true, fun h => absurd hlt (Nat.not_lt.2 h)⟩
  · exact ⟨rfl, fun _ => rfl, fun _ => rfl⟩

theorem SameCore.of_book {book : Nat} (h : s' = { s with book }) : s.SameCore s' := by
  subst h
  exact ⟨rfl, rfl, rfl, rfl⟩

theorem settleBookkeeping_spec (s : ShardInner π) :
    (s.settleBookkeeping cfg).Ensures fun r => s.SameCore r.2 ∧ (r.1 = true → r.2.Settled cfg) ∧
      (s.Settled cfg → r.1 = true) := by
  refine (s.settle_spec _).mono fun r ⟨hsame, hbook, hok⟩ => ⟨.of_book hsame, fun h => ?_, fun h => hok (Nat.le_of_eq h.symm)⟩
  rw [Settled, hbook h, hsame]
  rfl

theorem shrinkTable_spec (s : ShardInner π) : (s.shrinkTable cfg).Ensures s.SameCore := by
  unfold shrinkTable
  refine Ensures.ite (fun _ => (s.settle_spec _).bind fun r hr => ?_) fun _ => .refl s
  have hsame : s.SameCore r.2 := .of_book hr.1
  refine Ensures.ite (fun _ capacity => ?_) fun _ => hsame
  exact hsame.trans ⟨rfl, rfl, rfl, rfl⟩

theorem shrinkRing_spec (s : ShardInner π) : (s.shrinkRing cfg).Ensures s.SameCore := by
  unfold shrinkRing
  refine Ensures.ite (fun _ => (s.settle_spec _).bind fun r hr => ?_) fun _ => .refl s
  have hsame : s.SameCore r.2 := .of_book hr.1
  refine Ensures.ite (fun _ capacity => ?_) fun _ => hsame
  exact hsame.trans ⟨rfl, rfl, rfl, rfl⟩

theorem releaseBookkeeping_spec (s : ShardInner π) : (s.releaseBookkeeping cfg).Ensures s.SameCore := by
  unfold releaseBookkeeping
  refine s.shrinkTable_spec.bind fun s₁ h₁ => s₁.shrinkRing_spec.bind fun s₂ h₂ => ?_
  exact s₂.settleBookkeeping_spec.bind fun r hr => (h₁.trans h₂).trans hr.1

/-! ## Changes of one slot -/

theorem insertSlot_spec (s : ShardInner π) (o : Nat) (slot : Slot π) :
    (s.insertSlot o slot).Ensures fun s' =>
      s'.map = s.map.insert o slot ∧ s'.clock = s.clock ∧ s'.resident = s.resident ∧ s'.pendingPushes = s.pendingPushes :=
  fun _ => ⟨rfl, rfl, rfl, rfl⟩

theorem removeSlot_spec (s : ShardInner π) (o : Nat) :
    (s.removeSlot o).Ensures fun s' =>
      s'.map = s.map.erase o ∧ s'.clock = s.clock ∧ s'.resident = s.resident ∧ s'.pendingPushes = s.pendingPushes :=
  fun _ => ⟨rfl, rfl, rfl, rfl⟩

theorem pushBack_spec (s : ShardInner π) (o : Nat) :
    (s.pushBack o).Ensures fun s' =>
      s'.map = s.map ∧ s'.clock = s.clock ++ [o] ∧ s'.resident = s.resident ∧ s'.pendingPushes = s.pendingPushes :=
  fun _ => ⟨rfl, rfl, rfl, rfl⟩

/-- The slots that are left hold the pages they held, and every marker is left. -/
structure Loses (s s' : ShardInner π) : Prop where
  markers : ∀ o, s'.map.lookup o = some .loading ↔ s.map.lookup o = some .loading
  pages : ∀ o pin bytes, s'.Holds o pin bytes → s.Holds o pin bytes

theorem Loses.refl (s : ShardInner π) : s.Loses s := ⟨fun _ => Iff.rfl, fun _ _ _ h => h⟩

theorem Loses.trans (h : s.Loses s') (h' : s'.Loses s'') : s.Loses s'' :=
  ⟨fun o => (h'.markers o).trans (h.markers o), fun o pin bytes hp => h.pages o pin bytes (h'.pages o pin bytes hp)⟩

theorem SameCore.loses (h : s.SameCore s') : s.Loses s' :=
  ⟨fun o => by rw [h.map], fun o pin bytes => by simp only [Holds, h.map]; exact id⟩

/-- Two tables that differ in the `referenced` flag of one page. -/
structure Touched (s s' : ShardInner π) (o : Nat) : Prop where
  map : ∃ pin bytes before after, s.map.lookup o = some (.ready pin bytes before) ∧
    s'.map = s.map.insert o (.ready pin bytes after)

theorem Touched.lookup_ne (h : s.Touched s' o) {o' : Nat} (hne : o' ≠ o) : s'.map.lookup o' = s.map.lookup o' := by
  obtain ⟨pin, bytes, before, after, -, hmap⟩ := h.map
  rw [hmap, AList.lookup_insert_ne hne]

theorem Touched.holds_iff (h : s.Touched s' o) (o' : Nat) (pin : π) (bytes : Nat) :
    s'.Holds o' pin bytes ↔ s.Holds o' pin bytes := by
  by_cases heq : o' = o
  · subst heq
    obtain ⟨pin', bytes', before, after, hlookup, hmap⟩ := h.map
    simp only [Holds, hmap, AList.lookup_insert, hlookup, Option.some.injEq, Slot.ready.injEq]
    constructor
    · rintro ⟨_, rfl, rfl, -⟩
      exact ⟨before, rfl, rfl, rfl⟩
    · rintro ⟨_, rfl, rfl, -⟩
      exact ⟨after, rfl, rfl, rfl⟩
  · simp only [Holds, h.lookup_ne heq]

theorem Touched.loses (h : s.Touched s' o) : s.Loses s' := by
  refine ⟨fun o' => ?_, fun o' pin bytes => (h.holds_iff o' pin bytes).1⟩
  by_cases heq : o' = o
  · subst heq
    obtain ⟨pin, bytes, before, after, hlookup, hmap⟩ := h.map
    simp [hmap, hlookup]
  · rw [h.lookup_ne heq]

theorem Touched.weigh {f : Slot π → Nat} (hf : ∀ pin bytes r r', f (.ready pin bytes r) = f (.ready pin bytes r'))
    (h : s.Touched s' o) : s'.map.weigh f = s.map.weigh f := by
  obtain ⟨pin, bytes, before, after, hlookup, hmap⟩ := h.map
  have hreplace := Dict.weigh_replace (f := f) (.ready pin bytes after) hlookup
  rw [hmap]
  have := hf pin bytes before after
  omega

/-- Marking a page keeps the shard consistent; the ring may have turned meanwhile. -/
theorem Touched.consistent (h : s.Touched s' o) (hs : s.Consistent) (hclock : s'.clock.Perm s.clock)
    (hresident : s'.resident = s.resident) (hpending : s'.pendingPushes = s.pendingPushes) : s'.Consistent where
  resident := by rw [hresident, hs.resident, h.weigh fun _ _ _ _ => rfl]
  once := hclock.nodup_iff.2 hs.once
  ring o' := by
    rw [hclock.mem_iff, hs.ring]
    simp only [h.holds_iff]
  pending := by rw [hpending, hs.pending, h.weigh fun _ _ _ _ => rfl]

/-! ## The CLOCK step -/

/-- Whether the page is to be given a second chance. -/
def isReferenced (s : ShardInner π) (o : Nat) : Bool :=
  match s.map.lookup o with
  | some (.ready _ _ referenced) => referenced
  | _ => false

/-- How many pages at the front of the ring are given a second chance before one goes. -/
def chances (s : ShardInner π) : Nat := (s.clock.takeWhile s.isReferenced).length

theorem chances_le (s : ShardInner π) : s.chances ≤ s.clock.length :=
  (takeWhile_sublist _).length_le

/-- What a CLOCK step does: nothing when no page is cached, and else it drops one page. -/
structure Evicts (s : ShardInner π) (evicted : Option Nat) (s' : ShardInner π) : Prop where
  consistent : s'.Consistent
  loses : s.Loses s'
  pending : s'.pendingPushes = s.pendingPushes
  idle : evicted = none → s.clock = [] ∧ s.SameCore s'
  drops : ∀ bytes, evicted = some bytes → s'.clock.length + 1 = s.clock.length ∧ s'.resident + bytes = s.resident ∧
    ∃ o pin, s.Holds o pin bytes ∧ s'.map.lookup o = none

theorem Consistent.evict (hs : s.Consistent)
    (hclock : s.clock = o :: clock) (hlookup : s.map.lookup o = some (.ready pin bytes r))
    (hmap : s'.map = s.map.erase o) (hclock' : s'.clock = clock) (hresident : s'.resident = s.resident - bytes)
    (hpending : s'.pendingPushes = s.pendingPushes) : s.Evicts (some bytes) s' := by
  have hbytes := Dict.weigh_erase (f := Slot.bytes) hlookup
  have hmarkers := Dict.weigh_erase (f := Slot.markers) hlookup
  have honce := hs.once
  rw [hclock, nodup_cons] at honce
  have hne : ∀ o', o' ≠ o → s'.map.lookup o' = s.map.lookup o' := fun o' h => by rw [hmap, AList.lookup_erase_ne h]
  have hgone : s'.map.lookup o = none := by rw [hmap, AList.lookup_erase]
  simp only [Slot.bytes, Slot.markers] at hbytes hmarkers
  have hres := hs.resident
  refine ⟨⟨?_, ?_, fun o' => ?_, ?_⟩, ⟨fun o' => ?_, fun o' pin' bytes' => ?_⟩, hpending, fun h => (by cases h), ?_⟩
  · rw [hresident, hmap]
    omega
  · exact hclock' ▸ honce.2
  · have hring := hs.ring o'
    rw [hclock, mem_cons] at hring
    rw [hclock']
    by_cases heq : o' = o
    · subst heq
      simp [Holds, hgone, honce.1]
    · simp only [heq, false_or] at hring
      rw [hring]
      simp only [Holds, hne o' heq]
  · rw [hpending, hs.pending, hmap]
    omega
  · by_cases heq : o' = o
    · subst heq
      simp [hgone, hlookup]
    · rw [hne o' heq]
  · by_cases heq : o' = o
    · subst heq
      simp [Holds, hgone]
    · simp only [Holds, hne o' heq]
      exact id
  · rintro _ ⟨⟩
    refine ⟨by rw [hclock', hclock, length_cons], by omega, o, pin, ⟨r, hlookup⟩, hgone⟩

/-- A page given a second chance moves to the back, and one chance less is left to give. -/
theorem chances_turn (hs : s.Consistent) (hclock : s.clock = o :: clock)
    (hlookup : s.map.lookup o = some (.ready pin bytes true)) (ht : s.Touched s' o) (hclock' : s'.clock = clock ++ [o])
    (hmap : s'.map = s.map.insert o (.ready pin bytes false)) : s'.chances + 1 = s.chances := by
  have honce := hs.once
  rw [hclock, nodup_cons] at honce
  have hhead : s.isReferenced o = true := by simp [isReferenced, hlookup]
  have hback : s'.isReferenced o = false := by simp [isReferenced, hmap]
  have hrest : ∀ o' ∈ clock, s'.isReferenced o' = s.isReferenced o' := by
    intro o' ho'
    have hne : o' ≠ o := fun h => honce.1 (h ▸ ho')
    simp only [isReferenced, ht.lookup_ne hne]
  have htake : clock.takeWhile s'.isReferenced = clock.takeWhile s.isReferenced := by
    clear honce hclock hclock'
    induction clock with
    | nil => rfl
    | cons x xs ih =>
      simp only [takeWhile_cons, hrest x mem_cons_self, ih fun o' h => hrest o' (mem_cons_of_mem _ h)]
  simp only [chances, hclock, hclock', takeWhile_cons, hhead, if_true, length_cons, takeWhile_append,
    htake]
  split <;> simp [*]

theorem evictFrom_spec {steps : Nat} (hs : s.Consistent) (hsteps : s.chances < steps) :
    (s.evictFrom cfg steps).Ensures fun r => s.Evicts r.1 r.2 := by
  -- Each turn of the loop uses up one chance or ends it.
  induction steps generalizing s with
  | zero => exact absurd hsteps (Nat.not_lt_zero _)
  | succ steps ih =>
    unfold evictFrom
    cases hclock : s.clock with
    | nil =>
      exact ⟨hs, .refl s, rfl, fun _ => ⟨hclock, .refl s⟩, fun _ h => by cases h⟩
    | cons o clock =>
      obtain ⟨pin, bytes, r, hlookup⟩ := (hs.ring o).1 (by rw [hclock]; exact mem_cons_self)
      simp only [hlookup]
      cases r with
      | true =>
        simp only [if_true]
        refine (pushBack_spec _ o).bind fun s₁ ⟨hmap, hclock₁, hresident, hpending⟩ => ?_
        simp only at hmap hclock₁ hresident hpending
        have ht : s.Touched s₁ o := ⟨pin, bytes, true, false, hlookup, hmap⟩
        have hperm : s₁.clock.Perm s.clock := by
          rw [hclock₁, hclock]
          exact perm_append_singleton o clock
        have hc := ht.consistent hs hperm hresident hpending
        have hchances := chances_turn hs hclock hlookup ht hclock₁ hmap
        refine (ih hc (by omega)).mono fun r hr => ⟨hr.consistent, ht.loses.trans hr.loses, hr.pending.trans hpending,
          fun h => ?_, fun bytes' h => ?_⟩
        · have := (hr.idle h).1
          rw [hclock₁] at this
          exact absurd this (by simp)
        · obtain ⟨hlen, hres, o', pin', hholds, hgone⟩ := hr.drops bytes' h
          exact ⟨by rw [hlen, hperm.length_eq], by rw [hres, hresident], o', pin', (ht.holds_iff o' pin' bytes').1 hholds,
            hgone⟩
      | false =>
        simp only [Bool.false_eq_true, if_false]
        refine (removeSlot_spec _ o).bind fun s₁ ⟨hmap, hclock₁, hresident, hpending⟩ => ?_
        refine (releaseBookkeeping_spec _).bind fun s₂ hsame => ?_
        have hev : s.Evicts (some bytes) s₂ := by
          refine hs.evict hclock hlookup (hsame.map.trans hmap) (hsame.clock.trans hclock₁) ?_
            (hsame.pending.trans hpending)
          rw [hsame.resident]
          simp only [hresident]
        exact hev

/-- One CLOCK step. -/
theorem evictOne_spec (hs : s.Consistent) : (s.evictOne cfg).Ensures fun r => s.Evicts r.1 r.2 := by
  have := s.chances_le
  exact evictFrom_spec hs (by omega)

/-! ## Loops over CLOCK steps -/

theorem Consistent.resident_of_idle (hs : s.Consistent) (hclock : s.clock = []) : s.resident = 0 := by
  rw [hs.resident, Dict.weigh_eq_zero]
  intro o slot hlookup
  cases slot with
  | loading => rfl
  | ready pin bytes r =>
    have := (hs.ring o).2 ⟨pin, bytes, r, hlookup⟩
    rw [hclock] at this
    cases this

theorem Evicts.resident_le (h : s.Evicts evicted s') : s'.resident ≤ s.resident := by
  cases evicted with
  | none => exact Nat.le_of_eq (h.idle rfl).2.resident
  | some bytes =>
    have := (h.drops bytes rfl).2.1
    omega

/-- What a loop of evictions leaves. -/
structure Sheds (s s' : ShardInner π) : Prop where
  consistent : s'.Consistent
  loses : s.Loses s'
  pending : s'.pendingPushes = s.pendingPushes
  resident : s'.resident ≤ s.resident

theorem Sheds.refl (hs : s.Consistent) : s.Sheds s := ⟨hs, .refl s, rfl, Nat.le_refl _⟩

theorem Sheds.trans (h : s.Sheds s') (h' : s'.Sheds s'') : s.Sheds s'' :=
  ⟨h'.consistent, h.loses.trans h'.loses, h'.pending.trans h.pending, Nat.le_trans h'.resident h.resident⟩

theorem Evicts.sheds (h : s.Evicts evicted s') : s.Sheds s' :=
  ⟨h.consistent, h.loses, h.pending, h.resident_le⟩

theorem SameCore.sheds (h : s.SameCore s') (hs : s.Consistent) : s.Sheds s' :=
  ⟨h.consistent hs, h.loses, h.pending, Nat.le_of_eq h.resident⟩

theorem evictDownFrom_spec {fuel : Nat} (hs : s.Consistent) (hfuel : s.clock.length < fuel) :
    (s.evictDownFrom cfg fuel).Ensures fun s' => s.Sheds s' ∧ s'.resident ≤ cfg.capacityPerShard := by
  induction fuel generalizing s with
  | zero => exact absurd hfuel (Nat.not_lt_zero _)
  | succ fuel ih =>
    unfold evictDownFrom
    refine Ensures.ite (fun hlt => ?_) fun hge => ⟨.refl hs, Nat.not_lt.1 hge⟩
    refine (evictOne_spec hs).bind fun r hr => ?_
    obtain ⟨evicted, s₁⟩ := r
    cases evicted with
    | none =>
      -- Without pages nothing is resident, so the loop would not have gone on.
      have := hs.resident_of_idle (hr.idle rfl).1
      omega
    | some bytes =>
      have hlen := (hr.drops bytes rfl).1
      exact (ih hr.consistent (by simp only at hlen ⊢; omega)).mono fun s' ⟨hsheds, hle⟩ => ⟨hr.sheds.trans hsheds, hle⟩

theorem evictDownToCapacity_spec (hs : s.Consistent) :
    (s.evictDownToCapacity cfg).Ensures fun s' => s.Sheds s' ∧ s'.resident ≤ cfg.capacityPerShard :=
  evictDownFrom_spec hs (Nat.lt_succ_self _)

theorem settleOrEvict_spec {fuel : Nat} (hs : s.Consistent) (hfuel : s.clock.length < fuel) :
    (s.settleOrEvict cfg fuel).Ensures fun s' => s.Sheds s' ∧ (s'.Settled cfg ∨ s'.clock = []) := by
  induction fuel generalizing s with
  | zero => exact absurd hfuel (Nat.not_lt_zero _)
  | succ fuel ih =>
    unfold settleOrEvict
    refine s.settleBookkeeping_spec.bind fun r ⟨hsame, hok, _⟩ => ?_
    obtain ⟨ok, s₁⟩ := r
    have hs₁ := hsame.consistent hs
    refine Ensures.ite (fun h => ⟨hsame.sheds hs, .inl (hok h)⟩) fun _ => ?_
    refine (evictOne_spec hs₁).bind fun r hr => ?_
    obtain ⟨evicted, s₂⟩ := r
    cases evicted with
    | none =>
      refine ⟨(hsame.sheds hs).trans hr.sheds, .inr ?_⟩
      exact (hr.idle rfl).2.clock.trans (hr.idle rfl).1
    | some bytes =>
      have hlen := (hr.drops bytes rfl).1
      have hclock : s₁.clock.length = s.clock.length := by rw [hsame.clock]
      refine (ih hr.consistent (by simp only at hlen ⊢; omega)).mono fun s' ⟨hsheds, hend⟩ => ⟨?_, hend⟩
      exact ((hsame.sheds hs).trans hr.sheds).trans hsheds

/-- The last resort never has a page left to give up. -/
theorem settleOrRemove_spec (hs : s.Consistent) (hend : s.Settled cfg ∨ s.clock = [])
    (hmarker : s.map.lookup o ≠ some .loading) : (s.settleOrRemove cfg o).Ensures fun s' => s.Sheds s' := by
  unfold settleOrRemove
  refine s.settleBookkeeping_spec.bind fun r ⟨hsame, _, hok⟩ => ?_
  obtain ⟨ok, s₁⟩ := r
  refine Ensures.ite (fun _ => hsame.sheds hs) fun hfail => ?_
  have hclock : s.clock = [] := hend.resolve_left fun h => hfail (hok h)
  have hnone : s₁.map.lookup o = none := by
    rw [hsame.map]
    cases hlookup : s.map.lookup o with
    | none => rfl
    | some slot =>
      cases slot with
      | loading => exact absurd hlookup hmarker
      | ready pin bytes r =>
        have := (hs.ring o).2 ⟨pin, bytes, r, hlookup⟩
        rw [hclock] at this
        cases this
  simp only [hnone]
  refine (removeSlot_spec _ o).bind fun s₂ ⟨hmap, hclock₂, hresident, hpending⟩ => ?_
  rw [Dict.erase_of_lookup_none hnone] at hmap
  refine s₂.releaseBookkeeping_spec.mono fun s₃ h₃ => ?_
  have h₂ : s₁.SameCore s₂ := ⟨hmap, hclock₂, hresident, hpending⟩
  exact ((hsame.trans h₂).trans h₃).sheds hs

/-! ## The critical sections -/

/-- A marker comes in. -/
structure Marks (s s' : ShardInner π) (o : Nat) : Prop where
  consistent : s'.Consistent
  markers : ∀ o', s'.map.lookup o' = some .loading ↔ o' = o ∨ s.map.lookup o' = some .loading
  pages : ∀ o' pin bytes, s'.Holds o' pin bytes → s.Holds o' pin bytes

/-- A marker goes; at most the page `new` comes in. -/
structure Unmarks (s s' : ShardInner π) (o : Nat) (new : Option (π × Nat)) : Prop where
  consistent : s'.Consistent
  markers : ∀ o', s'.map.lookup o' = some .loading ↔ o' ≠ o ∧ s.map.lookup o' = some .loading
  pages : ∀ o' pin bytes, s'.Holds o' pin bytes → s.Holds o' pin bytes ∨ o' = o ∧ new = some (pin, bytes)

theorem Unmarks.sheds {new : Option (π × Nat)} (h : s.Unmarks s' o new) (h' : s'.Sheds s'') : s.Unmarks s'' o new :=
  ⟨h'.consistent, fun o' => (h'.loses.markers o').trans (h.markers o'),
    fun o' pin bytes hp => h.pages o' pin bytes (h'.loses.pages o' pin bytes hp)⟩

theorem mark_spec (hs : s.Consistent) (hnone : s.map.lookup o = none) (charge : Nat) :
    (s.mark cfg o charge).Ensures fun s' => s.Marks s' o := by
  unfold mark
  refine (insertSlot_spec s o .loading).bind fun s₁ ⟨hmap, hclock, hresident, hpending⟩ => ?_
  refine (settleBookkeeping_spec _).bind fun r hr => ?_
  have hsame := hr.1
  have hbytes := Dict.weigh_insert (f := Slot.bytes) (v := .loading) hnone
  have hmarkers := Dict.weigh_insert (f := Slot.markers) (v := .loading) hnone
  have hmap' : r.2.map = s.map.insert o .loading := hsame.map.trans hmap
  have hholds : ∀ o' pin bytes, r.2.Holds o' pin bytes ↔ s.Holds o' pin bytes := by
    intro o' pin bytes
    by_cases heq : o' = o
    · subst heq
      simp [Holds, hmap', hnone]
    · simp only [Holds, hmap', AList.lookup_insert_ne heq]
  refine ⟨⟨?_, ?_, fun o' => ?_, ?_⟩, fun o' => ?_, fun o' pin bytes => (hholds o' pin bytes).1⟩
  · rw [hsame.resident, hmap', hbytes, Slot.bytes, Nat.zero_add, ← hs.resident]
    exact hresident
  · rw [hsame.clock]
    exact hclock ▸ hs.once
  · rw [hsame.clock]
    simp only [hholds, ← hs.ring, noteTable, hclock]
  · rw [hsame.pending, hmap', hmarkers, Slot.markers, ← hs.pending]
    simp only [noteTable, hpending, Nat.add_comm]
  · by_cases heq : o' = o
    · subst heq
      simp [hmap']
    · rw [hmap', AList.lookup_insert_ne heq]
      simp [heq]

theorem unmark_spec (hs : s.Consistent) (hloading : s.map.lookup o = some .loading) :
    (s.unmark o).Ensures fun s' => s.Unmarks s' o none ∧ s'.map.lookup o = none := by
  unfold unmark
  refine (removeSlot_spec s o).bind fun s₁ ⟨hmap, hclock, hresident, hpending⟩ => ?_
  have hbytes := Dict.weigh_erase (f := Slot.bytes) hloading
  have hmarkers := Dict.weigh_erase (f := Slot.markers) hloading
  simp only [Slot.bytes, Slot.markers] at hbytes hmarkers
  have hgone : s₁.map.lookup o = none := by rw [hmap, AList.lookup_erase]
  have hholds : ∀ o' pin bytes, s₁.Holds o' pin bytes ↔ s.Holds o' pin bytes := by
    intro o' pin bytes
    by_cases heq : o' = o
    · subst heq
      simp [Holds, hgone, hloading]
    · simp only [Holds, hmap, AList.lookup_erase_ne heq]
  refine ⟨⟨⟨?_, hclock ▸ hs.once, fun o' => ?_, ?_⟩, fun o' => ?_, fun o' pin bytes h => .inl ((hholds o' pin bytes).1 h)⟩,
    hgone⟩
  · simp only [hresident, hs.resident, hmap]
    omega
  · simp only [hclock, hs.ring]
    exact exists_congr fun pin => exists_congr fun bytes => (hholds o' pin bytes).symm
  · simp only [hpending, hs.pending, hmap]
    omega
  · by_cases heq : o' = o
    · subst heq
      simp [hgone]
    · simp [heq, hmap, AList.lookup_erase_ne heq]

/-- A page put in place of a marker that has gone. -/
theorem Consistent.add (hs : s.Consistent) (hnone : s.map.lookup o = none)
    (hmap : s'.map = s.map.insert o (.ready pin bytes r)) (hclock : s'.clock = s.clock ++ [o])
    (hresident : s'.resident = s.resident + bytes) (hpending : s'.pendingPushes = s.pendingPushes) : s'.Consistent := by
  have hbytes := Dict.weigh_insert (f := Slot.bytes) (v := .ready pin bytes r) hnone
  have hmarkers := Dict.weigh_insert (f := Slot.markers) (v := .ready pin bytes r) hnone
  simp only [Slot.bytes, Slot.markers] at hbytes hmarkers
  have hnot : o ∉ s.clock := by
    rw [hs.ring]
    rintro ⟨pin', bytes', r', h⟩
    rw [hnone] at h
    cases h
  refine ⟨?_, ?_, fun o' => ?_, ?_⟩
  · rw [hresident, hs.resident, hmap]
    omega
  · rw [hclock, nodup_append]
    refine ⟨hs.once, nodup_singleton o, fun a ha b hb => ?_⟩
    rw [mem_singleton.1 hb]
    exact fun h => hnot (h ▸ ha)
  · rw [hclock, mem_append, mem_singleton, hs.ring]
    by_cases heq : o' = o
    · subst heq
      simp [Holds, hmap]
    · simp only [heq, or_false, Holds, hmap, AList.lookup_insert_ne heq]
  · rw [hpending, hs.pending, hmap]
    omega

theorem publish_spec (hs : s.Consistent) (hloading : s.map.lookup o = some .loading) (pin : π) (bytes : Nat) :
    (s.publish cfg o pin bytes).Ensures fun s' =>
      s.Unmarks s' o (some (pin, bytes)) ∧ s'.resident ≤ cfg.capacityPerShard := by
  unfold publish
  refine (unmark_spec hs hloading).bind fun s₁ ⟨h₁, hnone⟩ => ?_
  refine (insertSlot_spec _ o _).bind fun s₂ ⟨hmap₂, hclock₂, hresident₂, hpending₂⟩ => ?_
  refine (pushBack_spec s₂ o).bind fun s₃ ⟨hmap₃, hclock₃, hresident₃, hpending₃⟩ => ?_
  -- The page is in: the table, the ring and the counter agree about it.
  have hmap : s₃.map = s₁.map.insert o (.ready pin bytes true) := hmap₃.trans hmap₂
  have hc₃ : s₃.noteTable.Consistent :=
    h₁.consistent.add hnone hmap (hclock₃.trans (by rw [hclock₂])) (hresident₃.trans hresident₂)
      (hpending₃.trans hpending₂)
  have hready : s₃.noteTable.map.lookup o = some (.ready pin bytes true) := by
    change s₃.map.lookup o = _
    rw [hmap, AList.lookup_insert]
  have hadd : s.Unmarks s₃.noteTable o (some (pin, bytes)) := by
    refine ⟨hc₃, fun o' => ?_, fun o' pin' bytes' hp => ?_⟩
    · by_cases heq : o' = o
      · subst heq
        simp [hready]
      · rw [← h₁.markers o']
        change s₃.map.lookup o' = _ ↔ _
        rw [hmap, AList.lookup_insert_ne heq]
    · by_cases heq : o' = o
      · subst heq
        obtain ⟨r, hr⟩ := hp
        rw [hready] at hr
        cases hr
        exact .inr ⟨rfl, rfl⟩
      · refine .inl ((h₁.pages o' pin' bytes' ?_).resolve_right fun h => heq h.1)
        obtain ⟨r, hr⟩ := hp
        exact ⟨r, by rw [← hr]; change _ = s₃.map.lookup o'; rw [hmap, AList.lookup_insert_ne heq]⟩
  -- From here on pages only leave.
  refine (evictDownToCapacity_spec hc₃).bind fun s₄ ⟨h₄, hle⟩ => ?_
  refine (settleOrEvict_spec h₄.consistent (Nat.lt_succ_self _)).bind fun s₅ ⟨h₅, hend⟩ => ?_
  have h₄₅ := h₄.trans h₅
  have hmarker : s₅.map.lookup o ≠ some .loading := by
    rw [ne_eq, h₄₅.loses.markers, hready]
    exact fun h => by cases h
  refine (settleOrRemove_spec h₅.consistent hend hmarker).mono fun s₆ h₆ => ?_
  refine ⟨hadd.sheds (h₄₅.trans h₆), ?_⟩
  have := h₅.resident
  have := h₆.resident
  omega

theorem abandon_spec (hs : s.Consistent) (hloading : s.map.lookup o = some .loading) :
    (s.abandon cfg o).Ensures fun s' => s.Unmarks s' o none := by
  unfold abandon
  refine (unmark_spec hs hloading).bind fun s₁ ⟨h₁, _⟩ => ?_
  exact s₁.releaseBookkeeping_spec.mono fun s₂ h₂ => h₁.sheds (h₂.sheds h₁.consistent)

theorem touch_touched (h : s.map.lookup o = some (.ready pin bytes r)) :
    s.Touched (s.touch o pin bytes) o := ⟨pin, bytes, r, true, h, rfl⟩

/-- A lookup marks a page at most. -/
theorem get_spec (hs : s.Consistent) (o : Nat) :
    (s.get o).2.Consistent ∧ s.Loses (s.get o).2 ∧ ∀ pin, (s.get o).1 = some pin → ∃ bytes, s.Holds o pin bytes := by
  unfold get
  split
  · rename_i pin bytes r hlookup
    have ht := touch_touched hlookup
    refine ⟨ht.consistent hs (List.Perm.refl _) rfl rfl, ht.loses, ?_⟩
    rintro _ ⟨⟩
    exact ⟨bytes, r, hlookup⟩
  · exact ⟨hs, .refl s, fun _ h => by cases h⟩

/-- What a turn of the loop of `get_or_load` did, by its outcome. -/
def EnterSpec (s : ShardInner π) (o : Nat) (outcome : Entered π) (s' : ShardInner π) : Prop :=
  s'.Consistent ∧
    match outcome with
    | .hit pin => s.Loses s' ∧ ∃ bytes, s.Holds o pin bytes
    | .wait => s.Loses s' ∧ s.map.lookup o = some .loading
    | .reserve _ _ => s.Loses s'
    | .refused _ => s.Loses s'
    | .load => s.map.lookup o = none ∧ s.Marks s' o

theorem enter_spec (hs : s.Consistent) (o : Nat) (charge : Option Nat) (attempts : Nat) :
    (s.enter cfg o charge attempts).Ensures fun r => s.EnterSpec o r.1 r.2 := by
  unfold enter
  cases hlookup : s.map.lookup o with
  | some slot =>
    cases slot with
    | ready pin bytes r =>
      have ht := touch_touched hlookup
      exact ⟨ht.consistent hs (List.Perm.refl _) rfl rfl, ht.loses, bytes, r, hlookup⟩
    | loading => exact ⟨hs, .refl s, hlookup⟩
  | none =>
    cases charge with
    | none => exact ⟨hs, .refl s⟩
    | some charge =>
      simp only
      refine Ensures.ite (fun _ => ?_) fun _ => ?_
      · exact Ensures.ite (fun _ => ⟨hs, .refl s⟩) fun _ => ⟨hs, .refl s⟩
      · exact (mark_spec hs hlookup charge).bind fun s' h => ⟨h.consistent, hlookup, h⟩

end ShardInner

end DryDb
