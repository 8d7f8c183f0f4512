import DryDb.Memory.Shard
/-!
# One load at a time

`ShardSystem.Coordinated` adds the threads to the consistent shard: the calls that load a page
are the owners of its marker, and a thread blocked on a page has either a load to wait for or a
`notify_all` that is still to come. Every step keeps it.
-/

namespace DryDb

open Program

variable {π : Type} {s : ShardInner π} {o : Nat} {cfg : CacheConfig} {w : ShardSystem π}

/-- The call has put a marker in for the ordinal and not taken it out. -/
def Caller.owns (o : Nat) : Caller π → Bool
  | .loading o' => o' == o
  | .loaded o' _ _ => o' == o
  | .failed o' => o' == o
  | _ => false

/-- Markers of an ordinal. -/
def ShardInner.marked (s : ShardInner π) (o : Nat) : Nat :=
  match s.map.lookup o with
  | some .loading => 1
  | _ => 0

theorem ShardInner.marked_of (h : s.map.lookup o = some .loading) : s.marked o = 1 := by
  simp [marked, h]

theorem ShardInner.marked_le (s : ShardInner π) (o : Nat) : s.marked o ≤ 1 := by
  unfold marked
  split <;> omega

theorem ShardInner.loading_of_marked (h : 0 < s.marked o) :
    s.map.lookup o = some .loading := by
  unfold marked at h
  split at h
  · assumption
  · cases h

theorem ShardInner.marked_congr {s' : ShardInner π}
    (h : s'.map.lookup o = some .loading ↔ s.map.lookup o = some .loading) : s'.marked o = s.marked o := by
  by_cases hl : s.map.lookup o = some .loading
  · rw [marked_of hl, marked_of (h.2 hl)]
  · have hle := s.marked_le o
    have hle' := s'.marked_le o
    have h0 : ¬ 0 < s.marked o := fun hp => hl (loading_of_marked hp)
    have h0' : ¬ 0 < s'.marked o := fun hp => hl (h.1 (loading_of_marked hp))
    omega

/-- How many calls own a marker for the ordinal. -/
def ShardSystem.owners (w : ShardSystem π) (o : Nat) : Nat := w.callers.countP fun c => c.owns o

/-- The calls in progress agree with the shard. -/
structure ShardSystem.Coordinated (w : ShardSystem π) : Prop where
  shard : w.inner.Consistent
  owners : ∀ o, w.owners o = w.inner.marked o
  waiters : ∀ o charge attempts, Caller.waiting o charge attempts false ∈ w.callers →
    w.inner.map.lookup o = some .loading ∨ Caller.notifying o ∈ w.callers

namespace ShardSystem.Coordinated

variable {cfg : CacheConfig} {w : ShardSystem π} {o : Nat} {c : Caller π} {rest : Multiset (Caller π)} {inner : ShardInner π}

theorem countP_owns (c : Caller π) (o : Nat) :
    ({c} : Multiset (Caller π)).countP (fun c => c.owns o) = if c.owns o then 1 else 0 := by
  rw [← Multiset.cons_zero, Multiset.countP_cons, Multiset.countP_zero, Nat.zero_add]

theorem owners_cons (h : w.Coordinated) (hc : w.callers = c ::ₘ rest) (o : Nat) :
    rest.countP (fun c => c.owns o) + (if c.owns o then 1 else 0) = w.inner.marked o := by
  rw [← h.owners o, ShardSystem.owners, hc, Multiset.countP_cons]

/-- A call about to publish or abandon still has its marker in. -/
theorem marker_of_owner (h : w.Coordinated) (hc : w.callers = c ::ₘ rest) (howns : c.owns o = true) :
    w.inner.map.lookup o = some .loading := by
  have := h.owners_cons hc o
  rw [if_pos howns] at this
  exact ShardInner.loading_of_marked (by omega)

/-- A call that goes on without touching the shard and without entering or leaving a load. -/
theorem replace (h : w.Coordinated) (hc : w.callers = c ::ₘ rest) {new : Multiset (Caller π)}
    (hinner : inner.Consistent) (hloses : w.inner.Loses inner)
    (howns : ∀ o, new.countP (fun c => c.owns o) = if c.owns o then 1 else 0) (hnot : ∀ o, c ≠ .notifying o)
    (hnew : ∀ o charge attempts, Caller.waiting o charge attempts false ∈ new → w.inner.map.lookup o = some .loading) :
    ({ inner, callers := new + rest } : ShardSystem π).Coordinated where
  shard := hinner
  owners o := by
    have := h.owners_cons hc o
    rw [ShardInner.marked_congr (hloses.markers o), ← this, ShardSystem.owners, Multiset.countP_add, howns, Nat.add_comm]
  waiters o charge attempts hmem := by
    rcases Multiset.mem_add.1 hmem with hmem | hmem
    · exact .inl ((hloses.markers o).2 (hnew o charge attempts hmem))
    · rcases h.waiters o charge attempts (hc ▸ Multiset.mem_cons_of_mem hmem) with hl | hn
      · exact .inl ((hloses.markers o).2 hl)
      · rcases Multiset.mem_cons.1 (hc ▸ hn) with heq | hn
        · exact absurd heq.symm (hnot o)
        · exact .inr (Multiset.mem_add.2 (.inr hn))

/-- A call puts its marker in. -/
theorem begin (h : w.Coordinated) (hc : w.callers = c ::ₘ rest) (howns : ∀ o, c.owns o = false)
    (hnot : ∀ o, c ≠ .notifying o) (hnone : w.inner.map.lookup o = none)
    (hmarks : w.inner.Marks inner o) : ({ inner, callers := {.loading o} + rest } : ShardSystem π).Coordinated where
  shard := hmarks.consistent
  owners o' := by
    have hrest := h.owners_cons hc o'
    simp only [howns, Bool.false_eq_true, if_false, Nat.add_zero] at hrest
    rw [ShardSystem.owners, Multiset.countP_add, hrest, countP_owns]
    by_cases heq : o' = o
    · subst heq
      have hold : w.inner.marked o' = 0 := by simp [ShardInner.marked, hnone]
      rw [ShardInner.marked_of ((hmarks.markers o').2 (.inl rfl)), hold]
      simp [Caller.owns]
    · have hne : (o == o') = false := by simpa using fun h => heq h.symm
      rw [ShardInner.marked_congr ((hmarks.markers o').trans (or_iff_right heq))]
      simp [Caller.owns, hne]
  waiters o' charge attempts hmem := by
    rcases Multiset.mem_add.1 hmem with hmem | hmem
    · cases Multiset.mem_singleton.1 hmem
    · rcases h.waiters o' charge attempts (hc ▸ Multiset.mem_cons_of_mem hmem) with hl | hn
      · exact .inl ((hmarks.markers o').2 (.inr hl))
      · rcases Multiset.mem_cons.1 (hc ▸ hn) with heq | hn
        · exact absurd heq.symm (hnot o')
        · exact .inr (Multiset.mem_add.2 (.inr hn))

/-- A load ends: its marker goes, and its thread has everyone to notify. -/
theorem finish (h : w.Coordinated) (hc : w.callers = c ::ₘ rest) (howns : ∀ o', c.owns o' = (o == o'))
    {new : Option (π × Nat)} (hunmarks : w.inner.Unmarks inner o new) :
    ({ inner, callers := .notifying o ::ₘ rest } : ShardSystem π).Coordinated where
  shard := hunmarks.consistent
  owners o' := by
    have hrest := h.owners_cons hc o'
    have hle := w.inner.marked_le o'
    rw [ShardSystem.owners, Multiset.countP_cons_of_neg _ (by simp [Caller.owns])]
    by_cases heq : o' = o
    · subst heq
      simp only [howns, beq_self_eq_true, if_true] at hrest
      have hgone : inner.marked o' = 0 := Nat.eq_zero_of_not_pos fun hp =>
        ((hunmarks.markers o').1 (ShardInner.loading_of_marked hp)).1 rfl
      rw [hgone]
      omega
    · have hne : (o == o') = false := by simpa using fun h => heq h.symm
      simp only [howns, hne, Bool.false_eq_true, if_false, Nat.add_zero] at hrest
      rw [ShardInner.marked_congr ((hunmarks.markers o').trans (and_iff_right heq)), hrest]
  waiters o' charge attempts hmem := by
    rcases Multiset.mem_cons.1 hmem with heq | hmem
    · cases heq
    · by_cases heq : o' = o
      · exact .inr (heq ▸ Multiset.mem_cons_self _ _)
      · rcases h.waiters o' charge attempts (hc ▸ Multiset.mem_cons_of_mem hmem) with hl | hn
        · exact .inl ((hunmarks.markers o').2 ⟨heq, hl⟩)
        · rcases Multiset.mem_cons.1 (hc ▸ hn) with hcn | hn
          · -- The call that ends its load is not one that notifies.
            have := howns o
            rw [← hcn] at this
            simp [Caller.owns] at this
          · exact .inr (Multiset.mem_cons_of_mem hn)

theorem owns_notified (c : Caller π) (o : Nat) : c.notified.owns o = c.owns o := by
  cases c <;> rfl

/-- Notifying leaves nobody blocked and unnotified. -/
theorem notify (h : w.Coordinated) (hc : w.callers = .notifying o ::ₘ rest) :
    ({ w with callers := rest.map Caller.notified } : ShardSystem π).Coordinated where
  shard := h.shard
  owners o' := by
    have hrest := h.owners_cons hc o'
    rw [if_neg (by simp [Caller.owns]), Nat.add_zero] at hrest
    rw [← hrest, ShardSystem.owners, Multiset.countP_map, Multiset.countP_eq_card_filter]
    simp only [owns_notified]
  waiters o' charge attempts hmem := by
    obtain ⟨c, -, hc⟩ := Multiset.mem_map.1 hmem
    cases c <;> cases hc

/-- Every step keeps the calls and the shard in agreement. -/
theorem step {w' : ShardSystem π} {l : ShardLabel π} (h : w.Coordinated) (hs : ShardStep cfg w l w') :
    w'.Coordinated := by
  cases hs with
  | call o =>
    refine ⟨h.shard, fun o' => ?_, fun o' charge attempts hmem => ?_⟩
    · rw [ShardSystem.owners, Multiset.countP_cons_of_neg _ (by simp [Caller.owns])]
      exact h.owners o'
    · rcases Multiset.mem_cons.1 hmem with heq | hmem
      · cases heq
      · exact (h.waiters o' charge attempts hmem).imp_right fun hn => Multiset.mem_cons_of_mem hn
  | @enter o charge attempts rest outcome inner hcaller hrun =>
    obtain ⟨hinner, hout⟩ := (ShardInner.enter_spec h.shard o charge attempts).of_yields hrun
    have hnot : ∀ o', (Caller.entering o charge attempts : Caller π) ≠ .notifying o' := fun o' h => by cases h
    cases outcome with
    | hit pin => exact h.replace hcaller hinner hout.1 (fun o' => rfl) hnot fun _ _ _ hm => absurd hm (Multiset.notMem_zero _)
    | wait =>
      refine h.replace hcaller hinner hout.1 (fun o' => countP_owns _ o') hnot fun o' charge' attempts' hm => ?_
      cases Multiset.mem_singleton.1 hm
      exact hout.2
    | reserve want attempts' =>
      refine h.replace hcaller hinner hout (fun o' => countP_owns _ o') hnot fun o' charge' attempts' hm => ?_
      cases Multiset.mem_singleton.1 hm
    | refused requested =>
      exact h.replace hcaller hinner hout (fun o' => rfl) hnot fun _ _ _ hm => absurd hm (Multiset.notMem_zero _)
    | load => exact h.begin hcaller (fun _ => rfl) hnot hout.1 hout.2
  | @wake o charge attempts notified rest hcaller =>
    refine h.replace hcaller h.shard (.refl _) (fun o' => countP_owns (.entering o charge attempts) o')
      (fun o' h => by cases h) fun o' charge' attempts' hm => ?_
    cases Multiset.mem_singleton.1 hm
  | @reserve o want attempts rest charge hcaller =>
    refine h.replace hcaller h.shard (.refl _) (fun o' => countP_owns (.entering o (some charge) attempts) o')
      (fun o' h => by cases h) fun o' charge' attempts' hm => ?_
    cases Multiset.mem_singleton.1 hm
  | @unreserve o want attempts rest hcaller =>
    have := h.replace hcaller h.shard (.refl _) (fun o' => show Multiset.countP _ 0 = _ from rfl) (fun o' h => by cases h)
      fun _ _ _ hm => absurd hm (Multiset.notMem_zero _)
    rwa [Multiset.zero_add] at this
  | @loadReturn o rest pin bytes hcaller =>
    refine h.replace hcaller h.shard (.refl _) (fun o' => countP_owns (.loaded o pin bytes) o') (fun o' h => by cases h)
      fun o' charge' attempts' hm => ?_
    cases Multiset.mem_singleton.1 hm
  | @loadFail o rest hcaller =>
    refine h.replace hcaller h.shard (.refl _) (fun o' => countP_owns (.failed o) o') (fun o' h => by cases h)
      fun o' charge' attempts' hm => ?_
    cases Multiset.mem_singleton.1 hm
  | @publish o pin bytes rest inner hcaller hrun =>
    have hloading := h.marker_of_owner hcaller (o := o) (beq_self_eq_true o)
    exact h.finish hcaller (fun _ => rfl) ((ShardInner.publish_spec h.shard hloading pin bytes).of_yields hrun).1
  | @abandon o rest inner hcaller hrun =>
    have hloading := h.marker_of_owner hcaller (o := o) (beq_self_eq_true o)
    exact h.finish hcaller (fun _ => rfl) ((ShardInner.abandon_spec h.shard hloading).of_yields hrun)
  | notify hcaller => exact h.notify hcaller
  | get o =>
    obtain ⟨hinner, hloses, -⟩ := ShardInner.get_spec h.shard o
    exact ⟨hinner, fun o' => (h.owners o').trans (ShardInner.marked_congr (hloses.markers o')).symm,
      fun o' charge attempts hm => (h.waiters o' charge attempts hm).imp_left (hloses.markers o').2⟩
  | @evict bytes inner hrun =>
    have hev := (ShardInner.evictOne_spec h.shard).of_yields hrun
    exact ⟨hev.consistent, fun o' => (h.owners o').trans (ShardInner.marked_congr (hev.loses.markers o')).symm,
      fun o' charge attempts hm => (h.waiters o' charge attempts hm).imp_left (hev.loses.markers o').2⟩

end ShardSystem.Coordinated

theorem ShardRun.coordinated {past : List (Event (ShardSystem π) (ShardLabel π))}
    (h : ShardRun cfg past w) : w.Coordinated := by
  refine h.state ?_ fun _ _ _ hi hs => hi.step hs
  rintro _ rfl
  exact ⟨.empty, fun _ => rfl, fun _ _ _ hm => absurd hm (Multiset.notMem_zero _)⟩

/-! ## The pages that go round -/

/-- Every page in the shard, or on its way into it, is right for its ordinal. -/
structure ShardSystem.Serves (P : Nat → π → Prop) (w : ShardSystem π) : Prop where
  cached : ∀ o pin bytes, w.inner.Holds o pin bytes → P o pin
  loaded : ∀ o pin bytes, Caller.loaded o pin bytes ∈ w.callers → P o pin

/-- The page a step hands out. -/
def ShardLabel.Hands (P : Nat → π → Prop) : ShardLabel π → Prop
  | .entered o (.hit pin) => P o pin
  | .published o pin _ => P o pin
  | .got o (some pin) => P o pin
  | _ => True

/-- As long as the loads return the right pages, so does the shard. -/
theorem ShardSystem.Serves.step {P : Nat → π → Prop} {w' : ShardSystem π} {l : ShardLabel π}
    (h : w.Serves P) (hw : w.Coordinated) (hs : ShardStep cfg w l w')
    (hload : ∀ o pin bytes, l = .loadReturned o pin bytes → P o pin) : w'.Serves P ∧ l.Hands P := by
  have keep : ∀ {c : Caller π} {rest : Multiset (Caller π)}, w.callers = c ::ₘ rest →
      ∀ o pin bytes, Caller.loaded o pin bytes ∈ rest → P o pin :=
    fun hc o pin bytes hm => h.loaded o pin bytes (hc ▸ Multiset.mem_cons_of_mem hm)
  have swap : ∀ {c c' : Caller π} {rest : Multiset (Caller π)}, w.callers = c ::ₘ rest →
      (∀ o pin bytes, c' = .loaded o pin bytes → P o pin) →
      ∀ o pin bytes, Caller.loaded o pin bytes ∈ c' ::ₘ rest → P o pin := by
    intro c c' rest hc hnew o pin bytes hm
    rcases Multiset.mem_cons.1 hm with heq | hm
    · exact hnew o pin bytes heq.symm
    · exact keep hc o pin bytes hm
  cases hs with
  | call o =>
    refine ⟨⟨h.cached, fun o' pin bytes hm => ?_⟩, trivial⟩
    rcases Multiset.mem_cons.1 hm with heq | hm
    · cases heq
    · exact h.loaded o' pin bytes hm
  | @enter o charge attempts rest outcome inner hcaller hrun =>
    obtain ⟨-, hout⟩ := (ShardInner.enter_spec hw.shard o charge attempts).of_yields hrun
    have hrest : ∀ o' pin bytes, Caller.loaded o' pin bytes ∈ outcome.next o charge attempts + rest → P o' pin := by
      intro o' pin bytes hm
      rcases Multiset.mem_add.1 hm with hm | hm
      · cases outcome <;> simp [ShardInner.Entered.next] at hm
      · exact keep hcaller o' pin bytes hm
    cases outcome with
    | hit pin =>
      obtain ⟨hloses, bytes, hholds⟩ := hout
      exact ⟨⟨fun o' pin' bytes' hp => h.cached o' pin' bytes' (hloses.pages o' pin' bytes' hp), hrest⟩,
        h.cached o pin bytes hholds⟩
    | wait => exact ⟨⟨fun o' pin bytes hp => h.cached o' pin bytes (hout.1.pages o' pin bytes hp), hrest⟩, trivial⟩
    | reserve want attempts' =>
      exact ⟨⟨fun o' pin bytes hp => h.cached o' pin bytes (hout.pages o' pin bytes hp), hrest⟩, trivial⟩
    | refused requested =>
      exact ⟨⟨fun o' pin bytes hp => h.cached o' pin bytes (hout.pages o' pin bytes hp), hrest⟩, trivial⟩
    | load => exact ⟨⟨fun o' pin bytes hp => h.cached o' pin bytes (hout.2.pages o' pin bytes hp), hrest⟩, trivial⟩
  | wake hcaller => exact ⟨⟨h.cached, swap hcaller fun _ _ _ heq => by cases heq⟩, trivial⟩
  | reserve charge hcaller => exact ⟨⟨h.cached, swap hcaller fun _ _ _ heq => by cases heq⟩, trivial⟩
  | unreserve hcaller => exact ⟨⟨h.cached, keep hcaller⟩, trivial⟩
  | @loadReturn o rest pin bytes hcaller =>
    refine ⟨⟨h.cached, swap hcaller fun o' pin' bytes' heq => ?_⟩, trivial⟩
    cases heq
    exact hload o pin bytes rfl
  | loadFail hcaller => exact ⟨⟨h.cached, swap hcaller fun _ _ _ heq => by cases heq⟩, trivial⟩
  | @publish o pin bytes rest inner hcaller hrun =>
    have hloading := hw.marker_of_owner hcaller (o := o) (beq_self_eq_true o)
    obtain ⟨hunmarks, -⟩ := (ShardInner.publish_spec hw.shard hloading pin bytes).of_yields hrun
    have hpin : P o pin := h.loaded o pin bytes (hcaller ▸ Multiset.mem_cons_self _ _)
    refine ⟨⟨fun o' pin' bytes' hp => ?_, swap hcaller fun _ _ _ heq => by cases heq⟩, hpin⟩
    rcases hunmarks.pages o' pin' bytes' hp with hp | ⟨rfl, heq⟩
    · exact h.cached o' pin' bytes' hp
    · cases heq
      exact hpin
  | @abandon o rest inner hcaller hrun =>
    have hloading := hw.marker_of_owner hcaller (o := o) (beq_self_eq_true o)
    have hunmarks := (ShardInner.abandon_spec hw.shard hloading).of_yields hrun
    refine ⟨⟨fun o' pin' bytes' hp => ?_, swap hcaller fun _ _ _ heq => by cases heq⟩, trivial⟩
    rcases hunmarks.pages o' pin' bytes' hp with hp | ⟨-, heq⟩
    · exact h.cached o' pin' bytes' hp
    · cases heq
  | notify hcaller =>
    refine ⟨⟨h.cached, fun o' pin bytes hm => ?_⟩, trivial⟩
    obtain ⟨c, hm, hc⟩ := Multiset.mem_map.1 hm
    cases c <;> cases hc
    exact keep hcaller o' pin bytes hm
  | get o =>
    obtain ⟨-, hloses, hfound⟩ := ShardInner.get_spec hw.shard o
    refine ⟨⟨fun o' pin bytes hp => h.cached o' pin bytes (hloses.pages o' pin bytes hp), h.loaded⟩, ?_⟩
    cases hg : (w.inner.get o).1 with
    | none => trivial
    | some pin =>
      obtain ⟨bytes, hholds⟩ := hfound pin hg
      exact h.cached o pin bytes hholds
  | @evict bytes inner hrun =>
    have hev := (ShardInner.evictOne_spec hw.shard).of_yields hrun
    exact ⟨⟨fun o' pin bytes hp => h.cached o' pin bytes (hev.loses.pages o' pin bytes hp), h.loaded⟩, trivial⟩

/-- A shard stays consistent over every interleaving: `resident` is the bytes of the cached
pages, the ring lists each of them once, `pending_pushes` counts the markers, at most one load
of an ordinal is in progress and it owns the marker, a publication leaves the shard within its
capacity, a CLOCK step evicts whenever there is a page, and a thread blocked on an ordinal and
not notified has a load of it in progress or a `notify_all` for it about to be made. -/
theorem shard_stays_consistent (cfg : CacheConfig) {past : List (Event (ShardSystem π) (ShardLabel π))}
    {w : ShardSystem π} (h : ShardRun cfg past w) :
    w.inner.resident = w.inner.map.weigh Slot.bytes ∧
    (w.inner.clock.Nodup ∧ ∀ o, o ∈ w.inner.clock ↔ ∃ pin bytes, w.inner.Holds o pin bytes) ∧
    w.inner.pendingPushes = w.inner.map.weigh Slot.markers ∧
    (∀ o, w.owners o ≤ 1 ∧ (w.owners o = 1 ↔ w.inner.map.lookup o = some .loading)) ∧
    (∀ e ∈ past, ∀ o pin bytes, e.label = .published o pin bytes → e.after.inner.resident ≤ cfg.capacityPerShard) ∧
    ((∃ o pin bytes, w.inner.Holds o pin bytes) → (w.inner.evictOne cfg).Ensures fun r =>
      ∃ o pin bytes, r.1 = some bytes ∧ w.inner.Holds o pin bytes ∧ r.2.map.lookup o = none) ∧
    (∀ o charge attempts, Caller.waiting o charge attempts false ∈ w.callers →
      0 < w.owners o ∨ Caller.notifying o ∈ w.callers) := by
  have hw := ShardRun.coordinated h
  refine ⟨hw.shard.resident, ⟨hw.shard.once, hw.shard.ring⟩, hw.shard.pending, fun o => ?_, ?_, ?_, ?_⟩
  · rw [hw.owners]
    refine ⟨w.inner.marked_le o, fun h1 => ShardInner.loading_of_marked (by omega), ShardInner.marked_of⟩
  · intro e he o pin bytes hl
    obtain ⟨before, hbefore, hstep⟩ := Run.event h he
    have hb := ShardRun.coordinated hbefore
    obtain ⟨w₀, l, w₁⟩ := e
    simp only at hl hb hstep ⊢
    subst hl
    cases hstep with
    | publish hcaller hrun =>
      have hloading := hb.marker_of_owner hcaller (o := o) (beq_self_eq_true o)
      exact ((ShardInner.publish_spec hb.shard hloading pin bytes).of_yields hrun).2
  · rintro ⟨o, pin, bytes, hholds⟩
    refine (ShardInner.evictOne_spec hw.shard).mono fun r hr => ?_
    have hmem := (hw.shard.ring o).2 ⟨pin, bytes, hholds⟩
    cases hr1 : r.1 with
    | none =>
      rw [(hr.idle hr1).1] at hmem
      cases hmem
    | some bytes' =>
      obtain ⟨-, -, o', pin', hholds', hgone⟩ := hr.drops bytes' hr1
      exact ⟨o', pin', bytes', rfl, hholds', hgone⟩
  · intro o charge attempts hmem
    refine (hw.waiters o charge attempts hmem).imp_left fun hl => ?_
    rw [hw.owners, ShardInner.marked_of hl]
    exact Nat.one_pos

/-! ## Between the unlock and the notification -/

/-- One thread has ended its load of page 7 and not yet notified; another is blocked on it. -/
theorem blocked_run : ∃ past w, ShardRun ⟨1, 1⟩ past w ∧
    w.callers = {(.notifying 7 : Caller Unit), .waiting 7 none 0 false} := by
  -- The first thread misses, reserves and puts its marker in.
  have miss : (ShardInner.enter ⟨1, 1⟩ ({} : ShardInner Unit) 7 none 0).Yields (.reserve 208 0, {}) := rfl
  obtain ⟨s₁, mark, hmarker⟩ : ∃ s₁, (ShardInner.enter ⟨1, 1⟩ ({} : ShardInner Unit) 7 (some 208) 0).Yields (.load, s₁) ∧
      s₁.map.lookup 7 = some .loading := ⟨_, ⟨3, rfl⟩, rfl⟩
  have h0 : ShardRun ⟨1, 1⟩ [] ({} : ShardSystem Unit) := Run.start rfl
  have h1 := h0.next (.call _ 7)
  have h2 := h1.next (.enter (show _ = Caller.entering 7 none 0 ::ₘ 0 from rfl) miss)
  have h3 := h2.next (.reserve 208 (show _ = Caller.reserving 7 208 0 ::ₘ 0 from rfl))
  have h4 := h3.next (.enter (show _ = Caller.entering 7 (some 208) 0 ::ₘ 0 from rfl) mark)
  -- The second one finds the marker and blocks.
  have block : (ShardInner.enter ⟨1, 1⟩ s₁ 7 none 0).Yields (.wait, s₁) := by
    unfold ShardInner.enter
    rw [hmarker]
    rfl
  have h5 := h4.next (.call _ 7)
  have h6 := h5.next (.enter (show _ = Caller.entering 7 none 0 ::ₘ {.loading 7} from rfl) block)
  -- The load fails; its thread takes the marker out and lets the lock go.
  obtain ⟨s₂, abandon⟩ := Program.exists_yields (s₁.abandon ⟨1, 1⟩ 7)
  have h7 := h6.next (.loadFail (show _ = Caller.loading 7 ::ₘ {.waiting 7 none 0 false} from
    Multiset.cons_swap (Caller.waiting 7 none 0 false) (.loading 7) 0))
  have h8 := h7.next (.abandon (show _ = Caller.failed 7 ::ₘ {.waiting 7 none 0 false} from rfl) abandon)
  exact ⟨_, _, h8, rfl⟩

/-- A thread can be blocked, not notified, with no load of its ordinal in progress: the load has
ended and its thread is between releasing the lock and `notify_all`. -/
theorem blocked_without_load : ¬ ∀ (cfg : CacheConfig) (past : List (Event (ShardSystem Unit) (ShardLabel Unit)))
    (w : ShardSystem Unit), ShardRun cfg past w → ∀ o charge attempts,
      Caller.waiting o charge attempts false ∈ w.callers → 0 < w.owners o := by
  intro hall
  obtain ⟨past, w, hrun, hcallers⟩ := blocked_run
  have hpos := hall _ past w hrun 7 none 0 (by rw [hcallers]; simp)
  rw [ShardSystem.owners, hcallers] at hpos
  exact absurd hpos (by decide)

theorem shard_stays_consistent_blocked : ∃ past, ∃ w : ShardSystem Unit, ShardRun ⟨1, 1⟩ past w ∧
    w.inner.resident = w.inner.map.weigh Slot.bytes ∧ Caller.waiting 7 none 0 false ∈ w.callers ∧
      (0 < w.owners 7 ∨ Caller.notifying 7 ∈ w.callers) := by
  obtain ⟨past, w, hrun, hcallers⟩ := blocked_run
  have hwaits : Caller.waiting 7 none 0 false ∈ w.callers := by rw [hcallers]; simp
  have hall := shard_stays_consistent ⟨1, 1⟩ hrun
  exact ⟨past, w, hrun, hall.1, hwaits, hall.2.2.2.2.2.2 7 none 0 hwaits⟩

end DryDb
