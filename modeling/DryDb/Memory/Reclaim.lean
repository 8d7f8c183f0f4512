import DryDb.Lib.Handled
import DryDb.Memory.Directory
import DryDb.Memory.Shard
import DryDb.Model.Reclaim
/-!
# Reserving gives up only when nothing is left

Every failed round of `reserve` drops a page, a chunk or the roots, or ends it, and there are more
rounds than there is to drop. Progress is counted in pages, not in bytes: a page that is pinned or
retained elsewhere gives nothing back when the cache lets go of it.
-/

namespace DryDb

open Program List

/-! ## States -/

namespace Reclaimable

variable {w w' w'' : Reclaimable} {s : ShardInner BufferRef} {i : Nat} {store : PageStore}

/-- What holds of every state of a store: a power of two shards whose rings list what they cache,
and no page of length or charge zero. -/
structure Sound (w : Reclaimable) : Prop where
  shards_pos : 0 < w.shards.length
  wraps : w.shards.length ∣ 2 ^ 64
  consistent : ∀ s ∈ w.shards, s.Consistent
  charged : ∀ s ∈ w.shards, ∀ o pin bytes, s.Holds o pin bytes → 0 < bytes
  rooted : ∀ e ∈ w.roots.entries, 0 < e.2.len

/-- Pages the cache retains, counted on the rings. -/
def pages (w : Reclaimable) : Nat := (w.shards.map fun s => s.clock.length).sum

/-- The cache holds no ready page. -/
def NoPages (w : Reclaimable) : Prop := ∀ s ∈ w.shards, ∀ o pin bytes, ¬ s.Holds o pin bytes

/-- Nothing is left to reclaim. -/
structure Exhausted (w : Reclaimable) : Prop where
  pages : w.NoPages
  chunks : w.chunks = []
  roots : w.roots = ∅

/-- Roots are let go only when the cache and the directory have nothing left to give. -/
def Allows (w : Reclaimable) : ReclaimOp → Prop
  | .releaseRoots => w.NoPages ∧ w.chunks = []
  | _ => True

/-- Nothing but the cache differs. -/
structure SameRest (w w' : Reclaimable) : Prop where
  limit : w'.limit = w.limit
  shards : w'.shards.length = w.shards.length
  chunks : w'.chunks = w.chunks
  roots : w'.roots = w.roots
  charges : w'.charges = w.charges

theorem SameRest.refl (w : Reclaimable) : w.SameRest w := ⟨rfl, rfl, rfl, rfl, rfl⟩

theorem SameRest.trans (h : w.SameRest w') (h' : w'.SameRest w'') : w.SameRest w'' :=
  ⟨h'.limit.trans h.limit, h'.shards.trans h.shards, h'.chunks.trans h.chunks, h'.roots.trans h.roots,
    h'.charges.trans h.charges⟩

theorem noPages_of_clocks (hw : w.Sound) (h : ∀ s ∈ w.shards, s.clock = []) : w.NoPages := by
  intro s hs o pin bytes hholds
  have hmem := ((hw.consistent s hs).ring o).2 ⟨pin, bytes, hholds⟩
  rw [h s hs] at hmem
  cases hmem

theorem clocks_of_pages (h : w.pages = 0) : ∀ s ∈ w.shards, s.clock = [] := by
  intro s hs
  exact eq_nil_of_length_eq_zero (sum_eq_zero_iff.1 h _ (mem_map_of_mem hs))

/-- A shard retains at least the pages its ring lists. -/
theorem length_clock_le (hs : s.Consistent) : s.clock.length ≤ s.readyCount := by
  have hsub : s.clock ⊆ (s.map.entries.filter fun e => e.2.pin?.isSome).map (·.1) := by
    intro o ho
    obtain ⟨pin, bytes, r, hlookup⟩ := (hs.ring o).1 ho
    have hmem := (mem_dlookup_iff s.map.nodupKeys).1 hlookup
    exact mem_map.2 ⟨⟨o, .ready pin bytes r⟩, mem_filter.2 ⟨hmem, rfl⟩, rfl⟩
  have hlen := (hs.once.subperm hsub).length_le
  rwa [length_map, ← countP_eq_length_filter] at hlen

theorem pages_le (hw : w.Sound) : w.pages ≤ (w.shards.map ShardInner.readyCount).sum :=
  sum_le_sum fun s hs => length_clock_le (hw.consistent s hs)

/-! ## One eviction -/

/-- What one eviction leaves: all the rings as they were, or one page less. -/
structure Shrinks (w : Reclaimable) (i : Nat) (evicted : Option Nat) (w' : Reclaimable) : Prop where
  sound : w'.Sound
  rest : w.SameRest w'
  idle : evicted = none → w'.shards.map ShardInner.clock = w.shards.map ShardInner.clock ∧
    (w.shards.map ShardInner.clock)[i]? = some []
  drops : ∀ bytes, evicted = some bytes → 0 < bytes ∧ w'.pages + 1 = w.pages

theorem pages_set (hi : w.shards[i]? = some s) (s' : ShardInner BufferRef) :
    ({ w with shards := w.shards.set i s' } : Reclaimable).pages + s.clock.length = w.pages + s'.clock.length := by
  obtain ⟨hlt, rfl⟩ := List.getElem?_eq_some_iff.1 hi
  have hsplit : ∀ l : List (ShardInner BufferRef), ∀ (j : Nat) (hj : j < l.length) (x : ShardInner BufferRef),
      ((l.set j x).map fun s => s.clock.length).sum + l[j].clock.length = (l.map fun s => s.clock.length).sum + x.clock.length := by
    intro l
    induction l with
    | nil => intro j hj; simp at hj
    | cons y ys ih =>
      intro j hj x
      cases j with
      | zero => simp; omega
      | succ j =>
        have := ih j (by simpa using hj) x
        simp only [set_cons_succ, map_cons, sum_cons, getElem_cons_succ]
        omega
  exact hsplit w.shards i hlt s'

theorem Sound.evict (hw : w.Sound) {evicted : Option Nat}
    (h : w.Answers store (.evictOne i) evicted w') : w.Shrinks i evicted w' := by
  obtain ⟨s, s', hi, hyields, rfl⟩ := h
  obtain ⟨hlt, hget⟩ := List.getElem?_eq_some_iff.1 hi
  have hmem : s ∈ w.shards := mem_of_getElem? hi
  have hev := (ShardInner.evictOne_spec (hw.consistent s hmem)).of_yields hyields
  have hmems : ∀ t ∈ w.shards.set i s', t ∈ w.shards ∨ t = s' := fun t ht => mem_or_eq_of_mem_set ht
  refine ⟨⟨?_, ?_, ?_, ?_, hw.rooted⟩, ⟨rfl, length_set, rfl, rfl, rfl⟩, fun hnone => ?_, fun bytes hsome => ?_⟩
  · show 0 < (w.shards.set i s').length
    rw [length_set]
    exact hw.shards_pos
  · show (w.shards.set i s').length ∣ 2 ^ 64
    rw [length_set]
    exact hw.wraps
  · intro t ht
    rcases hmems t ht with ht | rfl
    · exact hw.consistent t ht
    · exact hev.consistent
  · intro t ht o pin bytes hholds
    rcases hmems t ht with ht | rfl
    · exact hw.charged t ht o pin bytes hholds
    · exact hw.charged s hmem o pin bytes (hev.loses.pages o pin bytes hholds)
  · obtain ⟨hclock, hsame⟩ := hev.idle hnone
    refine ⟨?_, by rw [getElem?_map, hi, Option.map_some, hclock]⟩
    have hself := congrArg (List.map ShardInner.clock) (set_getElem_self hlt)
    rw [hget] at hself
    rw [← hself, map_set, map_set, hsame.clock]
  · obtain ⟨hlen, -, o, pin, hholds, -⟩ := hev.drops bytes hsome
    have hset := pages_set hi s'
    have hless : s'.clock.length + 1 = s.clock.length := hlen
    exact ⟨hw.charged s hmem o pin bytes hholds, by omega⟩

theorem answers_evict (hi : i < w.shards.length) :
    ∃ r w', w.Answers store (.evictOne i) r w' := by
  obtain ⟨⟨r, s'⟩, hyields⟩ := exists_yields ((w.shards[i]).evictOne w.cache)
  exact ⟨r, _, w.shards[i], s', getElem?_eq_getElem hi, hyields, rfl⟩

/-! ## Chunks and roots -/

theorem length_evictChunk {chunks : List CachedChunk} (h : chunks ≠ []) :
    (DryDb.evictChunk chunks).length + 1 = chunks.length := by
  obtain ⟨ys, -, hperm, hlen⟩ := evictChunk_perm chunks
  rw [hperm.length_eq]
  exact hlen (oldestFrom_isSome (.inl h))

end Reclaimable

/-- The numbers from `a` on meet every remainder within `n` steps. -/
theorem exists_mod_eq {n i : Nat} (hi : i < n) (a : Nat) : ∃ k, a ≤ k ∧ k < a + n ∧ k % n = i := by
  have hdiv := Nat.div_add_mod a n
  have hmod := Nat.mod_lt a (Nat.zero_lt_of_lt hi)
  by_cases hle : a % n ≤ i
  · exact ⟨n * (a / n) + i, by omega, by omega, by rw [Nat.mul_add_mod, Nat.mod_eq_of_lt hi]⟩
  · refine ⟨n * (a / n + 1) + i, ?_, ?_, by rw [Nat.mul_add_mod, Nat.mod_eq_of_lt hi]⟩
    · rw [Nat.mul_add, Nat.mul_one]
      omega
    · rw [Nat.mul_add, Nat.mul_one]
      omega

/-! ## The loops -/

section
variable {store : PageStore} {w : Reclaimable}

/-- Code that reclaims, run on a store no other thread uses. -/
abbrev Reclaiming.Secures {α : Type} (store : PageStore) (Q : α → Reclaimable → Prop) (R : Trouble → Reclaimable → Prop)
    (p : Reclaiming α) (w : Reclaimable) : Prop :=
  Program.Secures (Reclaimable.Answers store) Reclaimable.Allows Q R p w

/-- What `evict_bytes` leaves: something was dropped, or no page is left. -/
structure Reclaimable.Evicted (w : Reclaimable) (before freed target : Nat) (w' : Reclaimable) : Prop where
  sound : w'.Sound
  rest : w.SameRest w'
  pages_le : w'.pages ≤ w.pages
  enough : target ≤ freed ∨ w'.pages = 0
  dropped : before < freed → w'.pages < w.pages

namespace Reclaiming

variable {R : Trouble → Reclaimable → Prop} {target fuel bytes : Nat}

theorem evictBytesFrom_spec {start cursor idle released : Nat} (hw : w.Sound) (hidle : idle ≤ cursor)
    (hempty : ∀ k, cursor - idle ≤ k → k < cursor → (w.shards.map ShardInner.clock)[(start + k) % w.shards.length]? = some [])
    (hle : idle ≤ w.shards.length) (hfuel : w.pages * w.shards.length + (w.shards.length - idle) < fuel) :
    (evictBytesFrom w.shards.length target start fuel cursor idle released).Secures store
      (fun freed w' => released ≤ freed ∧ w.Evicted released freed target w') R w := by
  -- Every turn evicts a page, or finds one more shard in a row without any.
  induction fuel generalizing w cursor idle released with
  | zero => omega
  | succ fuel ih =>
    unfold evictBytesFrom
    refine Secures.ite (fun hgo => ?_) fun hstop => ?_
    · have hindex : (start + cursor) % 2 ^ 64 % w.shards.length = (start + cursor) % w.shards.length :=
        Nat.mod_mod_of_dvd _ hw.wraps
      rw [hindex]
      have hlt := Nat.mod_lt (start + cursor) hw.shards_pos
      refine (show (evictOne _).Secures store (fun evicted w' => w.Answers store (.evictOne _) evicted w') R w from
        ⟨trivial, Reclaimable.answers_evict hlt, fun _ _ h => h⟩).bind fun evicted w' hans => ?_
      have hev := hw.evict hans
      have hlen := hev.rest.shards
      cases evicted with
      | some bytes =>
        obtain ⟨hbytes, hpages⟩ := hev.drops bytes rfl
        have hmul : w.pages * w.shards.length = w'.pages * w.shards.length + w.shards.length := by
          rw [← hpages, Nat.add_mul, Nat.one_mul]
        have hturn : (evictBytesFrom w'.shards.length target start fuel (cursor + 1) 0 (released + bytes)).Secures store _ R w' :=
          ih hev.sound (Nat.zero_le _) (by omega) (Nat.zero_le _) (by rw [hlen, Nat.sub_zero]; omega)
        rw [hlen] at hturn
        refine hturn.mono (fun freed w'' h => ⟨by omega, h.2.sound, hev.rest.trans h.2.rest, ?_, h.2.enough, fun _ => ?_⟩)
          fun _ _ h => h
        · have := h.2.pages_le
          omega
        · have := h.2.pages_le
          omega
      | none =>
        obtain ⟨hclocks, hhere⟩ := hev.idle rfl
        have hpages : w'.pages = w.pages := by
          have := congrArg (fun l : List (List Nat) => (l.map List.length).sum) hclocks
          simpa [Reclaimable.pages, Function.comp_def] using this
        have hempty' : ∀ k, cursor + 1 - (idle + 1) ≤ k → k < cursor + 1 →
            (w'.shards.map ShardInner.clock)[(start + k) % w'.shards.length]? = some [] := by
          intro k hk hlt'
          rw [hlen, hclocks]
          by_cases hlast : k = cursor
          · rw [hlast]
            exact hhere
          · exact hempty k (by omega) (by omega)
        have hturn : (evictBytesFrom w'.shards.length target start fuel (cursor + 1) (idle + 1) released).Secures store _ R w' :=
          ih hev.sound (by omega) hempty' (by omega) (by rw [hlen, hpages]; omega)
        rw [hlen] at hturn
        refine hturn.mono (fun freed w'' h => ⟨h.1, h.2.sound, hev.rest.trans h.2.rest, ?_, h.2.enough, fun hd => ?_⟩)
          fun _ _ h => h
        · exact hpages ▸ h.2.pages_le
        · exact hpages ▸ h.2.dropped hd
    · refine ⟨Nat.le_refl _, hw, .refl w, Nat.le_refl _, ?_, fun h => absurd h (Nat.lt_irrefl _)⟩
      by_cases htarget : released < target
      · -- Every shard was found empty since the last eviction.
        have hall : idle = w.shards.length := by omega
        refine .inr ?_
        have hclocks : ∀ s ∈ w.shards, s.clock = [] := by
          intro s hs
          obtain ⟨i, hi, rfl⟩ := getElem_of_mem hs
          obtain ⟨k, hk, hk', hmod⟩ := exists_mod_eq hi (start + (cursor - idle))
          have := hempty (k - start) (by omega) (by omega)
          rw [show start + (k - start) = k by omega, hmod, getElem?_map, getElem?_eq_getElem hi] at this
          simpa using this
        exact sum_eq_zero_iff.2 fun n hn => by
          obtain ⟨s, hs, rfl⟩ := mem_map.1 hn
          rw [hclocks s hs]
          rfl
      · exact .inl (Nat.not_lt.1 htarget)

theorem evictBytes_spec (hw : w.Sound) (hfuel : (w.pages + 1) * w.shards.length < fuel) :
    (evictBytes fuel w.shards.length target).Secures store (fun freed w' => w.Evicted 0 freed target w') R w := by
  unfold evictBytes
  refine (Secures.question trivial ⟨_, _, rfl, rfl⟩ (Q := fun _ w' => w'.Sound ∧ w.SameRest w' ∧ w'.pages = w.pages) ?_).bind
    fun start w' h => ?_
  · rintro start w' ⟨-, rfl⟩
    exact ⟨⟨hw.shards_pos, hw.wraps, hw.consistent, hw.charged, hw.rooted⟩, ⟨rfl, rfl, rfl, rfl, rfl⟩, rfl⟩
  · obtain ⟨hsound, hrest, hpages⟩ := h
    rw [← hrest.shards]
    refine (evictBytesFrom_spec hsound (Nat.le_refl 0) (by omega) (Nat.zero_le _) ?_).mono
      (fun freed w'' h => ⟨h.2.sound, hrest.trans h.2.rest, hpages ▸ h.2.pages_le, h.2.enough, fun hd => hpages ▸ h.2.dropped hd⟩)
      fun _ _ h => h
    rw [hpages, hrest.shards]
    rw [Nat.add_mul, Nat.one_mul] at hfuel
    omega

/-- Code that only gives things up. -/
structure Kept (w w' : Reclaimable) : Prop where
  sound : w'.Sound
  limit : w'.limit = w.limit
  shards : w'.shards.length = w.shards.length
  charges : w'.charges = w.charges

theorem Kept.trans {w' w'' : Reclaimable} (h : Kept w w') (h' : Kept w' w'') : Kept w w'' :=
  ⟨h'.sound, h'.limit.trans h.limit, h'.shards.trans h.shards, h'.charges.trans h.charges⟩

/-- One for the roots, as long as there are any. -/
def rootsLeft (w : Reclaimable) : Nat := min 1 w.roots.entries.length

theorem evictChunk_spec (hw : w.Sound) :
    evictChunk.Secures store (fun dropped w' => Kept w w' ∧ w'.pages = w.pages ∧ w'.roots = w.roots ∧
      (dropped = true → w'.chunks.length + 1 = w.chunks.length) ∧ (dropped = false → w.chunks = [] ∧ w'.chunks = [])) R w := by
  refine ⟨trivial, ⟨_, _, rfl, rfl⟩, ?_⟩
  rintro dropped w' ⟨rfl, rfl⟩
  refine ⟨⟨⟨hw.shards_pos, hw.wraps, hw.consistent, hw.charged, hw.rooted⟩, rfl, rfl, rfl⟩, rfl, rfl, fun h => ?_, fun h => ?_⟩
  · refine Reclaimable.length_evictChunk ?_
    simpa using h
  · have hnil : w.chunks = [] := by simpa using h
    refine ⟨hnil, ?_⟩
    show DryDb.evictChunk w.chunks = []
    rw [hnil]
    rfl

theorem releaseRoots_spec (hw : w.Sound) (hpages : w.NoPages) (hchunks : w.chunks = []) :
    releaseRoots.Secures store (fun released w' => Kept w w' ∧ w'.pages = w.pages ∧ w'.Exhausted ∧ rootsLeft w' = 0 ∧
      (released ≠ 0 → rootsLeft w = 1)) R w := by
  refine ⟨⟨hpages, hchunks⟩, ⟨_, _, rfl, rfl⟩, ?_⟩
  rintro released w' ⟨rfl, rfl⟩
  refine ⟨⟨⟨hw.shards_pos, hw.wraps, hw.consistent, hw.charged, ?_⟩, rfl, rfl, rfl⟩, rfl, ⟨hpages, hchunks, rfl⟩, rfl, fun h => ?_⟩
  · intro e he
    cases he
  · have hne : w.roots.entries ≠ [] := by
      intro hnil
      rw [hnil] at h
      exact h rfl
    have := length_pos_iff.2 hne
    unfold rootsLeft
    omega

/-- What one round of `reserve` has dropped when it asks the budget again. -/
structure Dropped (w : Reclaimable) (freed : Nat) (chunk : Bool) (released : Nat) (w' : Reclaimable) : Prop where
  kept : Kept w w'
  pages_le : w'.pages ≤ w.pages
  less : ¬ (freed = 0 ∧ chunk = false ∧ released = 0) →
    w'.pages + w'.chunks.length + rootsLeft w' < w.pages + w.chunks.length + rootsLeft w
  nothing : freed = 0 → chunk = false → released = 0 → w'.Exhausted

/-- The reclaiming half of a round, with what comes after it. -/
theorem round_spec {α : Type} {Q : α → Reclaimable → Prop}
    {next : Nat → Bool → Nat → Reclaiming α} (hw : w.Sound) (hb : 0 < bytes) (hfuel : (w.pages + 1) * w.shards.length < fuel)
    (hnext : ∀ freed chunk released w', Dropped w freed chunk released w' → (next freed chunk released).Secures store Q R w') :
    (do
      let freed ← evictBytes fuel w.shards.length bytes
      let chunk ← dropChunk freed
      let released ← dropRoots freed chunk
      next freed chunk released : Reclaiming α).Secures store Q R w := by
  refine (evictBytes_spec hw hfuel).bind fun freed w₁ h₁ => ?_
  have hkept : Kept w w₁ := ⟨h₁.sound, h₁.rest.limit, h₁.rest.shards, h₁.rest.charges⟩
  have hroots₁ : rootsLeft w₁ = rootsLeft w := by rw [rootsLeft, rootsLeft, h₁.rest.roots]
  have hchunks₁ := h₁.rest.chunks
  have hpages₁ := h₁.pages_le
  unfold dropChunk dropRoots
  by_cases hfreed : freed = 0
  · have hnone : w₁.pages = 0 := h₁.enough.resolve_left (by omega)
    have hnoPages : w₁.NoPages := Reclaimable.noPages_of_clocks h₁.sound (Reclaimable.clocks_of_pages hnone)
    rw [if_pos hfreed]
    refine (evictChunk_spec h₁.sound).bind fun chunk w₂ h₂ => ?_
    obtain ⟨hkept₂, hpages₂, hroots₂, hsome, hempty⟩ := h₂
    have hleft₂ : rootsLeft w₂ = rootsLeft w := by rw [rootsLeft, hroots₂, ← hroots₁, rootsLeft]
    cases chunk with
    | true =>
      have hless := hsome rfl
      rw [if_neg (by simp)]
      refine hnext freed true 0 w₂ ⟨hkept.trans hkept₂, by omega, fun _ => ?_, by simp⟩
      rw [hleft₂, ← hchunks₁]
      omega
    | false =>
      obtain ⟨hnil, hnil₂⟩ := hempty rfl
      have hnoPages₂ : w₂.NoPages :=
        Reclaimable.noPages_of_clocks hkept₂.sound (Reclaimable.clocks_of_pages (hpages₂.trans hnone))
      rw [if_pos ⟨hfreed, rfl⟩]
      refine (releaseRoots_spec hkept₂.sound hnoPages₂ hnil₂).bind fun released w₃ h₃ => ?_
      obtain ⟨hkept₃, hpages₃, hexhausted, hleft₃, hreleased⟩ := h₃
      refine hnext freed false released w₃ ⟨hkept.trans (hkept₂.trans hkept₃), by omega, fun hsome => ?_, fun _ _ _ => hexhausted⟩
      have := hreleased fun hzero => hsome ⟨hfreed, rfl, hzero⟩
      rw [hexhausted.chunks, length_nil]
      omega
  · have hless := h₁.dropped (Nat.pos_of_ne_zero hfreed)
    rw [if_neg hfreed]
    show Program.Secures _ _ Q R
      ((if freed = 0 ∧ false = false then releaseRoots else pure 0) >>= fun released => next freed false released) w₁
    rw [if_neg fun h => hfreed h.1]
    refine hnext freed false 0 w₁ ⟨hkept, hpages₁, fun _ => ?_, fun h => absurd h hfreed⟩
    rw [hroots₁, hchunks₁]
    omega

/-- What a reservation of `bytes` comes to. -/
def Reserved (w : Reclaimable) (bytes charge : Nat) (w' : Reclaimable) : Prop :=
  charge = bytes ∧ w'.charges = bytes :: w.charges

/-- A reservation fails only by a refusal that nothing more could be given for. -/
def GaveUp (e : Trouble) (w' : Reclaimable) : Prop := (∃ refusal, e = .refused refusal) ∧ w'.Exhausted

/-- Asking the budget changes nothing when it refuses. -/
theorem tryReserve_spec (bytes : Nat) :
    (tryReserve bytes).Secures store (fun r w' => match r with
      | .ok charge => Reserved w bytes charge w'
      | .error refusal => w' = w ∧ w.limit < w.used + bytes ∧ refusal.retryable = decide (bytes ≤ w.limit)) R w := by
  refine ⟨trivial, ?_, fun r w' h => ?_⟩
  · by_cases hfits : w.used + bytes ≤ w.limit
    · exact ⟨.ok bytes, _, (if_pos hfits).mpr ⟨rfl, rfl⟩⟩
    · exact ⟨.error _, _, (if_neg hfits).mpr ⟨rfl, rfl⟩⟩
  · by_cases hfits : w.used + bytes ≤ w.limit
    · obtain ⟨rfl, rfl⟩ := (if_pos hfits).mp h
      exact ⟨rfl, rfl⟩
    · obtain ⟨rfl, rfl⟩ := (if_neg hfits).mp h
      exact ⟨rfl, Nat.not_le.1 hfits, rfl⟩

theorem reserveRounds_spec {rounds : Nat} {last : Option Refusal} (hw : w.Sound) (hb : 0 < bytes)
    (hrounds : w.pages + w.chunks.length + rootsLeft w < rounds) (hfuel : (w.pages + 1) * w.shards.length < fuel) :
    (reserveRounds fuel w.shards.length bytes rounds last).Secures store (Reserved w bytes) GaveUp w := by
  -- A round that drops nothing is the last; every other one leaves less than there are rounds.
  induction rounds generalizing w last with
  | zero => omega
  | succ rounds ih =>
    unfold reserveRounds
    refine round_spec hw hb hfuel fun freed chunk released w' hdropped => ?_
    refine (tryReserve_spec bytes).bind fun reserved w'' h => ?_
    cases reserved with
    | ok charge => exact ⟨h.1, by rw [h.2, hdropped.kept.charges]⟩
    | error refusal =>
      obtain ⟨rfl, -, -⟩ := h
      refine Secures.ite (fun hnone => ?_) fun hsome => ?_
      · exact ⟨⟨refusal, rfl⟩, hdropped.nothing hnone.1 hnone.2.1 hnone.2.2⟩
      · have hless := hdropped.less hsome
        have hmul := Nat.mul_le_mul_right w.shards.length (Nat.succ_le_succ hdropped.pages_le)
        have hturn := @ih w'' (some refusal) hdropped.kept.sound (by omega)
          (by rw [hdropped.kept.shards]; exact Nat.lt_of_le_of_lt hmul hfuel)
        rw [hdropped.kept.shards] at hturn
        exact hturn.mono (fun charge w₂ h => ⟨h.1, by rw [h.2, hdropped.kept.charges]⟩) fun _ _ h => h

theorem reserve_spec (hw : w.Sound) (hused : w.used ≤ w.limit) (hb : bytes ≤ w.limit)
    (hfuel : (w.pages + 1) * w.shards.length < fuel) :
    (reserve fuel w.shards.length bytes).Secures store (Reserved w bytes) GaveUp w := by
  unfold reserve
  refine (tryReserve_spec bytes).bind fun first w' h => ?_
  cases first with
  | ok charge => exact h
  | error refusal =>
    obtain ⟨rfl, hfull, hretry⟩ := h
    simp only [hretry, decide_eq_true hb, Bool.true_eq_false, if_false]
    refine (Secures.question trivial ⟨_, _, rfl, rfl⟩ (Q := fun n w₁ => w'.pages ≤ n ∧ w₁ = w') ?_).bind fun pages w₁ h₁ => ?_
    · rintro n w₁ ⟨rfl, rfl⟩
      exact ⟨Reclaimable.pages_le hw, rfl⟩
    obtain ⟨hpages, rfl⟩ := h₁
    refine (Secures.question trivial ⟨_, _, rfl, rfl⟩ (Q := fun n w₂ => n = w₁.chunks.length ∧ w₂ = w₁) fun _ _ h => h).bind
      fun chunks w₂ h₂ => ?_
    obtain ⟨rfl, rfl⟩ := h₂
    refine reserveRounds_spec hw (by omega) ?_ hfuel
    unfold rootsLeft evictRounds
    omega

/-! ## Reading a chunk -/

/-- What `reclaim_pages` leaves of a store without chunks. -/
structure Reclaimed (w : Reclaimable) (freed : Nat) (w' : Reclaimable) : Prop where
  kept : Kept w w'
  pages_le : w'.pages ≤ w.pages
  chunks : w'.chunks = []
  nothing : freed = 0 → w'.Exhausted
  less : freed ≠ 0 → w'.pages + rootsLeft w' < w.pages + rootsLeft w

theorem reclaimPages_spec (hw : w.Sound) (hchunks : w.chunks = [])
    (hb : 0 < bytes) (hfuel : (w.pages + 1) * w.shards.length < fuel) :
    (reclaimPages fuel w.shards.length bytes).Secures store (fun freed w' => Reclaimed w freed w') R w := by
  unfold reclaimPages
  refine (evictBytes_spec hw hfuel).bind fun freed w₁ h₁ => ?_
  have hkept : Kept w w₁ := ⟨h₁.sound, h₁.rest.limit, h₁.rest.shards, h₁.rest.charges⟩
  have hleft : rootsLeft w₁ = rootsLeft w := by rw [rootsLeft, h₁.rest.roots, rootsLeft]
  have hchunks₁ : w₁.chunks = [] := h₁.rest.chunks.trans hchunks
  have hpages := h₁.pages_le
  refine Secures.ite (fun hfreed => ?_) fun hnone => ?_
  · have hless := h₁.dropped hfreed
    exact ⟨hkept, hpages, hchunks₁, fun h => absurd h (Nat.pos_iff_ne_zero.1 hfreed), fun _ => by omega⟩
  · have hzero : w₁.pages = 0 := h₁.enough.resolve_left (by omega)
    have hnoPages : w₁.NoPages := Reclaimable.noPages_of_clocks h₁.sound (Reclaimable.clocks_of_pages hzero)
    refine (releaseRoots_spec h₁.sound hnoPages hchunks₁).mono (fun released w₂ h₂ => ?_) fun _ _ h => h
    obtain ⟨hkept₂, hpages₂, hexhausted, hleft₂, hreleased⟩ := h₂
    refine ⟨hkept.trans hkept₂, by omega, hexhausted.chunks, fun _ => hexhausted, fun hsome => ?_⟩
    have := hreleased hsome
    omega

theorem chunkCharge_spec {evictFuel wanted : Nat} (hw : w.Sound) (hwanted : 0 < wanted)
    (hevict : (w.pages + 1) * w.shards.length < evictFuel) (hfuel : w.pages + w.chunks.length + rootsLeft w < fuel) :
    (chunkCharge evictFuel w.shards.length wanted fuel).Secures store (Reserved w wanted) GaveUp w := by
  induction fuel generalizing w with
  | zero => omega
  | succ fuel ih =>
    unfold chunkCharge
    refine (tryReserve_spec wanted).bind fun reserved w' h => ?_
    cases reserved with
    | ok charge => exact h
    | error refusal =>
      obtain ⟨rfl, -, -⟩ := h
      -- The next turn starts from less, in a state that only gave things up.
      have again : ∀ w₁, Kept w' w₁ → w₁.pages ≤ w'.pages →
          w₁.pages + w₁.chunks.length + rootsLeft w₁ < w'.pages + w'.chunks.length + rootsLeft w' →
          (chunkCharge evictFuel w'.shards.length wanted fuel).Secures store (Reserved w' wanted) GaveUp w₁ := by
        intro w₁ hkept hpages hless
        have hmul := Nat.mul_le_mul_right w'.shards.length (Nat.succ_le_succ hpages)
        have hturn := ih (w := w₁) hkept.sound (by rw [hkept.shards]; exact Nat.lt_of_le_of_lt hmul hevict) (by omega)
        rw [hkept.shards] at hturn
        exact hturn.mono (fun charge w₂ h => ⟨h.1, by rw [h.2, hkept.charges]⟩) fun _ _ h => h
      refine (evictChunk_spec hw).bind fun dropped w₁ h₁ => ?_
      obtain ⟨hkept, hpages, hroots, hsome, hempty⟩ := h₁
      have hleft : rootsLeft w₁ = rootsLeft w' := by rw [rootsLeft, hroots, rootsLeft]
      refine Secures.ite (fun hdropped => ?_) fun hkeptAll => ?_
      · have := hsome hdropped
        exact again w₁ hkept hpages.le (by omega)
      · obtain ⟨hnil, hnil₁⟩ := hempty (by simpa using hkeptAll)
        rw [← hkept.shards]
        refine (reclaimPages_spec hkept.sound hnil₁ hwanted (by rw [hpages, hkept.shards]; exact hevict)).bind
          fun freed w₂ h₂ => ?_
        refine Secures.ite (fun hnone => ⟨⟨refusal, rfl⟩, h₂.nothing hnone⟩) fun hfreed => ?_
        have hless := h₂.less hfreed
        have hpages₂ := h₂.pages_le
        rw [hkept.shards]
        refine again w₂ (hkept.trans h₂.kept) (by omega) ?_
        rw [h₂.chunks, hnil, length_nil]
        omega

/-- A chunk read fails by a refusal only when nothing is left; its other failures are errors. -/
def ChunkFailed (e : Trouble) (w' : Reclaimable) : Prop :=
  match e with
  | .refused _ => w'.Exhausted
  | .error _ => True
  | .outOfFuel => False

theorem readChunk_spec {chunkIndex : Nat} {cfg : DirectoryConfig} (hw : w.Sound)
    (hfuel : (w.pages + w.chunks.length + 3) * w.shards.length < fuel) :
    (readChunk fuel w.shards.length store cfg chunkIndex).Secures store (fun c _ => c.index = chunkIndex) ChunkFailed w := by
  have hpos := hw.shards_pos
  have hshards : w.pages + w.chunks.length + 3 ≤ (w.pages + w.chunks.length + 3) * w.shards.length :=
    Nat.le_mul_of_pos_right _ hpos
  have hpages : (w.pages + 1) * w.shards.length ≤ (w.pages + w.chunks.length + 3) * w.shards.length :=
    Nat.mul_le_mul_right _ (by omega)
  have hlift : ∀ {α : Type} (x : Result α) (w : Reclaimable), (lift x).Secures store (fun _ w' => w' = w) ChunkFailed w := by
    intro α x w
    refine Secures.lift (fun _ _ => rfl) fun e he => ?_
    cases x with
    | ok a => cases he
    | error e =>
      cases he
      trivial
  unfold readChunk
  refine (hlift _ w).bind fun first w₁ h₁ => ?_
  subst h₁
  refine (hlift _ w₁).bind fun len w₂ h₂ => ?_
  subst h₂
  refine (hlift _ w₂).bind fun offset w₃ h₃ => ?_
  subst h₃
  have hcharge : (chunkCharge fuel w₃.shards.length (len + chunkOverhead) fuel).Secures store _ GaveUp w₃ :=
    chunkCharge_spec hw (Nat.succ_pos _) (by omega) (by unfold rootsLeft; omega)
  refine (hcharge.mono (fun _ _ _ => trivial) ?_ : Program.Secures _ _ (fun _ _ => True) ChunkFailed _ w₃).bind
    fun charge w₄ _ => ?_
  · rintro e w' ⟨⟨refusal, rfl⟩, h⟩
    exact h
  have hread : (readInto offset len charge).Secures store (fun _ _ => True) ChunkFailed w₄ := by
    unfold readInto
    refine (show (readExact offset len).Secures store (fun _ _ => True) ChunkFailed w₄ from
      ⟨trivial, ⟨readExactAt store.source offset len, w₄, fun _ h => h, rfl⟩, fun _ _ _ => trivial⟩).bind fun read w₅ _ => ?_
    cases read with
    | ok data => trivial
    | error e => exact ⟨trivial, ⟨(), _, rfl⟩, fun _ _ _ => trivial⟩
  refine hread.bind fun data w₅ _ => ?_
  exact ⟨trivial, ⟨_, _, rfl, rfl⟩, fun _ _ _ => rfl⟩

end Reclaiming

open Reclaiming in
/-- With enough turns for its loops, a reservation not above the limit returns a charge for
exactly what was asked, or is refused with no page, no chunk and no root left; roots are let go
only when the cache and the directory are empty (`Allows`). A chunk of the directory that is
refused leaves nothing to reclaim either. -/
theorem reserve_exhausts (store : PageStore) {w : Reclaimable} (hw : w.Sound) (hused : w.used ≤ w.limit) :
    ∃ enough, ∀ fuel, enough ≤ fuel →
      (∀ bytes, bytes ≤ w.limit → (reserve fuel w.shards.length bytes).Secures store
        (fun charge w' => charge = bytes ∧ w'.charges = bytes :: w.charges)
        (fun e w' => (∃ refusal, e = .refused refusal) ∧ w'.Exhausted) w) ∧
      ∀ cfg chunkIndex, (readChunk fuel w.shards.length store cfg chunkIndex).Secures store
        (fun chunk _ => chunk.index = chunkIndex) (fun e w' => e ≠ .outOfFuel ∧ ∀ refusal, e = .refused refusal → w'.Exhausted)
        w := by
  have hpages : (w.pages + 1) * w.shards.length ≤ (w.pages + w.chunks.length + 3) * w.shards.length :=
    Nat.mul_le_mul_right _ (by omega)
  refine ⟨(w.pages + w.chunks.length + 3) * w.shards.length + 1, fun fuel hfuel => ⟨fun bytes hb => ?_, fun cfg chunkIndex => ?_⟩⟩
  · exact reserve_spec hw hused hb (by omega)
  · refine (readChunk_spec hw (by omega)).mono (fun _ _ h => h) fun e w' h => ?_
    cases e with
    | refused refusal => exact ⟨by simp, fun _ _ => h⟩
    | error e => exact ⟨by simp, by simp⟩
    | outOfFuel => exact absurd h id

end

namespace PinnedRoot

/-- A page of 40 bytes, charged with its overhead. -/
def buffer : BufferRef := ⟨0, 40, 232⟩

def shard : ShardInner BufferRef := { map := (∅ : Dict Nat (Slot BufferRef)).insert 7 (.ready buffer 232 true), clock := [7], resident := 232 }

/-- The page is cached, retained as a root and pinned, so that letting go of it frees nothing. -/
def state : Reclaimable where
  cache := ⟨4096, 40⟩
  limit := 1000
  shards := [{}, shard]
  chunks := [⟨0, List.replicate 8 0, 3⟩]
  roots := (∅ : Dict Nat BufferRef).insert 1 buffer
  rootsBook := 64
  pins := [buffer]
  charges := [100]

theorem state_sound : state.Sound := by
  have hshard : shard.Consistent :=
    ShardInner.Consistent.empty.add (o := 7) (AList.lookup_empty 7) rfl rfl rfl rfl
  have hholds : ∀ o pin bytes, shard.Holds o pin bytes → bytes = 232 := by
    rintro o pin bytes ⟨r, h⟩
    by_cases heq : o = 7
    · subst heq
      simp only [shard, AList.lookup_insert, Option.some.injEq, Slot.ready.injEq] at h
      exact h.2.1.symm
    · simp only [shard, AList.lookup_insert_ne heq, AList.lookup_empty, reduceCtorEq] at h
  refine ⟨by decide, ⟨2 ^ 63, by decide⟩, ?_, ?_, ?_⟩
  · intro s hs
    rcases mem_cons.1 hs with rfl | hs
    · exact .empty
    · exact mem_singleton.1 hs ▸ hshard
  · intro s hs o pin bytes h
    rcases mem_cons.1 hs with rfl | hs
    · obtain ⟨r, h⟩ := h
      simp at h
    · rw [mem_singleton.1 hs] at h
      rw [hholds o pin bytes h]
      decide
  · intro e he
    have hone : state.roots.entries = [⟨1, buffer⟩] := rfl
    rw [hone, mem_singleton] at he
    subst he
    decide

end PinnedRoot

/-- A request that cannot be met although everything is given up: the page stays pinned. -/
theorem reserve_exhausts_pinned : PinnedRoot.state.used = 596 ∧ ∃ enough, ∀ fuel, enough ≤ fuel →
    (Reclaiming.reserve fuel 2 900).Secures ⟨[], 0, 0, none, {}⟩
      (fun charge w' => charge = 900 ∧ w'.charges = [900, 100]) (fun e w' => (∃ refusal, e = .refused refusal) ∧ w'.Exhausted)
      PinnedRoot.state := by
  have hused : PinnedRoot.state.used = 596 := by decide +kernel
  obtain ⟨enough, h⟩ := reserve_exhausts ⟨[], 0, 0, none, {}⟩ PinnedRoot.state_sound (by rw [hused]; decide)
  exact ⟨hused, enough, fun fuel hfuel => (h fuel hfuel).1 900 (by decide)⟩

end DryDb
