import DryDb.Memory.Directory
import DryDb.Memory.SingleFlight
import DryDb.Reader.Image
/-!
# Caching is invisible

`StoreSystem.Faithful`: everything the store shares, and everything its threads carry towards
it, says what the file says. Each step keeps this, so whatever a run hands out is what a direct
read of the file gives.
-/

namespace DryDb

open Program

variable {store : PageStore} {cfg : StoreConfig}

/-- The page read through an empty cache. -/
def PageStore.IsPage (store : PageStore) (o : Nat) (pin : PagePin) : Prop := store.page o = .ok pin

theorem PageStore.IsPage.own {o : Nat} {pin : PagePin} (h : store.IsPage o pin) : store.IsPage pin.ordinal pin := by
  have hordinal := PageStore.page_ordinal h
  rw [hordinal]
  exact h

theorem PageStore.isPage_of_load {o : Nat} {pin : PagePin} (h : store.load o = .ok pin) : store.IsPage o pin :=
  mapError_eq_ok.2 h

/-- A load in progress will come to the right page, if to any. -/
def LoadOk (store : PageStore) (cfg : StoreConfig) (x : Nat × Shared (PagePin × Nat)) : Prop :=
  x.2.Upholds store cfg.directory fun r => store.IsPage x.1 r.1

/-- A lookup in progress will come to the right offset, if to any. -/
def LookupOk (store : PageStore) (cfg : StoreConfig) (x : Nat × Shared Nat) : Prop :=
  x.2.Upholds store cfg.directory fun offset => store.offsetOf x.1 = .ok offset

/-- Nothing in the store differs from the file. -/
structure StoreSystem.Faithful (store : PageStore) (cfg : StoreConfig) (w : StoreSystem) : Prop where
  shards : ∀ i, (w.shards i).Coordinated ∧ (w.shards i).Serves store.IsPage
  loads : ∀ x ∈ w.loads, LoadOk store cfg x
  lookups : ∀ x ∈ w.lookups, LookupOk store cfg x
  chunks : store.ChunksOk cfg.directory w.chunks
  handed : ∀ pin ∈ w.handed, store.IsPage pin.ordinal pin
  roots : ∀ tree pin, w.roots.lookup tree = some pin → store.IsPage pin.ordinal pin

/-- What a step hands out is what the file holds. -/
def StoreLabel.Truthful (store : PageStore) (l : StoreLabel) : Prop :=
  (∀ o pin, l.page = some (o, pin) → store.IsPage o pin) ∧
    ∀ o offset, l = .offset o offset → store.offsetOf o = .ok offset

/-- A step that hands nothing out. -/
theorem StoreLabel.Truthful.quiet {l : StoreLabel} (hpage : l.page = none) (hoffset : ∀ o offset, l ≠ .offset o offset) :
    l.Truthful store :=
  ⟨fun o pin hp => absurd (hpage.symm.trans hp) (by simp), fun o offset heq => absurd heq (hoffset o offset)⟩

theorem StoreSystem.Faithful.start : StoreSystem.Faithful store cfg {} where
  shards _ := ⟨⟨.empty, fun _ => rfl, fun _ _ _ hm => absurd hm (Multiset.notMem_zero _)⟩,
    ⟨fun o pin bytes ⟨r, hr⟩ => by simp at hr, fun _ _ _ hm => absurd hm (Multiset.notMem_zero _)⟩⟩
  loads x hx := absurd hx (Multiset.notMem_zero x)
  lookups x hx := absurd hx (Multiset.notMem_zero x)
  chunks := .empty
  handed pin hp := by cases hp
  roots tree pin h := by simp at h

section
variable {w w' : StoreSystem}

/-- A question answered by the shared parts: they stay faithful when the question does no harm,
and the answer can be relied on. -/
theorem StoreSystem.Faithful.answers {op : StoreOp} {r : op.Answer} (h : w.Faithful store cfg)
    (howed : op.Owed store cfg.directory) (hop : w.Answers store cfg op r w') :
    w'.Faithful store cfg ∧ op.Granted store cfg.directory r := by
  cases op with
  | lookup chunkIndex slot =>
    obtain ⟨rfl, rfl⟩ := hop
    refine ⟨⟨h.shards, h.loads, h.lookups, h.chunks.touch _ _, h.handed, h.roots⟩, fun raw hraw => ?_⟩
    unfold lookupChunk at hraw
    cases hfind : w.chunks.find? (·.index == chunkIndex) with
    | none =>
      rw [hfind] at hraw
      cases hraw
    | some c =>
      rw [hfind] at hraw
      obtain ⟨n, hn, heq⟩ := map_eq_ok.1 hraw
      cases heq
      exact ⟨c, h.chunks.data c (List.mem_of_find?_eq_some hfind), by simpa using List.find?_some hfind, hn⟩
  | tick =>
    obtain ⟨-, rfl⟩ := hop
    exact ⟨⟨h.shards, h.loads, h.lookups, h.chunks, h.handed, h.roots⟩, trivial⟩
  | insert chunk =>
    subst hop
    exact ⟨⟨h.shards, h.loads, h.lookups, h.chunks.insert howed, h.handed, h.roots⟩, trivial⟩
  | read offset len =>
    obtain ⟨hread, rfl⟩ := hop
    exact ⟨h, hread⟩
  | reserve bytes =>
    subst hop
    exact ⟨h, trivial⟩
  | reserveWorking =>
    subst hop
    exact ⟨h, trivial⟩

/-- The other shards stay as they were. -/
theorem StoreSystem.Faithful.update (h : w.Faithful store cfg) {i : Nat} {s : ShardSystem PagePin}
    (hs : s.Coordinated ∧ s.Serves store.IsPage) (j : Nat) :
    (Function.update w.shards i s j).Coordinated ∧ (Function.update w.shards i s j).Serves store.IsPage := by
  by_cases hj : j = i
  · subst hj
    rw [Function.update_self]
    exact hs
  · rw [Function.update_of_ne hj]
    exact h.shards j

theorem hands_of_page {l : ShardLabel PagePin} (h : l.Hands store.IsPage) {o : Nat} {pin : PagePin}
    (hp : l.page = some (o, pin)) : store.IsPage o pin := by
  unfold ShardLabel.page at hp
  split at hp
  · cases hp
    exact h
  · cases hp
    exact h
  · cases hp
    exact h
  · cases hp

/-- Every step keeps the store faithful and hands out what the file holds. -/
theorem StoreSystem.Faithful.step {l : StoreLabel} (h : w.Faithful store cfg) (hs : StoreStep store cfg w l w') :
    w'.Faithful store cfg ∧ l.Truthful store := by
  cases hs with
  | @shard i l s hstep hshard hplain =>
    obtain ⟨hc, hserves⟩ := h.shards i
    have hload : ∀ o pin bytes, l = .loadReturned o pin bytes → store.IsPage o pin := by
      rintro o pin bytes rfl
      cases hplain
    obtain ⟨hserves', hhands⟩ := hserves.step hc hstep hload
    refine ⟨⟨h.update ⟨hc.step hstep, hserves'⟩, h.loads, h.lookups, h.chunks, fun pin hpin => ?_, h.roots⟩,
      fun o pin hp => hands_of_page hhands hp, fun o offset heq => by cases heq⟩
    rcases List.mem_append.1 hpin with hpin | hpin
    · cases hpage : l.page with
      | none => simp [hpage] at hpin
      | some x =>
        have hx : pin = x.2 := by simpa [hpage] using hpin
        subst hx
        exact (hands_of_page hhands hpage).own
    · exact h.handed pin hpin
  | @beginLoad o s hstep =>
    obtain ⟨hc, hserves⟩ := h.shards (cfg.shardOf o)
    obtain ⟨hserves', -⟩ := hserves.step hc hstep fun _ _ _ heq => by cases heq
    refine ⟨⟨h.update ⟨hc.step hstep, hserves'⟩, fun x hx => ?_, h.lookups, h.chunks, h.handed, h.roots⟩,
      .quiet rfl fun _ _ heq => by cases heq⟩
    rcases Multiset.mem_cons.1 hx with rfl | hx
    · exact (PageStore.upholds_loadCached o).mono fun r hr => PageStore.isPage_of_load hr
    · exact h.loads x hx
  | @loadAsk w₁ o op k r rest hload hop =>
    have hx := h.loads (o, .ask op k) (hload ▸ Multiset.mem_cons_self _ _)
    have hrest : ∀ x ∈ rest, LoadOk store cfg x := fun x hx => h.loads x (hload ▸ Multiset.mem_cons_of_mem hx)
    obtain ⟨h₁, hgranted⟩ := h.answers hx.1 hop
    refine ⟨⟨h₁.shards, fun x hmem => ?_, h₁.lookups, h₁.chunks, h₁.handed, h₁.roots⟩, .quiet rfl fun _ _ heq => by cases heq⟩
    rcases Multiset.mem_cons.1 hmem with rfl | hmem
    · exact hx.2 r hgranted
    · exact hrest x hmem
  | @loadDone o pin bytes s rest hload hstep =>
    have hx : store.IsPage o pin := h.loads (o, .done (pin, bytes)) (hload ▸ Multiset.mem_cons_self _ _)
    obtain ⟨hc, hserves⟩ := h.shards (cfg.shardOf o)
    obtain ⟨hserves', -⟩ := hserves.step hc hstep fun o' pin' bytes' heq => by
      cases heq
      exact hx
    exact ⟨⟨h.update ⟨hc.step hstep, hserves'⟩, fun x hx => h.loads x (hload ▸ Multiset.mem_cons_of_mem hx), h.lookups,
      h.chunks, h.handed, h.roots⟩, .quiet rfl fun _ _ heq => by cases heq⟩
  | @loadFail o p s rest hload hstep =>
    obtain ⟨hc, hserves⟩ := h.shards (cfg.shardOf o)
    obtain ⟨hserves', -⟩ := hserves.step hc hstep fun _ _ _ heq => by cases heq
    exact ⟨⟨h.update ⟨hc.step hstep, hserves'⟩, fun x hx => h.loads x (hload ▸ Multiset.mem_cons_of_mem hx), h.lookups,
      h.chunks, h.handed, h.roots⟩, .quiet rfl fun _ _ heq => by cases heq⟩
  | resolve o =>
    refine ⟨⟨h.shards, h.loads, fun x hx => ?_, h.chunks, h.handed, h.roots⟩, .quiet rfl fun _ _ heq => by cases heq⟩
    rcases Multiset.mem_cons.1 hx with rfl | hx
    · exact PageStore.upholds_offsetOfCached o
    · exact h.lookups x hx
  | @lookupAsk w₁ o op k r rest hlookup hop =>
    have hx := h.lookups (o, .ask op k) (hlookup ▸ Multiset.mem_cons_self _ _)
    have hrest : ∀ x ∈ rest, LookupOk store cfg x := fun x hx => h.lookups x (hlookup ▸ Multiset.mem_cons_of_mem hx)
    obtain ⟨h₁, hgranted⟩ := h.answers hx.1 hop
    refine ⟨⟨h₁.shards, h₁.loads, fun x hmem => ?_, h₁.chunks, h₁.handed, h₁.roots⟩, .quiet rfl fun _ _ heq => by cases heq⟩
    rcases Multiset.mem_cons.1 hmem with rfl | hmem
    · exact hx.2 r hgranted
    · exact hrest x hmem
  | @lookupDone o offset rest hlookup =>
    have hx : store.offsetOf o = .ok offset := h.lookups (o, .done offset) (hlookup ▸ Multiset.mem_cons_self _ _)
    refine ⟨⟨h.shards, h.loads, fun x hx => h.lookups x (hlookup ▸ Multiset.mem_cons_of_mem hx), h.chunks, h.handed,
      h.roots⟩, fun o pin hp => (by cases hp), fun o' offset' heq => ?_⟩
    cases heq
    exact hx
  | lookupFail hlookup =>
    exact ⟨⟨h.shards, h.loads, fun x hx => h.lookups x (hlookup ▸ Multiset.mem_cons_of_mem hx), h.chunks, h.handed,
      h.roots⟩, .quiet rfl fun _ _ heq => by cases heq⟩
  | evictChunk =>
    exact ⟨⟨h.shards, h.loads, h.lookups, h.chunks.evict, h.handed, h.roots⟩, .quiet rfl fun _ _ heq => by cases heq⟩
  | @retain tree pin hpin =>
    refine ⟨⟨h.shards, h.loads, h.lookups, h.chunks, h.handed, fun tree' pin' hl => ?_⟩, .quiet rfl fun _ _ heq => by cases heq⟩
    by_cases heq : tree' = tree
    · subst heq
      rw [AList.lookup_insert] at hl
      cases hl
      exact h.handed pin hpin
    · rw [AList.lookup_insert_ne heq] at hl
      exact h.roots tree' pin' hl
  | root tree =>
    refine ⟨⟨h.shards, h.loads, h.lookups, h.chunks, fun pin hpin => ?_, h.roots⟩, fun o pin hp => ?_,
      fun o offset heq => by cases heq⟩
    · rcases List.mem_append.1 hpin with hpin | hpin
      · exact h.roots tree pin (by simpa using hpin)
      · exact h.handed pin hpin
    · cases hl : w.roots.lookup tree with
      | none => simp [StoreLabel.page, hl] at hp
      | some pin' =>
        simp only [StoreLabel.page, hl, Option.some.injEq, Prod.mk.injEq] at hp
        obtain ⟨rfl, rfl⟩ := hp
        exact h.roots tree pin' hl
  | releaseRoot tree =>
    refine ⟨⟨h.shards, h.loads, h.lookups, h.chunks, h.handed, fun tree' pin hl => ?_⟩, .quiet rfl fun _ _ heq => by cases heq⟩
    by_cases heq : tree' = tree
    · subst heq
      rw [AList.lookup_erase] at hl
      cases hl
    · rw [AList.lookup_erase_ne heq] at hl
      exact h.roots tree' pin hl
  | releaseRoots =>
    exact ⟨⟨h.shards, h.loads, h.lookups, h.chunks, h.handed, fun _ _ hl => by simp at hl⟩, .quiet rfl fun _ _ heq => by cases heq⟩

end

theorem StoreRun.faithful {past : List (Event StoreSystem StoreLabel)} {w : StoreSystem} (h : StoreRun store cfg past w) :
    w.Faithful store cfg := by
  refine h.state ?_ fun _ _ _ hi hs => (hi.step hs).1
  rintro _ rfl
  exact .start

/-- Over every interleaving of loads, lookups, evictions and reclaiming, failed loads included:
a page the store hands out for an ordinal is the page read directly with nothing cached, an
offset it hands out is that of the directory slot, and the directory cache never holds two
copies of a chunk or more chunks than it may. -/
theorem caching_is_invisible (store : PageStore) (cfg : StoreConfig) {past : List (Event StoreSystem StoreLabel)}
    {w : StoreSystem} (h : StoreRun store cfg past w) :
    (∀ e ∈ past, ∀ o pin, e.label.page = some (o, pin) → store.page o = .ok pin) ∧
    (∀ e ∈ past, ∀ o offset, e.label = .offset o offset → store.offsetOf o = .ok offset) ∧
    (w.chunks.map (·.index)).Nodup ∧ w.chunks.length ≤ cfg.directory.maxChunks := by
  have htrue : ∀ e ∈ past, e.label.Truthful store := by
    intro e he
    obtain ⟨before, hbefore, hstep⟩ := Run.event h he
    exact ((StoreRun.faithful hbefore).step hstep).2
  have hw := StoreRun.faithful h
  exact ⟨fun e he => (htrue e he).1, fun e he => (htrue e he).2, hw.chunks.once, hw.chunks.bounded⟩

namespace Twin

/-- One shard, and a directory cache of one chunk of two slots. -/
def config : StoreConfig where
  cache := ⟨1000, 1⟩
  directory := .new 2 1
  shards := 1

/-- The first leaf, loaded. -/
def pin : PagePin := (PagePin.new 0 (leaf 0 7 none (some 1))).toOption.get (by decide +kernel)

theorem new_zero : PagePin.new 0 (leaf 0 7 none (some 1)) = .ok pin :=
  PagePin.new_eq_ok.2 ⟨by decide +kernel, by decide +kernel⟩

/-- What happens in `run_load`, latest first. -/
def seen : List StoreLabel :=
  [.chunkEvicted, .shard (.evicted (some 248)), .offset 1 82, .shard (.entered 0 (.hit pin)), .shard (.published 0 pin 248)]

/-- A page is loaded through a chunk that was not cached, and handed out again; a lookup finds the chunk; then
the page and the chunk are evicted. -/
theorem run_load : ∃ past w, StoreRun tree.store config past w ∧ seen.Sublist (past.map (·.label)) := by
  have hshard : ∀ {l : ShardLabel PagePin}, ∀ o, l.ordinal = some o → 0 = config.shardOf o := fun o _ => by
    simp [StoreConfig.shardOf, config]
  have start : StoreRun tree.store config [] {} := Run.start rfl
  -- A thread misses, reserves and puts its marker in.
  have called := start.next (.shard (i := 0) (.call _ 0) hshard rfl)
  have missed := called.next (.shard (i := 0) (.enter (show _ = Caller.entering 0 none 0 ::ₘ 0 from rfl)
    (show (ShardInner.enter _ _ 0 none 0).Yields (.reserve 208 0, {}) from rfl)) hshard rfl)
  have reserved := missed.next (.shard (i := 0)
    (.reserve 208 (show _ = Caller.reserving 0 208 0 ::ₘ 0 from rfl)) hshard rfl)
  have marked := reserved.next (.beginLoad (o := 0)
    (.enter (show _ = Caller.entering 0 (some 208) 0 ::ₘ 0 from rfl) ⟨3, rfl⟩))
  -- The chunk is not cached: it is charged, read and published before its slot is used.
  have noChunk := marked.next (.loadAsk (show _ = (0, Program.ask (.lookup 0 0) _) ::ₘ 0 from rfl) ⟨rfl, rfl⟩)
  have charged := noChunk.next
    (.loadAsk (show _ = (0, Program.ask (.reserve 208) _) ::ₘ 0 from rfl) (r := Except.ok ()) rfl)
  have chunk := charged.next (.loadAsk (show _ = (0, Program.ask (.read 198 16) _) ::ₘ 0 from rfl)
    (r := Except.ok (leBytes 8 26 ++ leBytes 8 82)) ⟨fun _ h => h ▸ by decide +kernel, rfl⟩)
  have stamped := chunk.next (.loadAsk (show _ = (0, Program.ask .tick _) ::ₘ 0 from rfl) ⟨rfl, rfl⟩)
  have kept := stamped.next (.loadAsk (show _ = (0, Program.ask (.insert _) _) ::ₘ 0 from rfl) (r := ()) rfl)
  -- Where the next page starts is in the chunk just kept.
  have length := kept.next (.loadAsk (show _ = (0, Program.ask (.read 26 4) _) ::ₘ 0 from rfl)
    (r := Except.ok (leBytes 4 56)) ⟨fun _ h => h ▸ by decide +kernel, rfl⟩)
  have found := length.next (.loadAsk (show _ = (0, Program.ask (.lookup 0 8) _) ::ₘ 0 from rfl)
    (r := Except.ok (some (82 : Int))) ⟨rfl, rfl⟩)
  have paid := found.next
    (.loadAsk (show _ = (0, Program.ask (.reserve 248) _) ::ₘ 0 from rfl) (r := Except.ok ()) rfl)
  have stored := paid.next (.loadAsk (show _ = (0, Program.ask (.read 26 56) _) ::ₘ 0 from rfl)
    (r := Except.ok (leaf 0 7 none (some 1))) ⟨fun _ h => h ▸ by decide +kernel, rfl⟩)
  have hdone : ((0, (liftM (PagePin.new 0 (leaf 0 7 none (some 1))) >>= fun p => pure (p, 248) : Shared (PagePin × Nat))) ::ₘ 0 :
      Multiset (Nat × Shared (PagePin × Nat))) = (0, .done (pin, 248)) ::ₘ 0 := by
    rw [new_zero]
    rfl
  have loaded := stored.next (.loadDone hdone (.loadReturn pin 248 (show _ = Caller.loading 0 ::ₘ 0 from rfl)))
  have published := loaded.next (.shard (i := 0)
    (.publish (show _ = Caller.loaded 0 pin 248 ::ₘ 0 from rfl) ⟨3, 3, 4, rfl⟩) hshard rfl)
  have notified := published.next (.shard (i := 0)
    (.notify (show _ = Caller.notifying 0 ::ₘ 0 from rfl)) hshard rfl)
  -- A second call finds the page, a lookup the chunk.
  have again := notified.next (.shard (i := 0) (.call _ 0) hshard rfl)
  have hit := again.next (.shard (i := 0) (.enter (show _ = Caller.entering 0 none 0 ::ₘ 0 from rfl)
    (show (ShardInner.enter _ _ 0 none 0).Yields (.hit pin, _) from rfl)) hshard rfl)
  have asked := hit.next (.resolve _ 1)
  have answered := asked.next (.lookupAsk (show _ = (1, Program.ask (.lookup 0 8) _) ::ₘ 0 from rfl)
    (r := Except.ok (some (82 : Int))) ⟨rfl, rfl⟩)
  have resolved := answered.next (.lookupDone (show _ = (1, Program.done 82) ::ₘ 0 from rfl))
  -- The page is given a second chance and then goes, with the chunk.
  have evicted := resolved.next (.shard (i := 0)
    (.evict (show (ShardInner.evictOne _ _).Yields (some 248, _) from ⟨4, 3, 0, 0, rfl⟩)) hshard rfl)
  exact ⟨_, _, evicted.next (.evictChunk _), .cons_cons _ (.cons_cons _ (.cons_cons _ (.cons _ (.cons _ (.cons_cons _
    (.cons _ (.cons _ (.cons_cons _ (List.nil_sublist _)))))))))⟩

end Twin

theorem caching_is_invisible_twin : ∃ past w, StoreRun Twin.tree.store Twin.config past w ∧
    Twin.seen.Sublist (past.map (·.label)) ∧ Twin.tree.store.page 0 = .ok Twin.pin ∧ Twin.tree.store.offsetOf 1 = .ok 82 ∧
      w.chunks.length ≤ 1 := by
  obtain ⟨past, w, hrun, hseen⟩ := Twin.run_load
  obtain ⟨hpage, hoffset, -, hlen⟩ := caching_is_invisible Twin.tree.store Twin.config hrun
  obtain ⟨e, he, hhit⟩ := List.mem_map.1 (hseen.subset (show .shard (.entered 0 (.hit Twin.pin)) ∈ Twin.seen by simp [Twin.seen]))
  obtain ⟨e', he', hresolved⟩ := List.mem_map.1 (hseen.subset (show .offset 1 82 ∈ Twin.seen by simp [Twin.seen]))
  exact ⟨past, w, hrun, hseen, hpage e he 0 Twin.pin (hhit ▸ rfl), hoffset e' he' 1 82 hresolved, hlen⟩

end DryDb
