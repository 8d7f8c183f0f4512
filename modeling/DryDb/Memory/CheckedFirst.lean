import DryDb.Memory.Searched
import DryDb.Reader.Image
/-!
# The store tells only what is so

The mark on a buffer is one field, which every tree that checks the page overwrites, and a root is
handed out without looking at it. Both are still only written by a tree that has just checked the
buffer, so what a mark or a kept root says has happened (`Sound`). Together with `Careful` this
holds along every run: a buffer is used by a tree only after that tree's check has passed on it.
-/

namespace DryDb

open Program List

/-- The checks that have passed so far. -/
def passedIn (past : List (Event BufferState BufferLabel)) : Set Passed :=
  { x | ∃ e ∈ past, e.label = .passed x.1 x.2 }

theorem passedIn_cons (e : Event BufferState BufferLabel) (past : List (Event BufferState BufferLabel)) :
    passedIn past ⊆ passedIn (e :: past) := by
  rintro x ⟨e', he', hx⟩
  exact ⟨e', mem_cons_of_mem _ he', hx⟩

/-- What a job hands back stands on a page its tree has checked. -/
def Returned (f : Forest) (known : Set Passed) (r : Option Handle) : Prop :=
  ∀ h, r = some h → ∃ t ∈ f.trees, OnChecked t known h.held

section
variable {f : Forest} {known : Set Passed}

theorem careful_none {α : Type} {P : Set Passed → α → Prop} {p : Walk α} (h : Careful f P p known) :
    Careful f (Returned f) (do let _ ← p; pure none) known := by
  apply h.bind
  intro known' _ _ _
  apply learns_pure
  intro h hh
  cases hh

theorem Starts.careful {job : Job} (h : Starts f job) : Careful f (Returned f) job known := by
  cases h with
  | search ht key op => exact careful_none (careful_search ht key op)
  | findCached ht key turns => exact careful_none (careful_findCached ht key turns)
  | countRange ht lower upper => exact careful_none (careful_countRange ht lower upper)
  | page ordinal => exact careful_none (careful_page ordinal)
  | pageCached ordinal => exact careful_none (careful_pageCached ordinal)

theorem careful_advanceHandle {t : Tree} {h : Handle} (ht : t ∈ f.trees) (ho : OnChecked t known h.held) :
    Careful f (Returned f) h.advance known := by
  cases h with
  | table h =>
    apply (careful_advance ht ho).bind
    intro known' moved _ hmoved
    apply learns_pure
    intro h' hh
    cases hh
    exact ⟨t, ht, hmoved⟩
  | index h =>
    apply (careful_advanceIndex ht ho).bind
    intro known' moved _ hmoved
    apply learns_pure
    intro h' hh
    cases hh
    exact ⟨t, ht, hmoved⟩

end

/-- What is so after a run. -/
structure Sound (f : Forest) (past : List (Event BufferState BufferLabel)) (s : BufferState) : Prop where
  marks : ∀ b, 0 < s.validatedFor b → (s.validatedFor b, b) ∈ passedIn past
  roots : ∀ tree b, s.roots tree = some b → (tree, b) ∈ passedIn past
  idle : ∀ h ∈ s.idle, ∃ t ∈ f.trees, OnChecked t (passedIn past) h.held
  jobs : ∀ j ∈ s.jobs, ∃ known ⊆ passedIn past, Careful f (Returned f) j known
  used : ∀ later e earlier tree b, past = later ++ e :: earlier → e.label = .used tree b →
    (tree, b) ∈ passedIn earlier
  passed : ∀ e ∈ past, ∀ tree b, e.label = .passed tree b →
    ∀ t ∈ f.trees, t.id = tree → t.checkDigests b.pin.view = .ok ()

section
variable {f : Forest} {store : PageStore} {past : List (Event BufferState BufferLabel)} {s s' : BufferState} {l : BufferLabel}
  {e : Event BufferState BufferLabel} {op : WalkOp} {known : Set Passed}

/-- What is shown by the newest step. -/
structure Shows (f : Forest) (past : List (Event BufferState BufferLabel)) (l : BufferLabel) : Prop where
  used : ∀ tree b, l = .used tree b → (tree, b) ∈ passedIn past
  passed : ∀ tree b, l = .passed tree b → ∀ t ∈ f.trees, t.id = tree → t.checkDigests b.pin.view = .ok ()

theorem shows_quiet : Shows f past .quiet :=
  ⟨fun _ _ h => (nomatch h), fun _ _ h => (nomatch h)⟩

/-- A step that leaves marks and roots as they are, or writes what is so. -/
theorem Sound.extend (h : Sound f past s) (hl : Shows f past l)
    (hmarks : ∀ b, 0 < s'.validatedFor b → (s'.validatedFor b, b) ∈ passedIn past)
    (hroots : ∀ tree b, s'.roots tree = some b → (tree, b) ∈ passedIn past)
    (hidle : ∀ x ∈ s'.idle, ∃ t ∈ f.trees, OnChecked t (passedIn past) x.held)
    (hjobs : ∀ j ∈ s'.jobs, ∃ known ⊆ passedIn (⟨s, l, s'⟩ :: past), Careful f (Returned f) j known) :
    Sound f (⟨s, l, s'⟩ :: past) s' where
  marks := fun b hb => passedIn_cons _ _ (hmarks b hb)
  roots := fun tree b hb => passedIn_cons _ _ (hroots tree b hb)
  idle := by
    intro x hx
    obtain ⟨t, ht, ho⟩ := hidle x hx
    exact ⟨t, ht, ho.mono (passedIn_cons _ _)⟩
  jobs := hjobs
  used := by
    intro later e earlier tree b hpast he
    cases later with
    | nil =>
      cases hpast
      exact hl.used tree b he
    | cons e' later =>
      cases hpast
      exact h.used later e earlier tree b rfl he
  passed := by
    intro e he
    rcases mem_cons.1 he with rfl | he
    · exact hl.passed
    · exact h.passed e he

theorem Sound.jobs_cons (h : Sound f past s) {j : Job} (hj : j ∈ s.jobs) :
    ∃ known ⊆ passedIn (e :: past), Careful f (Returned f) j known := by
  obtain ⟨known, hk, hc⟩ := h.jobs j hj
  exact ⟨known, hk.trans (passedIn_cons _ _), hc⟩

/-- A question shows only what its asker knows. -/
theorem shows_label (hk : known ⊆ passedIn past) (hneed : op.need f known) :
    Shows f past op.label := by
  cases op with
  | uses tree b =>
    refine ⟨?_, fun _ _ h => (nomatch h)⟩
    intro tree' b' h
    cases h
    exact hk hneed
  | passed tree b =>
    refine ⟨fun _ _ h => (nomatch h), ?_⟩
    intro tree' b' h
    cases h
    exact hneed
  | _ => exact shows_quiet

/-- An answer teaches only what is so. -/
theorem Sound.gain_subset (h : Sound f past s) {r : op.Answer} (he : e.label = op.label) (hneed : op.need f known)
    (ha : s.Answers store op r s') : op.gain r ⊆ passedIn (e :: past) := by
  cases op with
  | retainedRoot tree =>
    rintro x hx
    obtain ⟨rfl, -⟩ := ha
    obtain ⟨b, hb, rfl⟩ := Option.map_eq_some_iff.1 hx
    exact passedIn_cons _ _ (h.roots tree b hb)
  | digestsCheckedBy tree b =>
    rintro x ⟨hr, rfl⟩
    obtain ⟨hmark, -⟩ := ha
    have hmark : s.validatedFor b = tree := by
      rw [hr] at hmark
      exact eq_of_beq hmark.symm
    subst hmark
    exact passedIn_cons _ _ (h.marks b hneed)
  | passed tree b =>
    rintro x rfl
    exact ⟨e, mem_cons_self, he⟩
  | _ =>
    intro x hx
    cases hx

/-- An answer writes only what its asker knows. -/
theorem Sound.answers (h : Sound f past s) {r : op.Answer}
    (hk : known ⊆ passedIn past) (hneed : op.need f known) (ha : s.Answers store op r s') :
    (∀ b, 0 < s'.validatedFor b → (s'.validatedFor b, b) ∈ passedIn past) ∧
      (∀ tree b, s'.roots tree = some b → (tree, b) ∈ passedIn past) ∧ s'.idle = s.idle := by
  have hsame : s' = s ∨ (∃ b, s' = { s with made := b :: s.made }) →
      (∀ b, 0 < s'.validatedFor b → (s'.validatedFor b, b) ∈ passedIn past) ∧
        (∀ tree b, s'.roots tree = some b → (tree, b) ∈ passedIn past) ∧ s'.idle = s.idle := by
    rintro (rfl | ⟨b, rfl⟩)
    · exact ⟨h.marks, h.roots, rfl⟩
    · exact ⟨h.marks, h.roots, rfl⟩
  cases op with
  | page o =>
    apply hsame
    rcases ha with ⟨_, _, hs⟩ | ⟨_, _, _, _, hs⟩ | ⟨b, _, _, _, hs⟩
    · exact .inl hs
    · exact .inl hs
    · exact .inr ⟨b, hs⟩
  | retainRoot tree b =>
    rcases ha with hs | rfl
    · exact hsame (.inl hs)
    · refine ⟨h.marks, ?_, rfl⟩
      intro tree' b' hb'
      dsimp only at hb'
      split at hb'
      · rename_i htree
        cases hb'
        rw [htree]
        exact hk hneed
      · exact h.roots tree' b' hb'
  | markDigestsChecked tree b =>
    cases ha
    refine ⟨?_, h.roots, rfl⟩
    intro b' hb'
    dsimp only at hb' ⊢
    split
    · rename_i heq
      rw [heq]
      exact hk hneed
    · rename_i hne
      rw [if_neg hne] at hb'
      exact h.marks b' hb'
  | pageCached o => exact hsame (.inl ha.2)
  | retainedRoot tree => exact hsame (.inl ha.2)
  | digestsCheckedBy tree b => exact hsame (.inl ha.2)
  | reserve n => exact hsame (.inl ha)
  | passed tree b => exact hsame (.inl ha)
  | uses tree b => exact hsame (.inl ha)

theorem Sound.step (h : Sound f past s) (hs : BufferStep store f s l s') :
    Sound f (⟨s, l, s'⟩ :: past) s' := by
  cases hs with
  | start hstart =>
    refine h.extend shows_quiet h.marks h.roots h.idle ?_
    intro j hj
    rcases Multiset.mem_cons.1 hj with rfl | hj
    · exact ⟨∅, Set.empty_subset _, hstart.careful⟩
    · exact h.jobs_cons hj
  | @opened x ht hp =>
    refine h.extend shows_quiet h.marks h.roots ?_ fun j hj => h.jobs_cons hj
    intro y hy
    rcases Multiset.mem_cons.1 hy with rfl | hy
    · refine ⟨_, ht, rfl, ?_⟩
      intro b hb
      simp [Buffered.HeldCursor.page, hp] at hb
    · exact h.idle y hy
  | @advance x rest hi =>
    have hmem : ∀ y, y ∈ x ::ₘ rest → ∃ t ∈ f.trees, OnChecked t (passedIn past) y.held := by
      intro y hy
      exact h.idle y (hi ▸ hy)
    refine h.extend shows_quiet h.marks h.roots (fun y hy => hmem y (Multiset.mem_cons_of_mem hy)) ?_
    intro j hj
    rcases Multiset.mem_cons.1 hj with rfl | hj
    · obtain ⟨t, ht, ho⟩ := hmem x (Multiset.mem_cons_self _ _)
      exact ⟨passedIn past, passedIn_cons _ _, careful_advanceHandle ht ho⟩
    · exact h.jobs_cons hj
  | @ask s₁ op k r rest hj ha =>
    obtain ⟨known, hk, hneed, hnext⟩ := h.jobs (.ask op k) (hj ▸ Multiset.mem_cons_self _ _)
    obtain ⟨hmarks, hroots, hidle⟩ := h.answers hk hneed ha
    refine h.extend (shows_label hk hneed) hmarks hroots ?_ ?_
    · intro x hx
      exact h.idle x (hidle ▸ hx)
    · intro j hj'
      rcases Multiset.mem_cons.1 hj' with rfl | hj'
      · refine ⟨known ∪ op.gain r, ?_, hnext r⟩
        exact Set.union_subset (hk.trans (passedIn_cons _ _)) (h.gain_subset rfl hneed ha)
      · exact h.jobs_cons (hj ▸ Multiset.mem_cons_of_mem hj')
  | @done x rest hj =>
    obtain ⟨known, hk, hx⟩ := h.jobs (.done x) (hj ▸ Multiset.mem_cons_self _ _)
    refine h.extend shows_quiet h.marks h.roots ?_ fun j hj' => h.jobs_cons (hj ▸ Multiset.mem_cons_of_mem hj')
    intro y hy
    cases x with
    | none => exact h.idle y hy
    | some x =>
      rcases Multiset.mem_cons.1 hy with rfl | hy
      · obtain ⟨t, ht, ho⟩ := hx y rfl
        exact ⟨t, ht, ho.mono hk⟩
      · exact h.idle y hy
  | fail hj =>
    exact h.extend shows_quiet h.marks h.roots h.idle fun j hj' => h.jobs_cons (hj ▸ Multiset.mem_cons_of_mem hj')
  | release tree =>
    refine h.extend shows_quiet h.marks ?_ h.idle fun j hj => h.jobs_cons hj
    intro tree' b hb
    dsimp only at hb
    split at hb
    · cases hb
    · exact h.roots tree' b hb

theorem BufferRun.sound (h : BufferRun store f past s) : Sound f past s := by
  apply Run.invariant (I := Sound f) _ _ h
  · rintro s rfl
    refine ⟨?_, ?_, ?_, ?_, ?_, ?_⟩
    · intro b hb
      exact absurd hb (Nat.lt_irrefl 0)
    · intro tree b hb
      cases hb
    · intro x hx
      exact absurd hx (Multiset.notMem_zero x)
    · intro j hj
      exact absurd hj (Multiset.notMem_zero j)
    · intro later e earlier tree b hpast
      simp at hpast
    · intro e he
      cases he
  · intro past s l s' hsound hstep
    exact hsound.step hstep

end

/-! ## The trees of an open database -/

/-- The trees of a table, in the order they are given their identities. -/
def Table.trees (t : Table) : List Tree := t.primary :: t.secondaries.map (·.tree)

def Database.trees (db : Database) : List Tree := db.tables.flatMap Table.trees

variable {store : PageStore} {opts : OpenOptions} {id : Nat}

theorem Index.build_tree {d : IndexDescriptor} {i : Index}
    (h : Index.build d store opts id = .ok i) : i.tree.id = id ∧ i.tree.validateDigests = opts.validateDigests := by
  unfold Index.build at h
  rw [guard_eq_ok] at h
  obtain ⟨source, -, h⟩ := bind_eq_ok.1 h.2
  cases h
  exact ⟨rfl, rfl⟩

theorem Index.buildAll_trees {ds : List IndexDescriptor} {is : List Index} (h : Index.buildAll store opts id ds = .ok is) :
    is.map (·.tree.id) = List.range' id ds.length ∧ ∀ i ∈ is, i.tree.validateDigests = opts.validateDigests := by
  induction ds generalizing id is with
  | nil =>
    cases h
    simp
  | cons d ds ih =>
    obtain ⟨i, hi, h⟩ := bind_eq_ok.1 h
    obtain ⟨rest, hrest, h⟩ := bind_eq_ok.1 h
    cases h
    obtain ⟨hid, hval⟩ := Index.build_tree hi
    obtain ⟨hids, hvals⟩ := ih hrest
    refine ⟨?_, ?_⟩
    · simp [hid, hids, range'_succ]
    · intro i' hi'
      rcases mem_cons.1 hi' with rfl | hi'
      · exact hval
      · exact hvals i' hi'

theorem Table.build_trees {d : TableDescriptor} {t : Table} (h : Table.build d store opts id = .ok t) :
    t.trees.map (·.id) = List.range' id (1 + d.secondaries.length) ∧
      ∀ tree ∈ t.trees, tree.validateDigests = opts.validateDigests := by
  unfold Table.build at h
  rw [guard_eq_ok] at h
  obtain ⟨encoding, -, h⟩ := bind_eq_ok.1 h.2
  obtain ⟨secondaries, hs, h⟩ := bind_eq_ok.1 h
  cases h
  obtain ⟨hids, hvals⟩ := Index.buildAll_trees hs
  refine ⟨?_, ?_⟩
  · have hmap : (secondaries.map (·.tree)).map (·.id) = List.range' (id + 1) d.secondaries.length := by
      rw [map_map]
      exact hids
    simp [Table.trees, hmap, Nat.add_comm 1, range'_succ]
  · intro tree htree
    rcases mem_cons.1 htree with rfl | htree
    · rfl
    · obtain ⟨i, hi, rfl⟩ := mem_map.1 htree
      exact hvals i hi

theorem Table.buildAll_trees {ds : List TableDescriptor} {ts : List Table} (h : Table.buildAll store opts id ds = .ok ts) :
    (∃ n, (ts.flatMap Table.trees).map (·.id) = List.range' id n) ∧
      ∀ tree ∈ ts.flatMap Table.trees, tree.validateDigests = opts.validateDigests := by
  induction ds generalizing id ts with
  | nil =>
    cases h
    exact ⟨⟨0, rfl⟩, by simp⟩
  | cons d ds ih =>
    obtain ⟨t, ht, h⟩ := bind_eq_ok.1 h
    obtain ⟨rest, hrest, h⟩ := bind_eq_ok.1 h
    cases h
    obtain ⟨hids, hvals⟩ := Table.build_trees ht
    obtain ⟨⟨n, hn⟩, hrestvals⟩ := ih hrest
    refine ⟨⟨1 + d.secondaries.length + n, ?_⟩, ?_⟩
    · rw [flatMap_cons, map_append, hids, hn, Nat.add_assoc id, range'_append_1]
    · intro tree htree
      rw [flatMap_cons] at htree
      rcases mem_append.1 htree with htree | htree
      · exact hvals tree htree
      · exact hrestvals tree htree

/-- The trees of a database that is open with digest validation make a forest. -/
theorem exists_forest {file : Bytes} {db : Database} (h : openBytes opts file = .ok db)
    (hv : opts.validateDigests = true) : ∃ f : Forest, f.trees = db.trees := by
  unfold openBytes at h
  obtain ⟨header, -, h⟩ := bind_eq_ok.1 h
  obtain ⟨catalog, -, h⟩ := bind_eq_ok.1 h
  obtain ⟨⟨dirStart, dirEnd⟩, -, h⟩ := bind_eq_ok.1 h
  obtain ⟨-, h⟩ := guard_eq_ok.1 h
  obtain ⟨-, h⟩ := guard_eq_ok.1 h
  obtain ⟨filter, -, h⟩ := bind_eq_ok.1 h
  obtain ⟨tables, htables, h⟩ := bind_eq_ok.1 h
  cases h
  obtain ⟨⟨n, hids⟩, hvals⟩ := Table.buildAll_trees htables
  have hnodup : ((tables.flatMap Table.trees).map (·.id)).Nodup := hids ▸ nodup_range'
  refine ⟨⟨tables.flatMap Table.trees, ?_, ?_, ?_⟩, rfl⟩
  · intro t ht
    exact (hvals t ht).trans hv
  · intro t ht
    have hmem : t.id ∈ List.range' 1 n := hids ▸ mem_map_of_mem ht
    exact (mem_range'_1.1 hmem).1
  · intro t ht t' ht' hid
    exact inj_on_of_nodup_map hnodup ht ht' hid

/-- Along every run of searches, cached lookups, counts, cursors and page reads over trees that
share a store, a tree uses a buffer only after its own check has passed on that buffer; and what is
recorded as a passed check is one that succeeds. -/
theorem checked_before_use (store : PageStore) (f : Forest) {past : List (Event BufferState BufferLabel)}
    {s : BufferState} (h : BufferRun store f past s) :
    (∀ later e earlier tree b, past = later ++ e :: earlier → e.label = .used tree b →
      ∃ e' ∈ earlier, e'.label = .passed tree b) ∧
    ∀ e ∈ past, ∀ tree b, e.label = .passed tree b →
      ∀ t ∈ f.trees, t.id = tree → t.checkDigests b.pin.view = .ok () := by
  have hsound := BufferRun.sound h
  exact ⟨hsound.used, hsound.passed⟩

namespace Lone

def pin : PagePin := (tree.store.page 0).toOption.get (by decide +kernel)

def buffer : PageBuffer := ⟨0, pin⟩

def forest : Forest where
  trees := [tree]
  validates := by simp [tree]
  named := by simp [tree]
  distinct := by simp

theorem page_zero : tree.store.page 0 = .ok pin := rfl

/-- A cursor's first call, up to the moment at which it looks at the entries of the page. -/
theorem run_advance : ∃ e past s, BufferRun tree.store forest (e :: past) s ∧ e.label = .used 1 buffer := by
  have start : BufferRun tree.store forest [] {} := Run.start rfl
  have opened := start.next (.opened (h := .table ⟨cursor, 0⟩) (mem_singleton_self tree) rfl)
  have called := opened.next (.advance (show _ = Handle.table ⟨cursor, 0⟩ ::ₘ 0 from rfl))
  -- The root is not kept, so it is loaded into a buffer that nobody has checked.
  have unkept := called.next (.ask (show _ = Program.ask (.retainedRoot 1) _ ::ₘ 0 from rfl) ⟨rfl, rfl⟩)
  have loaded := unkept.next (.ask (show _ = Program.ask (.page 0) _ ::ₘ 0 from rfl)
    (.inr (.inr ⟨buffer, page_zero, fun _ h => (nomatch h), rfl, rfl⟩)))
  have unmarked := loaded.next
    (.ask (show _ = Program.ask (.digestsCheckedBy 1 buffer) _ ::ₘ 0 from rfl) ⟨rfl, rfl⟩)
  have passed := unmarked.next (.ask (show _ = Program.ask (.passed 1 buffer) _ ::ₘ 0 from rfl) (r := ()) rfl)
  have marked := passed.next
    (.ask (show _ = Program.ask (.markDigestsChecked 1 buffer) _ ::ₘ 0 from rfl) (r := ()) rfl)
  have kept := marked.next
    (.ask (show _ = Program.ask (.retainRoot 1 buffer) _ ::ₘ 0 from rfl) (r := ()) (.inl rfl))
  have used := kept.next (.ask (show _ = Program.ask (.uses 1 buffer) _ ::ₘ 0 from rfl) (r := ()) rfl)
  exact ⟨_, _, _, used, rfl⟩

end Lone

theorem checked_before_use_lone : ∃ e past s, BufferRun Lone.tree.store Lone.forest (e :: past) s ∧
    e.label = .used 1 Lone.buffer ∧ ∃ e' ∈ past, e'.label = .passed 1 Lone.buffer := by
  obtain ⟨e, past, s, hrun, he⟩ := Lone.run_advance
  refine ⟨e, past, s, hrun, he, ?_⟩
  exact (checked_before_use Lone.tree.store Lone.forest hrun).1 [] e past 1 Lone.buffer rfl he

end DryDb
