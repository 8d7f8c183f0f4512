import DryDb.Reader.Image
import DryDb.Reader.Listed
import DryDb.Writer.Served
/-!
# A finished tree answers as the list of its entries

`Finished.lists`: a tree the writer finished, read by an encoding that orders its keys, lists the
entries it was given, whatever the cache does meanwhile (`Tree.Lists`). Lookups, cursors and counts
of a table or of an index follow from that alone.
-/

namespace DryDb

open List

/-! ## A tree has no more levels than the file has pages -/

section

variable {layout : NodeLayout} {pageSize : Nat} {pages : List Bytes} {tag : Nat → Option Nat} {root k : Nat}
  {kind : NodeKind} {items : List Item} {levels : List Written}

theorem Stack.items_ne (h : Stack layout pageSize pages tag root k kind items levels) (hk : kind = .internal) : items ≠ [] := by
  induction h with
  | root _ _ _ hne => exact hne hk
  | @level k kind items ws rest hitems _ _ hpages _ ih =>
    obtain ⟨w, hw⟩ := exists_mem_of_ne_nil ws fun hnil => ih rfl (by simp [hnil])
    subst hitems
    intro hnil
    exact (hpages w hw).1 (flatMap_eq_nil_iff.1 hnil w hw)

/-- Every level has a page, and a page is on one level only. -/
theorem Stack.tagged (h : Stack layout pageSize pages tag root k kind items levels) :
    ∃ os : List Nat, os.map tag = (List.range' k levels.length).map some ∧ ∀ o ∈ os, o < pages.length := by
  induction h with
  | @root k kind es hpage _ htag _ =>
    refine ⟨[root], by simp [htag], ?_⟩
    simpa using (List.getElem?_eq_some_iff.1 hpage).1
  | @level k kind items ws rest _ hlink _ hpages hrest ih =>
    obtain ⟨os, hos, hlt⟩ := ih
    obtain ⟨w, hw⟩ := exists_mem_of_ne_nil ws fun hnil => hrest.items_ne rfl (by simp [hnil])
    refine ⟨w.1 :: os, ?_, ?_⟩
    · simp [hos, (hpages w hw).2.2, range'_succ]
    · intro o ho
      rcases mem_cons.1 ho with rfl | ho
      · exact hlink.lt_length w hw
      · exact hlt o ho

theorem length_le_of_nodup {l : List Nat} {n : Nat} (h : l.Nodup) (hlt : ∀ o ∈ l, o < n) : l.length ≤ n := by
  have := (subperm_of_subset h fun o ho => mem_range.2 (hlt o ho)).length_le
  rwa [length_range] at this

theorem Stack.height_le (h : Stack layout pageSize pages tag root k kind items levels) : levels.length ≤ pages.length := by
  obtain ⟨os, hos, hlt⟩ := h.tagged
  have hlen : os.length = levels.length := by simpa using congrArg List.length hos
  have hnodup : (os.map tag).Nodup := by
    rw [hos]
    exact List.Nodup.map (Option.some_injective _) (nodup_range' ..)
  rw [← hlen]
  exact length_le_of_nodup hnodup.of_map hlt

theorem Stack.width_le {leaves : Written} {upper : List Written}
    (h : Stack layout pageSize pages tag root k kind items (leaves :: upper)) : leaves.length ≤ pages.length := by
  cases h with
  | root hpage _ _ _ =>
    have := (List.getElem?_eq_some_iff.1 hpage).1
    rw [length_singleton]
    omega
  | level _ hlink hasc _ _ =>
    rw [← length_map Prod.fst]
    refine length_le_of_nodup (hasc.imp Nat.ne_of_lt) ?_
    intro o ho
    obtain ⟨w, hw, rfl⟩ := mem_map.1 ho
    exact hlink.lt_length w hw

end

/-! ## The entries as they are stored -/

section

variable {E σ : Type} {cfg : WriterConfig E} {fits : Prop} {pages : List Bytes} {tag : Nat → Option Nat} {items : List Item}
  {given : List (Bytes × Bytes × E)}

/-- The row of an entry given to a tree. -/
def entryRow (e : Bytes × Bytes × E) : Bytes × Bytes := (e.1, e.2.1)

theorem ItemOf.rowOf_eq {it : Item} {e : Bytes × Bytes × E} (h : ItemOf cfg fits pages tag it e) : rowOf pages it = entryRow e := by
  have hv := h.value
  unfold rowOf entryRow
  rw [h.key]
  cases hb : it.body with
  | inline value => rw [hb] at hv; rw [Body.stored, hv]
  | child page => rw [hb] at hv; exact hv.elim
  | blob page length =>
    rw [hb] at hv
    rw [Body.stored, hv.2.1, Option.getD_some, drop_blobImage]

theorem rows_of_items
    (h : List.Forall₂ (ItemOf cfg fits pages tag) items given) : items.map (rowOf pages) = given.map entryRow := by
  induction h with
  | nil => rfl
  | cons hit _ ih => rw [map_cons, map_cons, hit.rowOf_eq, ih]

theorem blobsStored_of_items (h : List.Forall₂ (ItemOf cfg fits pages tag) items given)
    (hlen : ∀ e ∈ given, pagePrefixLen + e.2.1.length ≤ i32Max) : BlobsStored pages items := by
  intro it hit page length hb
  obtain ⟨e, he, hof⟩ := exists_of_mem_left h hit
  have hv := hof.value
  rw [hb] at hv
  exact ⟨e.2.1, hv.2.1, hlen e he⟩

/-- Keys the encoding takes, given in ascending order, are the keys of the items. -/
theorem keyed_of_items {ρ : Type} [LinearOrder ρ] {rank : Bytes → ρ}
    (h : List.Forall₂ (ItemOf cfg fits pages tag) items given) (hacc : ∀ e ∈ given, cfg.encoding.Accepts e.1)
    (hasc : given.Pairwise fun a b => rank a.1 < rank b.1) : ItemsKeyed cfg.encoding rank items where
  accepted it hit := by
    obtain ⟨e, he, hof⟩ := exists_of_mem_left h hit
    exact hof.key ▸ hacc e he
  digest it hit := by
    obtain ⟨e, -, hof⟩ := exists_of_mem_left h hit
    exact hof.ok.digest
  ascending := by
    have hkeys : items.map Item.key = given.map Prod.fst := by
      clear hacc hasc
      induction h with
      | nil => rfl
      | cons hit _ ih => rw [map_cons, map_cons, hit.key, ih]
    have hpair : (items.map Item.key).Pairwise fun a b => rank a < rank b := by
      rw [hkeys]
      exact pairwise_map.2 hasc
    exact (pairwise_map (f := Item.key)).1 hpair

end

/-! ## Trees that list their entries -/

section

variable {ρ : Type} [LinearOrder ρ] {t : Tree} {rank : Bytes → ρ}

/-- The pages of a tree are those of the file, so they are the same in every environment. -/
theorem ServedTree.pins_eq {env env' : Env} {layout : NodeLayout} {leaves : Written} {h root : Nat} {pins pins' : List PagePin}
    (hs : ServedTree t env rank layout leaves h root pins) (hs' : ServedTree t env' rank layout leaves h root pins')
    (hreads : env.Reads t.store) (hreads' : env'.Reads t.store) : pins = pins' := by
  have hfetch : ∀ o, t.fetch env o = t.fetch env' o := by
    intro o
    unfold Tree.fetch
    rw [hreads o, hreads' o]
  have hsame : ∀ {part : Written} {pins pins' : List PagePin}, List.Forall₂ (LeafPage t env layout leaves) part pins →
      List.Forall₂ (LeafPage t env' layout leaves) part pins' → pins = pins' := by
    intro part pins pins' hl
    induction hl generalizing pins' with
    | nil =>
      intro hl'
      cases hl'
      rfl
    | cons hp _ ih =>
      intro hl'
      cases hl' with
      | cons hp' hrest =>
        have heq := hp.fetched
        rw [hfetch, hp'.fetched, Except.ok.injEq] at heq
        rw [heq, ih hrest]
  exact hsame hs.pages hs'.pages

variable {E σ : Type} {cfg : WriterConfig E} {onValueRef : σ → E → PageRef → Result σ} {fits : Prop} {front : Bytes}
  {s₀ : PageSink} {pages₀ pages : List Bytes} {c₀ : σ} {given : List (Bytes × Bytes × E)} {root : Nat} {out : Output σ}
  {tag : Nat → Option Nat} {items : List Item} {leaves : Written} {upper : List Written}

/-- A finished tree lists the entries it was given. The keys of `probe` are those the search places. -/
theorem Finished.lists_for
    (h : Finished cfg onValueRef fits front s₀ pages₀ c₀ given root out pages tag items leaves upper)
    (hlay : LayoutOk cfg.layout cfg.pageSize) (henc : t.encoding = cfg.encoding) (hs : t.encoding.Serves rank)
    (hexact : cfg.layout.omittedKeys = true → t.encoding.isDigestExact = true)
    (hacc : ∀ e ∈ given, t.encoding.Accepts e.1) (hasc : given.Pairwise fun a b => rank a.1 < rank b.1)
    (hlen : ∀ e ∈ given, pagePrefixLen + e.2.1.length ≤ i32Max) (hroot : t.root = some root)
    (hcount : pages.length ≤ t.store.pageCount) (hheight : upper.length < t.store.limits.maxTreeDepth)
    (henv : ∀ env : Env, env.Reads t.store → env.Delivers pages) {probe : Bytes → Prop}
    (hkeys : ∀ key, t.encoding.Accepts key → probe key)
    (hcompare : ∀ a b, probe a → probe b → t.encoding.compare a b = .ok (Ord.compare (rank a) (rank b)))
    (hinj : ∀ a b, probe a → probe b → rank a = rank b → a = b)
    (hprobes : ∀ (env : Env) (pins : List PagePin), env.Ready t →
      ServedTree t env rank cfg.layout leaves upper.length root pins → ∀ q, probe q → ∃ d, t.encoding.digest q = .ok d ∧
        Placed t q d pins (fun x => Ord.compare (rank (itemAt leaves x).key) (rank q)) ∧
        Meets never (Lands True pins fun x => Ord.compare (rank (itemAt leaves x).key) (rank q)) ((t.descend q d).run env)) :
    t.Lists rank probe (given.map entryRow) := by
  have hfit : ∀ it ∈ items, it.Fits .leaf := by
    intro it hit
    obtain ⟨e, -, he⟩ := exists_of_mem_left h.items hit
    exact ⟨he.ok.length, he.body⟩
  have hkeyed : ItemsKeyed t.encoding rank items := by
    rw [henc] at hacc ⊢
    exact keyed_of_items h.items hacc hasc
  have hleaves : leaves.flatMap Prod.snd = items := by
    obtain ⟨ws, rest, he, hi⟩ := h.stack.flatMap_succ
    rw [List.cons.injEq] at he
    rw [he.1, hi]
  have hblobs := blobsStored_of_items h.items hlen
  have hwidth : leaves.length ≤ t.store.pageCount + 1 := by
    have := h.stack.width_le
    omega
  have hserved : ∀ env : Env, env.Reads t.store → ∃ pins, ServedTree t env rank cfg.layout leaves upper.length root pins :=
    fun env hreads => h.stack.served hlay h.sink.limit (henv env hreads) hs hexact hfit hkeyed
  obtain ⟨pins, hpins⟩ := hserved (Env.warm t.store) (Env.warm_reads t.store)
  refine ⟨pins, fun x => rowOf pages (itemAt leaves x), ?_, fun env hready => ?_⟩
  · rw [hpins.entriesOf_eq, hleaves, rows_of_items h.items]
  · obtain ⟨pins', hpins'⟩ := hserved env hready.reads
    obtain rfl := hpins'.pins_eq hpins hready.reads (Env.warm_reads t.store)
    exact hpins'.keyed_for (henv env hready.reads) hs hexact hready.honest hroot hheight hready.unrefused (hleaves ▸ hblobs) hwidth
      hkeys hcompare hinj (hprobes env pins' hready hpins')

/-- Every key the encoding takes is placed. -/
theorem Finished.lists
    (h : Finished cfg onValueRef fits front s₀ pages₀ c₀ given root out pages tag items leaves upper)
    (hlay : LayoutOk cfg.layout cfg.pageSize) (henc : t.encoding = cfg.encoding) (hs : t.encoding.Serves rank)
    (hexact : cfg.layout.omittedKeys = true → t.encoding.isDigestExact = true)
    (hacc : ∀ e ∈ given, t.encoding.Accepts e.1) (hasc : given.Pairwise fun a b => rank a.1 < rank b.1)
    (hlen : ∀ e ∈ given, pagePrefixLen + e.2.1.length ≤ i32Max) (hroot : t.root = some root)
    (hcount : pages.length ≤ t.store.pageCount) (hheight : upper.length < t.store.limits.maxTreeDepth)
    (henv : ∀ env : Env, env.Reads t.store → env.Delivers pages) : t.Lists rank t.encoding.Accepts (given.map entryRow) := by
  refine h.lists_for hlay henc hs hexact hacc hasc hlen hroot hcount hheight henv (fun _ hkey => hkey) hs.ordered.compare
    hs.ordered.inj fun env pins hready hserved q hq => ?_
  obtain ⟨d, hd⟩ := hq.2
  exact ⟨d, hd, hserved.probe hs hexact hready.honest hroot hheight hq hd⟩

end

end DryDb
