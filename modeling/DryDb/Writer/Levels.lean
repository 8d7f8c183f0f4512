import DryDb.Writer.Pages
/-!
# The levels of a tree being written

Every level of the writer is a chain of pages already in the file and one open page. Its
entries, written and open, are exactly the separators of the pages written one level
below. `LevelOk` says this of one level and `UpperOk` of all levels above it; writing a
page of one level leaves the pages of all other levels alone (`Grows`).
-/

namespace DryDb

open List TreeWriter

/-- The pages written at one level, in order: ordinal and entries. -/
abbrev Written := List (Nat × List Item)

/-- The separator that stands for a page one level up: its first key and its ordinal. -/
def separatorOf (w : Nat × List Item) : Item := { w.2.head! with body := .child w.1 }

/-- The pages of a level form one doubly linked chain behind `left`. -/
def Linked (pages : List Bytes) (kind : NodeKind) (layout : NodeLayout) : Option Nat → Written → Prop
  | _, [] => True
  | left, (o, items) :: rest =>
    pages[o]? = some (Node.image { kind, layout, items, left, right := rest.head?.map Prod.fst }) ∧
      Linked pages kind layout (some o) rest

/-- What the writer knows of the key of an entry. `fits` says that all keys of the tree
passed `checkKeyFits`. -/
structure KeyOk {E : Type} (cfg : WriterConfig E) (fits : Prop) (it : Item) : Prop where
  digest : cfg.encoding.digest it.key = .ok it.digest
  length : it.key.length ≤ u16Max
  minimum : cfg.layout.payloadStart .leaf 1 + cfg.layout.storedKeyLen it.key.length + 8 ≤ cfg.pageSize
  two : fits →
    cfg.layout.payloadStart .internal 2 + 2 * (cfg.layout.storedKeyLen it.key.length + 8) ≤ cfg.pageSize

/-- Writing pages of the levels in `touched` grows the file from `(s, pages)` to
`(s', pages')`. `tag` says which level of this tree a page belongs to. -/
structure Grows (touched : Nat → Prop) (s : PageSink) (pages : List Bytes) (tag : Nat → Option Nat)
    (s' : PageSink) (pages' : List Bytes) (tag' : Nat → Option Nat) : Prop where
  length : pages.length ≤ pages'.length
  tags : ∀ o < pages.length, tag' o = tag o
  keep : ∀ o < pages.length, (∀ k, tag o = some k → ¬ touched k) → pages'[o]? = pages[o]?
  directory : ∀ o < pages.length, s'.directory[o]? = s.directory[o]?
  filter : s'.filter = s.filter

namespace Grows

variable {S T : Nat → Prop} {s s' s'' : PageSink} {p p' p'' : List Bytes} {t t' t'' : Nat → Option Nat}

theorem refl (S : Nat → Prop) (s : PageSink) (p : List Bytes) (t : Nat → Option Nat) : Grows S s p t s p t :=
  ⟨le_rfl, fun _ _ => rfl, fun _ _ _ => rfl, fun _ _ => rfl, rfl⟩

theorem trans (h : Grows S s p t s' p' t') (h' : Grows S s' p' t' s'' p'' t'') : Grows S s p t s'' p'' t'' where
  length := h.length.trans h'.length
  tags o ho := (h'.tags o (by have := h.length; omega)).trans (h.tags o ho)
  keep o ho hk := (h'.keep o (by have := h.length; omega) (by rw [h.tags o ho]; exact hk)).trans (h.keep o ho hk)
  directory o ho := (h'.directory o (by have := h.length; omega)).trans (h.directory o ho)
  filter := h'.filter.trans h.filter

theorem mono (h : Grows S s p t s' p' t') (hS : ∀ k, S k → T k) : Grows T s p t s' p' t' where
  length := h.length
  tags := h.tags
  keep o ho hk := h.keep o ho fun k hk' hS' => hk k hk' (hS k hS')
  directory := h.directory
  filter := h.filter

end Grows

variable {pages pages' : List Bytes} {kind : NodeKind} {layout : NodeLayout} {left : Option Nat} {ws : Written}

theorem Linked.lt_length (h : Linked pages kind layout left ws) : ∀ w ∈ ws, w.1 < pages.length := by
  induction ws generalizing left with
  | nil => simp
  | cons w ws ih =>
    intro v hv
    rcases mem_cons.1 hv with rfl | hv
    · exact (List.getElem?_eq_some_iff.1 h.1).1
    · exact ih h.2 v hv

/-- A chain depends only on its own pages. -/
theorem Linked.congr (h : Linked pages kind layout left ws) (he : ∀ w ∈ ws, pages'[w.1]? = pages[w.1]?) :
    Linked pages' kind layout left ws := by
  induction ws generalizing left with
  | nil => trivial
  | cons w ws ih =>
    refine ⟨?_, ih h.2 fun v hv => he v (mem_cons_of_mem _ hv)⟩
    rw [he w mem_cons_self]
    exact h.1

/-- A new page at the end of a chain: the page before it gets its ordinal. -/
theorem Linked.snoc {o : Nat} {items : List Item} (h : Linked pages kind layout left ws) (hd : (ws.map Prod.fst).Nodup)
    (hnew : pages'[o]? = some (Node.image
      { kind, layout, items, left := (ws.getLast?.map Prod.fst).or left, right := none }))
    (hlast : ∀ w page, ws.getLast? = some w → pages[w.1]? = some page →
      pages'[w.1]? = some (setRight page (some o)))
    (hrest : ∀ w ∈ ws, (∀ v, ws.getLast? = some v → w.1 ≠ v.1) → pages'[w.1]? = pages[w.1]?) :
    Linked pages' kind layout left (ws ++ [(o, items)]) := by
  induction ws generalizing left with
  | nil => exact ⟨by simpa using hnew, trivial⟩
  | cons w ws ih =>
    rw [map_cons, nodup_cons] at hd
    cases ws with
    | nil =>
      refine ⟨?_, by simpa using hnew, trivial⟩
      rw [hlast w _ rfl h.1, Node.setRight_image]
      rfl
    | cons v vs =>
      have hne : (w :: v :: vs).getLast? = (v :: vs).getLast? := by simp
      refine ⟨?_, ih h.2 hd.2 ?_ ?_ ?_⟩
      · rw [hrest w mem_cons_self]
        · exact h.1
        · intro u hu he
          rw [hne] at hu
          exact hd.1 (he ▸ mem_map_of_mem (mem_of_getLast? hu))
      · rw [hnew, hne]
        cases hg : (v :: vs).getLast? with
        | none => simp at hg
        | some u => rfl
      · intro u page hu
        exact hlast u page (hne.trans hu)
      · intro u hu hne'
        refine hrest u (mem_cons_of_mem _ hu) fun x hx => hne' x ?_
        rw [← hne]
        exact hx

/-! ## One level -/

section

variable {E σ : Type} {cfg : WriterConfig E} {fits : Prop} {pages : List Bytes} {tag : Nat → Option Nat} {k : Nat}
  {items es : List Item} {front : Bytes} {kind : NodeKind} {ws : Written} {out : Output σ}

/-- Level `k` has been given `items`: the pages `ws` are written and `es` are open. -/
structure LevelOk (cfg : WriterConfig E) (s : PageSink) (pages : List Bytes) (tag : Nat → Option Nat) (k : Nat)
    (kind : NodeKind) (items : List Item) (l : Level E) (ws : Written) (es : List Item) : Prop where
  split : items = ws.flatMap Prod.snd ++ es
  holds : l.Holds cfg.layout es
  firstKey : ∀ it ∈ es.head?, l.firstKey = some it.key
  prevOrdinal : l.prevOrdinal = ws.getLast?.map Prod.fst
  prevOffset : l.prevOffset = ws.getLast?.bind fun w => s.directory[w.1]?
  ascending : (ws.map Prod.fst).Pairwise (· < ·)
  nonempty : ∀ w ∈ ws, w.2 ≠ []
  tagged : ∀ w ∈ ws, tag w.1 = some k
  size : ∀ w ∈ ws, Node.len { kind, layout := cfg.layout, items := w.2 } ≤ cfg.pageSize
  linked : Linked pages kind cfg.layout none ws
  openSize : Node.len { kind, layout := cfg.layout, items := es } ≤ cfg.pageSize

/-- The levels above one whose pages have the separators `items`. Each exists because a
page below it was written, and a written internal page holds two separators or more. -/
def UpperOk (cfg : WriterConfig E) (fits : Prop) (s : PageSink) (pages : List Bytes) (tag : Nat → Option Nat) :
    Nat → List Item → List (Level E) → Prop
  | _, items, [] => items = []
  | k, items, l :: ls => items ≠ [] ∧ ∃ ws es, LevelOk cfg s pages tag k .internal items l ws es ∧
      (fits → 2 * ws.length ≤ (ws.flatMap Prod.snd).length) ∧ UpperOk cfg fits s pages tag (k + 1) (ws.map separatorOf) ls

namespace LevelOk

variable {s s' : PageSink} {pages pages' : List Bytes} {tag tag' : Nat → Option Nat} {k : Nat} {kind : NodeKind}
  {items es : List Item} {l : Level E} {ws : Written}

theorem lt_length (h : LevelOk cfg s pages tag k kind items l ws es) {w : Nat × List Item} (hw : w ∈ ws) :
    w.1 < pages.length := h.linked.lt_length w hw

/-- Writing pages of other levels leaves a level as it is. -/
theorem grow (h : LevelOk cfg s pages tag k kind items l ws es) {S : Nat → Prop} (hg : Grows S s pages tag s' pages' tag')
    (hk : ¬ S k) : LevelOk cfg s' pages' tag' k kind items l ws es where
  split := h.split
  holds := h.holds
  firstKey := h.firstKey
  prevOrdinal := h.prevOrdinal
  prevOffset := by
    rw [h.prevOffset]
    cases hl : ws.getLast? with
    | none => rfl
    | some w => exact (hg.directory _ (h.lt_length (mem_of_getLast? hl))).symm
  ascending := h.ascending
  nonempty := h.nonempty
  tagged w hw := by rw [hg.tags _ (h.lt_length hw)]; exact h.tagged w hw
  size := h.size
  linked := by
    refine h.linked.congr fun w hw => hg.keep _ (h.lt_length hw) fun j hj => ?_
    rw [h.tagged w hw, Option.some.injEq] at hj
    exact hj ▸ hk
  openSize := h.openSize

/-- A level has no more pages than the file. -/
theorem length_le (h : LevelOk cfg s pages tag k kind items l ws es) : ws.length ≤ pages.length := by
  have hnd : (ws.map Prod.fst).Nodup := h.ascending.imp fun hlt => Nat.ne_of_lt hlt
  have hsub : ws.map Prod.fst ⊆ List.range pages.length := by
    intro o ho
    obtain ⟨w, hw, rfl⟩ := mem_map.1 ho
    exact mem_range.2 (h.lt_length hw)
  simpa using (subperm_of_subset hnd hsub).length_le

theorem entryCount_eq (h : LevelOk cfg s pages tag k kind items l ws es) : l.entryCount = es.length := by
  simp [Level.entryCount, h.holds.sizes]

end LevelOk

theorem UpperOk.grow {s s' : PageSink} {pages' : List Bytes} {tag' : Nat → Option Nat} {S : Nat → Prop}
    (hg : Grows S s pages tag s' pages' tag') (hS : ∀ j, k ≤ j → ¬ S j)
    {ls : List (Level E)} (h : UpperOk cfg fits s pages tag k items ls) : UpperOk cfg fits s' pages' tag' k items ls := by
  induction ls generalizing k items with
  | nil => exact h
  | cons l ls ih =>
    obtain ⟨hne, ws, es, hl, hhalf, hup⟩ := h
    exact ⟨hne, ws, es, hl.grow hg (hS k le_rfl), hhalf, ih (fun j hj => hS j (by omega)) hup⟩

/-! ## Writing the open page of a level -/

/-- The failures that come from outside the writer: the page limit of the directory, once it has a number of
pages that may be `full`, the page filter on a page of the tree or of one of the values, and the caller. A level
limit is one only for a key that does not fit. -/
inductive WriterFault (cfg : WriterConfig E) (fits : Prop) (full : Nat → Prop) (values : List Bytes) (filter : Option PageFilter)
    (onValueRef : σ → E → PageRef → Result σ) : Error → Prop
  | pageLimit {s : PageSink} {e : Error} : full s.directory.length → s.beginPage = .error e →
      WriterFault cfg fits full values filter onValueRef e
  | filtered {page : Bytes} {e : Error} : page.length ≤ cfg.pageSize ∨ page ∈ values.map blobImage →
      PageSink.storedPage filter page = .error e → WriterFault cfg fits full values filter onValueRef e
  | caller {c : σ} {x : E} {r : PageRef} {e : Error} : onValueRef c x r = .error e →
      WriterFault cfg fits full values filter onValueRef e
  | levels : ¬ fits → WriterFault cfg fits full values filter onValueRef levelLimit

variable {full : Nat → Prop} {values : List Bytes} {onValueRef : σ → E → PageRef → Result σ}

theorem handOver_meets {filter : Option PageFilter} (ordinal offset : Nat) (entries : List ((Nat × Nat) × Option PageRef))
    (extras : List E) (c : σ) :
    Meets (WriterFault cfg fits full values filter onValueRef)
      (fun c' => handOver onValueRef ordinal offset entries extras c = .ok c')
      (handOver onValueRef ordinal offset entries extras c) := by
  refine Meets.of_fault fun e he => ?_
  induction entries generalizing offset extras c with
  | nil => simp [handOver] at he
  | cons entry entries ih =>
    cases extras with
    | nil => simp [handOver] at he
    | cons extra extras =>
      rw [handOver] at he
      cases hc : onValueRef c extra (valueRef ordinal offset entry) with
      | error e' =>
        rw [hc, error_bind, Except.error.injEq] at he
        exact he ▸ .caller hc
      | ok c' =>
        rw [hc, ok_bind] at he
        exact ih _ _ _ he

theorem Level.Holds.pageLen_eq {l : Level E} {layout : NodeLayout} (h : l.Holds layout es)
    (kind : NodeKind) : l.pageLen layout kind = Node.len { kind, layout, items := es } := by
  simp [Level.pageLen, Node.len, Node.base, Node.payload, Level.entryCount, h.sizes, h.payload]

/-- The entries whose extras a page hands over. -/
def handed (layout : NodeLayout) (kind : NodeKind) (es : List Item) : List ((Nat × Nat) × Option PageRef) :=
  if kind = .leaf then Node.columns { kind, layout, items := es } else []

/-- What writing the open page of level `k` comes to. -/
structure LevelWritten (cfg : WriterConfig E) (onValueRef : σ → E → PageRef → Result σ) (front : Bytes) (k : Nat)
    (kind : NodeKind) (l : Level E) (ws : Written) (es : List Item) (out : Output σ) (pages : List Bytes)
    (tag : Nat → Option Nat) (ordinal offset : Nat) (out' : Output σ) (pages' : List Bytes) : Prop where
  holds : out'.sink.Holds front pages'
  next : ordinal = pages.length
  limit : ordinal < i32Max
  begins : out'.sink.directory[ordinal]? = some offset
  grows : Grows (· = k) out.sink pages tag out'.sink pages' (Function.update tag ordinal (some k))
  length : pages'.length = pages.length + 1
  linked : Linked pages' kind cfg.layout none (ws ++ [(ordinal, es)])
  caller : handOver onValueRef ordinal (cfg.layout.payloadStart kind es.length)
    (handed cfg.layout kind es) l.extras out.caller = .ok out'.caller

theorem prefixed_image {E : Type} (l : Level E) (layout : NodeLayout) (kind : NodeKind) :
    pagePrefixLen ≤ (l.image layout kind).length := by
  simp only [Level.image, length_append, length_pagePrefix]
  omega

/-- Linking the page just written to the one before it. -/
theorem linkPrevious_written {l : Level E} {mid : Output σ} {ordinal offset : Nat}
    (hl : LevelOk cfg out.sink pages tag k kind items l ws es) (ho : ordinal = pages.length)
    (hm : mid.sink.Holds front (pages ++ [l.image cfg.layout kind])) (hd : mid.sink.directory[ordinal]? = some offset)
    (hdir : ∀ o < pages.length, mid.sink.directory[o]? = out.sink.directory[o]?) (hf : mid.sink.filter = out.sink.filter) :
    ∃ pages', (linkPrevious l ordinal mid).sink.Holds front pages' ∧ pages'.length = pages.length + 1 ∧
      (linkPrevious l ordinal mid).sink.directory[ordinal]? = some offset ∧
      Grows (· = k) out.sink pages tag (linkPrevious l ordinal mid).sink pages'
        (Function.update tag ordinal (some k)) ∧
      Linked pages' kind cfg.layout none (ws ++ [(ordinal, es)]) := by
  have himg := hl.holds.image_eq kind
  have htag : ∀ o < pages.length, Function.update tag ordinal (some k) o = tag o := fun o hlt =>
    Function.update_of_ne (by omega) _ _
  have hnew : (pages ++ [l.image cfg.layout kind])[ordinal]? = some (l.image cfg.layout kind) := by simp [ho]
  have hnd : (ws.map Prod.fst).Nodup := hl.ascending.imp fun hlt => Nat.ne_of_lt hlt
  have hold : ∀ o < pages.length, (pages ++ [l.image cfg.layout kind])[o]? = pages[o]? := fun o hlt =>
    getElem?_append_left hlt
  unfold linkPrevious
  rw [hl.prevOffset]
  cases hlast : ws.getLast? with
  | none =>
    have hws : ws = [] := getLast?_eq_none_iff.1 hlast
    subst hws
    refine ⟨_, hm, by simp, hd, ⟨by simp, htag, fun o hlt _ => hold o hlt, hdir, hf⟩, ?_⟩
    refine ⟨?_, trivial⟩
    rw [hnew, himg, hl.prevOrdinal]
    rfl
  | some w =>
    have hw : w ∈ ws := mem_of_getLast? hlast
    have hlt := hl.lt_length hw
    have hpage := getElem?_eq_getElem hlt
    have hdlen := hm.length_directory
    have hmid : mid.sink.directory[w.1]? = out.sink.directory[w.1]? := hdir _ hlt
    obtain ⟨off, hoff⟩ : ∃ off, mid.sink.directory[w.1]? = some off :=
      ⟨_, getElem?_eq_getElem (by rw [hdlen]; simp; omega)⟩
    rw [Option.bind_some, ← hmid, hoff]
    have hpatch := hm.patchRight hoff ((hold _ hlt).trans hpage) (some ordinal)
    refine ⟨_, hpatch, by simp, hd, ⟨by simp, htag, ?_, hdir, hf⟩, ?_⟩
    · intro o ho' htag'
      rw [getElem?_set_ne, hold o ho']
      rintro rfl
      exact htag' k (hl.tagged w hw) rfl
    · refine hl.linked.snoc hnd ?_ ?_ ?_
      · rw [getElem?_set_ne (by omega), hnew, himg, hl.prevOrdinal]
        simp
      · intro v page hv hp
        rw [hlast, Option.some.injEq] at hv
        subst hv
        rw [hpage, Option.some.injEq] at hp
        subst hp
        rw [getElem?_set_self (by simp; omega)]
      · intro v hv hne
        rw [getElem?_set_ne (hne w hlast).symm, hold _ (hl.lt_length hv)]

/-- The open page of a level goes to the end of the file and of its chain. -/
theorem writeLevel_meets {l : Level E} (hs : out.sink.Holds front pages)
    (hl : LevelOk cfg out.sink pages tag k kind items l ws es) (hmay : full pages.length) :
    Meets (WriterFault cfg fits full values out.sink.filter onValueRef)
      (fun r => ∃ pages', LevelWritten cfg onValueRef front k kind l ws es out pages tag r.1 r.2.1 r.2.2 pages')
      (writeLevel cfg onValueRef kind l out) := by
  unfold writeLevel
  refine Meets.bind (Meets.of_fault fun e he => .pageLimit (hs.length_directory ▸ hmay) he) ?_
  rintro ⟨ordinal, offset, begun⟩ hb -
  have hfilter : begun.filter = out.sink.filter := by
    unfold PageSink.beginPage at hb
    rw [guard_eq_ok] at hb
    simp only [Except.ok.injEq, Prod.mk.injEq] at hb
    obtain ⟨-, -, -, rfl⟩ := hb
    rfl
  have hdir : ∀ o < pages.length, begun.directory[o]? = out.sink.directory[o]? := by
    intro o ho
    unfold PageSink.beginPage at hb
    rw [guard_eq_ok] at hb
    simp only [Except.ok.injEq, Prod.mk.injEq] at hb
    obtain ⟨-, -, -, rfl⟩ := hb
    exact getElem?_append_left (by rw [hs.length_directory]; exact ho)
  have hentries : (if kind = .leaf then l.sizes.zip l.overflow else []) = handed cfg.layout kind es := by
    unfold handed
    rw [hl.holds.sizes, hl.holds.overflow, ← Node.zip_columns]
    rfl
  have hbase : cfg.layout.payloadStart kind l.entryCount = cfg.layout.payloadStart kind es.length := by
    rw [hl.entryCount_eq]
  unfold flushPage
  simp only [hl.holds.pageLen_eq kind]
  rw [if_neg (by have := hl.openSize; omega), hentries, hbase]
  refine Meets.bind (P := fun mid => mid.sink.Holds front (pages ++ [l.image cfg.layout kind]) ∧ ordinal = pages.length ∧
    ordinal < i32Max ∧ mid.sink.directory[ordinal]? = some offset ∧ mid.sink.filter = out.sink.filter ∧
    mid.sink.directory = begun.directory ∧
    handOver onValueRef ordinal (cfg.layout.payloadStart kind es.length)
      (handed cfg.layout kind es) l.extras out.caller = .ok mid.caller) ?_ ?_
  · refine Meets.bind (Meets.of_fault fun e he => ?_) fun sink hw _ => ?_
    · rw [PageSink.writePage, map_eq_error, hfilter] at he
      refine .filtered (.inl ?_) he
      rw [hl.holds.image_eq kind, Node.length_image]
      exact hl.openSize
    · obtain ⟨ho, hlim, hfil, hholds, hoff⟩ := hs.addPage hb hw (prefixed_image l cfg.layout kind)
      refine Meets.bind (handOver_meets ..) fun c hc _ => ?_
      refine ⟨hholds, ho, hlim, hoff, hfil, ?_, hc⟩
      obtain ⟨st, -, rfl⟩ := map_eq_ok.1 hw
      rfl
  · rintro mid - ⟨hholds, ho, hlim, hoff, hfil, hdm, hcaller⟩
    obtain ⟨pages', h1, h2, h3, h4, h5⟩ := linkPrevious_written hl ho hholds hoff
      (fun o hlt => by rw [hdm]; exact hdir o hlt) hfil
    refine ⟨pages', ⟨h1, ho, hlim, h3, h4, h2, h5, ?_⟩⟩
    rw [hcaller]
    unfold linkPrevious
    split <;> rfl

end

end DryDb
