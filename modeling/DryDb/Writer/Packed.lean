import DryDb.Writer.References
/-!
# Pages decode to what was packed into them

`Packs cfg kind l items` says that the writer's own calls accumulated the entries `items` on the
open page `l` of a level, from an empty page on. What `flush_page` makes of such a page decodes to
these entries, before and after its right sibling is patched, and the references it hands out
designate their values. In the file of a finished tree every page decodes to its part of what was
pushed, and every reference leads to the value of its row (`pages_decode`).
-/

namespace DryDb

open TreeWriter List

variable {E σ : Type} {cfg : WriterConfig E} {onValueRef : σ → E → PageRef → Result σ} {s s' : PageSink} {l : Level E}
  {layout : NodeLayout} {items : List Item} {kind : NodeKind}

/-! ## The page of an accumulation -/

/-- The open page of a level, entry by entry as the writer fills it. Ordinals are those the
sink gave out, and a separator is the first key of a page below. -/
inductive Packs (cfg : WriterConfig E) : NodeKind → Level E → List Item → Prop where
  | first {kind : NodeKind} : Packs cfg kind {} []
  | after {kind : NodeKind} {s s' : PageSink} {ordinal offset : Nat} (hbegin : s.beginPage = .ok (ordinal, offset, s')) :
    Packs cfg kind (.after ordinal offset) []
  | named {kind : NodeKind} {l : Level E} {items : List Item} {key : Bytes} (h : Packs cfg kind l items) :
    Packs cfg kind (withFirstKey key l) items
  | row {l : Level E} {items : List Item} {key value : Bytes} {digest : UInt64} {s s' : PageSink} {blob : Option Nat}
      {extra : E} (h : Packs cfg .leaf l items) (haccepted : checkEntry cfg key value = .ok ())
      (hdigest : cfg.encoding.digest key = .ok digest) (hplace : placeValue cfg l key value s = .ok (blob, s')) :
    Packs cfg .leaf (addEntry cfg l key value digest blob extra) (items ++ [newItem key value digest blob])
  | separator {l l' : Level E} {items : List Item} {key : Bytes} {digest : UInt64} {child offset : Nat} {s s' : PageSink}
      (h : Packs cfg .internal l items) (hlen : key.length ≤ u16Max) (hdigest : cfg.encoding.digest key = .ok digest)
      (hbegin : s.beginPage = .ok (child, offset, s')) (hadd : addSeparator cfg l key child = .ok l') :
    Packs cfg .internal l' (items ++ [{ key, digest, body := .child child }])

/-- The columns of a level are those of the entries `items`, which fit a page of the kind. -/
structure PackedAs (cfg : WriterConfig E) (kind : NodeKind) (l : Level E) (items : List Item) : Prop where
  holds : l.Holds cfg.layout items
  entries : ∀ it ∈ items, cfg.encoding.digest it.key = .ok it.digest ∧ it.Fits kind
  left : ∀ o ∈ l.prevOrdinal, o < 2 ^ 63
  extras : l.extras.length = if kind = .leaf then items.length else 0

theorem beginPage_lt {ordinal offset : Nat} (h : s.beginPage = .ok (ordinal, offset, s')) :
    ordinal < 2 ^ 63 := by
  unfold PageSink.beginPage at h
  rw [guard_eq_ok] at h
  obtain ⟨hroom, h⟩ := h
  simp only [Except.ok.injEq, Prod.mk.injEq] at h
  obtain ⟨rfl, -⟩ := h
  unfold i32Max at hroom
  omega

/-- The blob page a value went to, and the length of a value that stayed. -/
theorem placeValue_fits {key value : Bytes} {blob : Option Nat}
    (h : placeValue cfg l key value s = .ok (blob, s')) (digest : UInt64) :
    (newItem key value digest blob).body.Fits .leaf := by
  unfold placeValue at h
  split at h
  · obtain ⟨⟨page, sink⟩, hwrite, hr⟩ := map_eq_ok.1 h
    cases hr
    simp only [writeBlobPage, bind_eq_ok, Except.ok.injEq, Prod.mk.injEq] at hwrite
    obtain ⟨⟨ordinal, offset, begun⟩, hbegin, sink', -, rfl, -⟩ := hwrite
    exact beginPage_lt hbegin
  · rename_i hin
    cases h
    rw [overflows_eq_true, not_or] at hin
    exact Nat.lt_of_not_le hin.2

theorem Level.Holds.withFirstKey (h : l.Holds layout items)
    (key : Bytes) : (withFirstKey key l).Holds layout items ∧ (TreeWriter.withFirstKey key l).prevOrdinal = l.prevOrdinal ∧
      (TreeWriter.withFirstKey key l).extras = l.extras := by
  unfold TreeWriter.withFirstKey
  split
  · exact ⟨⟨h.payload, h.sizes, h.overflow, h.digests⟩, rfl, rfl⟩
  · exact ⟨h, rfl, rfl⟩

theorem Packs.packedAs (h : Packs cfg kind l items) :
    PackedAs cfg kind l items := by
  induction h with
  | @first kind => exact ⟨⟨rfl, rfl, rfl, rfl⟩, by simp, by simp, by simp⟩
  | @after kind s s' ordinal offset hbegin =>
    refine ⟨⟨rfl, rfl, rfl, rfl⟩, by simp, ?_, by simp [Level.after]⟩
    intro o ho
    cases ho
    exact beginPage_lt hbegin
  | @named kind l items key _ h =>
    obtain ⟨hholds, hprev, hextras⟩ := h.holds.withFirstKey key
    exact ⟨hholds, h.entries, hprev ▸ h.left, hextras ▸ h.extras⟩
  | @row l items key value digest s s' blob extra _ haccepted hdigest hplace h =>
    have hkey : (newItem key value digest blob).key = key := by cases blob <;> rfl
    have hdig : (newItem key value digest blob).digest = digest := by cases blob <;> rfl
    refine ⟨h.holds.addEntry key value digest blob extra, ?_, h.left, ?_⟩
    · intro it hit
      rcases mem_append.1 hit with hit | hit
      · exact h.entries it hit
      · rw [mem_singleton] at hit
        subst hit
        exact ⟨by rw [hkey, hdig]; exact hdigest, by rw [hkey]; exact (checkEntry_eq_ok.1 haccepted).1,
          placeValue_fits hplace digest⟩
    · have hextras := h.extras
      simp only [if_true] at hextras ⊢
      simp [TreeWriter.addEntry, hextras]
  | @separator l l' items key digest child offset s s' _ hlen hdigest hbegin hadd h =>
    simp only [addSeparator, hdigest, ok_bind, Except.ok.injEq] at hadd
    subst hadd
    refine ⟨h.holds.addSeparator key digest child, ?_, h.left, h.extras⟩
    intro it hit
    rcases mem_append.1 hit with hit | hit
    · exact h.entries it hit
    · rw [mem_singleton] at hit
      subst hit
      exact ⟨hdigest, hlen, beginPage_lt hbegin⟩

/-! ## What a page decodes to -/

/-- The `i`-th entry of a page gives back the entry `it`: the digest of its key, its key where the
page stores keys, and its value, blob page or child. -/
structure EntryDecodes (cfg : WriterConfig E) (v : PageView) (i : Nat) (it : Item) : Prop where
  digest : cfg.encoding.digest it.key = .ok it.digest ∧ v.HasDigest i it.digest
  entry : match it.body with
    | .inline value => ∃ e, v.leafEntry i = .ok e ∧ v.leafKey e = .ok (cfg.layout.storedKey it.key) ∧
        ∃ offset len, e.value = .inline offset len ∧ v.inlineValue offset len = .ok value
    | .blob page _ => ∃ e, v.leafEntry i = .ok e ∧ v.leafKey e = .ok (cfg.layout.storedKey it.key) ∧
        e.value = .overflow page
    | .child child => ∃ e, v.internalEntry i = .ok e ∧ v.internalKey e = .ok (cfg.layout.storedKey it.key) ∧
        e.child = child

/-- The bytes are a valid page with these entries and siblings. -/
def PageDecodes (cfg : WriterConfig E) (kind : NodeKind) (items : List Item) (left right : Option Nat) (bytes : Bytes) :
    Prop :=
  ∃ v, PageView.parse bytes = .ok v ∧ v.validate = .ok () ∧ v.kind = kind ∧ v.entryCount = items.length ∧
    v.leftSibling = left ∧ v.rightSibling = right ∧ ∀ i it, items[i]? = some it → EntryDecodes cfg v i it

theorem Node.entryDecodes {n : Node} (hfit : n.Fits) (hlayout : n.layout = cfg.layout) {i : Nat} {it : Item}
    (hi : n.items[i]? = some it) (hdigest : cfg.encoding.digest it.key = .ok it.digest) : EntryDecodes cfg n.view i it := by
  refine ⟨⟨hdigest, Node.hasDigest hfit hi⟩, ?_⟩
  have hbody := (hfit.items it (mem_of_getElem? hi)).2
  rw [← hlayout]
  cases hkind : n.kind with
  | leaf =>
    cases hb : it.body with
    | inline value =>
      refine ⟨_, Node.leafEntry_eq hfit hkind hi, Node.leafKey_eq hi _, ?_⟩
      rw [hb]
      exact ⟨_, _, rfl, Node.inlineValue_eq hi hb⟩
    | blob page length =>
      refine ⟨_, Node.leafEntry_eq hfit hkind hi, Node.leafKey_eq hi _, ?_⟩
      rw [hb]
      rfl
    | child child =>
      rw [hkind, hb] at hbody
      exact hbody.elim
  | internal =>
    rw [hkind] at hbody
    cases hb : it.body with
    | inline value => rw [hb] at hbody; exact hbody.elim
    | blob page length => rw [hb] at hbody; exact hbody.elim
    | child child => exact ⟨_, Node.internalEntry_eq hfit hkind hi hb, Node.internalKey_eq hi _, rfl⟩

/-- The page of a node decodes to its entries. -/
theorem Node.decodes {n : Node} (hfit : n.Fits) (hlayout : n.layout = cfg.layout)
    (hdigest : ∀ it ∈ n.items, cfg.encoding.digest it.key = .ok it.digest) :
    PageDecodes cfg n.kind n.items n.left n.right n.image :=
  ⟨n.view, Node.parse_image hfit, Node.validate_image hfit, rfl, rfl, rfl, rfl,
    fun _ it hi => n.entryDecodes hfit hlayout hi (hdigest it (mem_of_getElem? hi))⟩

/-- The references `flush_page` hands out with the extras of a page. -/
def flushedRefs (cfg : WriterConfig E) (kind : NodeKind) (l : Level E) (ordinal : Nat) : List PageRef :=
  refsFrom ordinal (cfg.layout.payloadStart kind l.entryCount) (if kind = .leaf then l.sizes.zip l.overflow else [])

theorem flushPage_eq (l : Level E) (hsize : l.pageLen cfg.layout kind ≤ cfg.pageSize) (ordinal : Nat) (out : Output σ) :
    flushPage cfg onValueRef kind l ordinal out = (do
      let sink ← out.sink.writePage (l.image cfg.layout kind)
      let caller ← handAll onValueRef (l.extras.zip (flushedRefs cfg kind l ordinal)) out.caller
      .ok { sink, caller }) := by
  unfold flushPage
  simp only [handOver_eq]
  rw [if_neg (by omega)]
  rfl

namespace PackedAs

variable {kind : NodeKind} {l : Level E} {items : List Item} {right : Option Nat}

/-- The page by its entries, with a right sibling. -/
def node (_ : PackedAs cfg kind l items) (right : Option Nat) : Node :=
  { kind, layout := cfg.layout, items, left := l.prevOrdinal, right }

theorem image_eq (h : PackedAs cfg kind l items) (right : Option Nat) :
    setRight (l.image cfg.layout kind) right = (h.node right).image := by
  rw [h.holds.image_eq kind, Node.setRight_image]
  rfl

theorem node_fits (h : PackedAs cfg kind l items) (hlay : LayoutOk cfg.layout cfg.pageSize)
    (hsize : l.pageLen cfg.layout kind ≤ cfg.pageSize) (hright : ∀ o ∈ right, o < 2 ^ 63) :
    (h.node right).Fits := by
  have hlen : (h.node right).len = l.pageLen cfg.layout kind := by
    simp [Node.len, Node.base, Node.payload, Level.pageLen, Level.entryCount, node, h.holds.sizes, h.holds.payload]
  have hmax := hlay.limit
  exact
    { layout := hlay.omitted
      length := by omega
      compact := fun hc => by
        have := hlay.compact hc
        omega
      items := fun it hit => (h.entries it hit).2
      left := h.left
      right := hright }

theorem decodes (h : PackedAs cfg kind l items) (hfit : (h.node right).Fits) :
    PageDecodes cfg kind items l.prevOrdinal right (setRight (l.image cfg.layout kind) right) := by
  rw [h.image_eq]
  exact Node.decodes hfit rfl fun it hit => (h.entries it hit).1

/-- The references of an accumulated leaf are those of its entries. -/
theorem flushedRefs_eq (h : PackedAs cfg .leaf l items) (ordinal : Nat) :
    flushedRefs cfg .leaf l ordinal = pageRefs cfg.layout (ordinal, items) := by
  have hcolumns : l.sizes.zip l.overflow = (h.node none).columns := by
    rw [h.holds.sizes, h.holds.overflow]
    exact Node.zip_columns (h.node none)
  rw [flushedRefs, if_pos rfl, hcolumns, pageRefs, Level.entryCount, h.holds.sizes, length_map]
  rfl

theorem designates (h : PackedAs cfg .leaf l items) {ordinal : Nat} {pages : List Bytes}
    (hpage : pages[ordinal]? = some (setRight (l.image cfg.layout .leaf) right)) {i : Nat} {it : Item} {ref : PageRef}
    {value : Bytes} (hi : items[i]? = some it) (href : (flushedRefs cfg .leaf l ordinal)[i]? = some ref)
    (hshows : it.Shows pages value) : ref.Designates pages value := by
  rw [h.image_eq] at hpage
  rw [h.flushedRefs_eq] at href
  exact pageRefs_designate (n := h.node right) rfl hpage hi href hshows

end PackedAs

/-! ## The pages of a finished tree -/

/-- What holds of the entries of the leaves and of every separator of such entries holds on every page. -/
theorem Stack.forall_items {pageSize : Nat} {pages : List Bytes} {tag : Nat → Option Nat} {root k : Nat}
    {levels : List Written} {P : Item → Prop}
    (h : Stack layout pageSize pages tag root k kind items levels) (hitems : ∀ it ∈ items, P it)
    (hsep : ∀ w : Nat × List Item, w.2 ≠ [] → (∀ it ∈ w.2, P it) → P (separatorOf w)) :
    ∀ ws ∈ levels, ∀ w ∈ ws, ∀ it ∈ w.2, P it := by
  induction h with
  | root _ _ _ _ => simpa using hitems
  | @level k kind items ws rest hsplit _ _ hpages _ ih =>
    have hws : ∀ w ∈ ws, ∀ it ∈ w.2, P it := fun w hw it hit =>
      hitems it (hsplit ▸ mem_flatMap.2 ⟨w, hw, hit⟩)
    refine forall_mem_cons.2 ⟨hws, ih ?_⟩
    exact forall_mem_map.2 fun w hw => hsep w (hpages w hw).1 (hws w hw)

/-- The bytes `flush_page` emits for a page the writer accumulated decode to its entries,
before and after the right sibling is patched in, and the references it hands out for the
entries of a leaf designate their values in the file. The file of a finished tree consists of such
pages: its leaves hold the pushed entries, every page decodes to its entries and its neighbours,
and the references handed out designate the pushed values. -/
theorem pages_decode {pageSize extraBudget : Nat} {eytzinger allow : Bool} {encoding : KeyEncoding} {extraBytes : E → Nat}
    (hnew : TreeWriter.new pageSize eytzinger encoding allow extraBytes extraBudget = .ok cfg) (hmax : pageSize ≤ i32Max) :
    (∀ kind level items, Packs cfg kind level items → level.pageLen cfg.layout kind ≤ cfg.pageSize →
      PageDecodes cfg kind items level.prevOrdinal none (level.image cfg.layout kind) ∧
      (∀ next < 2 ^ 63,
        PageDecodes cfg kind items level.prevOrdinal (some next) (setRight (level.image cfg.layout kind) (some next))) ∧
      ∀ (onValueRef : σ → E → PageRef → Result σ) (ordinal : Nat) (out : Output σ), ∃ refs,
        flushPage cfg onValueRef kind level ordinal out = (do
          let sink ← out.sink.writePage (level.image cfg.layout kind)
          let caller ← handAll onValueRef (level.extras.zip refs) out.caller
          .ok { sink, caller }) ∧
        (kind = .leaf → refs.length = items.length ∧ level.extras.length = items.length ∧
          ∀ pages right, pages[ordinal]? = some (setRight (level.image cfg.layout kind) right) →
            ∀ (i : Nat) it ref value, items[i]? = some it → refs[i]? = some ref → it.Shows pages value →
              ref.Designates pages value)) ∧
    ∀ (onValueRef : σ → E → PageRef → Result σ) (front : Bytes) (before : List Bytes) (out out' : Output σ)
      (entries : List (Bytes × Bytes × E)) (root : Nat), out.sink.Holds front before →
      (pushAll cfg onValueRef entries { out } >>= finish cfg onValueRef) = .ok (root, out') →
      ∃ pages levels refs, out'.sink.Holds front pages ∧ WellFormed cfg pages root entries levels ∧
        (∀ (d : Nat) ws, levels[d]? = some ws → ∀ (j : Nat) w, ws[j]? = some w → ∃ bytes, pages[w.1]? = some bytes ∧
          PageDecodes cfg (if d = 0 then .leaf else .internal) w.2 (if j = 0 then none else ws[j - 1]?.map Prod.fst)
            (ws[j + 1]?.map Prod.fst) bytes) ∧
        handAll onValueRef ((entries.map fun e => e.2.2).zip refs) out.caller = .ok out'.caller ∧
        List.Forall₂ (fun ref e => ref.Designates pages e.2.1) refs entries := by
  unfold TreeWriter.new at hnew
  rw [guard_eq_ok, Except.ok.injEq] at hnew
  obtain ⟨hmin, hcfg⟩ := hnew
  have hmin : minPageSize ≤ cfg.pageSize := hcfg ▸ Nat.le_of_not_lt hmin
  have hlay : LayoutOk cfg.layout cfg.pageSize := hcfg ▸ chooseLayout_ok hmax eytzinger encoding allow
  refine ⟨?_, ?_⟩
  · intro kind level items hpacks hsize
    have h := hpacks.packedAs
    refine ⟨?_, ?_, ?_⟩
    · have hsame : setRight (level.image cfg.layout kind) none = level.image cfg.layout kind := by
        rw [h.image_eq, h.holds.image_eq kind]
        rfl
      rw [← hsame]
      exact h.decodes (h.node_fits hlay hsize (by simp))
    · intro next hnext
      apply h.decodes
      apply h.node_fits hlay hsize
      intro o ho
      cases ho
      exact hnext
    · intro onValueRef ordinal out
      refine ⟨_, flushPage_eq level hsize ordinal out, ?_⟩
      rintro rfl
      refine ⟨by rw [h.flushedRefs_eq, length_pageRefs], ?_, fun pages right hpage i it ref value hi href hshows =>
        h.designates hpage hi href hshows⟩
      have := h.extras
      rwa [if_pos rfl] at this
  · intro onValueRef front before out out' entries root hs hrun
    obtain ⟨w, hpush, hfinish⟩ := bind_eq_ok.1 hrun
    obtain ⟨pages, tag, items, leaves, upper, hfin⟩ := finished_of_ok hmin hs hpush hfinish
    have hwf := hfin.wellFormed hlay
    have hdigests := hfin.stack.forall_items (P := fun it => cfg.encoding.digest it.key = .ok it.digest)
      (fun it hit => by
        obtain ⟨e, -, he⟩ := exists_of_mem_left hfin.items hit
        exact he.ok.digest)
      fun w hne hall => by
        obtain ⟨it, rest, he⟩ := exists_cons_of_ne_nil hne
        rw [(separatorOf_key he).1, (separatorOf_key he).2]
        exact hall it (by rw [he]; exact mem_cons_self)
    refine ⟨pages, leaves :: upper, leaves.flatMap (pageRefs cfg.layout), hfin.sink, hwf, ?_, hfin.caller, ?_⟩
    · intro d ws hd j w hj
      obtain ⟨n, hitems, hfit, hpage, -, -, hlayout, hkind, hleft, hright⟩ := hwf.page d ws hd j w hj
      refine ⟨_, hpage, ?_⟩
      rw [← hkind, ← hitems, ← hleft, ← hright]
      exact n.decodes hfit hlayout fun it hit =>
        hdigests ws (mem_of_getElem? hd) w (mem_of_getElem? hj) it (hitems ▸ hit)
    · exact hfin.forall₂_refs hlay fun _ _ _ _ _ _ hkind hpage hi href _ _ hshows =>
        pageRefs_designate hkind hpage hi href hshows

theorem handAll_keepRefs (pairs : List (Unit × PageRef)) (refs : List PageRef) :
    handAll keepRefs pairs refs = .ok (refs ++ pairs.map Prod.snd) := by
  induction pairs generalizing refs with
  | nil => simp [handAll]
  | cons p pairs ih =>
    rw [handAll, foldlM_cons]
    exact (ih (refs ++ [p.2])).trans (by simp)

/-- Rows of different lengths on two leaves, one of them with its value on a page of its own. -/
theorem pages_decode_mixed : ∃ out pages levels, mixedRun = .ok (3, out) ∧
    out.caller = [⟨0, 55, 1⟩, ⟨0, 58, 20⟩, ⟨1, 28, 100⟩, ⟨2, 65, 0⟩] ∧ WellFormed mixed pages 3 mixedRows levels ∧
    (∀ (d : Nat) ws, levels[d]? = some ws → ∀ (j : Nat) w, ws[j]? = some w → ∃ bytes, pages[w.1]? = some bytes ∧
      PageDecodes mixed (if d = 0 then .leaf else .internal) w.2 (if j = 0 then none else ws[j - 1]?.map Prod.fst)
        (ws[j + 1]?.map Prod.fst) bytes) ∧
    List.Forall₂ (fun ref e => ref.Designates pages e.2.1) out.caller mixedRows := by
  obtain ⟨⟨root, out⟩, hrun, heq⟩ := map_eq_ok.1 mixedRun_eq
  obtain ⟨rfl, -, hcaller⟩ : root = 3 ∧ _ ∧ out.caller = _ := by simpa only [Prod.mk.injEq] using heq
  obtain ⟨pages, levels, refs, -, hwf, hdecode, hhanded, hrefs⟩ :=
    (pages_decode mixed_new (by decide)).2 keepRefs [] [] ⟨{}, []⟩ out mixedRows 3 holds_empty hrun
  obtain rfl : refs = out.caller := by
    rw [handAll_keepRefs, nil_append, map_snd_zip (by simp [hrefs.length_eq])] at hhanded
    exact Except.ok.inj hhanded
  exact ⟨out, pages, levels, hrun, hcaller, hwf, hdecode, hrefs⟩

end DryDb
