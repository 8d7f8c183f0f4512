import DryDb.Writer.Stored
/-!
# References to values

An index entry holds a reference: a page and a range of bytes on it. `Finished.refs`: the reference
the writer hands out for an entry leads to the entry's value, on its leaf or on a page of its own,
and `resolveReference` of an open file gives that value.
-/

namespace DryDb

open List

/-- The entry of a leaf stands for the value: it holds it, or names the page of the file that does. -/
def Item.Shows (pages : List Bytes) (value : Bytes) (it : Item) : Prop :=
  match it.body with
  | .inline v => v = value
  | .blob page length => length = value.length ∧ pages[page]? = some (blobImage value)
  | .child _ => False

/-- The range of the reference, on its page of the file, is the value. -/
def PageRef.Designates (pages : List Bytes) (ref : PageRef) (value : Bytes) : Prop :=
  ∃ bytes, pages[ref.page]? = some bytes ∧ slice bytes ref.start ref.length = some value

/-- The reference leads to the value, behind the prefix of a page of the file. -/
structure PageRef.LeadsTo (pages : List Bytes) (ref : PageRef) (value : Bytes) : Prop where
  page : ∃ bytes, pages[ref.page]? = some bytes ∧ PassesChecks bytes ∧ PieceAt bytes ref.start value
  start : pagePrefixLen ≤ ref.start
  length : ref.length = value.length

theorem PageRef.parse_encode {ref : PageRef} (hpage : ref.page < 2 ^ 63) (hstart : ref.start ≤ i32Max)
    (hlength : ref.length ≤ i32Max) : PageRef.parse ref.encode = .ok ref := by
  have hlen : ref.encode.length = 16 := by simp [PageRef.encode]
  have hordinal : PieceAt ref.encode 0 (ordinalBytes (some ref.page)) := by
    have : ordinalBytes (some ref.page) = leBytes 8 ref.page := by
      simp only [ordinalBytes, PageOrdinal.toI64, unsigned]
      congr 1
      omega
    rw [this]
    exact ⟨[], leBytes 4 ref.start ++ leBytes 4 ref.length, by simp [PageRef.encode], rfl⟩
  have hat : PieceAt ref.encode 8 (leBytes 4 ref.start) := ⟨leBytes 8 ref.page, leBytes 4 ref.length, rfl, by simp⟩
  have hof : PieceAt ref.encode 12 (leBytes 4 ref.length) :=
    ⟨leBytes 8 ref.page ++ leBytes 4 ref.start, [], by simp [PageRef.encode], by simp⟩
  unfold PageRef.parse
  simp only [hlen]
  rw [if_neg (by decide), readI64_of_piece hordinal (by simpa using hpage), ok_bind, fromI64_toI64, ok_bind, okOr_some, ok_bind,
    readI32_of_piece hat hstart, ok_bind, readI32_of_piece hof hlength, ok_bind, if_neg (by omega)]
  simp

section

variable {pages pages' : List Bytes} {ref : PageRef} {value : Bytes}

/-- The value is inside the page. -/
theorem PageRef.LeadsTo.bounds (h : ref.LeadsTo pages value) : ref.page < pages.length ∧ ref.start + ref.length ≤ i32Max := by
  obtain ⟨bytes, hpage, hpass, before, after, heq, hat⟩ := h.page
  refine ⟨(List.getElem?_eq_some_iff.1 hpage).1, ?_⟩
  have := hpass.length_le.2
  rw [heq, length_append, length_append] at this
  rw [hat, h.length]
  omega

theorem PageRef.LeadsTo.extend (h : ref.LeadsTo pages value) (hkeep : ∀ o < pages.length, pages'[o]? = pages[o]?) :
    ref.LeadsTo pages' value := by
  obtain ⟨bytes, hpage, hrest⟩ := h.page
  exact ⟨⟨bytes, (hkeep _ (List.getElem?_eq_some_iff.1 hpage).1).trans hpage, hrest⟩, h.start, h.length⟩

/-- Resolving the reference gives the value. -/
theorem PageRef.LeadsTo.resolves (h : ref.LeadsTo pages value) {env : Env} (henv : env.Delivers pages) :
    ∃ guard : ValueGuard, (IndexCursor.resolveReference ref).run env = .ok guard ∧ guard.asBytes = value := by
  obtain ⟨bytes, hpage, hpass, hpiece⟩ := h.page
  obtain ⟨pin, hpin, -, hbytes⟩ := henv _ _ hpage hpass
  have hlong : ref.start + ref.length ≤ pin.bytes.length := by
    obtain ⟨before, after, heq, hat⟩ := hpiece
    rw [hbytes, heq, hat, h.length]
    simp
  have hsum : checkedAdd ref.start ref.length = some (ref.start + ref.length) := by
    have := h.bounds.2
    simp only [i32Max] at this
    exact Node.checkedAdd_of_lt (by simp only [usizeLimit]; omega)
  have hstart := h.start
  refine ⟨⟨pin, ref.start, ref.start + ref.length⟩, ?_, ?_⟩
  · unfold IndexCursor.resolveReference PageRef.range PagePin.intoGuard PagePin.len
    simp only [Program.run_bind, Read.run_page, hpin, ok_bind, hsum, okOr_some, Program.run_liftM]
    rw [if_neg (by omega), if_neg (by omega)]
    simp only [ok_bind]
    rw [if_neg (by omega)]
  · rw [ValueGuard.asBytes, hbytes]
    exact hpiece.take_drop (by rw [Nat.add_sub_cancel_left, h.length])

end

/-! ## The references of a tree -/

section

variable {E σ : Type} {cfg : WriterConfig E} {fits : Prop} {pages : List Bytes} {tag : Nat → Option Nat} {it : Item} {n : Node}
  {o i : Nat} {ref : PageRef} {value : Bytes}

theorem refsFrom_getElem? (ordinal start : Nat) (columns : List ((Nat × Nat) × Option PageRef)) (i : Nat) :
    (refsFrom ordinal start columns)[i]? = columns[i]?.map (TreeWriter.valueRef ordinal (columnOffset start columns i)) := by
  induction columns generalizing start i with
  | nil => simp [refsFrom]
  | cons c cs ih =>
    cases i with
    | zero => simp [refsFrom, columnOffset]
    | succ i => simp [refsFrom, ih, columnOffset_cons]

theorem slice_blobImage (value : Bytes) : slice (blobImage value) pagePrefixLen value.length = some value := by
  have hprefix : (pagePrefix (pagePrefixLen + value.length) 0 0 none none).length = pagePrefixLen := length_pagePrefix ..
  have := slice_append (b := value) (c := []) hprefix.symm rfl
  rw [append_nil] at this
  exact this

theorem ItemOf.shows {e : Bytes × Bytes × E} (h : ItemOf cfg fits pages tag it e) : it.Shows pages e.2.1 := by
  have hv := h.value
  unfold Item.Shows
  cases hb : it.body with
  | inline value => rw [hb] at hv; exact hv
  | blob page length => rw [hb] at hv; exact ⟨hv.1, hv.2.1⟩
  | child page => rw [hb] at hv; exact hv

/-- Where the reference of an entry of a leaf points to, whether the value is on the leaf or on a
page of its own. -/
theorem pageRefs_piece (hkind : n.kind = .leaf) (ho : pages[o]? = some n.image)
    (hi : n.items[i]? = some it) (href : (pageRefs n.layout (o, n.items))[i]? = some ref) (hshows : it.Shows pages value) :
    ∃ bytes, pages[ref.page]? = some bytes ∧ (bytes = n.image ∨ bytes = blobImage value) ∧ PieceAt bytes ref.start value ∧
      pagePrefixLen ≤ ref.start ∧ ref.length = value.length := by
  have hcolumns : Node.columns { kind := .leaf, layout := n.layout, items := n.items } = n.columns := rfl
  have hbase : n.layout.payloadStart .leaf n.items.length = n.base := by rw [Node.base, hkind]
  rw [pageRefs, hcolumns, hbase, refsFrom_getElem?, Node.getElem?_columns hi, Option.map_some, Option.some.injEq,
    ← Node.offset_eq] at href
  obtain ⟨hlt, rfl⟩ := List.getElem?_eq_some_iff.1 hi
  unfold Item.Shows at hshows
  cases hb : n.items[i].body with
  | child page =>
    rw [hb] at hshows
    exact hshows.elim
  | inline value =>
    rw [hb] at hshows
    subst hshows href
    have hbody := n.piece_body hlt
    rw [hb] at hbody
    rw [Item.size, hb]
    have hfront : pagePrefixLen ≤ n.base := by
      simp only [Node.base, NodeLayout.payloadStart]
      omega
    exact ⟨n.image, ho, .inl rfl, hbody, (hfront.trans (n.base_le_offset i)).trans (Nat.le_add_right ..), rfl⟩
  | blob page length =>
    rw [hb] at hshows
    obtain ⟨rfl, hpage⟩ := hshows
    subst href
    rw [hb]
    exact ⟨_, hpage, .inr rfl, pieceAt_iff_slice.2 (slice_blobImage _), Nat.le_refl _, rfl⟩

theorem pageRefs_designate (hkind : n.kind = .leaf) (ho : pages[o]? = some n.image)
    (hi : n.items[i]? = some it) (href : (pageRefs n.layout (o, n.items))[i]? = some ref)
    (hshows : it.Shows pages value) : ref.Designates pages value := by
  obtain ⟨bytes, hpage, -, hpiece, -, hlength⟩ := pageRefs_piece hkind ho hi href hshows
  exact ⟨bytes, hpage, by rw [hlength]; exact hpiece.slice_eq⟩

/-- The reference of an entry of a leaf leads to its value. -/
theorem pageRefs_lead (hf : n.Fits) (hkind : n.kind = .leaf) (ho : pages[o]? = some n.image)
    (hi : n.items[i]? = some it) (href : (pageRefs n.layout (o, n.items))[i]? = some ref)
    (hshows : it.Shows pages value) (hlen : pagePrefixLen + value.length ≤ i32Max) :
    ref.LeadsTo pages value := by
  obtain ⟨bytes, hpage, hbytes, hpiece, hstart, hlength⟩ := pageRefs_piece hkind ho hi href hshows
  refine ⟨⟨bytes, hpage, ?_, hpiece⟩, hstart, hlength⟩
  rcases hbytes with rfl | rfl
  · exact node_passes hf
  · exact blob_passes hlen

theorem forall₂_flatMap {α β γ : Type} {R : α → β → Prop} {f : γ → List α} {g : γ → List β} {ws : List γ}
    (h : ∀ w ∈ ws, List.Forall₂ R (f w) (g w)) : List.Forall₂ R (ws.flatMap f) (ws.flatMap g) := by
  induction ws with
  | nil => exact .nil
  | cons w ws ih =>
    rw [flatMap_cons, flatMap_cons]
    exact rel_append (h w mem_cons_self) (ih fun v hv => h v (mem_cons_of_mem _ hv))

variable {onValueRef : σ → E → PageRef → Result σ} {front : Bytes} {s₀ : PageSink} {pages₀ : List Bytes} {c₀ : σ}
  {given : List (Bytes × Bytes × E)} {root : Nat} {out : Output σ} {items : List Item} {leaves : Written} {upper : List Written}

/-- The references handed to the caller, entry by entry: what holds of the reference of each entry
of a leaf page. -/
theorem Finished.forall₂_refs {R : PageRef → Bytes × Bytes × E → Prop}
    (h : Finished cfg onValueRef fits front s₀ pages₀ c₀ given root out pages tag items leaves upper)
    (hlay : LayoutOk cfg.layout cfg.pageSize)
    (hR : ∀ (n : Node) (o i : Nat) (it : Item) (ref : PageRef), n.Fits → n.kind = .leaf → pages[o]? = some n.image →
      n.items[i]? = some it → (pageRefs n.layout (o, n.items))[i]? = some ref →
      ∀ e ∈ given, it.Shows pages e.2.1 → R ref e) :
    List.Forall₂ R (leaves.flatMap (pageRefs cfg.layout)) given := by
  have hitems : ∀ it ∈ items, it.Fits .leaf := by
    intro it hit
    obtain ⟨e, -, he⟩ := exists_of_mem_left h.items hit
    exact ⟨he.ok.length, he.body⟩
  have hpages := h.stack.fits hlay h.sink.limit hitems 0 leaves rfl
  have hrefs : List.Forall₂ (fun (ref : PageRef) it => ∀ e ∈ given, it.Shows pages e.2.1 → R ref e)
      (leaves.flatMap (pageRefs cfg.layout)) (leaves.flatMap Prod.snd) := by
    refine forall₂_flatMap fun w hw => ?_
    obtain ⟨j, hj⟩ := mem_iff_getElem?.1 hw
    obtain ⟨n, hn, hfits, hpage, -, hlayout, hkind, -⟩ := hpages j w hj
    refine forall₂_iff_get.2 ⟨length_pageRefs _ _, fun i hi hi' => ?_⟩
    refine hR n w.1 i _ _ hfits (by simpa using hkind) hpage ?_ ?_
    · rw [hn]
      exact getElem?_eq_getElem hi'
    · rw [hn, hlayout]
      exact getElem?_eq_getElem hi
  obtain ⟨ws, rest, hws, hflat⟩ := h.stack.flatMap_succ
  rw [List.cons.injEq] at hws
  rw [hws.1, hflat, ← hws.1] at hrefs
  obtain ⟨hlen₁, hget₁⟩ := forall₂_iff_get.1 hrefs
  obtain ⟨hlen₂, hget₂⟩ := forall₂_iff_get.1 h.items
  exact forall₂_iff_get.2 ⟨hlen₁.trans hlen₂, fun i hi hi' =>
    hget₁ i hi (hlen₁ ▸ hi) _ (get_mem ..) (hget₂ i (hlen₁ ▸ hi) hi').shows⟩

/-- The references handed to the caller lead to the values, entry by entry. -/
theorem Finished.refs (h : Finished cfg onValueRef fits front s₀ pages₀ c₀ given root out pages tag items leaves upper)
    (hlay : LayoutOk cfg.layout cfg.pageSize) (hlen : ∀ e ∈ given, pagePrefixLen + e.2.1.length ≤ i32Max) :
    List.Forall₂ (fun ref e => ref.LeadsTo pages e.2.1) (leaves.flatMap (pageRefs cfg.layout)) given :=
  h.forall₂_refs hlay fun _ _ _ _ _ hfits hkind hpage hi href e he hshows =>
    pageRefs_lead hfits hkind hpage hi href hshows (hlen e he)

end

end DryDb
