import DryDb.Lib.Lists
import DryDb.Writer.Rotate
/-!
# Pushing entries

`WriterOk` is the invariant of a writer between two calls of `push`: its levels are in
order, its leaf level holds exactly the entries pushed so far, a value that went onto a
page of its own is there, and the caller has been handed the references of the entries
already written, in order.
-/

namespace DryDb

open List TreeWriter

variable {E σ : Type} {cfg : WriterConfig E} {fits : Prop} {full : Nat → Prop} {values : List Bytes}
  {onValueRef : σ → E → PageRef → Result σ} {front : Bytes}

/-! ## References -/

/-- The references of consecutive entries of a leaf. -/
def refsFrom (ordinal : Nat) : Nat → List ((Nat × Nat) × Option PageRef) → List PageRef
  | _, [] => []
  | offset, entry :: entries =>
    valueRef ordinal offset entry :: refsFrom ordinal (offset + (entry.1.1 + entry.1.2)) entries

/-- The references of the entries of a written leaf. -/
def pageRefs (layout : NodeLayout) (w : Nat × List Item) : List PageRef :=
  refsFrom w.1 (layout.payloadStart .leaf w.2.length) (Node.columns { kind := .leaf, layout, items := w.2 })

@[simp] theorem length_refsFrom (ordinal offset : Nat) (entries : List ((Nat × Nat) × Option PageRef)) :
    (refsFrom ordinal offset entries).length = entries.length := by
  induction entries generalizing offset with
  | nil => rfl
  | cons e es ih => simp [refsFrom, ih]

@[simp] theorem length_pageRefs (layout : NodeLayout) (w : Nat × List Item) :
    (pageRefs layout w).length = w.2.length := by
  simp [pageRefs, Node.columns]

/-- Hands a list of extras over with their references. -/
def handAll (onValueRef : σ → E → PageRef → Result σ) (pairs : List (E × PageRef)) (c : σ) : Result σ :=
  pairs.foldlM (fun c p => onValueRef c p.1 p.2) c

theorem handAll_append (a b : List (E × PageRef)) (c : σ) :
    handAll onValueRef (a ++ b) c = handAll onValueRef a c >>= handAll onValueRef b := by
  simp only [handAll, foldlM_append]
  rfl

theorem handOver_eq (ordinal offset : Nat) (entries : List ((Nat × Nat) × Option PageRef)) (extras : List E) (c : σ) :
    handOver onValueRef ordinal offset entries extras c =
      handAll onValueRef (extras.zip (refsFrom ordinal offset entries)) c := by
  induction entries generalizing offset extras c with
  | nil => simp [handOver, refsFrom, handAll]
  | cons e es ih =>
    cases extras with
    | nil => simp [handOver, handAll]
    | cons x xs =>
      simp only [handOver, refsFrom, zip_cons_cons, handAll, foldlM_cons]
      congr 1
      funext c'
      exact ih _ xs c'

/-! ## The invariant -/

/-- The entry `it` of a leaf stands for the pushed key and value. A value on a page of its
own is on no page of the tree. -/
structure ItemOf (cfg : WriterConfig E) (fits : Prop) (pages : List Bytes) (tag : Nat → Option Nat) (it : Item)
    (entry : Bytes × Bytes × E) : Prop where
  key : it.key = entry.1
  ok : KeyOk cfg fits it
  body : it.body.Fits .leaf
  value : match it.body with
    | .inline value => value = entry.2.1
    | .blob page length => length = entry.2.1.length ∧ pages[page]? = some (blobImage entry.2.1) ∧ tag page = none
    | .child _ => False

theorem ItemOf.grow {S : Nat → Prop} {s s' : PageSink} {pages pages' : List Bytes} {tag tag' : Nat → Option Nat}
    (hg : Grows S s pages tag s' pages' tag') {it : Item} {entry : Bytes × Bytes × E}
    (h : ItemOf cfg fits pages tag it entry) : ItemOf cfg fits pages' tag' it entry := by
  refine ⟨h.key, h.ok, h.body, ?_⟩
  have hv := h.value
  cases hb : it.body with
  | inline value => rw [hb] at hv; exact hv
  | child page => rw [hb] at hv; exact hv
  | blob page length =>
    rw [hb] at hv
    obtain ⟨hl, hp, ht⟩ := hv
    have hlt : page < pages.length := (List.getElem?_eq_some_iff.1 hp).1
    refine ⟨hl, ?_, by rw [hg.tags _ hlt]; exact ht⟩
    rw [hg.keep _ hlt (by simp [ht])]
    exact hp

/-- The invariant of a writer that started with the caller's state `c₀` in a file that held
`pages₀` and has been given `given`. -/
structure WriterOk (cfg : WriterConfig E) (onValueRef : σ → E → PageRef → Result σ) (fits : Prop) (front : Bytes)
    (s₀ : PageSink) (pages₀ : List Bytes) (c₀ : σ) (w : TreeWriter E σ) (given : List (Bytes × Bytes × E))
    (pages : List Bytes) (tag : Nat → Option Nat) (items : List Item) (ws : Written) (es : List Item) : Prop where
  sink : w.out.sink.Holds front pages
  grows : Grows (fun _ => True) s₀ pages₀ (fun _ => none) w.out.sink pages tag
  leaf : LevelOk cfg w.out.sink pages tag 0 .leaf items w.leaf ws es
  upper : UpperOk cfg fits w.out.sink pages tag 1 (ws.map separatorOf) w.upper
  room : w.upper.length ≤ leafRoom
  items : List.Forall₂ (ItemOf cfg fits pages tag) items given
  extras : w.leaf.extras = (given.drop (ws.flatMap Prod.snd).length).map fun e => e.2.2
  caller : handAll onValueRef (((given.take (ws.flatMap Prod.snd).length).map fun e => e.2.2).zip
    (ws.flatMap (pageRefs cfg.layout))) c₀ = .ok w.out.caller

section

variable {s₀ : PageSink} {pages₀ : List Bytes} {c₀ : σ} {w : TreeWriter E σ} {given : List (Bytes × Bytes × E)}
  {pages : List Bytes} {tag : Nat → Option Nat} {items es : List Item} {ws : Written} {l : Level E} {key value : Bytes}

theorem WriterOk.keys (h : WriterOk cfg onValueRef fits front s₀ pages₀ c₀ w given pages tag items ws es) :
    ∀ it ∈ items, KeyOk cfg fits it := by
  intro it hit
  obtain ⟨entry, -, he⟩ := exists_of_mem_left h.items hit
  exact he.ok

theorem WriterOk.length_given (h : WriterOk cfg onValueRef fits front s₀ pages₀ c₀ w given pages tag items ws es) :
    given.length = (ws.flatMap Prod.snd).length + es.length := by
  rw [← h.items.length_eq, h.leaf.split, length_append]

/-- Rotating the leaf hands over its extras. -/
theorem rotate_leaf_meets (hmin : minPageSize ≤ cfg.pageSize)
    (h : WriterOk cfg onValueRef fits front s₀ pages₀ c₀ w given pages tag items ws es) (hne : es ≠ [])
    (hmay : ∀ n ≤ pages.length + 64, full n) :
    Meets (WriterFault cfg fits full values w.out.sink.filter onValueRef)
      (fun r => ∃ pages' tag' ordinal, r.2.2.sink.filter = w.out.sink.filter ∧ pages'.length ≤ pages.length + 64 ∧ ∀ entries pendingExtra,
        WriterOk cfg onValueRef fits front s₀ pages₀ c₀ { leaf := r.1, upper := r.2.1, out := r.2.2, entries, pendingExtra }
          given pages' tag' items (ws ++ [(ordinal, es)]) [])
      (TreeWriter.rotate cfg onValueRef leafRoom .leaf w.leaf w.upper w.out) := by
  have hnum : fits → leafRoom ≠ 0 ∧ ws.length + 1 ≤ 2 ^ (leafRoom - 1) := by
    intro _
    have h1 := h.leaf.length_le
    have h2 := h.sink.limit
    simp only [leafRoom, maxLevels, i32Max] at h2 ⊢
    omega
  refine Meets.mono (rotate_rotates hmin leafRoom 0 .leaf items es w.leaf ws w.upper w.out pages tag h.sink
    h.leaf hne h.keys h.upper h.room hnum fun n hn => hmay n (hn.trans (Nat.add_le_add_left (by decide) _))) ?_
  rintro ⟨leaf', upper', out'⟩ ⟨pages', tag', ordinal, hs, hg, hl, hx, hu, hr, hgrown, hc⟩
  simp only at hs hg hl hx hu hr hc ⊢
  have hlen := h.length_given
  have hfull : ((ws ++ [(ordinal, es)]).flatMap Prod.snd).length = given.length := by
    rw [hlen, flatMap_append, length_append]
    simp
  refine ⟨pages', tag', ordinal, hg.filter, hgrown, fun entries pendingExtra =>
    ⟨hs, h.grows.trans (hg.mono fun _ _ => trivial), hl, hu, hr, ?_, ?_, ?_⟩⟩
  · exact h.items.imp fun _ _ hit => hit.grow hg
  · rw [hfull, drop_length]
    exact hx
  · -- The pairs already handed over, and then those of the page just written.
    have hsplit : given = given.take (ws.flatMap Prod.snd).length ++ given.drop (ws.flatMap Prod.snd).length :=
      (take_append_drop ..).symm
    have hrefs : (ws.flatMap (pageRefs cfg.layout)).length = (ws.flatMap Prod.snd).length := by
      simp [length_flatMap]
    rw [hfull, take_length]
    conv_lhs => rw [hsplit]
    rw [map_append, flatMap_append, zip_append (by rw [hrefs, length_map, length_take]; omega), handAll_append, h.caller, ok_bind,
      ← h.extras, flatMap_singleton]
    rw [handOver_eq] at hc
    exact hc

theorem rotateLeaf_meets (hmin : minPageSize ≤ cfg.pageSize)
    (h : WriterOk cfg onValueRef fits front s₀ pages₀ c₀ w given pages tag items ws es) (hne : es ≠ [])
    (hmay : ∀ n ≤ pages.length + 64, full n) :
    Meets (WriterFault cfg fits full values w.out.sink.filter onValueRef)
      (fun w' => ∃ pages' tag' ordinal, w'.out.sink.filter = w.out.sink.filter ∧ pages'.length ≤ pages.length + 64 ∧
        WriterOk cfg onValueRef fits front s₀ pages₀ c₀ w' given pages' tag' items (ws ++ [(ordinal, es)]) [])
      (rotateLeaf cfg onValueRef w) := by
  unfold rotateLeaf
  refine Meets.bind (rotate_leaf_meets hmin h hne hmay) ?_
  rintro ⟨leaf', upper', out'⟩ - ⟨pages', tag', ordinal, hf, hgrown, hw⟩
  exact ⟨pages', tag', ordinal, hf, hgrown, hw _ _⟩

/-! ## Room on the leaf -/

/-- What `inlineNeeds` computes is the page with the entry on it. -/
theorem inlineNeeds_eq (h : l.Holds cfg.layout es) (it : Item) :
    inlineNeeds cfg l (cfg.layout.storedKeyLen it.key.length) it.body.bytes.length =
      Node.len { kind := .leaf, layout := cfg.layout, items := es ++ [it] } := by
  have hc := it.length_chunk cfg.layout
  simp only [Item.size] at hc
  simp only [inlineNeeds, Node.len, Node.base, Node.payload, Level.entryCount, h.sizes, h.payload,
    length_append, length_map, length_singleton, flatMap_append, flatMap_singleton, hc]
  omega

/-- A writer whose open leaf can take the entry: as an overflow reference at least. -/
structure LeafReady (cfg : WriterConfig E) (key value : Bytes) (leaf : Level E) (es : List Item) : Prop where
  firstKey : es = [] → leaf.firstKey = some key
  fits : overflows cfg leaf key value = true →
    inlineNeeds cfg leaf (cfg.layout.storedKeyLen key.length) 8 ≤ cfg.pageSize

theorem WriterOk.withFirstKey (h : WriterOk cfg onValueRef fits front s₀ pages₀ c₀ w given pages tag items ws es)
    (key : Bytes) :
    WriterOk cfg onValueRef fits front s₀ pages₀ c₀ { w with leaf := TreeWriter.withFirstKey key w.leaf } given pages tag
        items ws es ∧
      (es = [] → (TreeWriter.withFirstKey key w.leaf).firstKey = some key) := by
  obtain ⟨hl, hf⟩ := h.leaf.withFirstKey key
  refine ⟨{ h with leaf := hl, extras := ?_ }, hf⟩
  have hx : (TreeWriter.withFirstKey key w.leaf).extras = w.leaf.extras := by
    unfold TreeWriter.withFirstKey
    split <;> rfl
  exact hx.trans h.extras

theorem overflows_eq_true :
    overflows cfg l key value = true ↔
      cfg.pageSize < inlineNeeds cfg l (cfg.layout.storedKeyLen key.length) value.length ∨
        overflowSentinel ≤ value.length := by
  simp [overflows]

theorem makeLeafRoom_meets (hmin : minPageSize ≤ cfg.pageSize)
    (h : WriterOk cfg onValueRef fits front s₀ pages₀ c₀ w given pages tag items ws es)
    (hfirst : es = [] → w.leaf.firstKey = some key)
    (hkey : cfg.layout.payloadStart .leaf 1 + cfg.layout.storedKeyLen key.length + 8 ≤ cfg.pageSize)
    (hmay : ∀ n ≤ pages.length + 64, full n) :
    Meets (WriterFault cfg fits full values w.out.sink.filter onValueRef)
      (fun w' => ∃ pages' tag' ws' es', w'.out.sink.filter = w.out.sink.filter ∧ pages'.length ≤ pages.length + 64 ∧
        WriterOk cfg onValueRef fits front s₀ pages₀ c₀ w' given pages' tag' items ws' es' ∧
        LeafReady cfg key value w'.leaf es')
      (makeLeafRoom cfg onValueRef key value w) := by
  unfold makeLeafRoom
  have hempty : ∀ l : Level E, l.Holds cfg.layout [] →
      inlineNeeds cfg l (cfg.layout.storedKeyLen key.length) 8 ≤ cfg.pageSize := by
    intro l hl
    simp only [inlineNeeds, Level.entryCount, hl.sizes, hl.payload, map_nil, flatMap_nil,
      length_nil, Nat.zero_add]
    omega
  simp only
  split
  · rename_i hfull
    have hne : es ≠ [] := by
      rintro rfl
      have := h.leaf.entryCount_eq
      simp at this
      omega
    refine Meets.map (Meets.mono (rotateLeaf_meets hmin h hne hmay) ?_)
    rintro w' ⟨pages', tag', ordinal, hf, hgrown, hw'⟩
    obtain ⟨h1, h2⟩ := hw'.withFirstKey key
    exact ⟨pages', tag', _, [], hf, hgrown, h1, ⟨h2, fun _ => hempty _ h1.leaf.holds⟩⟩
  · rename_i hroom
    refine ⟨pages, tag, ws, es, rfl, by omega, h, ⟨hfirst, fun hover => ?_⟩⟩
    by_contra hbig
    have hcount := h.leaf.entryCount_eq
    rcases Nat.eq_zero_or_pos w.leaf.entryCount with h0 | h0
    · have hes : es = [] := eq_nil_of_length_eq_zero (by omega)
      subst hes
      exact hbig (hempty _ h.leaf.holds)
    · -- A value at the sentinel is longer than the reference that replaces it.
      refine hroom ⟨?_, by omega, h0⟩
      rcases overflows_eq_true.1 hover with hlt | hsent
      · exact hlt
      · simp only [overflowSentinel] at hsent
        simp only [inlineNeeds] at hbig ⊢
        omega

/-! ## Placing the value -/

theorem prefixed_blob (value : Bytes) : pagePrefixLen ≤ (blobImage value).length := by simp [blobImage]

/-- A value that overflows goes onto a page of its own, which belongs to no level. -/
theorem placeValue_meets (key value : Bytes) (leaf : Level E)
    (h : WriterOk cfg onValueRef fits front s₀ pages₀ c₀ w given pages tag items ws es) (hvalue : value ∈ values)
    (hmay : full pages.length) :
    Meets (WriterFault cfg fits full values w.out.sink.filter onValueRef)
      (fun r => ∃ pages' tag', r.2.Holds front pages' ∧ pages'.length ≤ pages.length + 1 ∧ Grows (fun _ => False) w.out.sink pages tag r.2 pages' tag' ∧
        (r.1.isSome = overflows cfg leaf key value) ∧
        ∀ page ∈ r.1, page < i32Max ∧ pages'[page]? = some (blobImage value) ∧ tag' page = none)
      (placeValue cfg leaf key value w.out.sink) := by
  unfold placeValue
  split
  · rename_i hover
    refine Meets.map ?_
    unfold writeBlobPage
    refine Meets.bind (Meets.of_fault fun e he => .pageLimit (h.sink.length_directory ▸ hmay) he) ?_
    rintro ⟨ordinal, offset, begun⟩ hb -
    have hbegun : begun.filter = w.out.sink.filter ∧ ∀ o < pages.length,
        begun.directory[o]? = w.out.sink.directory[o]? := by
      unfold PageSink.beginPage at hb
      rw [guard_eq_ok] at hb
      simp only [Except.ok.injEq, Prod.mk.injEq] at hb
      obtain ⟨-, -, -, rfl⟩ := hb
      exact ⟨rfl, fun o ho => getElem?_append_left (by rw [h.sink.length_directory]; exact ho)⟩
    refine Meets.bind (Meets.of_fault fun e he => ?_) fun sink hw _ => ?_
    · rw [PageSink.writePage, map_eq_error, hbegun.1] at he
      exact .filtered (.inr (mem_map_of_mem hvalue)) he
    · obtain ⟨ho, hlim, hfil, hholds, -⟩ := h.sink.addPage hb hw (prefixed_blob value)
      have hdir : sink.directory = begun.directory := by
        obtain ⟨st, -, rfl⟩ := map_eq_ok.1 hw
        rfl
      refine ⟨_, Function.update tag ordinal none, hholds, by simp, ⟨by simp, ?_, ?_, ?_, hfil⟩, ?_, ?_⟩
      · intro o hlt
        exact Function.update_of_ne (by omega) _ _
      · intro o hlt _
        exact getElem?_append_left hlt
      · intro o hlt
        rw [hdir]
        exact hbegun.2 o hlt
      · simp [hover]
      · intro page hp
        obtain rfl : ordinal = page := by simpa using hp
        exact ⟨hlim, by simp [ho], by simp⟩
  · rename_i hin
    refine ⟨pages, tag, h.sink, by omega, Grows.refl .., ?_, by simp⟩
    simpa using hin

/-! ## Adding the entry -/

/-- The entry `push` adds. -/
def newItem (key value : Bytes) (digest : UInt64) : Option Nat → Item
  | some page => { key, digest, body := .blob page value.length }
  | none => { key, digest, body := .inline value }

theorem Level.Holds.addEntry {items : List Item} (h : l.Holds cfg.layout items) (key value : Bytes)
    (digest : UInt64) (blob : Option Nat) (extra : E) :
    (TreeWriter.addEntry cfg l key value digest blob extra).Holds cfg.layout (items ++ [newItem key value digest blob]) := by
  constructor
  · cases blob <;> simp [TreeWriter.addEntry, h.payload, Item.chunk, newItem, Body.bytes]
  · cases blob <;> simp [TreeWriter.addEntry, h.sizes, Item.size, newItem, Body.bytes, ordinalBytes]
  · cases blob <;> simp [TreeWriter.addEntry, h.overflow, newItem, Body.blobRef]
  · cases blob <;> simp [TreeWriter.addEntry, h.digests, newItem]

theorem addEntry_ok {digest : UInt64} {blob : Option Nat} {sink : PageSink}
    {pages' : List Bytes} {tag' : Nat → Option Nat} (extra : E) (entries pending : Nat)
    (h : WriterOk cfg onValueRef fits front s₀ pages₀ c₀ w given pages tag items ws es)
    (hready : LeafReady cfg key value w.leaf es) (hs : sink.Holds front pages')
    (hg : Grows (fun _ => False) w.out.sink pages tag sink pages' tag')
    (hblob : blob.isSome = overflows cfg w.leaf key value)
    (hpage : ∀ page ∈ blob, page < i32Max ∧ pages'[page]? = some (blobImage value) ∧ tag' page = none)
    (hk : KeyOk cfg fits (newItem key value digest blob)) :
    WriterOk cfg onValueRef fits front s₀ pages₀ c₀
      { w with out := { w.out with sink }, leaf := TreeWriter.addEntry cfg w.leaf key value digest blob extra,
               entries := entries, pendingExtra := pending }
      (given ++ [(key, value, extra)]) pages' tag' (items ++ [newItem key value digest blob]) ws
      (es ++ [newItem key value digest blob]) := by
  have hg' : Grows (fun _ => True) w.out.sink pages tag sink pages' tag' := hg.mono fun _ hf => hf.elim
  have hlen := h.length_given
  have hl := h.leaf.grow hg not_false
  have hover : overflows cfg w.leaf key value = true ↔ _ := overflows_eq_true
  have hkey : (newItem key value digest blob).key = key := by cases blob <;> rfl
  have hsize : Node.len { kind := .leaf, layout := cfg.layout, items := es ++ [newItem key value digest blob] } ≤
      cfg.pageSize := by
    rw [← inlineNeeds_eq h.leaf.holds, hkey]
    cases blob with
    | some page =>
      have := hready.fits (by simpa using hblob.symm)
      simpa [newItem, Body.bytes, ordinalBytes] using this
    | none =>
      have hno : ¬ overflows cfg w.leaf key value = true := by simp [← hblob]
      rw [hover, not_or] at hno
      exact Nat.le_of_not_lt hno.1
  have hitem : ItemOf cfg fits pages' tag' (newItem key value digest blob) (key, value, extra) := by
    cases blob with
    | some page =>
      obtain ⟨h1, h2, h3⟩ := hpage page rfl
      refine ⟨rfl, hk, ?_, rfl, h2, h3⟩
      simp only [i32Max] at h1
      exact (show page < 2 ^ 63 by omega)
    | none =>
      have hno : ¬ overflows cfg w.leaf key value = true := by simp [← hblob]
      rw [hover, not_or] at hno
      exact ⟨rfl, hk, Nat.lt_of_not_le hno.2, rfl⟩
  refine ⟨hs, h.grows.trans hg', ⟨?_, h.leaf.holds.addEntry key value digest blob extra, ?_, hl.prevOrdinal, hl.prevOffset, hl.ascending, hl.nonempty,
    hl.tagged, hl.size, hl.linked, hsize⟩, h.upper.grow hg fun _ _ => not_false, h.room, ?_, ?_, ?_⟩
  · rw [h.leaf.split, append_assoc]
  · intro it hit
    cases hes : es with
    | nil =>
      rw [hes, nil_append, head?_cons, Option.mem_some_iff] at hit
      rw [← hit, hkey]
      exact hready.firstKey hes
    | cons e rest =>
      rw [hes] at hit
      exact h.leaf.firstKey it (by rw [hes]; simpa using hit)
  · exact rel_append (h.items.imp fun _ _ hit => hit.grow hg) (.cons hitem .nil)
  · rw [drop_append_of_le_length (by omega), map_append, ← h.extras]
    rfl
  · rw [take_append_of_le_length (by omega)]
    exact h.caller

/-- Early rotations write a leaf that is not full. -/
theorem rotateEarly_meets (hmin : minPageSize ≤ cfg.pageSize)
    (h : WriterOk cfg onValueRef fits front s₀ pages₀ c₀ w given pages tag items ws es) (hmay : ∀ n ≤ pages.length + 64, full n) :
    Meets (WriterFault cfg fits full values w.out.sink.filter onValueRef)
      (fun w' => ∃ pages' tag' ws' es', w'.out.sink.filter = w.out.sink.filter ∧ pages'.length ≤ pages.length + 64 ∧
        WriterOk cfg onValueRef fits front s₀ pages₀ c₀ w' given pages' tag' items ws' es')
      (rotateEarly cfg onValueRef w) := by
  unfold rotateEarly
  split
  · rename_i hearly
    have hne : es ≠ [] := by
      rintro rfl
      have := h.leaf.entryCount_eq
      simp at this
      omega
    refine Meets.mono (rotateLeaf_meets hmin h hne hmay) ?_
    rintro w' ⟨pages', tag', ordinal, hf, hgrown, hw'⟩
    exact ⟨pages', tag', _, [], hf, hgrown, hw'⟩
  · exact ⟨pages, tag, ws, es, rfl, by omega, h⟩

/-- What `push` needs of an entry: the writer accepts it, its key has a digest, and it
passed `checkKeyFits` when all keys did. -/
structure EntryOk (cfg : WriterConfig E) (fits : Prop) (key value : Bytes) : Prop where
  accepted : checkEntry cfg key value = .ok ()
  digest : ∃ d, cfg.encoding.digest key = .ok d
  keyFits : fits → checkKeyFits cfg.pageSize cfg.layout key.length = .ok ()

theorem checkKeyFits_eq_ok {pageSize keyLen : Nat} {layout : NodeLayout} :
    checkKeyFits pageSize layout keyLen = .ok () ↔
      layout.payloadStart .leaf 1 + layout.storedKeyLen keyLen + 8 ≤ pageSize ∧
        layout.payloadStart .internal 2 + 2 * (layout.storedKeyLen keyLen + 8) ≤ pageSize := by
  unfold checkKeyFits
  simp only [guard_eq_ok, and_true, Nat.not_lt]

theorem checkEntry_eq_ok :
    checkEntry cfg key value = .ok () ↔ key.length ≤ u16Max ∧ value.length ≤ i32Max ∧
      cfg.layout.payloadStart .leaf 1 + cfg.layout.storedKeyLen key.length + 8 ≤ cfg.pageSize := by
  unfold checkEntry
  simp only [guard_eq_ok, and_true, Nat.not_lt]

/-- One call of `push`: it writes at most a page of its own for the value, and rotates the leaf twice. -/
theorem push_meets (hmin : minPageSize ≤ cfg.pageSize) {extra : E}
    (h : WriterOk cfg onValueRef fits front s₀ pages₀ c₀ w given pages tag items ws es) (he : EntryOk cfg fits key value)
    (hvalue : value ∈ values) (hmay : ∀ n ≤ pages.length + 129, full n) :
    Meets (WriterFault cfg fits full values w.out.sink.filter onValueRef)
      (fun w' => ∃ pages' tag' items' ws' es', w'.out.sink.filter = w.out.sink.filter ∧ pages'.length ≤ pages.length + 129 ∧
        WriterOk cfg onValueRef fits front s₀ pages₀ c₀ w' (given ++ [(key, value, extra)]) pages' tag' items' ws' es')
      (push cfg onValueRef key value extra w) := by
  obtain ⟨digest, hd⟩ := he.digest
  obtain ⟨hlen, -, hminimum⟩ := checkEntry_eq_ok.1 he.accepted
  unfold push
  rw [he.accepted, ok_bind]
  obtain ⟨h₁, hfirst⟩ := h.withFirstKey key
  refine Meets.bind (makeLeafRoom_meets hmin h₁ hfirst hminimum fun n hn => hmay n (by omega)) ?_
  rintro w₂ - ⟨pages₂, tag₂, ws₂, es₂, hf₂, hgrown₂, h₂, hready⟩
  rw [hd, ok_bind]
  have hplace := placeValue_meets key value w₂.leaf h₂ hvalue (hmay _ (by omega))
  simp only at hf₂
  rw [hf₂] at hplace
  refine Meets.bind hplace ?_
  rintro ⟨blob, sink⟩ - ⟨pages₃, tag₃, hs₃, hgrown₃, hg₃, hblob, hpage⟩
  simp only at hs₃ hg₃ hblob hpage ⊢
  have hkey : KeyOk cfg fits (newItem key value digest blob) := by
    have hk : (newItem key value digest blob).key = key := by cases blob <;> rfl
    have hdig : (newItem key value digest blob).digest = digest := by cases blob <;> rfl
    refine ⟨by rw [hk, hdig]; exact hd, by rw [hk]; exact hlen, by rw [hk]; exact hminimum, fun hf => ?_⟩
    rw [hk]
    exact (checkKeyFits_eq_ok.1 (he.keyFits hf)).2
  have h₃ := addEntry_ok extra (w₂.entries + 1) (w₂.pendingExtra + cfg.extraBytes extra) h₂ hready hs₃ hg₃ hblob hpage hkey
  have hearly : Meets (WriterFault cfg fits full values _ onValueRef) _ _ :=
    rotateEarly_meets hmin h₃ fun n hn => hmay n (by omega)
  simp only [hg₃.filter, hf₂] at hearly
  refine Meets.mono hearly ?_
  rintro w' ⟨pages', tag', ws', es', hf', hgrown, hw'⟩
  exact ⟨pages', tag', _, ws', es', hf', by omega, hw'⟩

end

end DryDb
