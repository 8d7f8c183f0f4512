import DryDb.Model.TreeWriter
/-!
# Pages by their entries

The writer keeps an open page as four parallel columns and the reader sees a buffer.
Between the two stands `Node`: a page as the list of its entries. `Node.image` is the
buffer the writer's columns come to, and `Node.view` is what `PageView.parse` makes of
it, for every one of the four layouts.
-/

namespace DryDb

open List

/-- What an entry holds besides its key. -/
inductive Body where
  /-- A value on the leaf itself. -/
  | inline (value : Bytes)
  /-- A value of `length` bytes on a page of its own. -/
  | blob (page length : Nat)
  /-- The child of a separator. -/
  | child (page : Nat)
  deriving DecidableEq, Inhabited

namespace Body

/-- The bytes behind the key. -/
def bytes : Body → Bytes
  | inline value => value
  | blob page _ => ordinalBytes (some page)
  | child page => ordinalBytes (some page)

/-- The reference the writer keeps for an overflowed value. -/
def blobRef : Body → Option PageRef
  | blob page length => some { page, start := pagePrefixLen, length }
  | _ => none

/-- Where the reader finds the value of a leaf entry whose value bytes start at `offset`. -/
def leafValue (offset : Nat) : Body → LeafValue
  | inline value => .inline offset value.length
  | blob page _ => .overflow page
  | child page => .overflow page

/-- The bodies a page of a kind can hold, in the ranges the format stores. -/
def Fits : NodeKind → Body → Prop
  | .leaf, inline value => value.length < overflowSentinel
  | .leaf, blob page _ => page < 2 ^ 63
  | .internal, child page => page < 2 ^ 63
  | _, _ => False

end Body

/-- One entry of a page. -/
structure Item where
  key : Bytes
  digest : UInt64
  body : Body
  deriving DecidableEq, Inhabited

namespace Item

/-- The payload bytes of an entry: the key, when it is stored, and the body. -/
def chunk (layout : NodeLayout) (it : Item) : Bytes := layout.storedKey it.key ++ it.body.bytes

/-- The sizes column of an entry. -/
def size (layout : NodeLayout) (it : Item) : Nat × Nat :=
  (layout.storedKeyLen it.key.length, it.body.bytes.length)

def Fits (kind : NodeKind) (it : Item) : Prop := it.key.length ≤ u16Max ∧ it.body.Fits kind

@[simp] theorem length_storedKey (layout : NodeLayout) (key : Bytes) :
    (layout.storedKey key).length = layout.storedKeyLen key.length := by
  unfold NodeLayout.storedKey NodeLayout.storedKeyLen
  split <;> rfl

theorem length_chunk (layout : NodeLayout) (it : Item) :
    (it.chunk layout).length = (it.size layout).1 + (it.size layout).2 := by
  simp [chunk, size]

end Item

/-- A page by its entries. -/
structure Node where
  kind : NodeKind
  layout : NodeLayout
  items : List Item
  left : Option Nat := none
  right : Option Nat := none

/-- The open page of a level holds these entries. -/
structure Level.Holds {E : Type} (l : Level E) (layout : NodeLayout) (items : List Item) : Prop where
  payload : l.payload = items.flatMap (Item.chunk layout)
  sizes : l.sizes = items.map (Item.size layout)
  overflow : l.overflow = items.map fun it => it.body.blobRef
  digests : l.digests = items.map Item.digest

namespace Node

/-- The columns of a page. -/
def level (n : Node) : Level Unit :=
  { payload := n.items.flatMap (Item.chunk n.layout)
    sizes := n.items.map (Item.size n.layout)
    overflow := n.items.map fun it => it.body.blobRef
    digests := n.items.map Item.digest }

def digestBytes (n : Node) : Bytes := n.level.digestBytes n.layout

def metaBytes (n : Node) : Bytes := n.level.metaBytes n.layout n.kind

def payload (n : Node) : Bytes := n.items.flatMap (Item.chunk n.layout)

/-- Where the payloads begin. -/
def base (n : Node) : Nat := n.layout.payloadStart n.kind n.items.length

/-- The length of the page. -/
def len (n : Node) : Nat := n.base + n.payload.length

/-- The buffer of the page. -/
def image (n : Node) : Bytes :=
  pagePrefix n.len (kindWord n.kind n.layout) n.items.length n.left n.right ++ n.digestBytes ++ n.metaBytes ++
    n.payload

/-- The parsed page. -/
def view (n : Node) : PageView :=
  { bytes := n.image
    header :=
      { kind := n.kind, layout := n.layout, entryCount := n.items.length, leftSibling := n.left
        rightSibling := n.right }
    metaBase := digestBase + n.layout.digestArea n.items.length
    payloadBase := n.base }

@[simp] theorem view_bytes (n : Node) : n.view.bytes = n.image := rfl
@[simp] theorem view_kind (n : Node) : n.view.kind = n.kind := rfl
@[simp] theorem view_layout (n : Node) : n.view.layout = n.layout := rfl
@[simp] theorem view_entryCount (n : Node) : n.view.entryCount = n.items.length := rfl
@[simp] theorem view_left (n : Node) : n.view.leftSibling = n.left := rfl
@[simp] theorem view_right (n : Node) : n.view.rightSibling = n.right := rfl
@[simp] theorem view_payloadBase (n : Node) : n.view.payloadBase = n.base := rfl

/-- The payload of entry `i` begins here. -/
def offset (n : Node) (i : Nat) : Nat := n.base + ((n.items.take i).map (Item.chunk n.layout)).flatten.length

/-- What the format can store. -/
structure Fits (n : Node) : Prop where
  layout : n.layout.omittedKeys = true → n.layout.compactMeta = true ∧ n.layout.eytzinger = false
  length : n.len ≤ i32Max
  compact : n.layout.compactMeta = true → n.len ≤ maxCompactPageSize
  items : ∀ it ∈ n.items, it.Fits n.kind
  left : ∀ p ∈ n.left, p < 2 ^ 63
  right : ∀ p ∈ n.right, p < 2 ^ 63

end Node

/-- A level's open page is the page of the entries it holds. -/
theorem Level.Holds.image_eq {E : Type} {l : Level E} {layout : NodeLayout} {items : List Item}
    (h : l.Holds layout items) (kind : NodeKind) :
    l.image layout kind = Node.image { kind, layout, items, left := l.prevOrdinal } := by
  obtain ⟨hp, hs, ho, hd⟩ := h
  unfold Level.image Node.image Level.pageLen Node.len Node.base Node.digestBytes Node.metaBytes Node.payload
    Node.level Level.entryCount Level.digestBytes Level.metaBytes Level.entryCount
  rw [hp, hs, ho, hd, length_map]

/-! ## Lengths -/

@[simp] theorem length_pagePrefix (len word count : Nat) (left right : Option Nat) :
    (pagePrefix len word count left right).length = pagePrefixLen := by
  simp [pagePrefix, ordinalBytes, pagePrefixLen]

theorem length_fillEytzinger (steps : Nat) (sorted slots : List UInt64) (node : Nat) :
    (fillEytzinger steps sorted slots node).2.length = slots.length := by
  induction steps generalizing sorted slots node with
  | zero => rfl
  | succ steps ih =>
    rw [fillEytzinger]
    split
    · rfl
    · simp only
      rw [ih]
      have hl := ih sorted slots (2 * node)
      split
      · exact hl
      · rw [length_set]; exact hl

@[simp] theorem length_scatterEytzinger (sorted : List UInt64) :
    (scatterEytzinger sorted).length = completeSize sorted.length := by
  rw [scatterEytzinger, length_fillEytzinger, length_replicate]

theorem length_compactWords (kind : NodeKind) (offset : Nat) (entries : List ((Nat × Nat) × Option PageRef)) :
    (compactWords kind offset entries).length = entries.length + 1 := by
  induction entries generalizing offset with
  | nil => rfl
  | cons e entries ih => simp [compactWords, ih]

theorem length_classicRecords (kind : NodeKind) (offset : Nat) (entries : List ((Nat × Nat) × Option PageRef)) :
    (classicRecords kind offset entries).length = entries.length := by
  induction entries generalizing offset with
  | nil => rfl
  | cons e entries ih => simp [classicRecords, ih]

/-- Bytes of one classic metadata record. -/
def classicWidth : NodeKind → Nat
  | .leaf => 8
  | .internal => 6

theorem classicRecords_width (kind : NodeKind) (offset : Nat) (entries : List ((Nat × Nat) × Option PageRef)) :
    ∀ r ∈ classicRecords kind offset entries, r.length = classicWidth kind := by
  induction entries generalizing offset with
  | nil => simp [classicRecords]
  | cons e entries ih =>
    intro r hr
    simp only [classicRecords, mem_cons] at hr
    rcases hr with rfl | hr
    · cases kind <;> simp [classicWidth]
    · exact ih _ r hr

/-- A table of records of one width. -/
theorem length_flatten_of_width {w : Nat} {rows : List Bytes} (h : ∀ r ∈ rows, r.length = w) :
    rows.flatten.length = rows.length * w := by
  rw [length_flatten, map_congr_left h, map_const', sum_replicate, smul_eq_mul]

theorem length_flatMap_leBytes {α : Type} (w : Nat) (f : α → Nat) (l : List α) :
    (l.flatMap fun a => leBytes w (f a)).length = l.length * w := by
  rw [List.flatMap, length_flatten_of_width (w := w) (by simp), length_map]

namespace Node

variable (n : Node)

@[simp] theorem length_digestBytes : n.digestBytes.length = n.layout.digestArea n.items.length := by
  unfold digestBytes Level.digestBytes NodeLayout.digestArea NodeLayout.digestSlots
  rw [length_flatMap_leBytes]
  split <;> simp [level]

/-! ## The metadata of each layout -/

/-- The sizes and overflow columns side by side. -/
def columns : List ((Nat × Nat) × Option PageRef) := n.items.map fun it => (it.size n.layout, it.body.blobRef)

theorem zip_columns : n.level.sizes.zip n.level.overflow = n.columns := by
  simp [level, columns, zip_map']

theorem metaBytes_classic (hc : n.layout.compactMeta = false) :
    n.metaBytes = (classicRecords n.kind n.base n.columns).flatten := by
  unfold metaBytes Level.metaBytes
  rw [zip_columns]
  simp [hc, base, level, Level.entryCount]

theorem metaBytes_leaf (hc : n.layout.compactMeta = true) (hk : n.kind = .leaf) :
    n.metaBytes = (compactWords .leaf n.base n.columns).flatMap (leBytes 2) ++
      if n.layout.omittedKeys then [] else n.items.flatMap fun it => leBytes 2 (n.layout.storedKeyLen it.key.length) := by
  unfold metaBytes Level.metaBytes
  rw [zip_columns]
  cases n.layout.omittedKeys <;> simp [hc, hk, base, level, Level.entryCount, flatMap_map, Item.size]

theorem metaBytes_internal (hc : n.layout.compactMeta = true) (hk : n.kind = .internal) :
    n.metaBytes = if n.layout.omittedKeys then []
      else (compactWords .internal n.base n.columns).flatMap (leBytes 2) := by
  unfold metaBytes Level.metaBytes
  rw [zip_columns]
  cases n.layout.omittedKeys <;> simp [hc, hk, base, level, Level.entryCount]

@[simp] theorem length_columns : n.columns.length = n.items.length := by simp [columns]

@[simp] theorem length_metaBytes : n.metaBytes.length = n.layout.metaArea n.kind n.items.length := by
  have hw := length_flatMap_leBytes 2 (fun w : Nat => w) (compactWords n.kind n.base n.columns)
  have hk := length_flatMap_leBytes 2 (fun it : Item => n.layout.storedKeyLen it.key.length) n.items
  have hr := length_flatten_of_width (classicRecords_width n.kind n.base n.columns)
  rw [length_compactWords, length_columns] at hw
  rw [length_classicRecords, length_columns] at hr
  unfold NodeLayout.metaArea NodeLayout.leafMeta NodeLayout.internalMeta
  cases hc : n.layout.compactMeta with
  | false =>
    rw [metaBytes_classic n hc, hr]
    cases n.kind <;> simp [classicWidth]
  | true =>
    cases hkind : n.kind with
    | leaf =>
      rw [hkind] at hw
      rw [metaBytes_leaf n hc hkind, length_append, hw]
      cases ho : n.layout.omittedKeys with
      | true => simp
      | false =>
        simp only [Bool.false_eq_true, if_false, if_true, hk]
        omega
    | internal =>
      rw [hkind] at hw
      rw [metaBytes_internal n hc hkind]
      cases ho : n.layout.omittedKeys with
      | true => simp
      | false =>
        simp only [Bool.false_eq_true, if_false, if_true]
        exact hw

theorem length_image : n.image.length = n.len := by
  unfold image len base NodeLayout.payloadStart
  simp only [length_append, length_pagePrefix, length_digestBytes, length_metaBytes]

end Node

end DryDb
