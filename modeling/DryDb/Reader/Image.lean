import DryDb.Reader.Env
/-!
# Hand-made database images

A file with one table, from the bytes of its pages. The reader takes any byte string,
so a statement about every file is refuted by one of these.
-/

namespace DryDb

namespace Image

/-- A page from its kind word, its entry count, its links and everything behind the prefix. -/
def page (kindWord count : Nat) (left right : Option Nat) (body : Bytes) : Bytes :=
  leBytes 4 (pagePrefixLen + body.length) ++ leBytes 4 kindWord ++ leBytes 4 count ++ ordinalBytes left ++
    ordinalBytes right ++ body

/-- The kind word of an internal page that stores no keys. -/
def internalOmitted : Nat := 1 + NodeLayout.flagBits { compactMeta := true, omittedKeys := true }

/-- An internal page that stores no keys: digests, then children. -/
def digestNode (left right : Option Nat) (entries : List (UInt64 × Nat)) : Bytes :=
  page internalOmitted entries.length left right
    (entries.flatMap (fun e => leBytes 8 e.1.toNat) ++ entries.flatMap (fun e => leBytes 8 e.2))

/-- A leaf without entries. -/
def emptyLeaf (left right : Option Nat) : Bytes := page 0 0 left right []

/-- The catalog bytes of one table named `t`, its trees given as `(name, encoding, unique, kind, root)`. -/
def index (name encoding : Bytes) (unique : Bool) (kind : ValueKind) (root : Nat) : Bytes :=
  leBytes 2 name.length ++ leBytes 2 encoding.length ++ name ++ encoding ++ leBytes 1 (if unique then 1 else 0) ++
    leBytes 1 kind.toU8 ++ leBytes 8 root

/-- The offsets of consecutive pages from `start` on. -/
def offsets (start : Nat) : List Bytes → List Nat
  | [] => []
  | p :: rest => start :: offsets (start + p.length) rest

/-- A file with one table whose descriptors are `primary` and `secondaries`. -/
def file (primary : Bytes) (secondaries : List Bytes) (pages : List Bytes) : Bytes :=
  let catalog := leBytes 4 1 ++ [0x74] ++ primary ++ leBytes 2 secondaries.length ++ secondaries.flatten
  let start := headerLen + catalog.length
  let header : Header := { pageFilterCount := 0, pageSize := 4096, tableCount := 1, pageCount := pages.length,
                           pageDirectoryPosition := start + pages.flatten.length }
  header.encode ++ catalog ++ pages.flatten ++ (offsets start pages).flatMap (leBytes 8)

end Image

/-- A store whose pages are all cached and whose budget never refuses. -/
def Env.warm (store : PageStore) : Env
  | .page o => store.page o
  | .pageCached o => (store.page o).toOption
  | .retainedRoot _ => none
  | .retainRoot _ _ => ()
  | .reserve _ => .ok ()
  | .digestsCheckedBy _ _ => false
  | .markDigestsChecked _ _ => ()

theorem Env.warm_reads (store : PageStore) : (Env.warm store).Reads store := fun _ => rfl

theorem Env.warm_honest (store : PageStore) (t : Tree) : (Env.warm store).Honest t where
  ordinal _ _ h := PageStore.page_ordinal h
  cached o pin h := by
    simp only [warm] at h ⊢
    cases hp : store.page o with
    | error e => simp [hp, Except.toOption] at h
    | ok p => simpa [hp, Except.toOption] using h
  retained _ h := by cases h
  checked _ h := by cases h

/-! ## A tree of one leaf -/

namespace Lone

/-- A leaf with the row of key 7, whose value is a reference to itself. -/
def page : Bytes :=
  Image.page (NodeLayout.flagBits { compactMeta := true, omittedKeys := true }) 1 none none
    (leBytes 8 0x8000000000000007 ++ leBytes 2 40 ++ leBytes 2 56 ++ PageRef.encode ⟨0, 40, 16⟩)

def tree : Tree where
  store := { source := List.replicate headerLen 0 ++ page ++ leBytes 8 headerLen,
             directoryBase := headerLen + page.length, pageCount := 1 }
  root := some 0
  encoding := int64Encoding

def cursor : Cursor := { tree, order := .ascending, range := .all, pageStepsLeft := 2 }

end Lone

/-! ## A tree of two leaves -/

namespace Twin

/-- A leaf with the row of one key, whose value is a reference to itself. -/
def leaf (self key : Nat) (left right : Option Nat) : Bytes :=
  Image.page (NodeLayout.flagBits { compactMeta := true, omittedKeys := true }) 1 left right
    (leBytes 8 (0x8000000000000000 + key) ++ leBytes 2 40 ++ leBytes 2 56 ++ PageRef.encode ⟨self, 40, 16⟩)

/-- The rows of the keys 7 and 9, a leaf each, and the root above them. -/
def pages : List Bytes :=
  [leaf 0 7 none (some 1), leaf 1 9 (some 0) none,
    Image.digestNode none none [(0x8000000000000007, 0), (0x8000000000000009, 1)]]

def tree : Tree where
  store := { source := List.replicate headerLen 0 ++ pages.flatten ++ (Image.offsets headerLen pages).flatMap (leBytes 8),
             directoryBase := 198, pageCount := 3 }
  root := some 2
  encoding := int64Encoding

def cursor : Cursor := { tree, order := .ascending, range := .all, pageStepsLeft := 4 }

end Twin

end DryDb
