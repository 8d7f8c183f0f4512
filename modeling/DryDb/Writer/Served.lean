import DryDb.Keys.Laws
import DryDb.Reader.Keyed
import DryDb.Writer.Loaded
import DryDb.Writer.WellFormed
/-!
# A written tree as a reader finds it

What the writer leaves in a file is a `Stack` of page chains. When the pages can be
loaded, the same pages are a tree a search can trust: every page passes the digest check,
its keys are the ones that were pushed, the subtrees are fenced by their separators and
the leaves are one chain (`Stack.keyed`).
-/

namespace DryDb

open List

/-! ## Encodings -/

/-- What a written tree needs of its encoding. The order-preserving digest is in
`ordered`; an exact one also gives the key back. -/
structure KeyEncoding.Serves {ρ : Type} [LinearOrder ρ] (enc : KeyEncoding) (rank : Bytes → ρ) : Prop where
  ordered : enc.OrderedBy rank
  own : ∀ key d, enc.Accepts key → enc.digest key = .ok d → enc.acceptsDigest key d = .ok true
  exact : enc.isDigestExact = true → enc.Exact enc.Valid ∧ enc.maxRebuiltKeyLen.isSome

variable {enc : KeyEncoding}

theorem accepts_own (hdefault : ∀ key s, enc.acceptsDigest key s = enc.digest key >>= fun d => .ok (d == s))
    (key : Bytes) (d : UInt64) (_ : enc.Accepts key) (hd : enc.digest key = .ok d) : enc.acceptsDigest key d = .ok true := by
  rw [hdefault, hd, ok_bind]
  simp

theorem int64_serves : int64Encoding.Serves int64Rank :=
  ⟨int64_orderedBy, accepts_own fun _ _ => rfl, fun _ => ⟨int64_exact, rfl⟩⟩

theorem ascii_serves : asciiEncoding.Serves byteRank := ⟨ascii_orderedBy, accepts_own fun _ _ => rfl, by simp [asciiEncoding]⟩

theorem uuidv7_serves : uuidv7Encoding.Serves uuidv7Rank :=
  ⟨uuidv7_orderedBy, accepts_own fun _ _ => rfl, by simp [uuidv7Encoding]⟩

theorem ulid_serves : ulidEncoding.Serves byteRank := ⟨ulid_orderedBy, accepts_own fun _ _ => rfl, by simp [ulidEncoding]⟩

theorem builtin_serves {id : String} (h : builtin id = some enc) :
    ∃ (ρ : Type) (_ : LinearOrder ρ) (rank : Bytes → ρ), enc.Serves rank := by
  rcases builtin_cases h with rfl | rfl | rfl | rfl
  · exact ⟨_, inferInstance, _, int64_serves⟩
  · exact ⟨_, inferInstance, _, ascii_serves⟩
  · exact ⟨_, inferInstance, _, uuidv7_serves⟩
  · exact ⟨_, inferInstance, _, ulid_serves⟩

/-- A composite key's digest is the source key's, which the check accepts. -/
theorem duplicate_serves {ρ : Type} [LinearOrder ρ] {rank : Bytes → ρ} {source : KeyEncoding} (ho : source.OrderedBy rank)
    (he : source.Extends) : (duplicateKeyEncoding source).Serves (duplicateRank rank) where
  ordered := duplicate_orderedBy ho he
  own key d hk hd := by
    obtain ⟨hsplit, -⟩ := duplicate_accepts he hk
    have hsource := (duplicate_digest hsplit).1 hd
    simp [duplicateKeyEncoding, hsplit, hsource, ok_bind]
  exact h := by simp [duplicateKeyEncoding] at h

section

variable {ρ : Type} [LinearOrder ρ] {rank : Bytes → ρ} {enc : KeyEncoding} {value : Bytes} {n : Node} {pages : List Bytes}
  {ws : Written} {k : Nat} {tag : Nat → Option Nat} {segs : List (List PagePin)}

/-- An exact digest orders keys as their ranks do. -/
theorem KeyEncoding.Serves.compare_digests (hs : enc.Serves rank) (he : enc.isDigestExact = true) {a b : Bytes} {da db : UInt64}
    (ha : enc.Accepts a) (hb : enc.Accepts b) (hda : enc.digest a = .ok da) (hdb : enc.digest b = .ok db) :
    Ord.compare da db = Ord.compare (rank a) (rank b) := by
  have hne : ∀ x y dx dy, enc.Accepts x → enc.Accepts y → enc.digest x = .ok dx → enc.digest y = .ok dy → rank x < rank y →
      dx.toNat < dy.toNat := by
    intro x y dx dy hx hy hdx hdy hlt
    refine UInt64.lt_iff_toNat_lt.1 (UInt64.lt_of_le_of_ne (hs.ordered.mono x y dx dy hx hy hdx hdy hlt.le) ?_)
    rintro rfl
    exact hlt.ne (congrArg rank ((hs.exact he).1.inj x y dx hx.1 hy.1 hdx hdy))
  rw [compare_uint64]
  rcases lt_trichotomy (rank a) (rank b) with h | h | h
  · rw [compare_lt_iff_lt.2 h, compare_lt_iff_lt]
    exact hne a b da db ha hb hda hdb h
  · obtain rfl := hs.ordered.inj a b ha hb h
    obtain rfl : da = db := by simpa [hda] using hdb
    simp
  · rw [compare_gt_iff_gt.2 h, compare_gt_iff_gt]
    exact hne b a db da hb ha hdb hda h

/-! ## Pages -/

/-- Entries in the order of their keys, each with its own digest. -/
structure ItemsKeyed (enc : KeyEncoding) (rank : Bytes → ρ) (items : List Item) : Prop where
  accepted : ∀ it ∈ items, enc.Accepts it.key
  digest : ∀ it ∈ items, enc.digest it.key = .ok it.digest
  ascending : items.Pairwise fun a b => rank a.key < rank b.key

theorem ItemsKeyed.sublist {items part : List Item} (h : ItemsKeyed enc rank items) (hs : part.Sublist items) :
    ItemsKeyed enc rank part :=
  ⟨fun it hit => h.accepted it (hs.subset hit), fun it hit => h.digest it (hs.subset hit), h.ascending.sublist hs⟩

namespace Node

variable {n : Node} {t : Tree}

theorem entryKey_eq (hf : n.Fits) (ho : n.layout.omittedKeys = false) {i : Nat} {it : Item} (hi : n.items[i]? = some it) :
    Tree.entryKey n.view i = .ok it.key := by
  have hkey : n.layout.storedKey it.key = it.key := by simp [NodeLayout.storedKey, ho]
  unfold Tree.entryKey
  cases hk : n.kind with
  | leaf =>
    rw [show n.view.kind = .leaf from hk]
    simp only [leafEntry_eq hf hk hi, ok_bind]
    rw [leafKey_eq hi, hkey]
  | internal =>
    obtain ⟨page, hb⟩ := child_of_internal hf hk (mem_of_getElem? hi)
    rw [show n.view.kind = .internal from hk]
    simp only [internalEntry_eq hf hk hi hb, ok_bind]
    rw [internalKey_eq hi, hkey]

/-- A written page with keys is what the digest check asks for. -/
theorem keysChecked (hs : t.encoding.Serves rank) (hf : n.Fits) (hk : ItemsKeyed t.encoding rank n.items)
    (ho : n.layout.omittedKeys = false) : t.KeysChecked n.view (n.items.map Item.key) where
  length := by simp
  entries i key hi := by
    obtain ⟨it, hit, rfl⟩ : ∃ it, n.items[i]? = some it ∧ it.key = key := by simpa using hi
    have hmem := mem_of_getElem? hit
    exact ⟨it.digest, hasDigest hf hit, entryKey_eq hf ho hit, (hk.accepted it hmem).1,
      hs.own it.key it.digest (hk.accepted it hmem) (hk.digest it hmem)⟩
  ascending := by
    rw [isChain_map]
    refine hk.ascending.isChain.imp_of_mem_imp fun a b ha hb hab => ?_
    rw [Tree.Ascends, hs.ordered.compare a.key b.key (hk.accepted a ha) (hk.accepted b hb), compare_lt_iff_lt.2 hab]
  padding j s hj hs := hasPadding hf hj hs

/-- One without keys has ascending digests. -/
theorem digestsChecked (hs : t.encoding.Serves rank) (hk : ItemsKeyed t.encoding rank n.items)
    (he : t.encoding.isDigestExact = true) (hsorted : n.layout.eytzinger = false) :
    t.DigestsChecked n.view (n.items.map Item.digest) where
  length := by simp
  entries i d hi := by
    obtain ⟨it, hit, rfl⟩ : ∃ it, n.items[i]? = some it ∧ it.digest = d := by simpa using hi
    exact digestAt_eq hsorted hit
  ascending := by
    rw [isChain_map]
    refine hk.ascending.isChain.imp_of_mem_imp fun a b ha hb hab => ?_
    have hlt : a.digest < b.digest := by
      have hcmp := hs.compare_digests he (hk.accepted a ha) (hk.accepted b hb) (hk.digest a ha) (hk.digest b hb)
      rw [compare_lt_iff_lt.2 hab, compare_uint64, compare_lt_iff_lt] at hcmp
      exact UInt64.lt_iff_toNat_lt.2 hcmp
    exact ⟨UInt64.le_of_lt hlt, fun _ => UInt64.ne_of_lt hlt⟩

/-- A written page passes the digest check of its tree. -/
theorem checkDigests_eq (hs : t.encoding.Serves rank) (hf : n.Fits) (hk : ItemsKeyed t.encoding rank n.items)
    (hexact : n.layout.omittedKeys = true → t.encoding.isDigestExact = true) : t.checkDigests n.view = .ok () := by
  cases ho : n.layout.omittedKeys with
  | false => exact (Tree.checkDigests_stored (digests hf) ho).2 ⟨_, keysChecked hs hf hk ho⟩
  | true =>
    have hsorted := (hf.layout ho).2
    exact (Tree.checkDigests_omitted (v := n.view) ho hsorted).2
      ⟨(hs.exact (hexact ho)).2, _, digestsChecked hs hk (hexact ho) hsorted⟩

/-- A written page holds the keys of its entries, stored or in its digests. -/
theorem pageKeys (hs : t.encoding.Serves rank) (hf : n.Fits) (hk : ItemsKeyed t.encoding rank n.items)
    (hexact : n.layout.omittedKeys = true → t.encoding.isDigestExact = true) : PageKeys t n.view (n.items.map Item.key) := by
  cases ho : n.layout.omittedKeys with
  | false => exact (keysChecked hs hf hk ho).pageKeys hs.ordered (digests hf) ho
  | true =>
    -- The digests stand for the keys, so comparing them is comparing the keys.
    have hcmp : ∀ i key, (n.items.map Item.key)[i]? = some key → ∀ q d, t.encoding.Accepts q → t.encoding.digest q = .ok d →
        (n.view.digestAt i >>= fun x => .ok (Ord.compare x d)) = t.encoding.compare key q := by
      intro i key hi q d hq hd
      obtain ⟨it, hit, rfl⟩ : ∃ it, n.items[i]? = some it ∧ it.key = key := by simpa using hi
      have hmem := mem_of_getElem? hit
      rw [digestAt_eq (hf.layout ho).2 hit, ok_bind, hs.ordered.compare it.key q (hk.accepted it hmem) hq,
        hs.compare_digests (hexact ho) (hk.accepted it hmem) hq (hk.digest it hmem) hd]
    refine ⟨digests hf, by simp, ?_, ?_, fun j s hj => hasPadding hf hj, ?_, ?_⟩
    · intro key hkey
      obtain ⟨it, hit, rfl⟩ := mem_map.1 hkey
      exact hk.accepted it hit
    · intro i key hi
      obtain ⟨it, hit, rfl⟩ : ∃ it, n.items[i]? = some it ∧ it.key = key := by simpa using hi
      exact ⟨it.digest, it.digest, hk.digest it (mem_of_getElem? hit), hasDigest hf hit, UInt64.le_refl _⟩
    · intro _ i key hi q d hq hd
      rw [Tree.compareLeaf, if_pos (show n.view.layout.omittedKeys = true from ho)]
      exact hcmp i key hi q d hq hd
    · intro _ i key hi q d hq hd
      rw [Tree.compareInternal, if_pos (show n.view.layout.omittedKeys = true from ho)]
      exact hcmp i key hi q d hq hd

end Node

/-! ## Loading the pages -/

/-- The page a large value has to itself. -/
def blobView (value : Bytes) : PageView where
  bytes := blobImage value
  header := { kind := .leaf, layout := {}, entryCount := 0, leftSibling := none, rightSibling := none }
  metaBase := pagePrefixLen
  payloadBase := pagePrefixLen

theorem parse_blobImage (h : pagePrefixLen + value.length ≤ i32Max) :
    PageView.parse (blobImage value) = .ok (blobView value) := by
  have piece {off : Nat} {s : Bytes} (hs : PieceAt (pagePrefix (pagePrefixLen + value.length) 0 0 none none) off s) :
      PieceAt (blobImage value) off s := hs.append_left value
  have hlen : (blobImage value).length = pagePrefixLen + value.length := by simp [blobImage]
  have hword : readI32Bits (blobImage value) kindOffset = .ok 0 := by
    rw [readI32Bits, readLe_of_piece (piece (prefix_word ..))]
    rfl
  have hareas : PageView.areas (pagePrefixLen + value.length) .leaf {} 0 = .ok (pagePrefixLen, pagePrefixLen) := by
    have hdigest : ({} : NodeLayout).digestAreaSize 0 = some 0 := by decide
    have hmeta : ({} : NodeLayout).metaSize .leaf 0 = some 0 := by decide
    have hadd : checkedAdd digestBase 0 = some pagePrefixLen := by decide
    unfold PageView.areas
    simp only [hdigest, okOr_some, ok_bind, hadd, hmeta]
    rw [if_neg (by omega), show checkedAdd pagePrefixLen 0 = some pagePrefixLen by decide]
    simp only [okOr_some, ok_bind]
    rw [if_neg (by omega)]
  unfold PageView.parse
  simp only
  rw [hlen, readI32_of_piece (piece (prefix_len ..)) h, hword, readI32_of_piece (piece (prefix_count ..)) (by decide),
    readI64_of_piece (piece (prefix_left ..)) (by simp), readI64_of_piece (piece (prefix_right ..)) (by simp), if_neg (by omega)]
  have hkind : NodeKind.ofWord 0 = .ok .leaf := by decide
  have hlayout : NodeLayout.ofWord 0 (pagePrefixLen + value.length) = .ok {} :=
    @NodeLayout.ofWord_kindWord .leaf {} _ (by simp) (by simp)
  simp only [ok_bind, checkedLen_natCast, fromI64_toI64, hkind, hlayout, hareas, ne_eq, not_true_eq_false, if_false]
  rfl

theorem blob_passes (h : pagePrefixLen + value.length ≤ i32Max) : PassesChecks (blobImage value) :=
  ⟨_, parse_blobImage h, rfl⟩

theorem node_passes (hf : n.Fits) : PassesChecks n.image := ⟨_, n.parse_image hf, n.validate_image hf⟩

/-- Every page of the file can be loaded. -/
def Env.Delivers (env : Env) (pages : List Bytes) : Prop :=
  ∀ o page, pages[o]? = some page → PassesChecks page →
    ∃ pin, env (.page o) = .ok pin ∧ pin.ordinal = o ∧ pin.bytes = page

/-- A loaded page of a tree. -/
structure PagePin.Shows (pin : PagePin) (o : Nat) (n : Node) : Prop where
  ordinal : pin.ordinal = o
  bytes : pin.bytes = n.image
  view : pin.view = n.view

/-- A written page of the tree loads and passes its check. -/
theorem Env.Delivers.fetch {env : Env} {t : Tree} {o : Nat} (henv : env.Delivers pages)
    (hs : t.encoding.Serves rank) (hf : n.Fits) (hk : ItemsKeyed t.encoding rank n.items)
    (hexact : n.layout.omittedKeys = true → t.encoding.isDigestExact = true) (ho : pages[o]? = some n.image) :
    ∃ pin, t.fetch env o = .ok pin ∧ pin.Shows o n := by
  obtain ⟨pin, hpin, hord, hbytes⟩ := henv o n.image ho (node_passes hf)
  have hview : pin.view = n.view := by
    have := pin.parsed
    rw [hbytes, n.parse_image hf] at this
    exact (Except.ok.inj this).symm
  refine ⟨pin, Tree.fetch_eq_ok.2 ⟨hpin, Tree.admit_eq_ok.2 fun _ => ?_⟩, hord, hbytes, hview⟩
  rw [hview]
  exact n.checkDigests_eq hs hf hk hexact

/-! ## The pages above the leaves -/

theorem separators_fit {kind : NodeKind} {layout : NodeLayout} {pageSize : Nat}
    (hlink : Linked pages kind layout none ws) (hp : pages.length ≤ i32Max)
    (hpages : ∀ w ∈ ws, w.2 ≠ [] ∧ Node.len { kind, layout, items := w.2 } ≤ pageSize ∧ tag w.1 = some k)
    (hfit : ∀ w ∈ ws, ∀ it ∈ w.2, it.Fits kind) : ∀ it ∈ ws.map separatorOf, it.Fits .internal := by
  intro it hit
  obtain ⟨w, hw, rfl⟩ := mem_map.1 hit
  have hlt := hlink.lt_length w hw
  simp only [i32Max] at hp
  exact separatorOf_fits (hpages w hw).1 (by omega) (hfit w hw)

/-- An internal page as the writer leaves it: each separator is the first key under its child. -/
structure Fences (t : Tree) (rank : Bytes → ρ) (layout : NodeLayout) (keysOf : PagePin → List Bytes) (pin : PagePin)
    (segs : List (List PagePin)) : Prop where
  node : ∃ n : Node, n.Fits ∧ n.kind = .internal ∧ n.layout = layout ∧ pin.view = n.view ∧
    ItemsKeyed t.encoding rank n.items ∧ List.Forall₂ (BeginsWith keysOf) segs (n.items.map Item.key)
  ascending : (places segs.flatten).Pairwise fun a b => rank (keyAt keysOf a) < rank (keyAt keysOf b)

variable {t : Tree} {env : Env} {layout : NodeLayout} {keysOf : PagePin → List Bytes}

theorem Fences.guarded {pin : PagePin} (h : Fences t rank layout keysOf pin segs)
    (hs : t.encoding.Serves rank) (hexact : layout.omittedKeys = true → t.encoding.isDigestExact = true) :
    pin.view.kind = .internal ∧ Guarded t rank keysOf pin segs := by
  obtain ⟨n, hf, hkind, rfl, hview, hk, hb⟩ := h.node
  exact ⟨by rw [hview]; exact hkind, ⟨_, hview ▸ n.pageKeys hs hf hk hexact, hb⟩, h.ascending⟩

/-- A separator covers the leaves under its child, which is a page of a lower level. -/
structure Covers (t : Tree) (env : Env) (rank : Bytes → ρ) (layout : NodeLayout) (keysOf : PagePin → List Bytes)
    (tag : Nat → Option Nat) (k h : Nat) (it : Item) (seg : List PagePin) : Prop where
  child : ∃ o, it.body = .child o ∧ (∃ j < k, tag o = some j) ∧ Spans t env never (Fences t rank layout keysOf) h o seg
  begins : BeginsWith keysOf seg it.key

/-- The subtree at a written internal page. -/
theorem Env.Delivers.spans (henv : env.Delivers pages)
    (hs : t.encoding.Serves rank) (hexact : layout.omittedKeys = true → t.encoding.isDigestExact = true) {o h : Nat}
    (hf : n.Fits) (hkind : n.kind = .internal) (hlayout : n.layout = layout) (hk : ItemsKeyed t.encoding rank n.items)
    (hne : n.items ≠ []) (ho : pages[o]? = some n.image) (htag : tag o = some k)
    (hsegs : List.Forall₂ (Covers t env rank layout keysOf tag k h) n.items segs)
    (hasc : (places segs.flatten).Pairwise fun a b => rank (keyAt keysOf a) < rank (keyAt keysOf b)) :
    Spans t env never (Fences t rank layout keysOf) (h + 1) o segs.flatten := by
  obtain ⟨pin, hfetch, hshow⟩ := henv.fetch hs hf hk (by rw [hlayout]; exact hexact) ho
  have hcount : pin.view.entryCount = n.items.length := by rw [hshow.view]; rfl
  have hlen := hsegs.length_eq
  -- The children of the page, one for each entry.
  have hget : ∀ (i : Nat) it, n.items[i]? = some it → ∃ seg, segs[i]? = some seg ∧
      Covers t env rank layout keysOf tag k h it seg := by
    intro i it hi
    obtain ⟨hlt, rfl⟩ := List.getElem?_eq_some_iff.1 hi
    exact ⟨segs[i], getElem?_eq_getElem (by omega), hsegs.get hlt (by omega)⟩
  obtain ⟨children, hchildren⟩ := exists_forall₂ (R := fun it c => it.body = .child c) fun it hit =>
    n.child_of_internal hf hkind hit
  have hitem : ∀ (i c : Nat), children[i]? = some c → ∃ it, n.items[i]? = some it ∧ it.body = .child c := by
    intro i c hi
    obtain ⟨hlt, rfl⟩ := List.getElem?_eq_some_iff.1 hi
    have hlt' : i < n.items.length := by rw [hchildren.length_eq]; exact hlt
    exact ⟨n.items[i], getElem?_eq_getElem hlt', hchildren.get hlt' hlt⟩
  have hone : children.length = pin.view.entryCount := by rw [hcount, hchildren.length_eq]
  refine .internal (meets_never.2 ⟨pin, hfetch, rfl⟩) (by rw [hshow.view]; exact hkind)
    (by rw [hcount]; exact length_pos_iff.2 hne) hone (by rw [hcount, hlen])
    ⟨⟨n, hf, hkind, hlayout, hshow.view, hk, ?_⟩, hasc⟩ ?_ ?_
  · rw [forall₂_map_right_iff]
    exact (hsegs.imp fun _ _ h => h.begins).flip
  · intro i c hi
    obtain ⟨it, hit, hb⟩ := hitem i c hi
    obtain ⟨seg, -, hcov⟩ := hget i it hit
    obtain ⟨c', hb', ⟨j, hj, htag'⟩, -⟩ := hcov.child
    obtain rfl : c = c' := by simpa [hb] using hb'
    refine ⟨⟨_, by rw [hshow.view]; exact n.internalEntry_eq hf hkind hit hb, rfl⟩, ?_⟩
    rintro rfl
    rw [htag] at htag'
    have := Option.some.inj htag'
    omega
  · intro i c seg hi hseg
    obtain ⟨it, hit, hb⟩ := hitem i c hi
    obtain ⟨seg', hseg', hcov⟩ := hget i it hit
    obtain rfl : seg = seg' := by rw [hseg] at hseg'; exact Option.some.inj hseg'
    obtain ⟨c', hb', -, hspans⟩ := hcov.child
    obtain rfl : c = c' := by simpa [hb] using hb'
    exact hspans

theorem heads_sublist (h : ∀ w ∈ ws, w.2 ≠ []) :
    (ws.map fun w => w.2.head!).Sublist (ws.flatMap Prod.snd) := by
  induction ws with
  | nil => exact .slnil
  | cons w ws ih =>
    obtain ⟨it, rest, he⟩ := exists_cons_of_ne_nil (h w mem_cons_self)
    rw [map_cons, flatMap_cons, he]
    exact ((ih fun v hv => h v (mem_cons_of_mem w hv)).trans (sublist_append_right rest _)).cons_cons it

/-- The separators of a level are in the order of its keys. -/
theorem ItemsKeyed.separators (hk : ItemsKeyed enc rank (ws.flatMap Prod.snd)) (hne : ∀ w ∈ ws, w.2 ≠ []) :
    ItemsKeyed enc rank (ws.map separatorOf) := by
  have hheads := hk.sublist (heads_sublist hne)
  have hasc := pairwise_map.1 hheads.ascending
  refine ⟨fun it hit => ?_, fun it hit => ?_, pairwise_map.2 hasc⟩
  · obtain ⟨w, hw, rfl⟩ := mem_map.1 hit
    exact hheads.accepted w.2.head! (mem_map.2 ⟨w, hw, rfl⟩)
  · obtain ⟨w, hw, rfl⟩ := mem_map.1 hit
    exact hheads.digest w.2.head! (mem_map.2 ⟨w, hw, rfl⟩)

theorem BeginsWith.append {seg rest : List PagePin} {key : Bytes} (h : BeginsWith keysOf seg key) :
    BeginsWith keysOf (seg ++ rest) key := by
  obtain ⟨x, xs, hx, hkey⟩ := h
  exact ⟨x, xs ++ places rest, by rw [places_append, hx, cons_append], hkey⟩

/-- A group of leaves begins with the first key of its page. -/
theorem Covers.begins_group {h : Nat} {w : Nat × List Item} {group : List (List PagePin)}
    (hne : w.2 ≠ []) (hg : List.Forall₂ (Covers t env rank layout keysOf tag k h) w.2 group) :
    BeginsWith keysOf group.flatten (separatorOf w).key := by
  obtain ⟨it, rest, he⟩ := exists_cons_of_ne_nil hne
  rw [he] at hg
  cases hg with
  | cons hfirst _ =>
    rw [(separatorOf_key he).1, flatten_cons]
    exact hfirst.begins.append

theorem places_sublist {a b : List PagePin} (h : a.Sublist b) : (places a).Sublist (places b) := h.flatMap PagePin.places

section

variable {pageSize root : Nat} {pages : List Bytes} {tag : Nat → Option Nat} {items : List Item} {pin : PagePin}

/-- The levels of a stack above pages that are already covered. -/
theorem Stack.spans {k h : Nat} {kind : NodeKind} {levels : List Written}
    (hst : Stack layout pageSize pages tag root k kind items levels) (hkind : kind = .internal) (hlay : LayoutOk layout pageSize)
    (hp : pages.length ≤ i32Max) (henv : env.Delivers pages) (hs : t.encoding.Serves rank)
    (hexact : layout.omittedKeys = true → t.encoding.isDigestExact = true) (hfit : ∀ it ∈ items, it.Fits .internal)
    (hk : ItemsKeyed t.encoding rank items) {segs : List (List PagePin)}
    (hsegs : List.Forall₂ (Covers t env rank layout keysOf tag k h) items segs)
    (hasc : (places segs.flatten).Pairwise fun a b => rank (keyAt keysOf a) < rank (keyAt keysOf b)) :
    Spans t env never (Fences t rank layout keysOf) (h + levels.length) root segs.flatten := by
  induction hst generalizing h segs with
  | @root k kind es hpage hsize htag hne =>
    subst hkind
    have hlink : Linked pages .internal layout none [(root, es)] := ⟨hpage, trivial⟩
    exact henv.spans hs hexact (hlink.fits (j := 0) (w := (root, es)) hlay hp hsize hfit) rfl rfl hk (hne rfl) hpage htag
      hsegs hasc
  | @level k kind items ws rest hsplit hlink _ hpages hrest ih =>
    subst hkind hsplit
    obtain ⟨groups, hgroups, rfl⟩ := forall₂_groups hsegs
    have hmem : ∀ w ∈ ws, ∀ it ∈ w.2, it ∈ ws.flatMap Prod.snd := fun w hw it hit => mem_flatMap.2 ⟨w, hw, hit⟩
    -- Each page of the level covers its own group of leaves.
    have hpage : ∀ (j : Nat) w g, ws[j]? = some w → groups[j]? = some g →
        Covers t env rank layout keysOf tag (k + 1) (h + 1) (separatorOf w) g.flatten := by
      intro j w g hw hg
      have hwm := mem_of_getElem? hw
      have hcov : List.Forall₂ (Covers t env rank layout keysOf tag k h) w.2 g := by
        obtain ⟨h1, rfl⟩ := List.getElem?_eq_some_iff.1 hw
        obtain ⟨h2, rfl⟩ := List.getElem?_eq_some_iff.1 hg
        exact hgroups.get h1 h2
      obtain ⟨hne, hsize, htag⟩ := hpages w hwm
      refine ⟨⟨w.1, rfl, ⟨k, Nat.lt_succ_self k, htag⟩, ?_⟩, Covers.begins_group hne hcov⟩
      refine henv.spans hs hexact (hlink.fits (j := j) hlay hp hsize fun it hit => hfit it (hmem w hwm it hit)) rfl rfl
        (hk.sublist (sublist_flatten_of_mem (mem_map_of_mem hwm))) hne (hlink.chainNode hw) htag hcov ?_
      exact hasc.sublist (places_sublist (sublist_flatten_of_mem (mem_of_getElem? hg)).flatten)
    have hnext : List.Forall₂ (Covers t env rank layout keysOf tag (k + 1) (h + 1)) (ws.map separatorOf)
        (groups.map List.flatten) := by
      rw [forall₂_map_left_iff, forall₂_map_right_iff, forall₂_iff_get]
      refine ⟨hgroups.length_eq, fun j h1 h2 => ?_⟩
      exact hpage j _ _ (getElem?_eq_getElem h1) (getElem?_eq_getElem h2)
    have hflat : (groups.map List.flatten).flatten = groups.flatten.flatten := flatten_flatten.symm
    have := ih rfl (separators_fit hlink hp hpages fun w hw it hit => hfit it (hmem w hw it hit))
      (hk.separators fun w hw => (hpages w hw).1) hnext (by rw [hflat]; exact hasc)
    rw [hflat] at this
    rw [length_cons, show h + (rest.length + 1) = h + 1 + rest.length by omega]
    exact this

/-! ## The leaves -/

/-- The entries on a leaf of the chain `ws`. -/
def itemsOf (ws : Written) (pin : PagePin) : List Item := ((ws.find? fun w => w.1 == pin.ordinal).map Prod.snd).getD []

def keysOn (ws : Written) (pin : PagePin) : List Bytes := (itemsOf ws pin).map Item.key

def itemAt (ws : Written) (x : Place) : Item := (itemsOf ws x.1).getD x.2 default

theorem keyAt_keysOn (ws : Written) (x : Place) : keyAt (keysOn ws) x = (itemAt ws x).key := by
  unfold keyAt keysOn itemAt
  rw [getD_eq_getElem?_getD, getD_eq_getElem?_getD, getElem?_map]
  cases (itemsOf ws x.1)[x.2]? <;> rfl

/-- A loaded leaf at its place in the chain. -/
structure LeafPage (t : Tree) (env : Env) (layout : NodeLayout) (ws : Written) (w : Nat × List Item) (pin : PagePin) : Prop where
  fetched : t.fetch env w.1 = .ok pin
  node : ∃ j, ws[j]? = some w ∧ (chainNode .leaf layout ws j w.2).Fits ∧ pin.Shows w.1 (chainNode .leaf layout ws j w.2)

namespace LeafPage

variable {ws : Written} {w : Nat × List Item} {pin : PagePin}

theorem ordinal (h : LeafPage t env layout ws w pin) : pin.ordinal = w.1 := by
  obtain ⟨j, -, -, hshow⟩ := h.node
  exact hshow.ordinal

theorem itemsOf_eq (hasc : (ws.map Prod.fst).Pairwise (· < ·)) (h : LeafPage t env layout ws w pin) : itemsOf ws pin = w.2 := by
  obtain ⟨j, hj, -, -⟩ := h.node
  rw [itemsOf, h.ordinal, find?_of_ascending hasc (mem_of_getElem? hj)]
  rfl

theorem entryCount (h : LeafPage t env layout ws w pin) : pin.view.entryCount = w.2.length := by
  obtain ⟨j, -, -, hshow⟩ := h.node
  rw [hshow.view]
  rfl

theorem kind (h : LeafPage t env layout ws w pin) : pin.view.kind = .leaf := by
  obtain ⟨j, -, -, hshow⟩ := h.node
  rw [hshow.view]
  rfl

/-- The entries of the leaf are the entries that were written. -/
theorem map_places (hasc : (ws.map Prod.fst).Pairwise (· < ·)) (h : LeafPage t env layout ws w pin) :
    pin.places.map (itemAt ws) = w.2 := by
  apply ext_getElem?
  intro i
  rw [getElem?_map]
  by_cases hi : i < pin.view.entryCount
  · rw [PagePin.getElem?_places hi, Option.map_some, itemAt, h.itemsOf_eq hasc]
    have hlt : i < w.2.length := by rw [← h.entryCount]; exact hi
    simp [getD_eq_getElem?_getD, getElem?_eq_getElem hlt]
  · rw [getElem?_eq_none (by rw [PagePin.length_places]; omega), getElem?_eq_none (by rw [← h.entryCount]; omega)]
    rfl

end LeafPage

section

variable {ws : Written} {part : Written} {pins : List PagePin}

theorem map_places_leaves (hasc : (ws.map Prod.fst).Pairwise (· < ·))
    (h : List.Forall₂ (LeafPage t env layout ws) part pins) : (places pins).map (itemAt ws) = part.flatMap Prod.snd := by
  induction h with
  | nil => rfl
  | cons hp _ ih => rw [places_cons, map_append, hp.map_places hasc, ih, flatMap_cons]

/-- The leaves of a chain can be loaded. -/
theorem Linked.leaves (hlink : Linked pages .leaf layout none ws) (hlay : LayoutOk layout pageSize) (hp : pages.length ≤ i32Max)
    (henv : env.Delivers pages) (hs : t.encoding.Serves rank)
    (hexact : layout.omittedKeys = true → t.encoding.isDigestExact = true) (hfit : ∀ it ∈ ws.flatMap Prod.snd, it.Fits .leaf)
    (hk : ItemsKeyed t.encoding rank (ws.flatMap Prod.snd))
    (hsize : ∀ w ∈ ws, Node.len { kind := .leaf, layout, items := w.2 } ≤ pageSize) :
    ∃ pins, List.Forall₂ (LeafPage t env layout ws) ws pins := by
  refine exists_forall₂ fun w hw => ?_
  obtain ⟨j, hj⟩ := mem_iff_getElem?.1 hw
  have hf := hlink.fits (j := j) hlay hp (hsize w hw) fun it hit => hfit it (mem_flatMap.2 ⟨w, hw, hit⟩)
  obtain ⟨pin, hfetch, hshow⟩ := henv.fetch hs hf (hk.sublist (sublist_flatten_of_mem (mem_map_of_mem hw))) hexact
    (hlink.chainNode hj)
  exact ⟨pin, hfetch, j, hj, hf, hshow⟩

theorem map_ordinal (h : List.Forall₂ (LeafPage t env layout ws) part pins) :
    part.map Prod.fst = pins.map PagePin.ordinal := by
  induction h with
  | nil => rfl
  | cons hp _ ih => rw [map_cons, map_cons, hp.ordinal, ih]

/-- The leaves are linked to their neighbours. -/
theorem joined_leaves (hasc : (ws.map Prod.fst).Pairwise (· < ·))
    (h : List.Forall₂ (LeafPage t env layout ws) ws pins) : Joined pins := by
  have hord : ws.map Prod.fst = pins.map PagePin.ordinal := map_ordinal h
  rintro pre pin rest rfl
  have hlt : pre.length < ws.length := by rw [h.length_eq]; simp
  have hpage : LeafPage t env layout ws ws[pre.length] pin := by
    have := h.get hlt (by simp)
    simpa using this
  obtain ⟨j, hj, -, hshow⟩ := hpage.node
  -- A page is in the chain once.
  obtain rfl : j = pre.length := by
    have hnodup : (ws.map Prod.fst).Nodup := hasc.imp fun hab => Nat.ne_of_lt hab
    have h1 : (ws.map Prod.fst)[j]? = (ws.map Prod.fst)[pre.length]? := by
      rw [getElem?_map, getElem?_map, hj, getElem?_eq_getElem hlt]
    exact (getElem?_inj (by simpa using (List.getElem?_eq_some_iff.1 hj).1) hnodup).1 h1
  have hat : ∀ i : Nat, ws[i]?.map Prod.fst = ((pre ++ pin :: rest)[i]?).map PagePin.ordinal := by
    intro i
    rw [← getElem?_map, hord, getElem?_map]
  have hleft : pin.view.leftSibling = if pre.length = 0 then none else ws[pre.length - 1]?.map Prod.fst := by
    rw [hshow.view]
    rfl
  have hright : pin.view.rightSibling = ws[pre.length + 1]?.map Prod.fst := by
    rw [hshow.view]
    rfl
  rw [hleft, hright, hat, hat]
  refine ⟨?_, ?_⟩
  · cases pre using List.reverseRecOn with
    | nil => rfl
    | append_singleton pre p => simp [append_assoc]
  · rw [getElem?_append_right (by omega), head?_eq_getElem?]
    simp

end

/-! ## The whole tree -/

/-- A written tree whose pages can be loaded. -/
structure ServedTree (t : Tree) (env : Env) (rank : Bytes → ρ) (layout : NodeLayout) (leaves : Written) (h root : Nat)
    (pins : List PagePin) : Prop where
  pages : List.Forall₂ (LeafPage t env layout leaves) leaves pins
  order : (leaves.map Prod.fst).Pairwise (· < ·)
  keyed : ItemsKeyed t.encoding rank (leaves.flatMap Prod.snd)
  full : Full pins
  spans : Spans t env never (Fences t rank layout (keysOn leaves)) h root pins

theorem ascending_places {leaves part : Written} {pins : List PagePin} (horder : (leaves.map Prod.fst).Pairwise (· < ·))
    (hpages : List.Forall₂ (LeafPage t env layout leaves) part pins) (hk : ItemsKeyed enc rank (part.flatMap Prod.snd)) :
    (places pins).Pairwise fun a b => rank (keyAt (keysOn leaves) a) < rank (keyAt (keysOn leaves) b) := by
  have hasc := hk.ascending
  rw [← map_places_leaves horder hpages, pairwise_map] at hasc
  simpa only [keyAt_keysOn] using hasc

/-- A leaf covers itself. -/
theorem LeafPage.covers {leaves : Written} {w : Nat × List Item} (h : LeafPage t env layout leaves w pin)
    (horder : (leaves.map Prod.fst).Pairwise (· < ·)) (hne : w.2 ≠ []) {k : Nat} (htag : tag w.1 = some k) :
    Covers t env rank layout (keysOn leaves) tag (k + 1) 0 (separatorOf w) [pin] where
  child := ⟨w.1, rfl, ⟨k, Nat.lt_succ_self k, htag⟩, .leaf (meets_never.2 ⟨pin, h.fetched, rfl⟩) h.kind⟩
  begins := by
    obtain ⟨it, rest, he⟩ := exists_cons_of_ne_nil hne
    have hmap := h.map_places horder
    rw [he] at hmap
    obtain ⟨x, xs, hplaces, hx, -⟩ := map_eq_cons_iff.1 hmap
    refine ⟨x, xs, by simpa [places] using hplaces, ?_⟩
    rw [keyAt_keysOn, hx, (separatorOf_key he).1]

/-- What the writer leaves behind can be searched once its pages can be loaded. -/
theorem Stack.served {leaves : Written} {upper : List Written}
    (hst : Stack layout pageSize pages tag root 0 .leaf items (leaves :: upper)) (hlay : LayoutOk layout pageSize)
    (hp : pages.length ≤ i32Max) (henv : env.Delivers pages) (hs : t.encoding.Serves rank)
    (hexact : layout.omittedKeys = true → t.encoding.isDigestExact = true) (hfit : ∀ it ∈ items, it.Fits .leaf)
    (hk : ItemsKeyed t.encoding rank items) : ∃ pins, ServedTree t env rank layout leaves upper.length root pins := by
  cases hst with
  | root hpage hsize htag _ =>
    have hlink : Linked pages .leaf layout none [(root, items)] := ⟨hpage, trivial⟩
    have horder : ([(root, items)].map Prod.fst).Pairwise (· < ·) := by simp
    have hk' : ItemsKeyed t.encoding rank ([(root, items)].flatMap Prod.snd) := by simpa using hk
    obtain ⟨pins, hpins⟩ := hlink.leaves hlay hp henv hs hexact (by simpa using hfit) hk' (by simpa using hsize)
    refine ⟨pins, hpins, horder, hk', .inl hpins.length_eq.ge, ?_⟩
    cases hpins with
    | cons hpin hrest =>
      cases hrest
      exact .leaf (meets_never.2 ⟨_, hpin.fetched, rfl⟩) hpin.kind
  | level hsplit hlink horder hpages hrest =>
    subst hsplit
    obtain ⟨pins, hpins⟩ := hlink.leaves hlay hp henv hs hexact hfit hk fun w hw => (hpages w hw).2.1
    have hcovers : List.Forall₂ (Covers t env rank layout (keysOn leaves) tag 1 0) (leaves.map separatorOf)
        (pins.map fun pin => [pin]) := by
      rw [forall₂_map_left_iff, forall₂_map_right_iff, forall₂_iff_get]
      refine ⟨hpins.length_eq, fun j h1 h2 => ?_⟩
      have hmem : leaves.get ⟨j, h1⟩ ∈ leaves := get_mem ..
      exact (hpins.get h1 h2).covers horder (hpages _ hmem).1 (hpages _ hmem).2.2
    have hflat : (pins.map fun pin => [pin]).flatten = pins := by
      rw [← flatMap_def, flatMap_singleton']
    have hspans := hrest.spans rfl hlay hp henv hs hexact
      (separators_fit hlink hp hpages fun w hw it hit => hfit it (mem_flatMap.2 ⟨w, hw, hit⟩))
      (hk.separators fun w hw => (hpages w hw).1) hcovers (by rw [hflat]; exact ascending_places horder hpins hk)
    rw [hflat, Nat.zero_add] at hspans
    refine ⟨pins, hpins, horder, hk, .inr fun pin hpin => ?_, hspans⟩
    obtain ⟨j, hj⟩ := mem_iff_getElem?.1 hpin
    obtain ⟨h2, rfl⟩ := List.getElem?_eq_some_iff.1 hj
    have h1 : j < leaves.length := by rw [hpins.length_eq]; exact h2
    have hmem : leaves.get ⟨j, h1⟩ ∈ leaves := get_mem ..
    rw [show pins[j] = pins.get ⟨j, h2⟩ from rfl, (hpins.get h1 h2).entryCount]
    exact length_pos_iff.2 (hpages _ hmem).1

/-! ## Its rows -/

/-- The value an entry stands for: on its page, or alone on a page of its own. -/
def Body.stored (pages : List Bytes) : Body → Bytes
  | inline value => value
  | blob page _ => ((pages[page]?).getD []).drop pagePrefixLen
  | child _ => []

theorem drop_blobImage (value : Bytes) : (blobImage value).drop pagePrefixLen = value := by
  rw [blobImage, drop_left' (length_pagePrefix ..)]

/-- Large values are where their entries say, and can be loaded. -/
def BlobsStored (pages : List Bytes) (items : List Item) : Prop :=
  ∀ it ∈ items, ∀ page length, it.body = .blob page length →
    ∃ value, pages[page]? = some (blobImage value) ∧ pagePrefixLen + value.length ≤ i32Max

/-- A large value is the payload of its page. -/
theorem Env.Delivers.blob (henv : env.Delivers pages) {page : Nat} {value : Bytes} (hpage : pages[page]? = some (blobImage value))
    (hlen : pagePrefixLen + value.length ≤ i32Max) :
    ∃ guard : ValueGuard, (Read.blob page).run env = .ok (guard.pin, guard.start, guard.stop) ∧ guard.asBytes = value := by
  obtain ⟨pin, hpin, -, hbytes⟩ := henv page _ hpage (blob_passes hlen)
  have hview : pin.view = blobView value := by
    have := pin.parsed
    rw [hbytes, parse_blobImage hlen] at this
    exact (Except.ok.inj this).symm
  refine ⟨⟨pin, pagePrefixLen, pin.len⟩, ?_, ?_⟩
  · unfold Read.blob
    simp only [Program.run_bind, Read.run_page, hpin, ok_bind, Program.run_liftM]
    unfold blobFromPin
    simp [hview, blobView, PageView.kind, PageView.entryCount]
  · rw [ValueGuard.asBytes, PagePin.len, hbytes, take_of_length_le (by simp), drop_blobImage]

def rowOf (pages : List Bytes) (it : Item) : Bytes × Bytes := (it.key, it.body.stored pages)

theorem PieceAt.take_drop {buf s : Bytes} {off len : Nat} (h : PieceAt buf off s) (hlen : len = s.length) :
    (buf.drop off).take len = s := by
  rw [hlen]
  exact (slice_eq_some.1 h.slice_eq).2.symm

/-- The row a reader makes of an entry is the row that was written. -/
theorem PagePin.Shows.rowAt {n : Node} {o i : Nat} {it : Item} (hshow : pin.Shows o n) (hf : n.Fits)
    (hkind : n.kind = .leaf) (hi : n.items[i]? = some it) (henv : env.Delivers pages) (hs : t.encoding.Serves rank)
    (hexact : n.layout.omittedKeys = true → t.encoding.isDigestExact = true) (haccept : t.encoding.Accepts it.key)
    (hdigest : t.encoding.digest it.key = .ok it.digest) (hblobs : BlobsStored pages n.items) :
    t.RowAt env (pin, i) (rowOf pages it) := by
  obtain ⟨hlt, rfl⟩ := List.getElem?_eq_some_iff.1 hi
  have hlayout : pin.view.layout = n.layout := by rw [hshow.view]; rfl
  refine ⟨_, by rw [hshow.view]; exact Node.leafEntry_eq hf hkind hi, ?_, ?_⟩
  · cases ho : n.layout.omittedKeys with
    | true =>
      obtain ⟨hex, hlen⟩ := hs.exact (hexact ho)
      rw [if_pos (by rw [hlayout]; exact ho)]
      refine ⟨hlen, ?_⟩
      unfold Tree.rebuildKey
      rw [hlayout, ho, if_neg (by simp), hshow.view, Node.digestAt_eq (hf.layout ho).2 hi, ok_bind,
        hex.decode _ _ haccept.1 hdigest]
      rfl
    | false =>
      rw [if_neg (by rw [hlayout, ho]; simp), hshow.bytes]
      have hkey := n.piece_key hlt
      rw [NodeLayout.storedKey, if_neg (by simp [ho])] at hkey
      exact hkey.take_drop (by simp [NodeLayout.storedKeyLen, ho])
  · cases hb : n.items[i].body with
    | inline value =>
      have hbody := n.piece_body hlt
      rw [hb] at hbody
      refine ⟨⟨pin, _, _⟩, rfl, ?_⟩
      rw [ValueGuard.asBytes, hshow.bytes, rowOf, hb]
      exact hbody.take_drop (Nat.add_sub_cancel_left ..)
    | blob page length =>
      obtain ⟨value, hpage, hlen⟩ := hblobs _ (mem_of_getElem? hi) page length hb
      obtain ⟨guard, hrun, hbytes⟩ := henv.blob hpage hlen
      refine ⟨guard, hrun, ?_⟩
      rw [hbytes, rowOf, hb, Body.stored, hpage, Option.getD_some, drop_blobImage]
    | child page =>
      have hfit := (hf.items _ (mem_of_getElem? hi)).2
      rw [hb, hkind] at hfit
      exact hfit.elim

namespace ServedTree

variable {leaves : Written} {h : Nat} {pins : List PagePin}

/-- The page an entry is on. -/
theorem page_of_mem (hserved : ServedTree t env rank layout leaves h root pins) {x : Place} (hx : x ∈ places pins) :
    ∃ w ∈ leaves, LeafPage t env layout leaves w x.1 ∧ w.2[x.2]? = some (itemAt leaves x) := by
  obtain ⟨hpin, hlt⟩ := mem_places.1 hx
  obtain ⟨j, hj⟩ := mem_iff_getElem?.1 hpin
  obtain ⟨h2, heq⟩ := List.getElem?_eq_some_iff.1 hj
  have h1 : j < leaves.length := by rw [hserved.pages.length_eq]; exact h2
  have hpage := hserved.pages.get h1 h2
  rw [show pins.get ⟨j, h2⟩ = x.1 from heq] at hpage
  refine ⟨_, get_mem .., hpage, ?_⟩
  rw [hpage.entryCount] at hlt
  rw [itemAt, hpage.itemsOf_eq hserved.order, getD_eq_getElem?_getD, getElem?_eq_getElem hlt, Option.getD_some]

theorem leafKeys (hserved : ServedTree t env rank layout leaves h root pins) (hs : t.encoding.Serves rank)
    (hexact : layout.omittedKeys = true → t.encoding.isDigestExact = true) : LeafKeys t rank (keysOn leaves) pins where
  keys pin hpin := by
    obtain ⟨j, hj⟩ := mem_iff_getElem?.1 hpin
    obtain ⟨h2, rfl⟩ := List.getElem?_eq_some_iff.1 hj
    have h1 : j < leaves.length := by rw [hserved.pages.length_eq]; exact h2
    have hpage := hserved.pages.get h1 h2
    obtain ⟨i, -, hf, hshow⟩ := hpage.node
    refine ⟨hpage.kind, ?_⟩
    rw [keysOn, show pins[j] = pins.get ⟨j, h2⟩ from rfl, hpage.itemsOf_eq hserved.order, hshow.view]
    exact Node.pageKeys hs hf (hserved.keyed.sublist (sublist_flatten_of_mem (mem_map_of_mem (get_mem ..)))) hexact
  ascending := ascending_places hserved.order hserved.pages hserved.keyed

/-- Every key the encoding accepts has its place in the tree, and a descent finds it. -/
theorem probe (hserved : ServedTree t env rank layout leaves h root pins) (hs : t.encoding.Serves rank)
    (hexact : layout.omittedKeys = true → t.encoding.isDigestExact = true) (hh : env.Honest t) (hroot : t.root = some root)
    (hd : h < t.store.limits.maxTreeDepth) {q : Bytes} {d : UInt64} (hq : t.encoding.Accepts q) (hdq : t.encoding.digest q = .ok d) :
    Placed t q d pins (fun x => Ord.compare (rank (itemAt leaves x).key) (rank q)) ∧
      Meets never (Lands True pins fun x => Ord.compare (rank (itemAt leaves x).key) (rank q)) ((t.descend q d).run env) := by
  have hplaced := (hserved.leafKeys hs hexact).placed hs.ordered hq hdq
  have hspans : Spans t env never (Fenced True t q d fun x => compare (rank (keyAt (keysOn leaves) x)) (rank q)) h root pins :=
    hserved.spans.mono fun pin segs hf => (hf.guarded hs hexact).2.fenced hs.ordered (hf.guarded hs hexact).1 hq hdq
  have hlands := hspans.descend_meets hh hroot hd
  simp only [keyAt_keysOn] at hplaced hlands
  exact ⟨hplaced, hlands⟩

theorem rowAt (hserved : ServedTree t env rank layout leaves h root pins) (henv : env.Delivers pages) (hs : t.encoding.Serves rank)
    (hexact : layout.omittedKeys = true → t.encoding.isDigestExact = true)
    (hblobs : BlobsStored pages (leaves.flatMap Prod.snd)) {x : Place} (hx : x ∈ places pins) :
    t.RowAt env x (rowOf pages (itemAt leaves x)) := by
  obtain ⟨w, hw, hpage, hit⟩ := hserved.page_of_mem hx
  have hmem : ∀ it ∈ w.2, it ∈ leaves.flatMap Prod.snd := fun it hi => mem_flatMap.2 ⟨w, hw, hi⟩
  have him := hmem _ (mem_of_getElem? hit)
  obtain ⟨j, -, hf, hshow⟩ := hpage.node
  exact hshow.rowAt hf rfl hit henv hs hexact (hserved.keyed.accepted _ him) (hserved.keyed.digest _ him)
    fun it hi => hblobs it (hmem it hi)

/-- The entries of the tree are the written ones. -/
theorem entriesOf_eq (hserved : ServedTree t env rank layout leaves h root pins) :
    entriesOf pins (fun x => rowOf pages (itemAt leaves x)) = (leaves.flatMap Prod.snd).map (rowOf pages) := by
  rw [entriesOf, ← map_places_leaves hserved.order hserved.pages, map_map]
  rfl

/-- A served tree is keyed for every set of keys that have their place in it. -/
theorem keyed_for (hserved : ServedTree t env rank layout leaves h root pins) (henv : env.Delivers pages)
    (hs : t.encoding.Serves rank) (hexact : layout.omittedKeys = true → t.encoding.isDigestExact = true) (hh : env.Honest t)
    (hroot : t.root = some root) (hd : h < t.store.limits.maxTreeDepth) (hu : env.Unrefused)
    (hblobs : BlobsStored pages (leaves.flatMap Prod.snd)) (hbounded : leaves.length ≤ t.store.pageCount + 1)
    {probe : Bytes → Prop} (hkeys : ∀ key, t.encoding.Accepts key → probe key)
    (hcompare : ∀ a b, probe a → probe b → t.encoding.compare a b = .ok (Ord.compare (rank a) (rank b)))
    (hinj : ∀ a b, probe a → probe b → rank a = rank b → a = b)
    (hprobes : ∀ q, probe q → ∃ d, t.encoding.digest q = .ok d ∧
      Placed t q d pins (fun x => Ord.compare (rank (itemAt leaves x).key) (rank q)) ∧
      Meets never (Lands True pins fun x => Ord.compare (rank (itemAt leaves x).key) (rank q)) ((t.descend q d).run env)) :
    Keyed t env rank probe pins fun x => rowOf pages (itemAt leaves x) where
  unrefused := hu
  full := hserved.full
  chain := hserved.spans.chain hh hroot hd hserved.full (joined_leaves hserved.order hserved.pages)
    (by rw [← hserved.pages.length_eq]; exact hbounded)
  ascending := by
    have hasc := ascending_places hserved.order hserved.pages hserved.keyed
    simp only [keyAt_keysOn] at hasc
    exact hasc
  rows x hx := hserved.rowAt henv hs hexact hblobs hx
  keys x hx := by
    obtain ⟨w, hw, -, hit⟩ := hserved.page_of_mem hx
    exact hkeys _ (hserved.keyed.accepted _ (mem_flatMap.2 ⟨w, hw, mem_of_getElem? hit⟩))
  compare := hcompare
  inj := hinj
  probes := hprobes

end ServedTree

end

end

end DryDb
