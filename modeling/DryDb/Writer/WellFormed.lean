import DryDb.Writer.Tree
/-!
# The tree writer produces well-formed trees

A finished tree read page by page: `Stack.fits` says that every page of it is one the
format can store, so that the reader parses it back, and `treeWriter_wellFormed` is the
whole statement for every run of the writer.
-/

namespace DryDb

open List TreeWriter

/-! ## Pages of a chain -/

/-- The page at place `j` of a chain. -/
def chainNode (kind : NodeKind) (layout : NodeLayout) (ws : Written) (j : Nat) (items : List Item) : Node :=
  { kind, layout, items
    left := if j = 0 then none else ws[j - 1]?.map Prod.fst
    right := ws[j + 1]?.map Prod.fst }

variable {pages : List Bytes} {kind : NodeKind} {layout : NodeLayout} {ws : Written} {j pageSize : Nat} {w : Nat × List Item}
  {tag : Nat → Option Nat} {items : List Item} {levels : List Written}

theorem Linked.getElem? {left : Option Nat} (h : Linked pages kind layout left ws) (hj : ws[j]? = some w) :
    pages[w.1]? = some (Node.image { kind, layout, items := w.2
                                     left := if j = 0 then left else ws[j - 1]?.map Prod.fst
                                     right := ws[j + 1]?.map Prod.fst }) := by
  induction ws generalizing left j with
  | nil => simp at hj
  | cons v vs ih =>
    cases j with
    | zero =>
      obtain rfl : v = w := by simpa using hj
      have h1 := h.1
      cases vs <;> simpa using h1
    | succ j =>
      have := ih h.2 (j := j) (by simpa using hj)
      rw [this]
      cases j with
      | zero => simp
      | succ j => simp

theorem Linked.chainNode (h : Linked pages kind layout none ws) (hj : ws[j]? = some w) :
    pages[w.1]? = some (DryDb.chainNode kind layout ws j w.2).image := h.getElem? hj

/-! ## Every page can be read back -/

/-- What the writer's configuration promises of its layout. -/
structure LayoutOk (layout : NodeLayout) (pageSize : Nat) : Prop where
  omitted : layout.omittedKeys = true → layout.compactMeta = true ∧ layout.eytzinger = false
  compact : layout.compactMeta = true → pageSize ≤ maxCompactPageSize
  limit : pageSize ≤ i32Max

theorem chooseLayout_ok (h : pageSize ≤ i32Max) (eytzinger : Bool) (encoding : KeyEncoding)
    (allow : Bool) : LayoutOk (chooseLayout pageSize eytzinger encoding allow) pageSize := by
  refine ⟨fun ho => ?_, fun hc => by simpa [chooseLayout] using hc, h⟩
  simp only [chooseLayout, Bool.and_eq_true, Bool.not_eq_true'] at ho ⊢
  exact ⟨ho.1.1.2, ho.1.2⟩

/-- A page of a chain fits the format. -/
theorem Linked.fits (h : Linked pages kind layout none ws) (hlay : LayoutOk layout pageSize)
    (hp : pages.length ≤ i32Max) (hsize : Node.len { kind, layout, items := w.2 } ≤ pageSize)
    (hitems : ∀ it ∈ w.2, it.Fits kind) : (DryDb.chainNode kind layout ws j w.2).Fits := by
  have hord : ∀ (i : Nat) (p : Nat), ws[i]?.map Prod.fst = some p → p < 2 ^ 63 := by
    intro i p hi
    obtain ⟨v, hv, rfl⟩ := Option.map_eq_some_iff.1 hi
    have := h.lt_length v (mem_of_getElem? hv)
    simp only [i32Max] at hp
    omega
  refine ⟨hlay.omitted, le_trans hsize hlay.limit, fun hc => le_trans hsize (hlay.compact hc), hitems, ?_, ?_⟩
  · intro p hpl
    simp only [DryDb.chainNode] at hpl
    split at hpl
    · simp at hpl
    · exact hord _ p hpl
  · exact fun p hpr => hord _ p hpr

/-- The separators of a level fit an internal page when the keys below fit. -/
theorem separatorOf_fits (hne : w.2 ≠ []) (hw : w.1 < 2 ^ 63)
    (h : ∀ it ∈ w.2, it.Fits kind) : (separatorOf w).Fits .internal := by
  obtain ⟨it, rest, he⟩ := exists_cons_of_ne_nil hne
  have := (h it (by rw [he]; exact mem_cons_self)).1
  exact ⟨by rw [(separatorOf_key he).1]; exact this, hw⟩

/-- Every page of a stack parses back to its entries and its place in the chain. -/
theorem Stack.fits {root k : Nat} (h : Stack layout pageSize pages tag root k kind items levels)
    (hlay : LayoutOk layout pageSize) (hp : pages.length ≤ i32Max) (hitems : ∀ it ∈ items, it.Fits kind) :
    ∀ (d : Nat) (ws : Written), levels[d]? = some ws → ∀ (j : Nat) (w : Nat × List Item), ws[j]? = some w →
      ∃ n : Node, n.items = w.2 ∧ n.Fits ∧ pages[w.1]? = some n.image ∧ PageView.parse n.image = .ok n.view ∧
        n.layout = layout ∧ n.kind = (if d = 0 then kind else .internal) ∧ n.left = (if j = 0 then none else ws[j - 1]?.map Prod.fst) ∧
        n.right = ws[j + 1]?.map Prod.fst := by
  induction h with
  | @root k kind es hpage hsize _ _ =>
    intro d ws hd j w hj
    cases d with
    | succ d => simp at hd
    | zero =>
      obtain rfl : [(root, es)] = ws := by simpa using hd
      have hlink : Linked pages kind layout none [(root, es)] := ⟨hpage, trivial⟩
      obtain ⟨rfl, rfl⟩ : j = 0 ∧ (root, es) = w := by
        cases j with
        | zero => simpa using hj
        | succ j => simp at hj
      have hf := hlink.fits (j := 0) (w := (root, es)) hlay hp hsize hitems
      exact ⟨_, rfl, hf, hlink.chainNode rfl, Node.parse_image hf, rfl, rfl, rfl, rfl⟩
  | @level k kind items ws rest hsplit hlink _ hpages hrest ih =>
    have hfit : ∀ w ∈ ws, ∀ it ∈ w.2, it.Fits kind := by
      intro w hw it hit
      exact hitems it (hsplit ▸ mem_flatMap.2 ⟨w, hw, hit⟩)
    intro d vs hd j w hj
    cases d with
    | zero =>
      obtain rfl : ws = vs := by simpa using hd
      have hw := mem_of_getElem? hj
      have hf := hlink.fits (j := j) hlay hp (hpages w hw).2.1 (hfit w hw)
      exact ⟨_, rfl, hf, hlink.chainNode hj, Node.parse_image hf, rfl, rfl, rfl, rfl⟩
    | succ d =>
      have hsep : ∀ it ∈ ws.map separatorOf, it.Fits .internal := by
        intro it hit
        obtain ⟨v, hv, rfl⟩ := mem_map.1 hit
        have hlt := hlink.lt_length v hv
        simp only [i32Max] at hp
        exact separatorOf_fits (hpages v hv).1 (by omega) (hfit v hv)
      have := ih hsep d vs (by simpa using hd) j w hj
      simpa using this

/-! ## The first key of a subtree -/

/-- The first key under a page, found by following first children down. `below` are the
levels under it, nearest first. -/
def firstKeyUnder : List Written → Nat × List Item → Option Bytes
  | [], w => w.2.head?.map Item.key
  | ws :: below, w => do
    let first ← w.2.head?
    match first.body with
    | .child o => firstKeyUnder below (← ws.find? fun v => v.1 == o)
    | _ => none

/-- In a chain a page is found by its ordinal. -/
theorem find?_of_ascending (hasc : (ws.map Prod.fst).Pairwise (· < ·)) (hw : w ∈ ws) :
    (ws.find? fun v => v.1 == w.1) = some w := by
  induction ws with
  | nil => simp at hw
  | cons v vs ih =>
    rw [map_cons, pairwise_cons] at hasc
    rcases mem_cons.1 hw with rfl | hw
    · simp
    · have := hasc.1 w.1 (mem_map_of_mem hw)
      rw [find?_cons_of_neg (by simp; omega)]
      exact ih hasc.2 hw

/-- The levels of a stack under level `k + d`, nearest first, below its own bottom `lower`. -/
theorem Stack.firstKey {root k : Nat} (h : Stack layout pageSize pages tag root k kind items levels) (below : List Written)
    (hfirst : ∀ w : Nat × List Item, w.2 ≠ [] → (∀ it ∈ w.2, it ∈ items) →
      firstKeyUnder below w = some (separatorOf w).key) :
    ∀ (d : Nat) (ws : Written), levels[d]? = some ws → ∀ w ∈ ws, w.2 ≠ [] →
      firstKeyUnder ((levels.take d).reverse ++ below) w = some (separatorOf w).key := by
  induction h generalizing below with
  | @root k kind es _ _ _ _ =>
    intro d ws hd w hw hne
    cases d with
    | succ d => simp at hd
    | zero =>
      obtain rfl : [(root, es)] = ws := by simpa using hd
      rw [mem_singleton] at hw
      exact hfirst w hne fun it hit => by rwa [hw] at hit
  | @level k kind items ws rest hsplit _ hasc hpages _ ih =>
    intro d vs hd w hw hne
    have hmem : ∀ v ∈ ws, ∀ it ∈ v.2, it ∈ items := fun v hv it hit =>
      hsplit ▸ mem_flatMap.2 ⟨v, hv, hit⟩
    cases d with
    | zero =>
      obtain rfl : ws = vs := by simpa using hd
      exact hfirst w hne (hmem w hw)
    | succ d =>
      -- A page one level up begins with the separator of a page of this level.
      have hup : ∀ u : Nat × List Item, u.2 ≠ [] → (∀ it ∈ u.2, it ∈ ws.map separatorOf) →
          firstKeyUnder (ws :: below) u = some (separatorOf u).key := by
        intro u hu hall
        obtain ⟨it, rest, he⟩ := exists_cons_of_ne_nil hu
        obtain ⟨v, hv, rfl⟩ := mem_map.1 (hall it (by rw [he]; exact mem_cons_self))
        rw [(separatorOf_key he).1]
        simp only [firstKeyUnder, he, head?_cons, Option.bind_eq_bind, Option.bind_some]
        have hbody : (separatorOf v).body = .child v.1 := rfl
        rw [hbody]
        simp only [find?_of_ascending hasc hv, Option.bind_some]
        exact hfirst v (hpages v hv).1 (hmem v hv)
      have := ih (ws :: below) hup d vs (by simpa using hd) w hw hne
      simpa using this

/-! ## The statement -/

section

variable {E σ : Type}

/-- The pages `levels`, leaves first, are a well-formed B+Tree over the given entries. -/
structure WellFormed (cfg : WriterConfig E) (pages : List Bytes) (root : Nat) (given : List (Bytes × Bytes × E))
    (levels : List Written) : Prop where
  /-- One root page. -/
  root : ∃ es, levels.getLast? = some [(root, es)]
  /-- Every page can be read back, is no larger than the page size, and is linked to its
  neighbours in its level and to nothing else. -/
  page : ∀ (d : Nat) (ws : Written), levels[d]? = some ws → ∀ (j : Nat) (w : Nat × List Item), ws[j]? = some w →
    ∃ n : Node, n.items = w.2 ∧ n.Fits ∧ pages[w.1]? = some n.image ∧ PageView.parse n.image = .ok n.view ∧
      n.image.length ≤ cfg.pageSize ∧ n.layout = cfg.layout ∧ n.kind = (if d = 0 then .leaf else .internal) ∧
      n.left = (if j = 0 then none else ws[j - 1]?.map Prod.fst) ∧ n.right = ws[j + 1]?.map Prod.fst
  /-- The leaf chain holds exactly the entries, in order. -/
  entries : ∃ leaves, levels[0]? = some leaves ∧ List.Forall₂ (fun it e => it.key = e.1 ∧
    cfg.encoding.digest e.1 = .ok it.digest ∧
    (it.body = .inline e.2.1 ∨ ∃ page, it.body = .blob page e.2.1.length ∧ pages[page]? = some (blobImage e.2.1)))
      (leaves.flatMap Prod.snd) given
  /-- The entries of an internal level are the pages of the level below, in order. -/
  children : ∀ (d : Nat) (lower upper : Written), levels[d]? = some lower → levels[d + 1]? = some upper →
    (upper.flatMap Prod.snd).map Item.body = lower.map fun w => .child w.1
  /-- Each is under the first key of its subtree. -/
  separators : ∀ (d : Nat) (lower upper : Written), levels[d]? = some lower → levels[d + 1]? = some upper →
    (upper.flatMap Prod.snd).map (fun it => some it.key) = lower.map (firstKeyUnder (levels.take d).reverse)
  /-- No page under another is empty, and an internal page has a child. -/
  nonempty : ∀ (d : Nat) (ws : Written), levels[d]? = some ws → 1 < levels.length → ∀ w ∈ ws, w.2 ≠ []

variable {layout : NodeLayout} {pageSize : Nat} {pages : List Bytes} {tag : Nat → Option Nat} {root k : Nat}
  {kind : NodeKind} {items : List Item} {levels : List Written}

theorem Stack.root_last (h : Stack layout pageSize pages tag root k kind items levels) :
    ∃ es, levels.getLast? = some [(root, es)] := by
  induction h with
  | @root k kind es _ _ _ _ => exact ⟨es, rfl⟩
  | @level k kind items ws rest _ _ _ _ hrest ih =>
    obtain ⟨es, he⟩ := ih
    refine ⟨es, ?_⟩
    cases rest with
    | nil => simp at he
    | cons v vs => simpa using he

theorem Stack.flatMap_succ (h : Stack layout pageSize pages tag root k kind items levels) :
    ∃ ws rest, levels = ws :: rest ∧ ws.flatMap Prod.snd = items := by
  cases h with
  | root => exact ⟨_, _, rfl, by simp⟩
  | level hsplit => exact ⟨_, _, rfl, hsplit.symm⟩

theorem Stack.children (h : Stack layout pageSize pages tag root k kind items levels) :
    ∀ (d : Nat) (lower upper : Written), levels[d]? = some lower → levels[d + 1]? = some upper →
      upper.flatMap Prod.snd = lower.map separatorOf := by
  induction h with
  | root => intro d lower upper _ hu; simp at hu
  | @level k kind items ws rest _ _ _ _ hrest ih =>
    intro d lower upper hl hu
    cases d with
    | zero =>
      obtain ⟨vs, rest', rfl, hv⟩ := hrest.flatMap_succ
      obtain rfl : ws = lower := by simpa using hl
      obtain rfl : vs = upper := by simpa using hu
      exact hv
    | succ d => exact ih d lower upper (by simpa using hl) (by simpa using hu)

theorem Stack.nonempty (h : Stack layout pageSize pages tag root k kind items levels) :
    ∀ (d : Nat) (ws : Written), levels[d]? = some ws → (1 < levels.length ∨ kind = .internal) → ∀ w ∈ ws, w.2 ≠ [] := by
  induction h with
  | @root k kind es _ _ _ hne =>
    intro d ws hd hlen w hw
    obtain hk : kind = .internal := by simpa using hlen
    cases d with
    | succ d => simp at hd
    | zero =>
      obtain rfl : [(root, es)] = ws := by simpa using hd
      rw [mem_singleton] at hw
      exact hw ▸ hne hk
  | @level k kind items ws rest _ _ _ hpages hrest ih =>
    intro d vs hd _ w hw
    cases d with
    | zero =>
      obtain rfl : ws = vs := by simpa using hd
      exact (hpages w hw).1
    | succ d => exact ih d vs (by simpa using hd) (.inr rfl) w hw

theorem Stack.size (h : Stack layout pageSize pages tag root k kind items levels) :
    ∀ (d : Nat) (ws : Written), levels[d]? = some ws → ∀ w ∈ ws,
      Node.len { kind := if d = 0 then kind else .internal, layout, items := w.2 } ≤ pageSize := by
  induction h with
  | @root k kind es _ hsize _ _ =>
    intro d ws hd w hw
    cases d with
    | succ d => simp at hd
    | zero =>
      obtain rfl : [(root, es)] = ws := by simpa using hd
      rw [mem_singleton] at hw
      exact hw ▸ hsize
  | @level k kind items ws rest _ _ _ hpages hrest ih =>
    intro d vs hd w hw
    cases d with
    | zero =>
      obtain rfl : ws = vs := by simpa using hd
      exact (hpages w hw).2.1
    | succ d =>
      have := ih d vs (by simpa using hd) w hw
      simpa using this

variable {cfg : WriterConfig E} {fits : Prop} {onValueRef : σ → E → PageRef → Result σ} {front : Bytes} {s₀ : PageSink}
  {pages₀ : List Bytes} {given : List (Bytes × Bytes × E)}

theorem Finished.wellFormed {c₀ : σ}
    {out : Output σ} {leaves : Written} {upper : List Written} (hlay : LayoutOk cfg.layout cfg.pageSize)
    (h : Finished cfg onValueRef fits front s₀ pages₀ c₀ given root out pages tag items leaves upper) :
    WellFormed cfg pages root given (leaves :: upper) := by
  have hitems : ∀ it ∈ items, it.Fits .leaf := by
    intro it hit
    obtain ⟨e, -, he⟩ := exists_of_mem_left h.items hit
    exact ⟨he.ok.length, he.body⟩
  have hleaves : leaves.flatMap Prod.snd = items := by
    obtain ⟨ws, rest, he, hi⟩ := h.stack.flatMap_succ
    rw [List.cons.injEq] at he
    rw [he.1, hi]
  have hkey : ∀ w : Nat × List Item, w.2 ≠ [] → (∀ it ∈ w.2, it ∈ items) →
      firstKeyUnder [] w = some (separatorOf w).key := by
    intro w hne _
    obtain ⟨it, rest, he⟩ := exists_cons_of_ne_nil hne
    rw [(separatorOf_key he).1]
    simp [firstKeyUnder, he]
  refine ⟨h.stack.root_last, ?_, ⟨leaves, rfl, ?_⟩, ?_, ?_, fun d ws hd hlen => h.stack.nonempty d ws hd (.inl hlen)⟩
  · intro d ws hd j w hj
    obtain ⟨n, hi, hf, hp, hparse, hlayout, hk, hl, hr⟩ := h.stack.fits hlay h.sink.limit hitems d ws hd j w hj
    have hsize := h.stack.size d ws hd w (mem_of_getElem? hj)
    rw [← hk, ← hi, ← hlayout] at hsize
    exact ⟨n, hi, hf, hp, hparse, by rw [n.length_image]; exact hsize, hlayout, hk, hl, hr⟩
  · rw [hleaves]
    refine h.items.imp fun it e he => ⟨he.key, he.key ▸ he.ok.digest, ?_⟩
    have hv := he.value
    cases hb : it.body with
    | inline value => rw [hb] at hv; exact .inl (by rw [hv])
    | blob page length =>
      rw [hb] at hv
      exact .inr ⟨page, by rw [hv.1], hv.2.1⟩
    | child page => rw [hb] at hv; exact hv.elim
  · intro d lower upper hl hu
    rw [h.stack.children d lower upper hl hu, map_map]
    rfl
  · intro d lower upper' hl hu
    have hlen : 1 < (leaves :: upper).length := by
      have := (List.getElem?_eq_some_iff.1 hu).1
      omega
    rw [h.stack.children d lower upper' hl hu, map_map]
    refine map_congr_left fun w hw => ?_
    have := h.stack.firstKey [] hkey d lower hl w hw (h.stack.nonempty d lower hl (.inl hlen) w hw)
    rw [append_nil] at this
    exact this.symm

/-- More turns of the pass loop than two change nothing. -/
theorem flushPasses_two (hmin : minPageSize ≤ cfg.pageSize) {c₀ : σ} {w : TreeWriter E σ} {ws : Written} {es : List Item}
    (h : WriterOk cfg onValueRef fits front s₀ pages₀ c₀ w given pages tag items ws es) (turns : Nat) :
    flushPasses cfg onValueRef (turns + 2) w.leaf w.upper w.out =
      flushPasses cfg onValueRef 2 w.leaf w.upper w.out := by
  rw [flushPasses.eq_2, flushPasses.eq_2]
  split
  · rfl
  · rename_i hset
    cases hup : w.upper with
    | nil => rw [hup] at hset; exact absurd rfl hset
    | cons p ps =>
      rw [← hup]
      have hpass : Meets (WriterFault cfg fits (fun _ => True) [] _ onValueRef) _ _ :=
        flushAll_meets hmin h hup fun _ _ => trivial
      cases hr : flushPass cfg onValueRef leafRoom .leaf w.leaf w.upper w.out with
      | error e => rfl
      | ok r =>
        obtain ⟨leaf', upper', out'⟩ := r
        obtain ⟨pages', tag', ws', p', ps', -, hup', -, hfl⟩ := hpass.post hr
        simp only at hup' hfl
        have hdone : settled leaf' upper' = true := by
          rw [hup']
          simp [settled, hfl.leaf.entryCount_eq, hfl.tower.settled]
        simp only [ok_bind]
        rw [flushPasses.eq_2, flushPasses.eq_2, if_pos hdone, if_pos hdone]

/-- Where the file stays under the page limit, the filter stores the pages and the caller takes
the references, no failure is left. -/
theorem Meets.ok_of_writes {α : Type} {full : Nat → Prop} {values : List Bytes} {filter : Option PageFilter}
    {Q : α → Prop} {x : Result α} (h : Meets (WriterFault cfg True full values filter onValueRef) Q x)
    (hlimit : ∀ n, full n → n < i32Max)
    (hfilter : ∀ page, page.length ≤ cfg.pageSize ∨ page ∈ values.map blobImage →
      (PageSink.storedPage filter page).isOk)
    (hcaller : ∀ c x r, (onValueRef c x r).isOk) : ∃ r, x = .ok r := by
  cases x with
  | ok r => exact ⟨r, rfl⟩
  | error e =>
    cases (show WriterFault cfg True full values filter onValueRef e from h) with
    | pageLimit hfull hbegin =>
      rw [PageSink.beginPage, if_neg (by have := hlimit _ hfull; omega)] at hbegin
      cases hbegin
    | filtered hpage hstored =>
      have := hfilter _ hpage
      rw [hstored] at this
      cases this
    | @caller c x r _ hcalled =>
      have := hcaller c x r
      rw [hcalled] at this
      cases this
    | levels hfits => exact absurd trivial hfits

/-- Every run of the writer over keys that pass `checkKeyFits` ends in a well-formed tree,
or with a failure of its own file's page limit, of the filter on one of its pages or of the
caller: never with the level limit, an oversized page or a missing first key. As long as the
writes succeed it ends in the tree. The pages that were in the file before stay as they were,
and the pass loop of `finish` ends by itself. -/
theorem treeWriter_wellFormed {pageSize extraBudget : Nat} {eytzinger allow : Bool} {encoding : KeyEncoding}
    {extraBytes : E → Nat} {out : Output σ} (entries : List (Bytes × Bytes × E))
    (hnew : TreeWriter.new pageSize eytzinger encoding allow extraBytes extraBudget = .ok cfg) (hmax : pageSize ≤ i32Max)
    (hs : out.sink.Holds front pages)
    (hfits : ∀ e ∈ entries, checkKeyFits cfg.pageSize cfg.layout e.1.length = .ok ())
    (haccept : ∀ e ∈ entries, checkEntry cfg e.1 e.2.1 = .ok ())
    (hdigest : ∀ e ∈ entries, ∃ d, cfg.encoding.digest e.1 = .ok d) :
    Meets (WriterFault cfg True (PageCountNear cfg onValueRef entries { out }) (entries.map fun e => e.2.1)
          out.sink.filter onValueRef)
        (fun r => ∃ pages' levels, r.2.sink.Holds front pages' ∧ (∀ o < pages.length, pages'[o]? = pages[o]?) ∧
          WellFormed cfg pages' r.1 entries levels)
        (pushAll cfg onValueRef entries { out } >>= finish cfg onValueRef) ∧
      ((∀ n, PageCountNear cfg onValueRef entries { out } n → n < i32Max) →
        (∀ page, page.length ≤ cfg.pageSize ∨ page ∈ (entries.map fun e => e.2.1).map blobImage →
          (PageSink.storedPage out.sink.filter page).isOk) →
        (∀ c x r, (onValueRef c x r).isOk) →
        ∃ r, (pushAll cfg onValueRef entries { out } >>= finish cfg onValueRef) = .ok r) ∧
      ∀ w, pushAll cfg onValueRef entries { out } = .ok w → ∀ turns,
        flushPasses cfg onValueRef (turns + 2) w.leaf w.upper w.out =
          flushPasses cfg onValueRef 2 w.leaf w.upper w.out := by
  unfold TreeWriter.new at hnew
  rw [guard_eq_ok, Except.ok.injEq] at hnew
  obtain ⟨hmin, rfl⟩ := hnew
  have hmin : minPageSize ≤ pageSize := Nat.le_of_not_lt hmin
  have hentries : ∀ e ∈ entries, EntryOk _ True e.1 e.2.1 := fun e he =>
    ⟨haccept e he, hdigest e he, fun _ => hfits e he⟩
  have hvalues : ∀ e ∈ entries, e.2.1 ∈ entries.map fun e => e.2.1 := fun e he => mem_map_of_mem he
  have hrun : Meets (WriterFault _ True (PageCountNear _ onValueRef entries { out }) _ _ onValueRef) _ _ :=
    writeTree_meets hmin hs entries hentries hvalues fun _ hn => hn
  refine ⟨hrun.mono ?_, hrun.ok_of_writes, ?_⟩
  · rintro ⟨root, out'⟩ ⟨pages', tag', items, leaves, upper, hfin⟩
    refine ⟨pages', leaves :: upper, hfin.sink, fun o ho => ?_, hfin.wellFormed (chooseLayout_ok hmax ..)⟩
    exact hfin.grows.keep o ho (by simp)
  · intro w hw turns
    have hpush : Meets (WriterFault _ True (fun _ => True) _ _ onValueRef) _ _ :=
      pushAll_meets hmin entries (writerOk_new hmin hs) hentries hvalues fun _ _ => trivial
    obtain ⟨pages', tag', items', ws', es', -, h'⟩ := hpush.post hw
    exact flushPasses_two hmin h' turns

/-- Pages of 96 bytes with their keys on them. -/
def mixed : WriterConfig Unit :=
  { pageSize := 96, layout := chooseLayout 96 false asciiEncoding true, encoding := asciiEncoding
    extraBytes := fun _ => 1, extraBudget := 100 }

/-- Keys and values of different lengths, one value too long for a leaf, on two leaves under a root. -/
def mixedRows : List (Bytes × Bytes × Unit) :=
  [([97], [7], ()), ([98, 99], List.replicate 20 8, ()), ([98, 100], List.replicate 100 9, ()), ([101], [], ())]

/-- A caller that keeps the references. -/
def keepRefs (refs : List PageRef) (_ : Unit) (ref : PageRef) : Result (List PageRef) := .ok (refs ++ [ref])

/-- The writing of these rows into an empty file. -/
def mixedRun : Result (Nat × Output (List PageRef)) :=
  pushAll mixed keepRefs mixedRows { out := ⟨{}, []⟩ } >>= finish mixed keepRefs

theorem mixed_new : TreeWriter.new 96 false asciiEncoding true (fun _ : Unit => 1) 100 = .ok mixed := rfl

theorem holds_empty : ({} : PageSink).Holds [] [] := ⟨⟨[], .nil, rfl, rfl⟩, by simp, by simp⟩

theorem mixedRun_eq : (mixedRun.map fun r => (r.1, r.2.sink.directory.length, r.2.caller)) =
    .ok (3, 4, [⟨0, 55, 1⟩, ⟨0, 58, 20⟩, ⟨1, 28, 100⟩, ⟨2, 65, 0⟩]) := by
  decide +kernel

/-- The rows fill three pages before `finish`. -/
theorem mixed_pageCount {n : Nat} (h : PageCountNear mixed keepRefs mixedRows { out := ⟨{}, []⟩ } n) : n < i32Max := by
  have hall : ∀ k < 5, ((pushAll mixed keepRefs (mixedRows.take k) { out := ⟨{}, []⟩ }).toOption.all
      fun w => decide (w.out.sink.directory.length ≤ 3)) = true := by
    decide +kernel
  obtain ⟨k, w, hw, hn⟩ := h
  have htake : mixedRows.take k = mixedRows.take (min k 4) := by rw [take_eq_take_iff]; simp [mixedRows]
  have := hall (min k 4) (by omega)
  rw [← htake, hw] at this
  simp only [Except.toOption, Option.all_some, decide_eq_true_eq] at this
  simp only [i32Max]
  omega

theorem treeWriter_wellFormed_mixed :
    ∃ out pages levels, mixedRun = .ok (3, out) ∧ out.sink.directory.length = 4 ∧ out.sink.Holds [] pages ∧
      WellFormed mixed pages 3 mixedRows levels := by
  have hdigest : ∀ e ∈ mixedRows, ∃ d, mixed.encoding.digest e.1 = .ok d := by
    simp only [mixedRows, forall_mem_cons, not_mem_nil, false_imp_iff, implies_true, and_true]
    exact ⟨⟨_, rfl⟩, ⟨_, rfl⟩, ⟨_, rfl⟩, _, rfl⟩
  -- The file stays a variable, so that no step evaluates the run.
  obtain ⟨start, hstart⟩ : ∃ start : Output (List PageRef), start = ⟨{}, []⟩ := ⟨_, rfl⟩
  have hwritten : Meets (WriterFault _ _ (PageCountNear _ keepRefs _ { out := start }) _ _ _) _ _ ∧ _ :=
    treeWriter_wellFormed mixedRows mixed_new (by decide) (by rw [hstart]; exact holds_empty) (by decide) (by decide) hdigest
  obtain ⟨⟨root, out⟩, hrun⟩ := hwritten.2.1 (fun _ h => mixed_pageCount (hstart ▸ h)) (fun _ _ => by rw [hstart]; rfl)
    fun _ _ _ => rfl
  obtain ⟨pages, levels, hholds, -, hwf⟩ := hwritten.1.post hrun
  have hmixed : mixedRun = .ok (root, out) := by rw [mixedRun, ← hstart, hrun]
  obtain ⟨r, hr, heq⟩ := map_eq_ok.1 mixedRun_eq
  obtain rfl : (root, out) = r := Except.ok.inj (hmixed.symm.trans hr)
  obtain ⟨rfl, hlen, -⟩ : root = 3 ∧ out.sink.directory.length = 4 ∧ _ := by simpa only [Prod.mk.injEq] using heq
  exact ⟨out, pages, levels, hmixed, hlen, hholds, hwf⟩

end

end DryDb
