import DryDb.Writer.Entries
/-!
# The finished tree

`finish` flushes the levels from the leaf up and writes the top level as the root. What
it leaves in the file is a `Stack`: one chain of pages per level, where the entries of
each level are the separators of the pages below, up to a single root page.
-/

namespace DryDb

open List TreeWriter

variable {E σ : Type} {cfg : WriterConfig E} {fits : Prop} {full : Nat → Prop} {values : List Bytes}
  {onValueRef : σ → E → PageRef → Result σ} {front : Bytes} {s : PageSink} {pages : List Bytes} {tag : Nat → Option Nat}
  {k : Nat} {kind : NodeKind} {items es : List Item} {l : Level E} {ls : List (Level E)} {ws : Written}

/-- The pages of a tree from level `k` up. Every level is one doubly linked chain whose
entries, put together, are `items`; the items of the next level are the separators of its
pages, and the last level is the root page alone. A page below another is not empty. -/
inductive Stack (layout : NodeLayout) (pageSize : Nat) (pages : List Bytes) (tag : Nat → Option Nat) (root : Nat) :
    Nat → NodeKind → List Item → List Written → Prop
  | root {k : Nat} {kind : NodeKind} {es : List Item} :
      pages[root]? = some (Node.image { kind, layout, items := es }) →
      Node.len { kind, layout, items := es } ≤ pageSize → tag root = some k → (kind = .internal → es ≠ []) →
      Stack layout pageSize pages tag root k kind es [[(root, es)]]
  | level {k : Nat} {kind : NodeKind} {items : List Item} {ws : Written} {rest : List Written} :
      items = ws.flatMap Prod.snd → Linked pages kind layout none ws → (ws.map Prod.fst).Pairwise (· < ·) →
      (∀ w ∈ ws, w.2 ≠ [] ∧ Node.len { kind, layout, items := w.2 } ≤ pageSize ∧ tag w.1 = some k) →
      Stack layout pageSize pages tag root (k + 1) .internal (ws.map separatorOf) rest →
      Stack layout pageSize pages tag root k kind items (ws :: rest)

/-! ## Flushing the levels -/

/-- Levels of which only the top has open entries, and no page yet. -/
def TowerOk (cfg : WriterConfig E) (s : PageSink) (pages : List Bytes) (tag : Nat → Option Nat) :
    Nat → NodeKind → List Item → Level E → List (Level E) → Prop
  | k, kind, items, l, [] => LevelOk cfg s pages tag k kind items l [] items
  | k, kind, items, l, p :: ps => ∃ ws, ws ≠ [] ∧ LevelOk cfg s pages tag k kind items l ws [] ∧
      TowerOk cfg s pages tag (k + 1) .internal (ws.map separatorOf) p ps

theorem TowerOk.settled (h : TowerOk cfg s pages tag k kind items l ls) :
    settled l ls = true := by
  induction ls generalizing k kind items l with
  | nil => rfl
  | cons p ps ih =>
    obtain ⟨ws, -, hl, hup⟩ := h
    simp [settled, hl.entryCount_eq, ih hup]

/-- A level whose lower levels are already empty needs no flushing. -/
theorem towerOk_of_settled
    (hl : LevelOk cfg s pages tag k kind items l ws es) (hu : UpperOk cfg fits s pages tag (k + 1) (ws.map separatorOf) ls)
    (hset : settled l ls = true) : TowerOk cfg s pages tag k kind items l ls := by
  induction ls generalizing k kind items l ws es with
  | nil =>
    have hws : ws = [] := map_eq_nil_iff.1 hu
    subst hws
    have hes : items = es := hl.split
    subst hes
    exact hl
  | cons p ps ih =>
    obtain ⟨hne, ws₁, es₁, hl₁, -, hu₁⟩ := hu
    simp only [settled, Bool.and_eq_true, decide_eq_true_eq, hl.entryCount_eq] at hset
    have hes : es = [] := eq_nil_of_length_eq_zero hset.1
    subst hes
    exact ⟨ws, fun h => hne (by simp [h]), hl, ih hl₁ hu₁ hset.2⟩

/-- How many pages a level with these entries can have under `2 ^ room` entries. -/
theorem pages_le_of_half {room a b n : Nat} (hroom : room ≠ 0) (h : 2 * a ≤ b) (hn : b + n ≤ 2 ^ room) :
    a ≤ 2 ^ (room - 1) ∧ (n ≠ 0 → a + 1 ≤ 2 ^ (room - 1)) := by
  have hp : 2 ^ room = 2 * 2 ^ (room - 1) := by
    conv_lhs => rw [show room = room - 1 + 1 by omega, Nat.pow_succ]
    omega
  omega

/-- The pass over the levels from `k` up, all of them internal, writes a page for each
level and those a full level makes above it. -/
theorem flushPass_meets (hmin : minPageSize ≤ cfg.pageSize) {room : Nat} {out : Output σ} (hs : out.sink.Holds front pages)
    (hl : LevelOk cfg out.sink pages tag k .internal items l ws es) (hkeys : ∀ it ∈ items, KeyOk cfg fits it)
    (hu : UpperOk cfg fits out.sink pages tag (k + 1) (ws.map separatorOf) ls) (hroom : ls.length ≤ room)
    (hhalf : fits → 2 * ws.length ≤ (ws.flatMap Prod.snd).length) (hnum : fits → items.length ≤ 2 ^ room)
    (hmay : ∀ n ≤ pages.length + (room + 1) ^ 2, full n) :
    Meets (WriterFault cfg fits full values out.sink.filter onValueRef)
      (fun r => ∃ pages' tag', r.2.2.sink.Holds front pages' ∧ pages'.length ≤ pages.length + (room + 1) ^ 2 ∧
        Grows (k ≤ ·) out.sink pages tag r.2.2.sink pages' tag' ∧
        TowerOk cfg r.2.2.sink pages' tag' k .internal items r.1 r.2.1 ∧ r.2.2.caller = out.caller)
      (flushPass cfg onValueRef room .internal l ls out) := by
  induction room generalizing k items es l ws ls out pages tag with
  | zero =>
    obtain rfl : ls = [] := eq_nil_of_length_eq_zero (by omega)
    exact ⟨pages, tag, hs, Nat.le_add_right .., Grows.refl .., towerOk_of_settled hl hu rfl, rfl⟩
  | succ room ih =>
    cases ls with
    | nil => exact ⟨pages, tag, hs, Nat.le_add_right .., Grows.refl .., towerOk_of_settled hl hu rfl, rfl⟩
    | cons p ps =>
      have hsquare : (room + 1 + 1) ^ 2 = (room + 1) ^ 2 + 2 * room + 3 := by ring
      have hcount : items.length = (ws.flatMap Prod.snd).length + es.length := by
        rw [hl.split, length_append]
      have hbound : fits → ws.length ≤ 2 ^ room ∧ (es.length ≠ 0 → ws.length + 1 ≤ 2 ^ room) := fun hf =>
        pages_le_of_half (Nat.succ_ne_zero room) (hhalf hf) (by rw [← hcount]; exact hnum hf)
      rw [flushPass]
      -- This level first: it is flushed when it holds entries.
      refine Meets.bind (P := fun r => ∃ pages' tag' ws', r.2.2.sink.Holds front pages' ∧
        pages'.length ≤ pages.length + (room + 1) + 1 ∧ Grows (k ≤ ·) out.sink pages tag r.2.2.sink pages' tag' ∧
        LevelOk cfg r.2.2.sink pages' tag' k .internal items r.1 ws' [] ∧
        UpperOk cfg fits r.2.2.sink pages' tag' (k + 1) (ws'.map separatorOf) r.2.1 ∧ r.2.1 ≠ [] ∧
        r.2.1.length ≤ room + 1 ∧ (fits → ws'.length ≤ 2 ^ room) ∧ r.2.2.caller = out.caller) ?_ ?_
      · unfold flushLevel
        split
        · rename_i hpos
          rw [hl.entryCount_eq] at hpos
          have hne : es ≠ [] := ne_nil_of_length_pos hpos
          refine Meets.mono (rotate_rotates hmin (room + 1) k .internal items es l ws (p :: ps) out pages tag hs hl hne
            hkeys hu hroom (fun hf => ⟨by omega, (hbound hf).2 (by omega)⟩) fun n hn => hmay n (by omega)) ?_
          rintro ⟨l', ls', out'⟩ ⟨pages', tag', ordinal, h1, h2, h3, -, h5, h6, h7, h8⟩
          refine ⟨pages', tag', _, h1, h7, h2, h3, h5, ?_, h6, fun hf => ?_, ?_⟩
          · rintro rfl
            simp [UpperOk] at h5
          · have := (hbound hf).2 (by omega)
            simpa using this
          · simpa [handed, handOver] using h8.symm
        · rename_i hzero
          rw [hl.entryCount_eq] at hzero
          have hes : es = [] := eq_nil_of_length_eq_zero (by omega)
          subst hes
          exact ⟨pages, tag, ws, hs, by omega, Grows.refl .., hl, hu, by simp, hroom, fun hf => (hbound hf).1, rfl⟩
      · rintro ⟨l₁, ls₁, out₁⟩ - ⟨pages₁, tag₁, ws₁, hs₁, hgrown₁, hg₁, hl₁, hu₁, hne₁, hroom₁, hnum₁, hc₁⟩
        simp only at hs₁ hg₁ hl₁ hu₁ hne₁ hroom₁ hc₁ ⊢
        cases ls₁ with
        | nil => exact absurd rfl hne₁
        | cons p₁ ps₁ =>
          obtain ⟨hitems, ws₂, es₂, hl₂, hhalf₂, hu₂⟩ := hu₁
          have hrec := ih hs₁ hl₂ (hl₁.keys_separators hkeys) hu₂ (by simpa using hroom₁) hhalf₂ (by simpa using hnum₁)
            fun n hn => hmay n (by omega)
          rw [hg₁.filter] at hrec
          refine Meets.bind hrec ?_
          rintro ⟨p', ps', out'⟩ - ⟨pages', tag', hs', hgrown', hg', ht', hc'⟩
          simp only at hs' hg' ht' hc'
          refine ⟨pages', tag', hs', by omega, hg₁.trans (hg'.mono fun j hj => by omega), ⟨ws₁, ?_, hl₁.grow hg' (by omega), ht'⟩,
            hc'.trans hc₁⟩
          intro hnil
          simp [hnil] at hitems

/-! ## From an empty writer to the root -/

section

variable {s₀ : PageSink} {pages₀ : List Bytes} {c₀ : σ} {w : TreeWriter E σ} {given : List (Bytes × Bytes × E)}
  {pages : List Bytes} {tag : Nat → Option Nat} {items es : List Item} {ws : Written} {out out' : Output σ}
  {entries : List (Bytes × Bytes × E)} {s : PageSink} {k : Nat} {kind : NodeKind} {l p : Level E} {ls ps : List (Level E)}

/-- A new writer has been given nothing. -/
theorem writerOk_new (hmin : minPageSize ≤ cfg.pageSize) (hs : out.sink.Holds front pages) :
    WriterOk cfg onValueRef fits front out.sink pages out.caller { out } [] pages (fun _ => none) [] [] [] :=
  ⟨hs, Grows.refl .., ⟨rfl, ⟨rfl, rfl, rfl, rfl⟩, by simp, rfl, rfl, by simp, by simp, by simp, by simp, trivial,
    len_nil_le hmin _⟩, rfl, by simp, .nil, rfl, rfl⟩

theorem pushAll_cons (e : Bytes × Bytes × E) (entries : List (Bytes × Bytes × E)) :
    pushAll cfg onValueRef (e :: entries) w =
      push cfg onValueRef e.1 e.2.1 e.2.2 w >>= pushAll cfg onValueRef entries := by
  rw [pushAll, foldlM_cons]
  rfl

/-- A page count that the file comes to, or comes within one `finish` of, while the entries are
pushed. -/
def PageCountNear (cfg : WriterConfig E) (onValueRef : σ → E → PageRef → Result σ) (entries : List (Bytes × Bytes × E))
    (w : TreeWriter E σ) (n : Nat) : Prop :=
  ∃ k w', pushAll cfg onValueRef (entries.take k) w = .ok w' ∧ n ≤ w'.out.sink.directory.length + 4096

theorem PageCountNear.cons {e : Bytes × Bytes × E} {w₁ : TreeWriter E σ} {n : Nat}
    (hpush : push cfg onValueRef e.1 e.2.1 e.2.2 w = .ok w₁) (h : PageCountNear cfg onValueRef entries w₁ n) :
    PageCountNear cfg onValueRef (e :: entries) w n := by
  obtain ⟨k, w', hw', hn⟩ := h
  refine ⟨k + 1, w', ?_, hn⟩
  rw [take_succ_cons, pushAll_cons, hpush]
  exact hw'

/-- A run of pushes: by induction on the entries, each push keeps the invariant. -/
theorem pushAll_meets (hmin : minPageSize ≤ cfg.pageSize) (entries : List (Bytes × Bytes × E))
    (h : WriterOk cfg onValueRef fits front s₀ pages₀ c₀ w given pages tag items ws es)
    (he : ∀ e ∈ entries, EntryOk cfg fits e.1 e.2.1) (hvalues : ∀ e ∈ entries, e.2.1 ∈ values)
    (hmay : ∀ n, PageCountNear cfg onValueRef entries w n → full n) :
    Meets (WriterFault cfg fits full values w.out.sink.filter onValueRef)
      (fun w' => ∃ pages' tag' items' ws' es', w'.out.sink.filter = w.out.sink.filter ∧
        WriterOk cfg onValueRef fits front s₀ pages₀ c₀ w' (given ++ entries) pages' tag' items' ws' es')
      (pushAll cfg onValueRef entries w) := by
  induction entries generalizing w given pages tag items ws es with
  | nil =>
    rw [append_nil]
    exact ⟨pages, tag, items, ws, es, rfl, h⟩
  | cons e entries ih =>
    have hdirectory := h.sink.length_directory
    rw [pushAll_cons]
    refine Meets.bind (push_meets hmin h (he e mem_cons_self) (hvalues e mem_cons_self)
      fun n hn => hmay n ⟨0, w, rfl, by omega⟩) ?_
    rintro w₁ hpush ⟨pages₁, tag₁, items₁, ws₁, es₁, hf₁, -, h₁⟩
    have hrec := ih h₁ (fun e' he' => he e' (mem_cons_of_mem _ he'))
      (fun e' he' => hvalues e' (mem_cons_of_mem _ he')) fun n hn => hmay n (hn.cons hpush)
    rw [hf₁, append_assoc] at hrec
    exact hrec

/-- A level written to the end is a level of the stack. -/
theorem LevelOk.stack {root : Nat} {rest : List Written} (h : LevelOk cfg s pages tag k kind items l ws [])
    (hrest : Stack cfg.layout cfg.pageSize pages tag root (k + 1) .internal (ws.map separatorOf) rest) :
    Stack cfg.layout cfg.pageSize pages tag root k kind items (ws :: rest) :=
  .level (by rw [h.split, append_nil]) h.linked h.ascending (fun w hw => ⟨h.nonempty w hw, h.size w hw, h.tagged w hw⟩) hrest

/-- Writing the one page of a level makes it the root. -/
theorem LevelWritten.stack {ordinal offset : Nat}
    {pages' : List Bytes} (hl : LevelOk cfg out.sink pages tag k kind items l [] items)
    (hw : LevelWritten cfg onValueRef front k kind l [] items out pages tag ordinal offset out' pages')
    (hint : kind = .internal → items ≠ []) :
    Stack cfg.layout cfg.pageSize pages' (Function.update tag ordinal (some k)) ordinal k kind items
      [[(ordinal, items)]] :=
  .root hw.linked.1 hl.openSize (by simp) hint

/-- Writing the top of a tower of internal levels makes it the root of a stack. -/
theorem TowerOk.writeTop
    (hs : out.sink.Holds front pages) (h : TowerOk cfg out.sink pages tag k .internal items l ls) (hne : items ≠ [])
    (hmay : full pages.length) :
    Meets (WriterFault cfg fits full values out.sink.filter onValueRef)
      (fun r => ∃ pages' tag' levels, r.2.2.sink.Holds front pages' ∧
        Grows (k ≤ ·) out.sink pages tag r.2.2.sink pages' tag' ∧
        Stack cfg.layout cfg.pageSize pages' tag' r.1 k .internal items levels ∧ r.2.2.caller = out.caller)
      (writeLevel cfg onValueRef (topLevel .internal l ls).1
        (topLevel .internal l ls).2 out) := by
  induction ls generalizing k items l with
  | nil =>
    simp only [topLevel]
    refine Meets.mono (writeLevel_meets hs h hmay) ?_
    rintro ⟨ordinal, offset, out'⟩ ⟨pages', hw⟩
    refine ⟨pages', _, _, hw.holds, hw.grows.mono fun j hj => hj.ge, hw.stack h fun _ => hne, ?_⟩
    simpa [handed, handOver] using hw.caller.symm
  | cons p ps ih =>
    obtain ⟨ws, hws, hl, hup⟩ := h
    refine Meets.mono (ih hup (by simpa using hws)) ?_
    rintro ⟨root, offset, out'⟩ ⟨pages', tag', levels, hs', hg', hst, hc⟩
    exact ⟨pages', tag', ws :: levels, hs', hg'.mono fun j hj => by omega, (hl.grow hg' (by omega)).stack hst, hc⟩

/-- The top of a tower has entries or no page yet, so `finish` writes it. -/
theorem TowerOk.top_unwritten
    (h : TowerOk cfg s pages tag k kind items l ls) : (topLevel kind l ls).2.prevOrdinal = none := by
  induction ls generalizing k kind items l with
  | nil => exact LevelOk.prevOrdinal h
  | cons p ps ih =>
    obtain ⟨ws, -, -, hup⟩ := h
    exact ih hup

/-- What a finished tree leaves behind: the stack of its pages, the entries on its leaves,
and the references handed to the caller. -/
structure Finished (cfg : WriterConfig E) (onValueRef : σ → E → PageRef → Result σ) (fits : Prop) (front : Bytes)
    (s₀ : PageSink) (pages₀ : List Bytes) (c₀ : σ) (given : List (Bytes × Bytes × E)) (root : Nat) (out : Output σ)
    (pages : List Bytes) (tag : Nat → Option Nat) (items : List Item) (leaves : Written) (upper : List Written) :
    Prop where
  sink : out.sink.Holds front pages
  grows : Grows (fun _ => True) s₀ pages₀ (fun _ => none) out.sink pages tag
  stack : Stack cfg.layout cfg.pageSize pages tag root 0 .leaf items (leaves :: upper)
  items : List.Forall₂ (ItemOf cfg fits pages tag) items given
  caller : handAll onValueRef ((given.map fun e => e.2.2).zip (leaves.flatMap (pageRefs cfg.layout))) c₀ =
    .ok out.caller

/-- All leaves are written and handed over, and above them only the top is open. -/
structure FlushedOk (cfg : WriterConfig E) (onValueRef : σ → E → PageRef → Result σ) (fits : Prop) (front : Bytes)
    (s₀ : PageSink) (pages₀ : List Bytes) (c₀ : σ) (given : List (Bytes × Bytes × E)) (leaf p : Level E)
    (ps : List (Level E)) (out : Output σ) (pages : List Bytes) (tag : Nat → Option Nat) (items : List Item)
    (ws : Written) : Prop where
  nonempty : ws ≠ []
  sink : out.sink.Holds front pages
  grows : Grows (fun _ => True) s₀ pages₀ (fun _ => none) out.sink pages tag
  leaf : LevelOk cfg out.sink pages tag 0 .leaf items leaf ws []
  items : List.Forall₂ (ItemOf cfg fits pages tag) items given
  caller : handAll onValueRef ((given.map fun e => e.2.2).zip (ws.flatMap (pageRefs cfg.layout))) c₀ = .ok out.caller
  tower : TowerOk cfg out.sink pages tag 1 .internal (ws.map separatorOf) p ps

/-- The pass over all levels of a writer that has internal ones. -/
theorem flushAll_meets (hmin : minPageSize ≤ cfg.pageSize)
    (h : WriterOk cfg onValueRef fits front s₀ pages₀ c₀ w given pages tag items ws es) (hup : w.upper = p :: ps)
    (hmay : ∀ n ≤ pages.length + 4095, full n) :
    Meets (WriterFault cfg fits full values w.out.sink.filter onValueRef)
      (fun r => ∃ pages' tag' ws' p' ps', r.2.2.sink.filter = w.out.sink.filter ∧ r.2.1 = p' :: ps' ∧
        pages'.length ≤ pages.length + 4095 ∧
        FlushedOk cfg onValueRef fits front s₀ pages₀ c₀ given r.1 p' ps' r.2.2 pages' tag' items ws')
      (flushPass cfg onValueRef leafRoom .leaf w.leaf w.upper w.out) := by
  have hroom : leafRoom = 62 + 1 := rfl
  rw [hup, hroom, flushPass, ← hroom, ← hup]
  refine Meets.bind (P := fun r => ∃ pages' tag' ws', r.2.2.sink.filter = w.out.sink.filter ∧ r.2.1 ≠ [] ∧
    pages'.length ≤ pages.length + 64 ∧ ∀ entries pendingExtra, WriterOk cfg onValueRef fits front s₀ pages₀ c₀
      { leaf := r.1, upper := r.2.1, out := r.2.2, entries, pendingExtra } given pages' tag' items ws' []) ?_ ?_
  · unfold flushLevel
    split
    · rename_i hpos
      rw [h.leaf.entryCount_eq] at hpos
      refine Meets.mono (rotate_leaf_meets hmin h (ne_nil_of_length_pos hpos) fun n hn => hmay n (by omega)) ?_
      rintro ⟨leaf', upper', out'⟩ ⟨pages', tag', ordinal, hf, hgrown, hw⟩
      refine ⟨pages', tag', _, hf, ?_, hgrown, hw⟩
      rintro rfl
      have := (hw 0 0).upper
      simp [UpperOk] at this
    · rename_i hzero
      rw [h.leaf.entryCount_eq] at hzero
      have hes : es = [] := eq_nil_of_length_eq_zero (by omega)
      subst hes
      exact ⟨pages, tag, ws, rfl, by rw [hup]; simp, by omega, fun _ _ => { h with }⟩
  · rintro ⟨leaf₁, upper₁, out₁⟩ - ⟨pages₁, tag₁, ws₁, hf₁, hne₁, hgrown₁, h₁⟩
    have h₁ := h₁ 0 0
    simp only at hne₁ hf₁ ⊢
    cases upper₁ with
    | nil => exact absurd rfl hne₁
    | cons p₁ ps₁ =>
      obtain ⟨hitems, ws₂, es₂, hl₂, hhalf₂, hu₂⟩ := h₁.upper
      have hcount : fits → (ws₁.map separatorOf).length ≤ 2 ^ 62 := by
        intro _
        have h1 := h₁.leaf.length_le
        have h2 := h₁.sink.limit
        simp only [i32Max, length_map] at h2 ⊢
        omega
      have hps : ps₁.length ≤ 62 := by
        have := h₁.room
        simp only [leafRoom, maxLevels, length_cons] at this
        omega
      have hrec : Meets (WriterFault cfg fits full values out₁.sink.filter onValueRef) _
          (flushPass cfg onValueRef 62 .internal p₁ ps₁ out₁) :=
        flushPass_meets hmin h₁.sink hl₂ (h₁.leaf.keys_separators h₁.keys) hu₂ hps hhalf₂ hcount
          fun n hn => hmay n (by omega)
      rw [hf₁] at hrec
      refine Meets.bind hrec ?_
      rintro ⟨p', ps', out'⟩ - ⟨pages', tag', hs', hgrown', hg', ht', hc'⟩
      simp only at hs' hg' ht' hc'
      have hgiven : (ws₁.flatMap Prod.snd).length = given.length := by
        rw [h₁.length_given]
        rfl
      refine ⟨pages', tag', ws₁, p', ps', hg'.filter.trans hf₁, rfl, by omega, ⟨?_, hs',
        h₁.grows.trans (hg'.mono fun _ _ => trivial), h₁.leaf.grow hg' (by omega),
        h₁.items.imp fun _ _ hit => hit.grow hg', ?_, ht'⟩⟩
      · intro hnil
        simp [hnil] at hitems
      · have := h₁.caller
        rw [hgiven, take_length] at this
        rw [this]
        exact congrArg Except.ok hc'.symm

/-- A writer with internal levels and nothing left to flush below the top. -/
theorem flushedOk_of_settled
    (h : WriterOk cfg onValueRef fits front s₀ pages₀ c₀ w given pages tag items ws es) (hup : w.upper = p :: ps)
    (hset : settled w.leaf w.upper = true) :
    FlushedOk cfg onValueRef fits front s₀ pages₀ c₀ given w.leaf p ps w.out pages tag items ws := by
  have hu := h.upper
  rw [hup] at hu hset
  obtain ⟨hne, ws₁, es₁, hl₁, -, hu₁⟩ := hu
  simp only [settled, Bool.and_eq_true, decide_eq_true_eq, h.leaf.entryCount_eq] at hset
  have hes : es = [] := eq_nil_of_length_eq_zero hset.1
  subst hes
  have hgiven : (ws.flatMap Prod.snd).length = given.length := by
    rw [h.length_given]
    rfl
  refine ⟨fun hnil => hne (by simp [hnil]), h.sink, h.grows, h.leaf, h.items, ?_, towerOk_of_settled hl₁ hu₁ hset.2⟩
  have := h.caller
  rwa [hgiven, take_length] at this

/-- The pass loop of `finish`: one pass leaves nothing for a second one to flush. -/
theorem flushPasses_meets (hmin : minPageSize ≤ cfg.pageSize)
    (h : WriterOk cfg onValueRef fits front s₀ pages₀ c₀ w given pages tag items ws es) (hup : w.upper = p :: ps)
    (hmay : ∀ n ≤ pages.length + 4095, full n) :
    Meets (WriterFault cfg fits full values w.out.sink.filter onValueRef)
      (fun r => ∃ pages' tag' ws' p' ps', r.2.2.sink.filter = w.out.sink.filter ∧ r.2.1 = p' :: ps' ∧
        pages'.length ≤ pages.length + 4095 ∧
        FlushedOk cfg onValueRef fits front s₀ pages₀ c₀ given r.1 p' ps' r.2.2 pages' tag' items ws')
      (flushPasses cfg onValueRef 2 w.leaf w.upper w.out) := by
  rw [flushPasses]
  split
  · rename_i hset
    exact ⟨pages, tag, ws, p, ps, rfl, hup, by omega, flushedOk_of_settled h hup hset⟩
  · refine Meets.bind (flushAll_meets hmin h hup hmay) ?_
    rintro ⟨leaf', upper', out'⟩ - ⟨pages', tag', ws', p', ps', hf, hup', hgrown, hfl⟩
    simp only at hup' hfl hf ⊢
    have hset : settled leaf' upper' = true := by
      rw [hup']
      simp [settled, hfl.leaf.entryCount_eq, hfl.tower.settled]
    rw [flushPasses, if_pos hset]
    exact ⟨pages', tag', ws', p', ps', hf, hup', hgrown, hfl⟩

/-- Finishing a writer leaves a stack. -/
theorem finish_meets (hmin : minPageSize ≤ cfg.pageSize)
    (h : WriterOk cfg onValueRef fits front s₀ pages₀ c₀ w given pages tag items ws es)
    (hmay : ∀ n ≤ pages.length + 4096, full n) :
    Meets (WriterFault cfg fits full values w.out.sink.filter onValueRef)
      (fun r => ∃ pages' tag' leaves upper,
        Finished cfg onValueRef fits front s₀ pages₀ c₀ given r.1 r.2 pages' tag' items leaves upper)
      (finish cfg onValueRef w) := by
  unfold finish
  cases hup : w.upper with
  | nil =>
    -- No leaf was written yet: the open leaf is the root.
    have hu := h.upper
    rw [hup] at hu
    obtain rfl : ws = [] := map_eq_nil_iff.1 hu
    obtain rfl : items = es := h.leaf.split
    have hpasses : flushPasses cfg onValueRef 2 w.leaf [] w.out = .ok (w.leaf, [], w.out) := rfl
    rw [hpasses, ok_bind]
    simp only [topLevel]
    rw [writeRoot, if_pos (.inr h.leaf.prevOrdinal)]
    refine Meets.bind (writeLevel_meets h.sink h.leaf (hmay _ (by omega))) ?_
    rintro ⟨ordinal, offset, out'⟩ - ⟨pages', hw⟩
    refine ⟨pages', _, _, [], hw.holds, h.grows.trans (hw.grows.mono fun _ _ => trivial),
      hw.stack h.leaf (by simp), h.items.imp fun _ _ hit => hit.grow hw.grows, ?_⟩
    have h1 := h.caller
    have h2 := hw.caller
    simp only [flatMap_nil, length_nil, take_zero, map_nil, zip_nil_left] at h1
    obtain rfl : c₀ = w.out.caller := by simpa [handAll] using h1
    rw [handOver_eq, h.extras] at h2
    simpa [handed, pageRefs] using h2
  | cons p ps =>
    rw [← hup]
    refine Meets.bind (flushPasses_meets hmin h hup fun n hn => hmay n (by omega)) ?_
    rintro ⟨leaf', upper', out'⟩ - ⟨pages', tag', ws', p', ps', hf, hup', hgrown, hfl⟩
    simp only at hup' hfl hf ⊢
    subst hup'
    simp only [topLevel]
    rw [writeRoot, if_pos (.inr hfl.tower.top_unwritten)]
    have htop : Meets (WriterFault cfg fits full values out'.sink.filter onValueRef) _ (writeLevel cfg onValueRef
        (topLevel .internal p' ps').1 (topLevel .internal p' ps').2 out') :=
      hfl.tower.writeTop hfl.sink (by simpa using hfl.nonempty) (hmay _ (by omega))
    rw [hf] at htop
    refine Meets.bind htop ?_
    rintro ⟨root, offset, out₁⟩ - ⟨pages₁, tag₁, levels, hs₁, hg₁, hst₁, hc₁⟩
    simp only at hs₁ hg₁ hst₁ hc₁
    refine ⟨pages₁, tag₁, ws', levels, hs₁, hfl.grows.trans (hg₁.mono fun _ _ => trivial),
      (hfl.leaf.grow hg₁ (by omega)).stack hst₁, hfl.items.imp fun _ _ hit => hit.grow hg₁, ?_⟩
    rw [hfl.caller]
    exact congrArg Except.ok hc₁.symm

/-- A whole tree: pushing entries the writer accepts and finishing. -/
theorem writeTree_meets (hmin : minPageSize ≤ cfg.pageSize) (hs : out.sink.Holds front pages)
    (entries : List (Bytes × Bytes × E)) (he : ∀ e ∈ entries, EntryOk cfg fits e.1 e.2.1)
    (hvalues : ∀ e ∈ entries, e.2.1 ∈ values) (hmay : ∀ n, PageCountNear cfg onValueRef entries { out } n → full n) :
    Meets (WriterFault cfg fits full values out.sink.filter onValueRef)
      (fun r => ∃ pages' tag' items leaves upper,
        Finished cfg onValueRef fits front out.sink pages out.caller entries r.1 r.2 pages' tag' items leaves upper)
      (pushAll cfg onValueRef entries { out } >>= finish cfg onValueRef) := by
  refine Meets.bind (pushAll_meets hmin entries (writerOk_new hmin hs) he hvalues hmay) ?_
  rintro w hpush ⟨pages', tag', items, ws, es, hf, hw⟩
  have hdirectory := hw.sink.length_directory
  have hfin : Meets (WriterFault cfg fits full values _ onValueRef) _ _ := finish_meets hmin hw fun n hn =>
    hmay n ⟨entries.length, w, by rw [take_length]; exact hpush, by omega⟩
  rw [hf, nil_append] at hfin
  refine Meets.mono hfin ?_
  rintro r ⟨pages'', tag'', leaves, upper, hr⟩
  exact ⟨pages'', tag'', items, leaves, upper, hr⟩

/-- The writer accepted every entry it took. -/
theorem entryOk_of_pushAll {w' : TreeWriter E σ} (h : pushAll cfg onValueRef entries w = .ok w') :
    ∀ e ∈ entries, EntryOk cfg False e.1 e.2.1 := by
  induction entries generalizing w with
  | nil => simp
  | cons e entries ih =>
    rw [pushAll_cons] at h
    obtain ⟨mid, hpush, h⟩ := bind_eq_ok.1 h
    obtain ⟨_, haccept, hpush⟩ := bind_eq_ok.1 hpush
    obtain ⟨_, -, hpush⟩ := bind_eq_ok.1 hpush
    obtain ⟨digest, hdigest, -⟩ := bind_eq_ok.1 hpush
    intro e' he'
    rcases mem_cons.1 he' with rfl | he'
    · exact ⟨haccept, ⟨digest, hdigest⟩, False.elim⟩
    · exact ih h e' he'

/-- A tree written from a list of entries. -/
theorem finished_of_ok (hmin : minPageSize ≤ cfg.pageSize) (hs : out.sink.Holds front pages) {root : Nat}
    (hpush : pushAll cfg onValueRef entries { out } = .ok w) (hfinish : w.finish cfg onValueRef = .ok (root, out')) :
    ∃ pages' tag' items leaves upper,
      Finished cfg onValueRef False front out.sink pages out.caller entries root out' pages' tag' items leaves upper := by
  have hrun : (pushAll cfg onValueRef entries { out } >>= finish cfg onValueRef) = .ok (root, out') := by
    rw [hpush]
    exact hfinish
  have hmeets : Meets (WriterFault cfg False (fun _ => True) _ _ onValueRef) _ _ :=
    writeTree_meets hmin hs entries (entryOk_of_pushAll hpush) (fun _ => mem_map_of_mem) fun _ _ => trivial
  exact hmeets.post hrun

end

end DryDb
