import DryDb.Page.Decode
/-!
# The pages in the file

`PageSink.Holds s front pages` says that the file is `front` (header and catalog) followed
by the stored form of the pages, and that the directory holds their offsets. A page is
added at the end, and a patch of a right sibling changes that one page: what follows sees
the file only as the list of its pages.
-/

namespace DryDb

open List

/-- The offsets of chunks that follow one another from `start`. -/
def pageOffsets : Nat → List Bytes → List Nat
  | _, [] => []
  | start, p :: ps => start :: pageOffsets (start + p.length) ps

@[simp] theorem length_pageOffsets (start : Nat) (ps : List Bytes) : (pageOffsets start ps).length = ps.length := by
  induction ps generalizing start with
  | nil => rfl
  | cons p ps ih => simp [pageOffsets, ih]

theorem pageOffsets_append (start : Nat) (ps qs : List Bytes) :
    pageOffsets start (ps ++ qs) = pageOffsets start ps ++ pageOffsets (start + ps.flatten.length) qs := by
  induction ps generalizing start with
  | nil => simp [pageOffsets]
  | cons p ps ih => simp [pageOffsets, ih, Nat.add_assoc]

variable {ps : List Bytes} {page stored : Bytes} {filter : Option PageFilter}

theorem pageOffsets_getElem? (start : Nat) {i : Nat} (hi : i < ps.length) :
    (pageOffsets start ps)[i]? = some (start + (ps.take i).flatten.length) := by
  induction ps generalizing start i with
  | nil => simp at hi
  | cons p ps ih =>
    cases i with
    | zero => simp [pageOffsets]
    | succ i =>
      rw [pageOffsets, getElem?_cons_succ, ih _ (by simpa using hi)]
      simp [Nat.add_assoc]

/-- The offsets depend on the lengths alone. -/
theorem pageOffsets_congr (start : Nat) {qs : List Bytes} (h : ps.map List.length = qs.map List.length) :
    pageOffsets start ps = pageOffsets start qs := by
  induction ps generalizing start qs with
  | nil =>
    cases qs with
    | nil => rfl
    | cons q qs => simp at h
  | cons p ps ih =>
    cases qs with
    | nil => simp at h
    | cons q qs =>
      rw [map_cons, map_cons, List.cons.injEq] at h
      rw [pageOffsets, pageOffsets, h.1, ih _ h.2]

/-! ## Patching one page -/

/-- A page with its right sibling overwritten. -/
def setRight (page : Bytes) (right : Option Nat) : Bytes := overwrite page rightSiblingOffset (ordinalBytes right)

theorem length_setRight (h : pagePrefixLen ≤ page.length) (right : Option Nat) :
    (setRight page right).length = page.length := by
  simp only [pagePrefixLen] at h
  exact overwrite_length (by simp only [rightSiblingOffset, ordinalBytes, leBytes_length]; omega)

/-- The fields of the prefix a filter and a patch touch. -/
theorem exists_fields (h : pagePrefixLen ≤ page.length) :
    ∃ len header right rest : Bytes, page = len ++ header ++ right ++ rest ∧ len.length = 4 ∧ header.length = 16 ∧
      right.length = 8 := by
  simp only [pagePrefixLen] at h
  refine ⟨page.take 4, (page.drop 4).take 16, (page.drop 20).take 8, page.drop 28, ?_, ?_, ?_, ?_⟩
  · conv_lhs => rw [← take_append_drop 4 page, ← take_append_drop 16 (page.drop 4), drop_drop,
      ← take_append_drop 8 (page.drop 20), drop_drop]
    simp only [append_assoc]
  all_goals simp; omega

theorem setRight_fields {a b c d : Bytes} (ha : a.length = 4) (hb : b.length = 16) (hc : c.length = 8)
    (o : Option Nat) : setRight (a ++ b ++ c ++ d) o = a ++ b ++ ordinalBytes o ++ d := by
  have ho : (ordinalBytes o).length = 8 := by simp [ordinalBytes]
  have hab : (a ++ b).length = 20 := by simp [ha, hb]
  unfold setRight
  rw [append_assoc, overwrite_append_right (by rw [hab]; rfl), hab, append_assoc (a ++ b)]
  congr 1
  rw [overwrite_append_left (by rw [ho, hc]; rfl)]
  congr 1
  simp [overwrite, rightSiblingOffset, ho, hc]

theorem Node.setRight_image (n : Node) (right : Option Nat) :
    setRight n.image right = ({ n with right } : Node).image := by
  unfold image pagePrefix
  have h := setRight_fields (a := leBytes 4 n.len)
    (b := leBytes 4 (kindWord n.kind n.layout) ++ leBytes 4 n.items.length ++ ordinalBytes n.left)
    (c := ordinalBytes n.right) (d := n.digestBytes ++ n.metaBytes ++ n.payload) (by simp)
    (by simp [ordinalBytes]) (by simp [ordinalBytes]) right
  simp only [append_assoc] at h ⊢
  exact h

/-- The filter leaves the prefix raw, so that a stored page can still be patched. -/
theorem storedPage_setRight (h : pagePrefixLen ≤ page.length)
    (hs : PageSink.storedPage filter page = .ok stored) (right : Option Nat) :
    PageSink.storedPage filter (setRight page right) = .ok (setRight stored right) := by
  cases filter with
  | none =>
    obtain rfl : page = stored := by simpa [PageSink.storedPage] using hs
    rfl
  | some f =>
    obtain ⟨len, header, r, rest, rfl, hl, hh, hr⟩ := exists_fields h
    have ho : (ordinalBytes right).length = 8 := by simp [ordinalBytes]
    -- Only the sibling differs, and it is in the part that stays raw.
    have parts : ∀ m : Bytes, m.length = 8 → (len ++ header ++ m ++ rest).drop pagePrefixLen = rest ∧
        ((len ++ header ++ m ++ rest).take pagePrefixLen).drop 4 = header ++ m := by
      intro m hm
      have h28 : (len ++ header ++ m).length = pagePrefixLen := by simp [hl, hh, hm, pagePrefixLen]
      refine ⟨by rw [← h28]; exact drop_left, ?_⟩
      rw [← h28, take_left, append_assoc, ← hl, drop_left]
    rw [setRight_fields hl hh hr]
    simp only [PageSink.storedPage, PageSink.filteredPage, bind_eq_ok, guard_eq_ok, Except.ok.injEq, (parts _ hr).1,
      (parts _ hr).2, (parts _ ho).1, (parts _ ho).2] at hs ⊢
    obtain ⟨payload, he, hle, rfl⟩ := hs
    refine ⟨payload, he, hle, ?_⟩
    have := setRight_fields (a := leBytes 4 (pagePrefixLen + payload.length)) (d := payload) (by simp) hh hr right
    simp only [append_assoc] at this ⊢
    exact this.symm

theorem length_storedPage (h : pagePrefixLen ≤ page.length)
    (hs : PageSink.storedPage filter page = .ok stored) : pagePrefixLen ≤ stored.length := by
  cases filter with
  | none =>
    obtain rfl : page = stored := by simpa [PageSink.storedPage] using hs
    exact h
  | some f =>
    simp only [PageSink.storedPage, PageSink.filteredPage, bind_eq_ok, guard_eq_ok, Except.ok.injEq] at hs
    obtain ⟨payload, -, -, rfl⟩ := hs
    simp only [pagePrefixLen] at h ⊢
    simp
    omega

/-! ## The file -/

/-- The file is `front` and then the pages, stored as the filter stores them. -/
structure PageSink.Holds (s : PageSink) (front : Bytes) (pages : List Bytes) : Prop where
  ex : ∃ stored : List Bytes, List.Forall₂ (fun page st => PageSink.storedPage s.filter page = .ok st) pages stored ∧
    s.file = front ++ stored.flatten ∧ s.directory = pageOffsets front.length stored
  prefixed : ∀ page ∈ pages, pagePrefixLen ≤ page.length
  limit : pages.length ≤ i32Max

namespace PageSink.Holds

variable {s s' : PageSink} {front : Bytes} {pages : List Bytes} {ordinal offset : Nat} {page : Bytes}

theorem length_directory (h : s.Holds front pages) : s.directory.length = pages.length := by
  obtain ⟨stored, hf, -, hd⟩ := h.ex
  rw [hd, length_pageOffsets, hf.length_eq]

/-- A page begun and written takes the next ordinal. -/
theorem addPage (h : s.Holds front pages) {mid : PageSink}
    (hb : s.beginPage = .ok (ordinal, offset, mid)) (hw : mid.writePage page = .ok s') (hp : pagePrefixLen ≤ page.length) :
    ordinal = pages.length ∧ ordinal < i32Max ∧ s'.filter = s.filter ∧ s'.Holds front (pages ++ [page]) ∧
      s'.directory[ordinal]? = some offset := by
  obtain ⟨stored, hf, hfile, hd⟩ := h.ex
  have hlen := h.length_directory
  unfold PageSink.beginPage at hb
  rw [guard_eq_ok] at hb
  obtain ⟨hroom, hb⟩ := hb
  simp only [Except.ok.injEq, Prod.mk.injEq] at hb
  obtain ⟨rfl, rfl, rfl⟩ := hb
  obtain ⟨st, hst, rfl⟩ := map_eq_ok.1 hw
  refine ⟨hlen, by omega, rfl, ⟨⟨stored ++ [st], ?_, ?_, ?_⟩, ?_, ?_⟩, ?_⟩
  · exact rel_append hf (.cons hst .nil)
  · simp [PageSink.writeRaw, hfile]
  · simp [PageSink.writeRaw, hd, pageOffsets_append, pageOffsets, PageSink.pos, hfile]
  · intro q hq
    rcases mem_append.1 hq with hq | hq
    · exact h.prefixed q hq
    · rw [mem_singleton] at hq
      exact hq ▸ hp
  · simp only [length_append, length_singleton]
    omega
  · simp [PageSink.writeRaw]

/-- A page that has been begun at its offset is patched in place. -/
theorem patchRight (h : s.Holds front pages) (ho : s.directory[ordinal]? = some offset)
    (hp : pages[ordinal]? = some page) (right : Option Nat) :
    (s.patchAt (offset + rightSiblingOffset) (ordinalBytes right)).Holds front (pages.set ordinal (setRight page right)) := by
  obtain ⟨stored, hf, hfile, hd⟩ := h.ex
  obtain ⟨hlt, hval⟩ := List.getElem?_eq_some_iff.1 hp
  have hlt' : ordinal < stored.length := hf.length_eq ▸ hlt
  have hpre := h.prefixed page (mem_of_getElem? hp)
  have hst : PageSink.storedPage s.filter page = .ok stored[ordinal] := by
    have := (forall₂_iff_get.1 hf).2 ordinal hlt hlt'
    simpa [hval] using this
  rw [hd, pageOffsets_getElem? _ hlt', Option.some.injEq] at ho
  have hsplit : stored.flatten =
      (stored.take ordinal).flatten ++ (stored[ordinal] ++ (stored.drop (ordinal + 1)).flatten) := by
    have := congrArg List.flatten (take_append_drop ordinal stored)
    rw [flatten_append, drop_eq_getElem_cons hlt', flatten_cons] at this
    exact this.symm
  have hset : stored.set ordinal (setRight stored[ordinal] right) =
      stored.take ordinal ++ setRight stored[ordinal] right :: stored.drop (ordinal + 1) := by
    rw [set_eq_take_append_cons_drop, if_pos hlt']
  have hpreS := length_storedPage hpre hst
  refine ⟨⟨stored.set ordinal (setRight stored[ordinal] right), ?_, ?_, ?_⟩, ?_, by simpa using h.limit⟩
  · rw [forall₂_iff_get]
    refine ⟨by simp [hf.length_eq], fun i h1 h2 => ?_⟩
    rw [length_set] at h1 h2
    simp only [get_eq_getElem, getElem_set]
    split
    · rename_i he
      subst he
      exact storedPage_setRight hpre hst right
    · exact (forall₂_iff_get.1 hf).2 i h1 h2
  · have hbound : rightSiblingOffset + (ordinalBytes right).length ≤ stored[ordinal].length := by
      simp only [pagePrefixLen] at hpreS
      simp only [rightSiblingOffset, ordinalBytes, leBytes_length]
      omega
    simp only [PageSink.patchAt]
    rw [hfile, hsplit, hset, ← ho, ← append_assoc front, overwrite_append_right (by simp),
      length_append, overwrite_append_left (by omega)]
    have hoff : front.length + (stored.take ordinal).flatten.length + rightSiblingOffset -
        (front.length + (stored.take ordinal).flatten.length) = rightSiblingOffset := by omega
    rw [hoff]
    simp [setRight]
  · simp only [PageSink.patchAt]
    rw [hd]
    refine pageOffsets_congr _ ?_
    rw [map_set, length_setRight hpreS]
    have hself := congrArg (List.map List.length) (set_getElem_self hlt')
    rw [map_set] at hself
    exact hself.symm
  · intro q hq
    rcases mem_or_eq_of_mem_set hq with hq | rfl
    · exact h.prefixed q hq
    · rw [length_setRight hpre]
      exact hpre

end PageSink.Holds

end DryDb
