import DryDb.Reader.Drain
/-!
# Answers on a full chain

On a chain whose leaves all have entries (or that is one leaf) a scan emits exactly the
entries inside its bounds, in either direction.
-/

namespace DryDb

open List

/-- No leaf is empty, unless it is the only one. -/
def Full (leaves : List PagePin) : Prop := leaves.length ≤ 1 ∨ ∀ pin ∈ leaves, 0 < pin.view.entryCount

/-- The entries inside the bounds. -/
def inBounds (leaves : List PagePin) (low high : Place → Bool) : List Place :=
  (places leaves).filter fun x => low x && !high x

theorem filter_eq_takeWhile {α : Type} {p : α → Bool} {l : List α} (h : l.Pairwise fun a b => p b = true → p a = true) :
    l.filter p = l.takeWhile p := by
  induction l with
  | nil => rfl
  | cons a l ih =>
    rw [pairwise_cons] at h
    cases hp : p a with
    | true => rw [filter_cons_of_pos hp, takeWhile_cons_of_pos hp, ih h.2]
    | false =>
      rw [takeWhile_cons_of_neg (by simp [hp]), filter_cons_of_neg (by simp [hp]), filter_eq_nil_iff]
      intro b hb hpb
      rw [h.1 b hb hpb] at hp
      cases hp

theorem takeWhile_append_ite {α : Type} {p : α → Bool} {a b : List α} :
    (a ++ b).takeWhile p = a.takeWhile p ++ if a.any fun x => !p x then [] else b.takeWhile p := by
  induction a with
  | nil => simp
  | cons x a ih =>
    cases hp : p x with
    | true => simp [hp, ih]
    | false => simp [hp]

namespace Scan

variable {s : Scan} {pin : PagePin}

/-- A leaf without entries does not end the scan, or there is none. -/
def Passes (s : Scan) (leaves : List PagePin) : Prop := s.emptyEnds = false ∨ ∀ pin ∈ leaves, 0 < pin.view.entryCount

theorem endsOn_eq (h : s.Passes [pin]) : s.endsOn pin = (s.entries pin).any s.stop := by
  unfold endsOn
  rcases h with he | hc
  · simp [he]
  · have : pin.view.entryCount ≠ 0 := by
      have := hc pin (by simp)
      omega
    simp [this]

theorem rows_eq {leaves : List PagePin} (h : s.Passes leaves) :
    s.rows leaves = (leaves.flatMap s.entries).takeWhile fun x => !s.stop x := by
  induction leaves with
  | nil => rfl
  | cons pin rest ih =>
    have hhead : s.Passes [pin] := h.imp_right fun h p hp => h p (by simp_all)
    have hrest : s.Passes rest := h.imp_right fun h p hp => h p (mem_cons_of_mem _ hp)
    rw [rows, endsOn_eq hhead, ih hrest, flatMap_cons, takeWhile_append_ite]
    simp only [Bool.not_not]

/-- The scan from an entry on is what comes before the first stop. -/
theorem rowsFrom_eq {rest : List PagePin} {i : Nat} (hi : i < pin.view.entryCount) (hm : s.Mono pin) (h : s.Passes rest) :
    s.rowsFrom pin i rest = (s.ahead pin i ++ rest.flatMap s.entries).takeWhile fun x => !s.stop x := by
  have hhead : s.Passes [pin] := Or.inr fun p hp => by
    obtain rfl : p = pin := by simpa using hp
    omega
  -- A stop behind the entry is a stop at it.
  have hany : (s.entries pin).any s.stop = (s.ahead pin i).any fun x => !!s.stop x := by
    simp only [Bool.not_not]
    apply Bool.eq_iff_iff.2
    rw [any_eq_true, any_eq_true]
    constructor
    · rintro ⟨x, hx, hs⟩
      obtain ⟨rfl, hx2⟩ := PagePin.mem_places.1 (stop_mem_entries.1 hx)
      by_cases hmem : x ∈ s.ahead x.1 i
      · exact ⟨x, hmem, hs⟩
      · obtain ⟨more, hmore⟩ := exists_ahead (s := s) hi
        refine ⟨(x.1, i), by rw [hmore]; exact mem_cons_self, ?_⟩
        unfold Mono at hm
        cases ho : s.order with
        | ascending =>
          rw [ho] at hm
          refine hm x.2 i ?_ hi hs
          by_contra hge
          apply hmem
          simp only [ahead, ho]
          refine mem_drop_iff_getElem.2 ⟨x.2 - i, by rw [PagePin.length_places]; omega, ?_⟩
          have := PagePin.getElem?_places hx2
          rw [getElem?_eq_getElem (by rw [PagePin.length_places]; exact hx2)] at this
          have hidx : i + (x.2 - i) = x.2 := by omega
          simp only [hidx]
          exact Option.some.inj this
        | descending =>
          rw [ho] at hm
          refine hm.1 i x.2 ?_ hx2 hs
          by_contra hge
          apply hmem
          simp only [ahead, ho, mem_reverse]
          refine mem_take_iff_getElem.2 ⟨x.2, by rw [PagePin.length_places]; omega, ?_⟩
          have := PagePin.getElem?_places hx2
          rw [getElem?_eq_getElem (by rw [PagePin.length_places]; exact hx2)] at this
          exact Option.some.inj this
    · rintro ⟨x, hx, hs⟩
      refine ⟨x, ?_, hs⟩
      unfold ahead at hx
      unfold entries
      cases ho : s.order with
      | ascending =>
        rw [ho] at hx
        exact mem_of_mem_drop hx
      | descending =>
        rw [ho] at hx
        exact mem_reverse.2 (mem_of_mem_take (mem_reverse.1 hx))
  unfold rowsFrom
  rw [endsOn_eq hhead, rows_eq h, takeWhile_append_ite, hany]

theorem flatMap_entries_ascending (ho : s.order = .ascending) (leaves : List PagePin) :
    leaves.flatMap s.entries = places leaves := by
  unfold places
  congr 1
  funext pin
  simp [entries, ho]

theorem flatMap_entries_descending (ho : s.order = .descending) (leaves : List PagePin) :
    leaves.reverse.flatMap s.entries = (places leaves).reverse := by
  induction leaves with
  | nil => rfl
  | cons pin rest ih =>
    rw [reverse_cons, flatMap_append, ih, places_cons, reverse_append]
    simp [entries, ho]

end Scan

section

variable {t : Tree} {env : Env} {fault : Error → Prop} {leaves : List PagePin} {lower upper : Bound}
  {low high : Place → Bool} {a b : List Place} {pre rest : List PagePin} {pin : PagePin} {i : Nat} {hit : Place → Bool}
  {start : Option Place}

theorem Within.low_mono (hw : Within t env fault leaves lower upper low high) :
    (places leaves).Pairwise fun a b => low a = true → low b = true := by
  have hl := hw.lower
  cases hs : startOp lower with
  | none =>
    rw [hs] at hl
    simp only [Reaches] at hl
    subst hl
    exact pairwise_of_forall fun _ _ _ => rfl
  | some target =>
    rw [hs] at hl
    exact Target.mono hl

theorem Within.high_mono (hw : Within t env fault leaves lower upper low high) :
    (places leaves).Pairwise fun a b => high a = true → high b = true := by
  have hu := hw.upper
  cases hs : endOp upper with
  | none =>
    rw [hs] at hu
    simp only [Reaches] at hu
    subst hu
    exact pairwise_of_forall fun _ _ h => h
  | some target =>
    rw [hs] at hu
    exact Target.mono hu

/-- Entries at and after one that the lower bound admits, up to the upper bound. -/
theorem inBounds_split (hab : places leaves = a ++ b)
    (hw : Within t env fault leaves lower upper low high) (ha : ∀ x ∈ a, low x = false) (hb : ∀ x ∈ b, low x = true) :
    inBounds leaves low high = b.takeWhile fun x => !high x := by
  have hhigh := (pairwise_append.1 (hab ▸ hw.high_mono)).2.1
  have hpre : a.filter (fun x => low x && !high x) = [] := by
    rw [filter_eq_nil_iff]
    intro x hx
    simp [ha x hx]
  have hpost : b.filter (fun x => low x && !high x) = b.filter fun x => !high x := by
    refine filter_congr fun x hx => ?_
    simp [hb x hx]
  unfold inBounds
  rw [hab, filter_append, hpre, hpost, nil_append]
  refine filter_eq_takeWhile (hhigh.imp fun h hb => ?_)
  simp only [Bool.not_eq_true'] at hb ⊢
  by_contra ha
  simp only [Bool.not_eq_false] at ha
  rw [h ha] at hb
  cases hb

/-- The same from the other end: entries before the upper bound, down to the lower bound. -/
theorem inBounds_split_reverse (hab : places leaves = a ++ b)
    (hw : Within t env fault leaves lower upper low high) (ha : ∀ x ∈ a, high x = false)
    (hb : ∀ x ∈ b, high x = true) : (inBounds leaves low high).reverse = a.reverse.takeWhile low := by
  have hlow := (pairwise_append.1 (hab ▸ hw.low_mono)).1
  have hpost : b.filter (fun x => low x && !high x) = [] := by
    rw [filter_eq_nil_iff]
    intro x hx
    simp [hb x hx]
  have hpre : a.filter (fun x => low x && !high x) = a.filter low := by
    refine filter_congr fun x hx => ?_
    simp [ha x hx]
  unfold inBounds
  rw [hab, filter_append, hpre, hpost, append_nil, ← filter_reverse]
  exact filter_eq_takeWhile (pairwise_reverse.2 hlow)

theorem places_drop (i : Nat) :
    places (pre ++ pin :: rest) = (places pre ++ pin.places.take i) ++ (pin.places.drop i ++ places rest) := by
  rw [places_append, places_cons, append_assoc, ← append_assoc (pin.places.take i), take_append_drop]

/-- An entry of the first part of a leaf, by its index. -/
theorem mem_take_places {x : Place} (h : x ∈ pin.places.take i) :
    x.1 = pin ∧ x.2 < i ∧ x.2 < pin.view.entryCount := by
  obtain ⟨j, hj, rfl⟩ := mem_take_iff_getElem.1 h
  rw [PagePin.length_places] at hj
  have : pin.places[j]? = some (pin, j) := PagePin.getElem?_places (by omega)
  rw [getElem?_eq_getElem (by rw [PagePin.length_places]; omega)] at this
  rw [Option.some.inj this]
  exact ⟨rfl, by omega, by omega⟩

/-- The entries from the first hit on are hits. -/
theorem hit_after (hmono : (places (pre ++ pin :: rest)).Pairwise fun a b => hit a = true → hit b = true)
    (hi : i < pin.view.entryCount) (hhit : hit (pin, i) = true) :
    ∀ x ∈ pin.places.drop i ++ places rest, hit x = true := by
  have hdrop : pin.places.drop i = (pin, i) :: pin.places.drop (i + 1) := by
    have := Scan.ahead_ascending (s := scanOf .ascending .unbounded hit hit) rfl hi
    exact this
  rw [places_drop i, hdrop, cons_append] at hmono
  have := (pairwise_append.1 hmono).2.1
  rw [pairwise_cons] at this
  intro x hx
  rw [hdrop, cons_append, mem_cons] at hx
  rcases hx with rfl | hx
  · exact hhit
  · exact this.1 x hx hhit

/-- Before the first hit there is none. -/
theorem noHit_before (hpre : ∀ x ∈ places pre, hit x = false)
    (hf : (List.range pin.view.entryCount).find? (fun j => hit (pin, j)) = some i) :
    ∀ x ∈ places pre ++ pin.places.take i, hit x = false := by
  obtain ⟨-, -, hnot⟩ := find?_range_eq_some.1 hf
  intro x hx
  rcases mem_append.1 hx with hx | hx
  · exact hpre x hx
  · obtain ⟨rfl, hlt, -⟩ := mem_take_places hx
    simpa using hnot x.2 hlt

/-- An ascending scan of a full chain emits the entries inside its bounds. -/
theorem emits_ascending (hfull : Full leaves) (hw : Within t env fault leaves lower upper low high)
    (hstart : StartsAt leaves .ascending lower upper low high start) :
    (scanOf .ascending lower low high).Emits leaves start (inBounds leaves low high) := by
  have hl := hw.lower
  -- From an entry the lower bound admits, with nothing admitted before it.
  have hfrom : ∀ pre pin rest i, leaves = pre ++ pin :: rest → i < pin.view.entryCount →
      (∀ x ∈ places pre ++ pin.places.take i, low x = false) → (∀ x ∈ pin.places.drop i ++ places rest, low x = true) →
      (scanOf .ascending lower low high).Emits leaves (some (pin, i)) (inBounds leaves low high) := by
    rintro pre pin rest i rfl hi hbefore hafter
    refine ⟨hi, rest, ⟨pre, rfl⟩, ?_⟩
    rw [inBounds_split (places_drop i) hw hbefore hafter,
      Scan.rowsFrom_eq hi (hw.mono .ascending (by simp)) (Or.inl rfl), Scan.flatMap_entries_ascending rfl]
    rfl
  unfold StartsAt at hstart
  simp only at hstart
  cases hs : startOp lower with
  | none =>
    rw [hs] at hl hstart
    simp only [Reaches] at hl
    subst hl
    simp only at hstart
    cases leaves with
    | nil =>
      subst hstart
      rfl
    | cons pin rest =>
      rw [head?_cons, Option.bind_some, PagePin.head?_places] at hstart
      by_cases hc : 0 < pin.view.entryCount
      · rw [if_pos hc] at hstart
        subst hstart
        exact hfrom [] pin rest 0 rfl hc (by simp) fun _ _ => rfl
      · -- The first leaf is empty, so it is the only one.
        rw [if_neg hc] at hstart
        subst hstart
        rcases hfull with hlen | hall
        · obtain rfl : rest = [] := by
            rw [length_cons] at hlen
            exact length_eq_zero_iff.1 (by omega)
          have : pin.places = [] := length_eq_zero_iff.1 (by rw [PagePin.length_places]; omega)
          simp [Scan.Emits, inBounds, this]
        · exact absurd (hall pin mem_cons_self) hc
  | some target =>
    rw [hs] at hl hstart
    simp only at hstart
    cases start with
    | none =>
      have : inBounds leaves low high = [] := by
        unfold inBounds
        rw [filter_eq_nil_iff]
        intro x hx
        simp [hstart x hx]
      rw [this]
      rfl
    | some x =>
      obtain ⟨pin, i⟩ := x
      obtain ⟨pre, rest, rfl, hpre, hf⟩ := hstart
      obtain ⟨hhit, hmem, -⟩ := find?_range_eq_some.1 hf
      have hi := mem_range.1 hmem
      exact hfrom pre pin rest i rfl hi (noHit_before hpre hf) (hit_after hw.low_mono hi hhit)

/-- A descending scan of a full chain emits them in reverse. -/
theorem emits_descending (hfull : Full leaves) (hw : Within t env fault leaves lower upper low high)
    (hstart : StartsAt leaves .descending lower upper low high start) :
    (scanOf .descending lower low high).Emits leaves start (inBounds leaves low high).reverse := by
  have hu := hw.upper
  have hpasses : ∀ pre : List PagePin, (∀ pin ∈ pre, pin ∈ leaves) → pre.length < leaves.length →
      (scanOf .descending lower low high).Passes pre.reverse := by
    intro pre hsub hlt
    refine Or.inr fun pin hpin => ?_
    rcases hfull with hlen | hall
    · have : pre = [] := length_eq_zero_iff.1 (by omega)
      subst this
      simp at hpin
    · exact hall pin (hsub pin (mem_reverse.1 hpin))
  -- From the last entry before the upper bound.
  have hfrom : ∀ pre pin rest i, leaves = pre ++ pin :: rest → i < pin.view.entryCount →
      (∀ x ∈ places pre ++ pin.places.take (i + 1), high x = false) →
      (∀ x ∈ pin.places.drop (i + 1) ++ places rest, high x = true) →
      (scanOf .descending lower low high).Emits leaves (some (pin, i)) (inBounds leaves low high).reverse := by
    rintro pre pin rest i rfl hi hbefore hafter
    refine ⟨hi, pre.reverse, ⟨rest, by simp⟩, ?_⟩
    have hp : (scanOf .descending lower low high).Passes pre.reverse :=
      hpasses pre (fun p hp => by simp [hp]) (by simp)
    rw [inBounds_split_reverse (places_drop (i + 1)) hw hbefore hafter,
      Scan.rowsFrom_eq hi (hw.mono .descending (by simp)) hp, Scan.flatMap_entries_descending rfl, reverse_append]
    simp [scanOf, Scan.ahead]
  -- From the last entry of the chain.
  have hlast : (∀ x ∈ places leaves, high x = false) →
      start = (leaves.getLast?.bind fun pin => pin.places.getLast?) →
      (scanOf .descending lower low high).Emits leaves start (inBounds leaves low high).reverse := by
    intro hno hs
    rcases eq_nil_or_concat leaves with rfl | ⟨pre, pin, rfl⟩
    · subst hs
      rfl
    · rw [concat_eq_append] at hs hno hfrom hfull ⊢
      rw [getLast?_concat, Option.bind_some, PagePin.getLast?_places] at hs
      by_cases hc : 0 < pin.view.entryCount
      · rw [if_pos hc] at hs
        subst hs
        have htake : pin.places.take (pin.view.entryCount - 1 + 1) = pin.places :=
          take_of_length_le (by rw [PagePin.length_places]; omega)
        have hdrop : pin.places.drop (pin.view.entryCount - 1 + 1) = [] :=
          drop_of_length_le (by rw [PagePin.length_places]; omega)
        refine hfrom pre pin [] _ rfl (by omega) ?_ ?_
        · rw [htake]
          intro x hx
          exact hno x (by simpa using hx)
        · rw [hdrop]
          simp
      · -- The last leaf is empty, so it is the only one.
        rw [if_neg hc] at hs
        subst hs
        rcases hfull with hlen | hall
        · obtain rfl : pre = [] := by
            rw [length_append, length_cons] at hlen
            exact length_eq_zero_iff.1 (by omega)
          have : pin.places = [] := length_eq_zero_iff.1 (by rw [PagePin.length_places]; omega)
          simp [Scan.Emits, inBounds, this]
        · exact absurd (hall pin (by simp)) hc
  unfold StartsAt at hstart
  simp only at hstart
  cases hs : endOp upper with
  | none =>
    rw [hs] at hu hstart
    simp only [Reaches] at hu
    subst hu
    exact hlast (fun _ _ => rfl) hstart
  | some target =>
    rw [hs] at hu hstart
    simp only at hstart
    rcases hstart with ⟨hno, hstart⟩ | ⟨pre, pin, rest, i, rfl, hpre, hf, hb⟩
    · exact hlast hno hstart
    · obtain ⟨hhit, hmem, -⟩ := find?_range_eq_some.1 hf
      have hi := mem_range.1 hmem
      have hbefore := noHit_before hpre hf
      have hafter := hit_after hw.high_mono hi hhit
      cases start with
      | none =>
        obtain ⟨rfl, hempty⟩ := hb
        have : inBounds (pre ++ pin :: rest) low high = [] := by
          unfold inBounds
          rw [filter_eq_nil_iff]
          intro x hx
          rw [places_drop 0, hempty, take_zero, nil_append, nil_append] at hx
          simp [hafter x hx]
        rw [this]
        rfl
      | some x =>
        obtain ⟨q, j⟩ := x
        rcases hb with ⟨h0, rfl, rfl⟩ | ⟨rfl, pre', mid, rfl, hmid, hj⟩
        · have hsucc : i - 1 + 1 = i := by omega
          exact hfrom pre q rest (i - 1) rfl (by omega) (by rw [hsucc]; exact hbefore) (by rw [hsucc]; exact hafter)
        · -- The entry is the last one of a leaf further left.
          have htake : q.places.take (j + 1) = q.places :=
            take_of_length_le (by rw [PagePin.length_places]; omega)
          have hdrop : q.places.drop (j + 1) = [] := drop_of_length_le (by rw [PagePin.length_places]; omega)
          refine hfrom pre' q (mid ++ pin :: rest) j (by simp) (by omega) ?_ ?_
          · rw [htake]
            intro x hx
            refine hpre x ?_
            rw [places_append, places_cons, hmid, append_nil]
            exact hx
          · rw [hdrop, places_append, hmid]
            intro x hx
            exact hafter x (by simpa using hx)

end

end DryDb
