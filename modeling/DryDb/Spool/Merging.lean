import DryDb.Spool.Runs
/-!
# Merging runs

A merger over runs that hold records owes, lane by lane, the records it has not handed out
(`MergerHolds`). It hands out the front of the lane on top of its heap, so a merge is one in
the sense of `Merges`: it loses and makes up nothing whatever the encoding answers, and is in
order when the encoding orders the keys.
-/

namespace DryDb

open List

/-- The records a lane still has. -/
inductive LaneHolds (file : Bytes) : Lane → List Record → Prop where
  | empty {reader : RunReader} : LaneHolds file { reader, front := none } []
  | front {reader : RunReader} {p : Pending} {r : Record} {rest : List Record} (hp : PendingHolds file p r)
      (hfits : r.Fits) (hrun : RunHolds file reader.pos reader.stop rest) :
      LaneHolds file { reader, front := some p } (r :: rest)

/-- Reading on gives the lane of what the run still holds. -/
theorem readNext_lane {fault : Error → Prop} {file : Bytes} {reader : RunReader} {rs : List Record}
    (h : RunHolds file reader.pos reader.stop rs) :
    Fated fault (reader.readNext file) fun out => LaneHolds file { reader := out.2, front := out.1 } rs := by
  cases rs with
  | nil =>
    apply (readNext_nil h).mono
    · rintro _ rfl
      exact .empty
    · exact fun _ he => he
  | cons r rs =>
    apply (readNext_cons h).mono
    · rintro _ ⟨p, rfl, hp⟩
      exact .front hp (h.fits r mem_cons_self) h.pieces.2.2.2
    · exact fun _ he => he

/-- The lanes of a merger with what each of them still has. -/
abbrev LanesHold (file : Bytes) (lanes : List Lane) (contents : List (List Record)) : Prop :=
  List.Forall₂ (LaneHolds file) lanes contents

theorem forall₂_getElem? {α β : Type} {R : α → β → Prop} {l : List α} {m : List β} (h : List.Forall₂ R l m) {i : Nat}
    {b : β} (hb : m[i]? = some b) : ∃ a, l[i]? = some a ∧ R a b := by
  induction h generalizing i with
  | nil => simp at hb
  | cons hr _ ih =>
    cases i with
    | zero =>
      obtain rfl := Option.some.inj hb
      exact ⟨_, rfl, hr⟩
    | succ i => exact ih hb

theorem forall₂_set {α β : Type} {R : α → β → Prop} {l : List α} {m : List β} (h : List.Forall₂ R l m) (i : Nat) {a : α}
    {b : β} (hr : R a b) : List.Forall₂ R (l.set i a) (m.set i b) := by
  induction h generalizing i with
  | nil => exact .nil
  | cons hab hrest ih =>
    cases i with
    | zero => exact .cons hr hrest
    | succ i => exact .cons hab (ih i)

section Fronts

variable {file : Bytes} {lanes : List Lane} {contents : List (List Record)} {enc : KeyEncoding}

/-- A lane has a record in front exactly when it has records. -/
theorem LanesHold.front_eq (h : LanesHold file lanes contents) (run : Nat) :
    (∃ p r rest, Merger.front lanes run = some p ∧ contents[run]? = some (r :: rest) ∧ PendingHolds file p r) ∨
      (Merger.front lanes run = none ∧ ∀ r rest, contents[run]? ≠ some (r :: rest)) := by
  cases hc : contents[run]? with
  | none =>
    refine .inr ⟨?_, by simp⟩
    have : lanes[run]? = none := by
      rw [getElem?_eq_none_iff] at hc ⊢
      rw [h.length_eq]
      exact hc
    simp [Merger.front, this]
  | some rs =>
    obtain ⟨lane, hl, hlane⟩ := forall₂_getElem? h hc
    cases hlane with
    | empty => exact .inr ⟨by simp [Merger.front, hl], by simp⟩
    | front hp _ _ => exact .inl ⟨_, _, _, by simp [Merger.front, hl], rfl, hp⟩

/-- The order of two lanes by the records in front. -/
def laneOrder (enc : KeyEncoding) (lanes : List Lane) (a b : Nat) : Ordering :=
  match Merger.front lanes a, Merger.front lanes b with
  | some ra, some rb => enc.order ra.key ra.seq rb.key rb.seq
  | _, _ => .eq

theorem before_fst (a b : Nat) (s : Option Error) :
    (Merger.before enc lanes a b s).1 = (laneOrder enc lanes a b == .lt) := by
  unfold Merger.before laneOrder
  cases Merger.front lanes a with
  | none => rfl
  | some ra =>
    cases Merger.front lanes b with
    | none => rfl
    | some rb => rfl

/-- The lanes that have records. -/
def Waits (contents : List (List Record)) (run : Nat) : Prop := ∃ r rest, contents[run]? = some (r :: rest)

theorem LanesHold.laneOrder_eq (h : LanesHold file lanes contents) {a b : Nat} {ra rb : Record} {as bs : List Record}
    (ha : contents[a]? = some (ra :: as)) (hb : contents[b]? = some (rb :: bs)) :
    laneOrder enc lanes a b = RecordSpool.order enc ra rb := by
  have hfront : ∀ {run : Nat} {r : Record} {rs : List Record}, contents[run]? = some (r :: rs) →
      ∃ p, Merger.front lanes run = some p ∧ p.key = r.key ∧ p.seq = r.seq := by
    intro run r rs hrun
    rcases h.front_eq run with ⟨p, r', rest, hp, hc, hold⟩ | ⟨-, hno⟩
    · rw [hrun] at hc
      obtain ⟨rfl, -⟩ := List.cons.inj (Option.some.inj hc)
      exact ⟨p, hp, hold.key, hold.seq⟩
    · exact absurd hrun (hno r rs)
  obtain ⟨p, hp, hpk, hps⟩ := hfront ha
  obtain ⟨q, hq, hqk, hqs⟩ := hfront hb
  simp only [laneOrder, hp, hq, RecordSpool.order, hpk, hps, hqk, hqs]

theorem mem_flatten_of_front {run : Nat} {r : Record} {rest : List Record} (h : contents[run]? = some (r :: rest)) :
    r ∈ contents.flatten :=
  mem_flatten.2 ⟨_, mem_of_getElem? h, mem_cons_self⟩

theorem LanesHold.ordersOn (h : LanesHold file lanes contents)
    (ho : OrdersOn (RecordSpool.order enc) (· ∈ contents.flatten)) : OrdersOn (laneOrder enc lanes) (Waits contents) where
  swap := by
    rintro a b ⟨ra, as, ha⟩ ⟨rb, bs, hb⟩
    rw [h.laneOrder_eq ha hb, h.laneOrder_eq hb ha]
    exact ho.swap ra rb (mem_flatten_of_front ha) (mem_flatten_of_front hb)
  trans := by
    rintro a b c ⟨ra, as, ha⟩ ⟨rb, bs, hb⟩ ⟨rc, cs, hc⟩
    rw [h.laneOrder_eq ha hb, h.laneOrder_eq hb hc, h.laneOrder_eq ha hc]
    exact ho.trans ra rb rc (mem_flatten_of_front ha) (mem_flatten_of_front hb) (mem_flatten_of_front hc)

/-- The encoding refuses to compare two of these records. -/
def Refuses (enc : KeyEncoding) (rs : List Record) (e : Error) : Prop :=
  ∃ a ∈ rs, ∃ b ∈ rs, enc.compare a.key b.key = .error e

theorem Refuses.mono {rs ts : List Record} {e : Error} (h : Refuses enc rs e) (hsub : ∀ r ∈ rs, r ∈ ts) :
    Refuses enc ts e := by
  obtain ⟨a, ha, b, hb, he⟩ := h
  exact ⟨a, hsub a ha, b, hsub b hb, he⟩

/-- A comparison keeps that every failure on record is a refusal. -/
theorem LanesHold.before_snd (h : LanesHold file lanes contents) {all : List Record}
    (hsub : ∀ r ∈ contents.flatten, r ∈ all) (a b : Nat) {s : Option Error}
    (hs : ∀ e, s = some e → Refuses enc all e) :
    ∀ e, (Merger.before enc lanes a b s).2 = some e → Refuses enc all e := by
  intro e he
  unfold Merger.before at he
  rcases h.front_eq a with ⟨p, ra, as, hp, ha, hpa⟩ | ⟨hp, -⟩
  · rcases h.front_eq b with ⟨q, rb, bs, hq, hb, hqb⟩ | ⟨hq, -⟩
    · simp only [hp, hq, KeyEncoding.refusal, hpa.key, hqb.key, Option.or_eq_some_iff] at he
      rcases he with he | ⟨-, he⟩
      · exact hs e he
      · refine ⟨ra, hsub _ (mem_flatten_of_front ha), rb, hsub _ (mem_flatten_of_front hb), ?_⟩
        cases hc : enc.compare ra.key rb.key with
        | ok o => rw [hc] at he; cases he
        | error e' => rw [hc] at he; cases he; rfl
    · simp only [hp, hq] at he
      exact hs e he
  · simp only [hp] at he
    exact hs e he

end Fronts

/-! ## The merger -/

/-- The encoding orders these records. -/
abbrev OrdersRecords (enc : KeyEncoding) (rs : List Record) : Prop := OrdersOn (RecordSpool.order enc) (· ∈ rs)

/-- What a merger between two calls still owes of the records `all` it began with. -/
structure MergerHolds (file : Bytes) (all : List Record) (m : Merger) (contents : List (List Record)) : Prop where
  lanes : LanesHold file m.lanes contents
  sub : ∀ r ∈ contents.flatten, r ∈ all
  nodup : m.heap.Nodup
  mem : ∀ run, run ∈ m.heap ↔ Waits contents run
  heap : OrdersRecords m.encoding all → IsHeap (laneOrder m.encoding m.lanes) m.heap

section Steps

variable {file : Bytes} {all : List Record} {m : Merger} {contents : List (List Record)} {enc : KeyEncoding} {lanes : List Lane}
  {heap tail : List Nat} {run : Nat} {rest : List Record}

/-- The lanes that wait are ordered by their fronts. -/
theorem LanesHold.ordersHeap (h : LanesHold file lanes contents)
    (hsub : ∀ r ∈ contents.flatten, r ∈ all) (hmem : ∀ run, run ∈ heap ↔ Waits contents run)
    (ho : OrdersRecords enc all) : OrdersOn (laneOrder enc lanes) (· ∈ heap) := by
  apply (h.ordersOn (ho.mono hsub)).mono
  intro run hrun
  exact (hmem run).1 hrun

/-- The top of the heap is a lane whose front is least. -/
theorem MergerHolds.least (h : MergerHolds file all m contents) {r : Record}
    (htop : m.heap[0]? = some run) (hrun : contents[run]? = some (r :: rest)) (ho : OrdersRecords m.encoding all) :
    LeastOf (RecordSpool.order m.encoding) contents r := by
  intro lane hlane b hb
  obtain ⟨i, hi⟩ := mem_iff_getElem?.1 hlane
  cases lane with
  | nil => cases hb
  | cons c lane =>
    obtain rfl : c = b := Option.some.inj hb
    obtain ⟨j, hj⟩ := mem_iff_getElem?.1 ((h.mem i).2 ⟨c, lane, hi⟩)
    have := (h.heap ho).top (h.lanes.ordersHeap h.sub h.mem ho) htop hj
    rwa [h.lanes.laneOrder_eq hrun hi] at this

/-- Sifting the top down puts a heap in order that is in order from place one on. -/
theorem siftDown_holds {failure : Option Error} (hlanes : LanesHold file m.lanes contents)
    (hsub : ∀ r ∈ contents.flatten, r ∈ all) (hnodup : heap.Nodup) (hmem : ∀ run, run ∈ heap ↔ Waits contents run)
    (hheap : OrdersRecords m.encoding all → HeapFrom (laneOrder m.encoding m.lanes) 1 heap)
    (hfailure : ∀ e, failure = some e → Refuses m.encoding all e) :
    MergerHolds file all ({ m with heap, failure }.siftDown 0) contents ∧
      ∀ e, ({ m with heap, failure }.siftDown 0).failure = some e → Refuses m.encoding all e := by
  have hperm : (siftDown (Merger.before m.encoding m.lanes) heap.length 0 (heap, failure)).1.Perm heap :=
    siftDown_perm ..
  refine ⟨⟨hlanes, hsub, hperm.nodup_iff.2 hnodup, fun run => hperm.mem_iff.trans (hmem run), fun ho => ?_⟩, ?_⟩
  · have horders := hlanes.ordersHeap hsub hmem ho
    exact siftDown_heap before_fst failure horders (Nat.le_refl 0) (by simp) (hheap ho).sifting
  · apply siftDown_record (P := fun s => ∀ e, s = some e → Refuses m.encoding all e) _ hfailure
    intro a _ b _ s hs
    exact hlanes.before_snd hsub a b hs

theorem laneOrder_set {lane : Lane} {a b : Nat} (ha : a ≠ run)
    (hb : b ≠ run) : laneOrder enc (lanes.set run lane) a b = laneOrder enc lanes a b := by
  simp only [laneOrder, Merger.front, getElem?_set_ne (Ne.symm ha), getElem?_set_ne (Ne.symm hb)]

theorem waits_set {i : Nat} (hrun : run < contents.length) :
    Waits (contents.set run rest) i ↔ if i = run then rest ≠ [] else Waits contents i := by
  unfold Waits
  by_cases hi : i = run
  · subst hi
    rw [if_pos rfl]
    simp only [getElem?_set_self hrun, Option.some.injEq]
    constructor
    · rintro ⟨r, rs, rfl⟩
      simp
    · intro hne
      obtain ⟨r, rs, rfl⟩ := exists_cons_of_ne_nil hne
      exact ⟨r, rs, rfl⟩
  · rw [if_neg hi, getElem?_set_ne (Ne.symm hi)]

/-- The last place of a heap moved to the top: the rest is in order as it was. -/
theorem heapFrom_moveLast {cmp : Nat → Nat → Ordering} {last : Nat}
    (h : HeapFrom cmp 1 (run :: tail)) : HeapFrom cmp 1 (last :: tail.dropLast) := by
  intro p c a b hc hp ha hb
  have hat : ∀ {j x : Nat}, 1 ≤ j → (last :: tail.dropLast)[j]? = some x → (run :: tail)[j]? = some x := by
    intro j x hj hx
    obtain ⟨k, rfl⟩ : ∃ k, j = k + 1 := ⟨j - 1, by omega⟩
    rw [getElem?_cons_succ, getElem?_dropLast] at hx
    rw [getElem?_cons_succ]
    split at hx
    · exact hx
    · cases hx
  exact h p c a b hc hp (hat hp ha) (hat (by unfold IsChild at hc; omega) hb)

/-- The heap after the lane on top has moved on: without the lane when it has no more
records. -/
theorem settle_holds (h : MergerHolds file all m contents) {r : Record}
    (hheap : m.heap = run :: tail) (hrun : contents[run]? = some (r :: rest)) {lane : Lane}
    (hlane : LaneHolds file lane rest) (hfailure : m.failure = none) :
    MergerHolds file all ({ m with lanes := m.lanes.set run lane }.settle run) (contents.set run rest) ∧
      ∀ e, ({ m with lanes := m.lanes.set run lane }.settle run).failure = some e → Refuses m.encoding all e := by
  have hlen := (List.getElem?_eq_some_iff.1 hrun).1
  have hlanes : LanesHold file (m.lanes.set run lane) (contents.set run rest) := forall₂_set h.lanes run hlane
  have hnodup := h.nodup
  rw [hheap, nodup_cons] at hnodup
  have hsub : ∀ x ∈ (contents.set run rest).flatten, x ∈ all := by
    intro x hx
    exact h.sub x ((flatten_set_perm hrun).mem_iff.2 (mem_cons_of_mem _ hx))
  have hmem : ∀ i, i ∈ tail ↔ i ≠ run ∧ Waits contents i := by
    intro i
    rw [← h.mem i, hheap, mem_cons]
    constructor
    · intro hi
      exact ⟨fun he => hnodup.1 (he ▸ hi), .inr hi⟩
    · rintro ⟨hne, hi⟩
      exact hi.resolve_left hne
  -- The lanes behind the top are in the order they were in.
  have hbehind : OrdersRecords m.encoding all → HeapFrom (laneOrder m.encoding (m.lanes.set run lane)) 1 (run :: tail) := by
    intro ho p c a b hc hp ha hb
    have hne : ∀ {j x : Nat}, 1 ≤ j → (run :: tail)[j]? = some x → x ≠ run := by
      intro j x hj hx
      obtain ⟨k, rfl⟩ : ∃ k, j = k + 1 := ⟨j - 1, by omega⟩
      rw [getElem?_cons_succ] at hx
      rintro rfl
      exact hnodup.1 (mem_of_getElem? hx)
    rw [laneOrder_set (hne hp ha) (hne (by unfold IsChild at hc; omega) hb)]
    have := h.heap ho p c a b hc (Nat.zero_le _)
    rw [hheap] at this
    exact this ha hb
  have hnone : ∀ e, (none : Option Error) = some e → Refuses m.encoding all e := by
    intro e he
    cases he
  have hgot : (m.lanes.set run lane)[run]? = some lane := by
    rw [getElem?_set_self]
    rw [h.lanes.length_eq]
    exact hlen
  unfold Merger.settle
  cases hlane with
  | empty =>
    -- The lane is done: the last lane of the heap takes its place.
    simp only [Merger.front, hgot, hheap, hfailure]
    simp only [Option.bind_eq_bind, Option.bind_some, Option.isNone_none, if_true]
    cases htail : tail with
    | nil =>
      subst htail
      simp only [getLast?_singleton, dropLast_singleton]
      refine ⟨⟨hlanes, hsub, nodup_nil, fun i => ?_, ?_⟩, by simp⟩
      · rw [waits_set hlen]
        have := hmem i
        by_cases hi : i = run
        · simp [hi]
        · simpa [hi] using this
      · intro _ p c a b _ _ ha
        simp at ha
    | cons x xs =>
      rw [getLast?_cons_cons, dropLast_cons_cons]
      obtain ⟨last, hlast⟩ : ∃ last, (x :: xs).getLast? = some last := ⟨_, getLast?_eq_some_getLast (by simp)⟩
      have hsplit : (x :: xs).dropLast ++ [last] = x :: xs := dropLast_append_getLast? last hlast
      have hperm : (last :: (x :: xs).dropLast).Perm (x :: xs) := by
        conv_rhs => rw [← hsplit]
        exact (perm_append_singleton last _).symm
      simp only [hlast]
      rw [htail] at hnodup hmem hbehind
      refine siftDown_holds (m := { m with lanes := m.lanes.set run _ }) hlanes hsub (hperm.nodup_iff.2 hnodup.2) (fun i => ?_)
        (fun ho => heapFrom_moveLast (hbehind ho)) hnone
      rw [hperm.mem_iff, hmem, waits_set hlen]
      by_cases hi : i = run
      · simp [hi]
      · simp [hi]
  | front hp hfits hrest =>
    -- The lane has a new front and finds its place.
    simp only [Merger.front, hgot]
    simp only [Option.bind_eq_bind, Option.bind_some, Option.isNone_some, Bool.false_eq_true, if_false]
    rw [show ({ m with lanes := m.lanes.set run _ } : Merger) =
      { { m with lanes := m.lanes.set run _ } with heap := run :: tail, failure := none } by rw [← hheap, ← hfailure]]
    refine siftDown_holds hlanes hsub (nodup_cons.2 hnodup) (fun i => ?_) hbehind hnone
    rw [mem_cons, hmem, waits_set hlen]
    by_cases hi : i = run
    · simp [hi]
    · simp [hi]

/-- One call: the front of a lane, a least one when the encoding orders the records. -/
theorem nextPending_fated (h : MergerHolds file all m contents) (hfailure : m.failure = none) :
    Fated (Refuses m.encoding all) (m.nextPending file) fun out =>
      out.2.failure = none ∧ out.2.encoding = m.encoding ∧
      match out.1 with
      | none => ∀ lane ∈ contents, lane = []
      | some p => ∃ run r rest, contents[run]? = some (r :: rest) ∧ PendingHolds file p r ∧
          (OrdersRecords m.encoding all → LeastOf (RecordSpool.order m.encoding) contents r) ∧
          MergerHolds file all out.2 (contents.set run rest) := by
  unfold Merger.nextPending
  cases hheap : m.heap with
  | nil =>
    apply Fated.pure
    refine ⟨hfailure, rfl, fun lane hlane => ?_⟩
    obtain ⟨i, hi⟩ := mem_iff_getElem?.1 hlane
    cases lane with
    | nil => rfl
    | cons r rest =>
      have := (h.mem i).2 ⟨r, rest, hi⟩
      rw [hheap] at this
      simp at this
  | cons run tail =>
    obtain ⟨r, rest, hrun⟩ := (h.mem run).1 (by rw [hheap]; exact mem_cons_self)
    obtain ⟨lane, hget, hlane⟩ := forall₂_getElem? h.lanes hrun
    simp only [head?_cons, Option.bind_eq_bind, Option.bind_some, hget, Option.map_some]
    cases hlane with
    | @front reader p _ _ hp hfits hrest =>
      unfold Merger.refill
      apply Fated.bind (Q := fun m' => ∃ lane, m' = { m with lanes := m.lanes.set run lane } ∧ LaneHolds file lane rest)
      · apply Fated.bind (readNext_lane hrest)
        rintro ⟨front, reader'⟩ hout
        exact Fated.pure ⟨_, rfl, hout⟩
      · rintro m' ⟨lane', rfl, hlane'⟩
        obtain ⟨hsettled, hrefuses⟩ := settle_holds h hheap hrun hlane' hfailure
        have henc : ({ m with lanes := m.lanes.set run lane' }.settle run).encoding = m.encoding := by
          unfold Merger.settle
          split
          · split <;> rfl
          · rfl
        unfold Merger.check
        apply Fated.bind (Q := fun m' => m'.failure = none ∧ m'.encoding = m.encoding ∧
          MergerHolds file all m' (contents.set run rest))
        · apply Fated.bind (Fated.compared hrefuses)
          intro _ _
          exact Fated.pure ⟨rfl, henc, hsettled.lanes, hsettled.sub, hsettled.nodup, hsettled.mem, hsettled.heap⟩
        · rintro m' ⟨hf, he, hm'⟩
          apply Fated.pure
          refine ⟨hf, he, run, r, rest, hrun, hp, ?_, hm'⟩
          exact h.least (by rw [hheap]; rfl) hrun

theorem nextRecord_fated (h : MergerHolds file all m contents) (hfailure : m.failure = none) :
    Fated (Refuses m.encoding all) (m.nextRecord file) fun out =>
      out.2.failure = none ∧ out.2.encoding = m.encoding ∧
      match out.1 with
      | none => ∀ lane ∈ contents, lane = []
      | some r => ∃ run rest, contents[run]? = some (r :: rest) ∧
          (OrdersRecords m.encoding all → LeastOf (RecordSpool.order m.encoding) contents r) ∧
          MergerHolds file all out.2 (contents.set run rest) := by
  unfold Merger.nextRecord
  apply Fated.bind (nextPending_fated h hfailure)
  rintro ⟨pending, m'⟩ ⟨hf, he, hout⟩
  cases pending with
  | none => exact Fated.pure ⟨hf, he, hout⟩
  | some p =>
    obtain ⟨run, r, rest, hrun, hp, hleast, hm'⟩ := hout
    apply Fated.bind (readValue_fated hp)
    rintro _ rfl
    have hr : ({ seq := p.seq, key := p.key, value := r.value } : Record) = r := by rw [hp.seq, hp.key]
    rw [hr]
    exact Fated.pure ⟨hf, he, run, rest, hrun, hleast, hm'⟩

/-- Draining a merger writes out a merge of what it owes. -/
theorem drain_fated {turns : Nat} (h : MergerHolds file all m contents) (hfailure : m.failure = none)
    (hturns : contents.flatten.length < turns) (out : Bytes) :
    Fated (Refuses m.encoding all) (m.drain file turns out) fun bytes => ∃ rs, bytes = out ++ encodeAll rs ∧
      Merges (RecordSpool.order m.encoding) (OrdersRecords m.encoding all) contents rs := by
  induction turns generalizing m contents out with
  | zero => omega
  | succ turns ih =>
    rw [Merger.drain]
    apply Fated.bind (nextRecord_fated h hfailure)
    rintro ⟨record, m'⟩ ⟨hf, he, hout⟩
    simp only at hf he hout
    cases record with
    | none =>
      apply Fated.pure
      exact ⟨[], by simp, .done hout⟩
    | some r =>
      obtain ⟨run, rest, hrun, hleast, hm'⟩ := hout
      have hlen := (flatten_set_perm hrun).length_eq
      rw [length_cons] at hlen
      apply Fated.bind (Fated.io _)
      intro _ _
      have hrest := ih hm' hf (by omega) (out ++ r.encode)
      rw [he] at hrest
      apply hrest.mono
      · rintro bytes ⟨rs, rfl, hrs⟩
        exact ⟨r :: rs, by simp, .take hrun hleast hrs⟩
      · exact fun _ he => he

end Steps

/-! ## A whole merge -/

section Whole

variable {file : Bytes} {contents : List (List Record)} {enc : KeyEncoding} {readers : List RunReader} {runs : List SpoolRun}

theorem fill_fated {fault : Error → Prop} (h : List.Forall₂ (fun r rs => RunHolds file r.pos r.stop rs) readers contents) :
    Fated fault (Merger.fill file readers) fun lanes => LanesHold file lanes contents := by
  induction h with
  | nil => exact Fated.pure .nil
  | cons hr _ ih =>
    rw [Merger.fill]
    apply Fated.bind (readNext_lane hr)
    rintro ⟨front, reader⟩ hlane
    apply Fated.bind ih
    intro lanes hlanes
    exact Fated.pure (.cons hlane hlanes)

theorem mem_waiting {lanes : List Lane} (h : LanesHold file lanes contents) (run : Nat) :
    run ∈ Merger.waiting lanes ↔ Waits contents run := by
  unfold Merger.waiting
  rw [mem_filter, mem_range, h.length_eq]
  rcases h.front_eq run with ⟨p, r, rest, hp, hc, -⟩ | ⟨hp, hno⟩
  · have hlt := (List.getElem?_eq_some_iff.1 hc).1
    simp only [hp, Option.isSome_some, and_true]
    exact ⟨fun _ => ⟨r, rest, hc⟩, fun _ => hlt⟩
  · simp only [hp, Option.isSome_none, Bool.false_eq_true, and_false, false_iff]
    rintro ⟨r, rest, hc⟩
    exact hno r rest hc

/-- A new merger owes everything in the runs. -/
theorem merger_new_fated (h : List.Forall₂ (fun r rs => RunHolds file r.pos r.stop rs) readers contents) :
    Fated (Refuses enc contents.flatten) (Merger.new enc file readers) fun m =>
      m.failure = none ∧ m.encoding = enc ∧ MergerHolds file contents.flatten m contents := by
  unfold Merger.new
  apply Fated.bind (fill_fated h)
  intro lanes hlanes
  have hmem := mem_waiting hlanes
  have hnodup : (Merger.waiting lanes).Nodup := nodup_range.filter _
  have hperm : (heapify (Merger.before enc lanes) ((Merger.waiting lanes).length / 2)
    (Merger.waiting lanes, none)).1.Perm (Merger.waiting lanes) := heapify_perm ..
  unfold Merger.check
  refine Fated.bind (Fated.compared ?_) fun _ _ => Fated.pure ⟨rfl, rfl, hlanes, fun _ hr => hr,
    hperm.nodup_iff.2 hnodup, fun run => hperm.mem_iff.trans (hmem run), fun ho => ?_⟩
  · apply heapify_record (P := fun s => ∀ e, s = some e → Refuses enc contents.flatten e)
    · intro a _ b _ s hs
      exact hlanes.before_snd (fun _ hr => hr) a b hs
    · intro e he
      cases he
  · exact heapify_heap before_fst none (hlanes.ordersHeap (fun _ hr => hr) hmem ho) (heapFrom_half _ _)

/-- The runs of a file with the records each of them holds. -/
abbrev RunsHold (file : Bytes) (runs : List SpoolRun) (contents : List (List Record)) : Prop :=
  List.Forall₂ (fun run rs => RunHolds file run.start run.stop rs) runs contents

theorem RunsHold.length_le (h : RunsHold file runs contents) :
    contents.flatten.length ≤ (runs.map SpoolRun.len).sum := by
  induction h with
  | nil => simp
  | @cons run rs runs contents hr _ ih =>
    have hlen : rs.length ≤ (encodeAll rs).length := by
      clear hr
      induction rs with
      | nil => simp
      | cons r rs ih =>
        have := r.recordHeaderLen_le
        simp only [recordHeaderLen] at this
        simp only [encodeAll_cons, length_append, length_cons]
        omega
    have := hr.stop
    simp only [flatten_cons, length_append, map_cons, sum_cons, SpoolRun.len]
    omega

theorem mergeRuns_fated (h : RunsHold file runs contents) :
    Fated (Refuses enc contents.flatten) (Merger.mergeRuns enc file runs) fun bytes => ∃ rs, bytes = encodeAll rs ∧
      Merges (RecordSpool.order enc) (OrdersRecords enc contents.flatten) contents rs := by
  unfold Merger.mergeRuns
  have hreaders : List.Forall₂ (fun r rs => RunHolds file r.pos r.stop rs) (runs.map RunReader.new) contents := by
    rw [forall₂_map_left_iff]
    exact h
  apply Fated.bind (merger_new_fated hreaders)
  rintro m ⟨hf, rfl, hm⟩
  have hlen := h.length_le
  apply Fated.bind (drain_fated hm hf (by omega) [])
  rintro bytes ⟨rs, rfl, hrs⟩
  apply Fated.bind (Fated.io _)
  intro _ _
  exact Fated.pure ⟨rs, by simp, hrs⟩

end Whole

end DryDb
