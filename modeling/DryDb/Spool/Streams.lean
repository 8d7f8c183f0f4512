import DryDb.Keys.Order
import DryDb.Lib.Lists
import DryDb.Spool.Sorted
/-!
# A spool from its first record to its last

What the calls of a spool do to the records it took: `push` takes one or refuses it, a spill
that fails spoils the spool, and `into_sorted` hands out a stream. `Streams src rs fin` says
that the stream gives the records `rs` and then ends, or fails with `fin`. From these follows
that the external sort is a stable sort (`spool_sorts_stably`).
-/

namespace DryDb

open RecordSpool List

/-! ## The stream -/

/-- The stream gives `rs` and then ends, or fails with `fin`. -/
inductive Streams : SortedRecords → List Record → Option Error → Prop where
  | done {src : SortedRecords} (h : src.nextRecord = .ok none) : Streams src [] none
  | fail {src : SortedRecords} {e : Error} (h : src.nextRecord = .error e) : Streams src [] (some e)
  | next {src rest : SortedRecords} {r : Record} {rs : List Record} {fin : Option Error}
      (h : src.nextRecord = .ok (some (r, rest))) (hrest : Streams rest rs fin) : Streams src (r :: rs) fin

theorem streams_memory (rs : List Record) (held : Nat) (fate : Fate) : Streams (.memory rs held fate) rs none := by
  induction rs with
  | nil => exact .done rfl
  | cons r rs ih => exact .next rfl ih

theorem readNext_left (file : Bytes) (r : RunReader) : Fated (fun _ => True) (r.readNext file) fun out =>
    out.1.toList.length + (out.2.stop - out.2.pos) ≤ r.stop - r.pos := by
  unfold RunReader.readNext
  split
  · exact Fated.pure (by simp)
  · apply Fated.bind (Fated.io _)
    intro _ _
    apply Fated.bind Fated.readExact_length
    intro header _
    unfold RunReader.readRecord
    dsimp only
    split
    · exact Fated.fail trivial
    · apply Fated.bind Fated.readExact_length
      intro key _
      apply Fated.pure
      simp only [Option.toList_some, length_singleton, recordHeaderLen]
      omega

theorem left_settle (run : Nat) (m : Merger) : (m.settle run).lanes = m.lanes := by
  unfold Merger.settle
  split
  · split <;> rfl
  · rfl

/-- A record that is handed out leaves less behind it. -/
theorem nextRecord_left (file : Bytes) (m : Merger) : Fated (fun _ => True) (m.nextRecord file) fun out =>
    out.1.isSome → (out.2.lanes.map Lane.left).sum < (m.lanes.map Lane.left).sum := by
  unfold Merger.nextRecord
  apply Fated.bind (Q := fun out => out.1.isSome → (out.2.lanes.map Lane.left).sum < (m.lanes.map Lane.left).sum)
  · unfold Merger.nextPending
    split
    · exact Fated.pure (by simp)
    · rename_i run lane hhead
      have hlane : m.lanes[run]? = some lane := by
        obtain ⟨i, -, hi⟩ := Option.bind_eq_some_iff.1 hhead
        obtain ⟨l, hl, heq⟩ := Option.map_eq_some_iff.1 hi
        cases heq
        exact hl
      unfold Merger.refill
      apply Fated.bind (Q := fun m' => lane.front.isSome → (m'.lanes.map Lane.left).sum < (m.lanes.map Lane.left).sum)
      · apply Fated.bind (readNext_left file lane.reader)
        rintro ⟨front, reader⟩ hleft
        apply Fated.pure
        intro hfront
        obtain ⟨p, hp⟩ := Option.isSome_iff_exists.1 hfront
        have hsum := sum_set (show (m.lanes.map Lane.left)[run]? = some lane.left by simp [hlane])
          (Lane.mk reader front).left
        rw [← map_set] at hsum
        have hone : lane.left = 1 + (lane.reader.stop - lane.reader.pos) := by simp [Lane.left, hp]
        have hle : (Lane.mk reader front).left ≤ lane.reader.stop - lane.reader.pos := hleft
        show (List.map Lane.left (m.lanes.set run ⟨reader, front⟩)).sum < _
        omega
      · intro m' hm'
        unfold Merger.check
        apply Fated.bind (Q := fun m'' => m''.lanes = m'.lanes)
        · exact Fated.bind (Fated.compared fun _ _ => trivial) fun _ _ => Fated.pure (left_settle run m')
        · intro m'' hsame
          exact Fated.pure fun hfront => hsame ▸ hm' hfront
  · rintro ⟨pending, m'⟩ hm'
    cases pending with
    | none => exact Fated.pure (by simp)
    | some p =>
      apply Fated.bind (Fated.bind (Fated.io _) fun _ _ => Fated.readExact_length)
      exact fun _ _ => Fated.pure fun _ => hm' rfl

theorem SortedRecords.left_lt {src rest : SortedRecords} {r : Record} (h : src.nextRecord = .ok (some (r, rest))) :
    rest.left < src.left := by
  cases src with
  | memory records held fate =>
    cases records with
    | nil => cases h
    | cons r' records =>
      cases h
      simp [left]
  | merged file m fate =>
    have hleft : Act.Leads (m.nextRecord file) fate _ _ := nextRecord_left file m fate
    simp only [nextRecord] at h
    split at h
    · cases h
    · cases h
    · rename_i hrun
      cases h
      exact (hleft.post hrun).1 rfl

/-- What a stream of the records `all` may end with. -/
def StreamEnds (enc : KeyEncoding) (all : List Record) (fate : Fate) (rs : List Record) : Option Error → Prop
  | none => rs.Perm all ∧ (OrdersRecords enc all → Ascends (order enc) rs)
  | some e => (fate.Blames e ∨ Refuses enc all e) ∧ (∀ r ∈ rs, r ∈ all) ∧ rs.length ≤ all.length

variable {contents : List (List Record)} {enc : KeyEncoding} {taken : List Record}

/-- A merge that is read record by record. Every turn takes a record off a lane. -/
theorem streams_merged {file : Bytes} {all : List Record} {m : Merger}
    (h : MergerHolds file all m contents) (hfailure : m.failure = none) (fate : Fate) :
    ∃ rs fin, Streams (.merged file m fate) rs fin ∧
      match fin with
      | none => Merges (order m.encoding) (OrdersRecords m.encoding all) contents rs
      | some e => (fate.Blames e ∨ Refuses m.encoding all e) ∧ (∀ r ∈ rs, r ∈ all) ∧
        rs.length ≤ contents.flatten.length := by
  induction hn : contents.flatten.length using Nat.strong_induction_on generalizing m contents fate with
  | _ n ih =>
    have hnext := nextRecord_fated h hfailure fate
    cases hrun : (m.nextRecord file).run fate with
    | mk out fate' =>
      cases out with
      | error e =>
        obtain ⟨hblame, -⟩ := hnext.fault hrun
        exact ⟨[], some e, .fail (by simp [SortedRecords.nextRecord, hrun]), hblame, by simp, Nat.zero_le _⟩
      | ok out =>
        obtain ⟨record, m'⟩ := out
        obtain ⟨⟨hf, henc, hout⟩, hlater⟩ := hnext.post hrun
        cases record with
        | none => exact ⟨[], none, .done (by simp [SortedRecords.nextRecord, hrun]), .done hout⟩
        | some r =>
          obtain ⟨run, rest, hlane, hleast, hm'⟩ := hout
          have hlen := (flatten_set_perm hlane).length_eq
          rw [hn, length_cons] at hlen
          obtain ⟨rs, fin, hstream, hfin⟩ := ih _ (by omega) hm' hf fate' rfl
          refine ⟨r :: rs, fin, .next (by simp [SortedRecords.nextRecord, hrun]) hstream, ?_⟩
          simp only at henc hm'
          cases fin with
          | none =>
            rw [henc] at hfin
            exact .take hlane hleast hfin
          | some e =>
            obtain ⟨hblame, hsub, hle⟩ := hfin
            rw [henc] at hblame
            refine ⟨hblame.imp_left fun hb => hb.sooner hlater, fun x hx => ?_, by rw [length_cons]; omega⟩
            rcases mem_cons.1 hx with rfl | hx
            · exact h.sub _ (mem_flatten_of_front hlane)
            · exact hsub x hx

/-! ## Calls -/

section

variable {enc : KeyEncoding} {taken : List Record} {s : RecordSpool} {contents : List (List Record)}
  {Q : Unit → RecordSpool → Prop} {key value : Bytes} {R : Error → RecordSpool → Prop}

/-- A spill that fails spoils the spool. -/
theorem spillOrSpoil_leads {fault : Error → Prop} (h : Spools fault spill s Q) :
    spillOrSpoil.Leads s (fun a t => Q a t ∧ s.Kept t)
      fun e t => (s.fate.Blames e ∨ fault e) ∧ t.spoiled = some e.kind ∧ s.fate.Later t.fate := by
  unfold spillOrSpoil
  apply Act.Leads.bind (Q := fun out t =>
    match out with
    | .ok a => Q a t ∧ s.Kept t
    | .error e => (s.fate.Blames e ∨ fault e) ∧ s.Kept t)
  · exact Act.Leads.attempt h
  · intro out t ht
    cases out with
    | ok _ => exact Act.Leads.pure ht
    | error e =>
      apply Act.Leads.bind (Act.Leads.modify (Q := fun _ u => u = { t with spoiled := some e.kind }) rfl)
      rintro _ _ rfl
      exact Act.Leads.fail ⟨ht.1, rfl, ht.2.fate⟩

/-- The spool with one more record in its buffer. -/
def withRecord (s : RecordSpool) (key value : Bytes) : RecordSpool :=
  let records := s.records ++ [{ seq := s.nextSeq, key, value }]
  { s with
    records
    nextSeq := (s.nextSeq + 1) % 2 ^ 64
    count := s.count + 1
    buffered := (records.map fun r => r.key.length + r.value.length).sum + records.length * slotBytes + (s.fate.draws 0).spare
    fate := s.fate.next }

theorem buffer_run (s : RecordSpool) (key value : Bytes) : (buffer key value).run s = (.ok (), withRecord s key value) := rfl

theorem SpoolHolds.buffered (h : SpoolHolds enc taken s contents) (hkey : key.length < 2 ^ 32)
    (hvalue : value.length < 2 ^ 32) :
    SpoolHolds enc (taken ++ [{ seq := s.nextSeq, key, value }]) (withRecord s key value) contents := by
  refine ⟨h.encoding, Nat.mod_lt _ (by decide), ?_, h.file, h.runs, ?_, fun ho => ?_⟩
  · intro r hr
    rcases mem_append.1 hr with hr | hr
    · exact h.fits r hr
    · obtain rfl := mem_singleton.1 hr
      exact ⟨h.seq, hkey, hvalue⟩
  · simp only [withRecord]
    rw [← append_assoc]
    exact h.perm.append_right _
  · exact h.ordered (ho.mono fun r hr => mem_append_left _ hr)

/-- A spool that is not spoiled can be used. -/
theorem checkUsable_leads (hs : s.spoiled = none) {α : Type} {k : Unit → RecordSpool.Do α} {Q : α → RecordSpool → Prop}
    (hk : (k ()).Leads s Q R) :
    (do let a ← (MonadLiftT.monadLift s.checkUsable : RecordSpool.Do Unit); k a).Leads s Q R := by
  apply Act.Leads.bind (Q := fun _ t => t = s)
  · apply Act.Leads.liftM
    · exact fun _ _ => rfl
    · intro e he
      rw [checkUsable, hs] at he
      cases he
  · rintro _ _ rfl
    exact hk

/-- `push` refuses the key, or buffers the record and spills if the buffer is full. -/
theorem push_leads_of (hs : s.spoiled = none)
    (hrefused : ∀ e, s.encoding.validateKey key = .error e ∨ s.encoding.digest key = .error e → R e s)
    (hbuffered : s.encoding.Accepts key →
      Act.Leads (if s.budget ≤ (withRecord s key value).bufferedBytes then spillOrSpoil else pure ())
        (withRecord s key value) Q R) :
    (push key value).Leads s Q R := by
  unfold push
  apply Act.Leads.bind (Act.Leads.get (Q := fun t u => t = s ∧ u = s) ⟨rfl, rfl⟩)
  rintro _ _ ⟨rfl, rfl⟩
  rename_i s
  apply checkUsable_leads hs
  apply Act.Leads.bind (Q := fun _ t => t = s ∧ s.encoding.validateKey key = .ok ())
  · apply Act.Leads.liftM
    · exact fun _ hv => ⟨rfl, hv⟩
    · exact fun e he => hrefused e (.inl he)
  rintro _ _ ⟨rfl, hvalid⟩
  rename_i s
  apply Act.Leads.bind (Q := fun _ t => t = s ∧ ∃ d, s.encoding.digest key = .ok d)
  · apply Act.Leads.liftM
    · exact fun d hd => ⟨rfl, d, hd⟩
    · exact fun e he => hrefused e (.inr he)
  rintro _ _ ⟨rfl, hdigest⟩
  rename_i s
  apply Act.Leads.bind (Q := fun _ t => t = withRecord s key value)
  · rw [Act.Leads, buffer_run]
  rintro _ _ rfl
  apply Act.Leads.bind (Act.Leads.get (Q := fun x u => x = withRecord s key value ∧ u = withRecord s key value) ⟨rfl, rfl⟩)
  rintro _ _ ⟨rfl, rfl⟩
  exact hbuffered ⟨hvalid, hdigest⟩

/-- What `push` leaves: the record taken in, the spool as it was because the key was refused,
or a spoiled spool. -/
theorem push_leads (h : SpoolHolds enc taken s contents) (hs : s.spoiled = none)
    (hkey : key.length < 2 ^ 32) (hvalue : value.length < 2 ^ 32) :
    (push key value).Leads s
      (fun _ t => enc.Accepts key ∧
        (∃ merged, SpoolHolds enc (taken ++ [{ seq := s.nextSeq, key, value }]) t merged) ∧ t.spoiled = none ∧
        t.nextSeq = (s.nextSeq + 1) % 2 ^ 64 ∧ t.count = s.count + 1 ∧ t.budget = s.budget ∧ s.fate.Later t.fate)
      fun e t => (t = s ∧ (enc.validateKey key = .error e ∨ enc.digest key = .error e)) ∨
        enc.Accepts key ∧ (s.fate.Blames e ∨ Refuses enc (taken ++ [{ seq := s.nextSeq, key, value }]) e) ∧
          t.spoiled = some e.kind ∧ s.fate.Later t.fate := by
  obtain rfl := h.encoding
  apply push_leads_of hs
  · exact fun e he => .inl ⟨rfl, he⟩
  · intro hacc
    have hheld := h.buffered hkey hvalue
    have hf := s.fate.later_next
    apply Act.Leads.ite
    · intro _
      apply (spillOrSpoil_leads (spill_spools hheld)).mono
      · rintro _ u ⟨⟨hu, -⟩, hkept⟩
        exact ⟨hacc, hu, hkept.spoiled.trans hs, hkept.nextSeq, hkept.count, hkept.budget, hf.trans hkept.fate⟩
      · rintro e u ⟨he, hu, hfate⟩
        exact .inr ⟨hacc, he.imp_left fun hb => hb.sooner hf, hu, hf.trans hfate⟩
    · intro _
      exact Act.Leads.pure ⟨hacc, ⟨_, hheld⟩, hs, rfl, rfl, rfl, hf⟩

theorem flush_leads_of (hs : s.spoiled = none) (h : spillOrSpoil.Leads s Q R) : flush.Leads s Q R := by
  unfold flush
  apply Act.Leads.bind (Act.Leads.get (Q := fun t u => t = s ∧ u = s) ⟨rfl, rfl⟩)
  rintro _ _ ⟨rfl, rfl⟩
  exact checkUsable_leads hs h

/-- What `flush` leaves: everything in the file, or a spoiled spool. -/
theorem flush_leads (h : SpoolHolds enc taken s contents) (hs : s.spoiled = none) :
    flush.Leads s
      (fun _ t => ((∃ merged, SpoolHolds enc taken t merged) ∧ t.records = []) ∧ s.Kept t)
      fun e t => (s.fate.Blames e ∨ Refuses enc taken e) ∧ t.spoiled = some e.kind ∧ s.fate.Later t.fate :=
  flush_leads_of hs (spillOrSpoil_leads (spill_spools h))

theorem SpoolHolds.setBudget (h : SpoolHolds enc taken s contents) (budget : Nat) :
    SpoolHolds enc taken (s.setBudget budget) contents :=
  ⟨h.encoding, h.seq, h.fits, h.file, h.runs, h.perm, h.ordered⟩

theorem reduceRuns_spools (h : SpoolHolds enc taken s contents) (turns : Nat) :
    Spools (Refuses enc taken) (reduceRuns turns) s fun _ t =>
      (∃ merged, SpoolHolds enc taken t merged) ∧ t.records = s.records := by
  unfold reduceRuns
  apply Spools.repeatWhile (I := fun _ t => (∃ merged, SpoolHolds enc taken t merged) ∧ t.records = s.records)
  · rintro n t ⟨⟨merged, ht⟩, hrecords⟩
    unfold reduceOnce
    apply Spools.get
    split
    · apply Spools.bind (replaceRuns_spools ht (by decide))
      rintro _ u ⟨-, merged', hu, -, -, -, -, hu', -⟩ -
      exact Spools.pure ⟨⟨merged', hu⟩, hu'.trans hrecords⟩
    · exact Spools.pure ⟨⟨merged, ht⟩, hrecords⟩
  · exact fun t ht => ht
  · exact ⟨⟨contents, h⟩, rfl⟩

/-- `into_sorted` hands out what the spool took. -/
theorem intoSorted_leads (h : SpoolHolds enc taken s contents) (hs : s.spoiled = none) :
    intoSorted.Leads s (fun src _ => ∃ rs fin, Streams src rs fin ∧ StreamEnds enc taken s.fate rs fin)
      fun e _ => s.fate.Blames e ∨ Refuses enc taken e := by
  unfold intoSorted
  apply Act.Leads.bind (Act.Leads.get (Q := fun t u => t = s ∧ u = s) ⟨rfl, rfl⟩)
  rintro _ _ ⟨rfl, rfl⟩
  rename_i s
  apply checkUsable_leads hs
  -- The rest is code on a spool that is not spoiled.
  suffices hrest : Spools (Refuses enc taken) _ s fun src _ =>
      ∃ rs fin, Streams src rs fin ∧ StreamEnds enc taken s.fate rs fin by
    apply Act.Leads.mono hrest
    · exact fun _ _ hq => hq.1
    · exact fun _ _ hr => hr.1
  split
  · rename_i hruns
    apply Spools.bind (sortBuffer_spools.mono (fun _ _ ht _ => ht) fun _ he => h.refuses he)
    rintro _ _ ⟨f, rfl⟩ -
    apply Spools.get
    apply Spools.pure
    refine ⟨sortedBuffer s, none, streams_memory .., ?_, h.sorted_ascends⟩
    have hempty : contents = [] := by
      have := h.runs
      rw [hruns] at this
      cases this
      rfl
    have hperm := h.sorted_perm
    rwa [hempty] at hperm
  · apply Spools.bind (spill_spools h)
    rintro _ t ⟨⟨merged, ht⟩, hempty⟩ hst
    apply Spools.bind (reduceRuns_spools ht _)
    rintro _ u ⟨⟨final, hu⟩, hrecords⟩ hkept
    rw [hempty] at hrecords
    have hfinal : final.flatten.Perm taken := by
      have hperm := hu.perm
      rwa [hrecords, append_nil] at hperm
    have hreaders : List.Forall₂ (fun r rs => RunHolds (u.file.getD []) r.pos r.stop rs) (u.runs.map RunReader.new) final := by
      rw [forall₂_map_left_iff]
      exact hu.runs
    obtain rfl := hu.encoding
    have hnew : Fated (Refuses u.encoding taken) (Merger.new u.encoding (u.file.getD []) (u.runs.map RunReader.new)) _ :=
      (merger_new_fated hreaders).mono (fun _ hq => hq) fun _ he => he.mono hu.mem_runs
    apply Spools.get
    refine Spools.bind (Spools.decided hnew) ?_
    rintro m _ ⟨⟨hf, henc, hm⟩, f, rfl⟩ hlater
    apply Spools.get
    apply Spools.pure
    obtain ⟨rs, fin, hstream, hfin⟩ := streams_merged hm hf f
    refine ⟨rs, fin, hstream, ?_⟩
    rw [henc] at hfin
    cases fin with
    | none =>
      refine ⟨hfin.perm.trans hfinal, fun ho => ?_⟩
      have hsub : OrdersRecords u.encoding final.flatten := ho.mono hu.mem_runs
      exact hfin.ascends hsub hsub (hu.ordered ho)
    | some e =>
      obtain ⟨hblame, hmem, hle⟩ := hfin
      refine ⟨?_, fun r hr => hu.mem_runs r (hmem r hr), hfinal.length_eq ▸ hle⟩
      rcases hblame with hb | hr
      · exact .inl (hb.sooner ((hst.fate.trans hkept.fate).trans hlater.fate))
      · exact .inr (hr.mono hu.mem_runs)

end

/-! ## A stable sort -/

/-- The comparison is a total preorder on the keys the encoding takes, and never fails there. -/
structure KeyEncoding.Ranks (enc : KeyEncoding) : Prop where
  answers : ∀ a b, enc.Accepts a → enc.Accepts b → ∃ o, enc.compare a b = .ok o
  swap : ∀ a b o, enc.Accepts a → enc.Accepts b → enc.compare a b = .ok o → enc.compare b a = .ok o.swap
  trans : ∀ a b c, enc.Accepts a → enc.Accepts b → enc.Accepts c → enc.compare a b ≠ .ok .gt →
    enc.compare b c ≠ .ok .gt → enc.compare a c ≠ .ok .gt

theorem KeyEncoding.OrderedBy.ranks {ρ : Type} [LinearOrder ρ] {rank : Bytes → ρ} (h : enc.OrderedBy rank) : enc.Ranks where
  answers a b ha hb := ⟨_, h.compare a b ha hb⟩
  swap a b o ha hb ho := by
    rw [h.compare a b ha hb, Except.ok.injEq] at ho
    rw [h.compare b a hb ha, ← ho]
    rcases lt_trichotomy (rank a) (rank b) with hlt | heq | hgt
    · rw [compare_lt_iff_lt.2 hlt, compare_gt_iff_gt.2 hlt]
      rfl
    · rw [compare_eq_iff_eq.2 heq, compare_eq_iff_eq.2 heq.symm]
      rfl
    · rw [compare_gt_iff_gt.2 hgt, compare_lt_iff_lt.2 hgt]
      rfl
  trans a b c ha hb hc hab hbc := by
    rw [h.compare a b ha hb, Ne, Except.ok.injEq, compare_gt_iff_gt, not_lt] at hab
    rw [h.compare b c hb hc, Ne, Except.ok.injEq, compare_gt_iff_gt, not_lt] at hbc
    rw [h.compare a c ha hc, Ne, Except.ok.injEq, compare_gt_iff_gt, not_lt]
    exact hab.trans hbc

namespace KeyEncoding.Ranks

variable {enc : KeyEncoding} {rs : List Record}

theorem not_refuses (h : enc.Ranks) (hrs : ∀ r ∈ rs, enc.Accepts r.key) {e : Error} :
    ¬ Refuses enc rs e := by
  rintro ⟨a, ha, b, hb, he⟩
  obtain ⟨o, ho⟩ := h.answers a.key b.key (hrs a ha) (hrs b hb)
  rw [ho] at he
  cases he

/-- Not above in the order of records: below in the order of keys, or level and not later. -/
theorem order_ne_gt (h : enc.Ranks) {a b : Record} (ha : enc.Accepts a.key) (hb : enc.Accepts b.key) :
    RecordSpool.order enc a b ≠ .gt ↔
      enc.compare a.key b.key = .ok .lt ∨ enc.compare a.key b.key = .ok .eq ∧ a.seq ≤ b.seq := by
  obtain ⟨o, ho⟩ := h.answers a.key b.key ha hb
  unfold RecordSpool.order KeyEncoding.order
  rw [ho]
  cases o with
  | lt => simp
  | eq => simp [Nat.compare_ne_gt]
  | gt => simp

/-- With the order of arrival for a tie the preorder stays total. -/
theorem ordersRecords (h : enc.Ranks) (hrs : ∀ r ∈ rs, enc.Accepts r.key) : OrdersRecords enc rs where
  swap a b ha hb := by
    obtain ⟨o, ho⟩ := h.answers a.key b.key (hrs a ha) (hrs b hb)
    have hswap := h.swap a.key b.key o (hrs a ha) (hrs b hb) ho
    unfold RecordSpool.order KeyEncoding.order
    rw [ho, hswap]
    cases o with
    | lt => rfl
    | eq => exact (Nat.compare_swap a.seq b.seq).symm
    | gt => rfl
  trans a b c ha hb hc hab hbc := by
    replace ha := hrs a ha
    replace hb := hrs b hb
    replace hc := hrs c hc
    rw [h.order_ne_gt ha hb] at hab
    rw [h.order_ne_gt hb hc] at hbc
    rw [h.order_ne_gt ha hc]
    have hab' : enc.compare a.key b.key ≠ .ok .gt := by
      rcases hab with h | ⟨h, -⟩ <;> rw [h] <;> simp
    have hbc' : enc.compare b.key c.key ≠ .ok .gt := by
      rcases hbc with h | ⟨h, -⟩ <;> rw [h] <;> simp
    obtain ⟨o, ho⟩ := h.answers a.key c.key ha hc
    cases o with
    | lt => exact .inl ho
    | gt => exact absurd ho (h.trans _ _ _ ha hb hc hab' hbc')
    | eq =>
      -- Around a cycle of level keys no step is a strict one.
      have hca : enc.compare c.key a.key ≠ .ok .gt := by
        rw [h.swap _ _ _ ha hc ho]
        simp
      have hab_eq : a.seq ≤ b.seq := by
        rcases hab with hlt | ⟨-, hle⟩
        · exact absurd (h.swap _ _ _ ha hb hlt) (h.trans _ _ _ hb hc ha hbc' hca)
        · exact hle
      have hbc_eq : b.seq ≤ c.seq := by
        rcases hbc with hlt | ⟨-, hle⟩
        · exact absurd (h.swap _ _ _ hb hc hlt) (h.trans _ _ _ hc ha hb hca hab')
        · exact hle
      exact .inr ⟨ho, hab_eq.trans hbc_eq⟩

end KeyEncoding.Ranks

/-- A call on a spool that still collects. -/
inductive SpoolOp where
  | push (key value : Bytes)
  | flush
  | setBudget (budget : Nat)

def SpoolOp.run : SpoolOp → RecordSpool.Do Unit
  | push key value => RecordSpool.push key value
  | flush => RecordSpool.flush
  | setBudget budget => Act.modify fun s => s.setBudget budget

/-- The spool after a call, whatever the call returned. -/
def SpoolOp.after (s : RecordSpool) (op : SpoolOp) : RecordSpool := (op.run.run s).2

/-- The rows the calls put in: those whose key the encoding takes. -/
def pushedRows (enc : KeyEncoding) : List SpoolOp → List (Bytes × Bytes)
  | [] => []
  | .push key value :: ops => if enc.Accepts key then (key, value) :: pushedRows enc ops else pushedRows enc ops
  | _ :: ops => pushedRows enc ops

/-- The rows as records, in the order they came. -/
def numbered (rows : List (Bytes × Bytes)) : List Record :=
  rows.zipIdx.map fun row => { seq := row.2, key := row.1.1, value := row.1.2 }

theorem numbered_concat (rows : List (Bytes × Bytes)) (key value : Bytes) :
    numbered (rows ++ [(key, value)]) = numbered rows ++ [{ seq := rows.length, key, value }] := by
  simp [numbered, zipIdx_append]

theorem map_seq_numbered (rows : List (Bytes × Bytes)) : (numbered rows).map Record.seq = List.range rows.length := by
  rw [numbered, map_map, range_eq_range']
  exact zipIdx_map_snd 0 rows

theorem nodup_numbered (rows : List (Bytes × Bytes)) : ((numbered rows).map Record.seq).Nodup := by
  rw [map_seq_numbered]
  exact nodup_range

/-- The records of a spool as they come out: below one another by key, or level and in the order
they came. -/
def Stable (enc : KeyEncoding) (rs : List Record) : Prop :=
  rs.Pairwise fun a b => enc.compare a.key b.key = .ok .lt ∨ enc.compare a.key b.key = .ok .eq ∧ a.seq < b.seq

theorem stable_of_ascends (henc : enc.Ranks) {rs : List Record}
    (hacc : ∀ r ∈ taken, enc.Accepts r.key) (hnodup : (taken.map Record.seq).Nodup) (hperm : rs.Perm taken)
    (hasc : OrdersRecords enc taken → Ascends (RecordSpool.order enc) rs) : Stable enc rs := by
  have hdistinct : rs.Pairwise fun a b => a.seq ≠ b.seq :=
    pairwise_map.1 ((hperm.map Record.seq).nodup_iff.2 hnodup)
  apply ((hasc (henc.ordersRecords hacc)).and hdistinct).imp_of_mem
  rintro a b ha hb ⟨hab, hne⟩
  rw [henc.order_ne_gt (hacc a (hperm.mem_iff.1 ha)) (hacc b (hperm.mem_iff.1 hb))] at hab
  exact hab.imp_right fun h => ⟨h.1, Nat.lt_of_le_of_ne h.2 hne⟩

/-- Where no operation on a file fails, everything the spool took comes out in order. -/
theorem SpoolHolds.sorted {s : RecordSpool}
    (h : SpoolHolds enc taken s contents) (henc : enc.Ranks) (hacc : ∀ r ∈ taken, enc.Accepts r.key)
    (hnodup : (taken.map Record.seq).Nodup) (hs : s.spoiled = none) (hcalm : s.fate.Calm) :
    ∃ src t rs, RecordSpool.intoSorted.run s = (.ok src, t) ∧ Streams src rs none ∧ rs.Perm taken ∧ Stable enc rs := by
  have hblameless : ∀ e, ¬ (s.fate.Blames e ∨ Refuses enc taken e) := by
    rintro e (hb | hr)
    · exact hcalm.not_blames hb
    · exact henc.not_refuses hacc hr
  have hout := intoSorted_leads h hs
  cases hrun : RecordSpool.intoSorted.run s with
  | mk out t =>
    cases out with
    | error e => exact absurd (hout.fault hrun) (hblameless e)
    | ok src =>
      obtain ⟨rs, fin, hstream, hfin⟩ := hout.post hrun
      cases fin with
      | some e => exact absurd hfin.1 (hblameless e)
      | none =>
        obtain ⟨hperm, hasc⟩ := hfin
        exact ⟨src, t, rs, rfl, hstream, hperm, stable_of_ascends henc hacc hnodup hperm hasc⟩

/-- What the lengths of a call have to be for a run to hold them. -/
def SpoolOp.Fits : SpoolOp → Prop
  | push key value => key.length < 2 ^ 32 ∧ value.length < 2 ^ 32
  | _ => True

/-- A spool that took the rows and that nothing has gone wrong with. -/
structure SpoolSound (enc : KeyEncoding) (rows : List (Bytes × Bytes)) (s : RecordSpool) : Prop where
  holds : ∃ contents, SpoolHolds enc (numbered rows) s contents
  accepted : ∀ row ∈ rows, enc.Accepts row.1
  seq : s.nextSeq = rows.length % 2 ^ 64
  unspoiled : s.spoiled = none
  calm : s.fate.Calm

section

variable {enc : KeyEncoding} {rows : List (Bytes × Bytes)} {s : RecordSpool} {value : Bytes}

theorem SpoolSound.new {fate : Fate} (hcalm : fate.Calm) (budget : Nat) : SpoolSound enc [] (RecordSpool.new enc budget fate) where
  holds := ⟨[], rfl, by simp [RecordSpool.new], by simp [numbered], rfl, .nil, by simp [numbered, RecordSpool.new], by simp⟩
  accepted := by simp
  seq := rfl
  unspoiled := rfl
  calm := hcalm

theorem accepts_numbered (h : ∀ row ∈ rows, enc.Accepts row.1) : ∀ r ∈ numbered rows, enc.Accepts r.key := by
  intro r hr
  obtain ⟨row, hrow, rfl⟩ := mem_map.1 hr
  exact h row.1 (fst_mem_of_mem_zipIdx hrow)

/-- One more row. -/
theorem SpoolSound.accepts_concat (h : SpoolSound enc rows s) {key : Bytes} (hacc : enc.Accepts key) :
    ∀ row ∈ rows ++ [(key, value)], enc.Accepts row.1 := by
  intro row hrow
  rcases mem_append.1 hrow with hrow | hrow
  · exact h.accepted row hrow
  · obtain rfl := mem_singleton.1 hrow
    exact hacc

/-- Nobody is to blame for a failure, so there is none. -/
theorem SpoolSound.blameless (h : SpoolSound enc rows s) (henc : enc.Ranks) {rows' : List (Bytes × Bytes)}
    (hrows : ∀ row ∈ rows', enc.Accepts row.1) {e : Error} : ¬ (s.fate.Blames e ∨ Refuses enc (numbered rows') e) := by
  rintro (hb | hr)
  · exact h.calm.not_blames hb
  · exact henc.not_refuses (accepts_numbered hrows) hr

/-- Nothing goes wrong with a push, unless its key is refused. -/
theorem SpoolSound.push (h : SpoolSound enc rows s) (henc : enc.Ranks) {key : Bytes} (hkey : key.length < 2 ^ 32)
    (hvalue : value.length < 2 ^ 32) (hmany : enc.Accepts key → rows.length < 2 ^ 64) :
    SpoolSound enc (if enc.Accepts key then rows ++ [(key, value)] else rows) ((RecordSpool.push key value).run s).2 := by
  obtain ⟨contents, hheld⟩ := h.holds
  have hrow : enc.Accepts key →
      numbered rows ++ [{ seq := s.nextSeq, key, value }] = numbered (rows ++ [(key, value)]) := by
    intro hacc
    rw [numbered_concat, h.seq, Nat.mod_eq_of_lt (hmany hacc)]
  have hpush := push_leads hheld h.unspoiled hkey hvalue
  cases hrun : (RecordSpool.push key value).run s with
  | mk out t =>
    cases out with
    | ok _ =>
      obtain ⟨hacc, hheld', hspoiled, hnext, -, -, hlater⟩ := hpush.post hrun
      rw [hrow hacc] at hheld'
      rw [if_pos hacc]
      exact ⟨hheld', h.accepts_concat hacc, by simpa [h.seq] using hnext, hspoiled, h.calm.later hlater⟩
    | error e =>
      rcases hpush.fault hrun with ⟨rfl, hrefused⟩ | ⟨hacc, hblame, -⟩
      · rw [if_neg]
        · exact h
        · rintro ⟨hvalid, d, hdigest⟩
          rcases hrefused with he | he
          · rw [hvalid] at he
            cases he
          · rw [hdigest] at he
            cases he
      · rw [hrow hacc] at hblame
        exact absurd hblame (h.blameless henc (h.accepts_concat hacc))

theorem SpoolSound.flush (h : SpoolSound enc rows s) (henc : enc.Ranks) : SpoolSound enc rows (RecordSpool.flush.run s).2 := by
  obtain ⟨contents, hheld⟩ := h.holds
  have hflush := flush_leads hheld h.unspoiled
  cases hrun : RecordSpool.flush.run s with
  | mk out t =>
    cases out with
    | ok _ =>
      obtain ⟨⟨hheld', -⟩, hkept⟩ := hflush.post hrun
      exact ⟨hheld', h.accepted, hkept.nextSeq.trans h.seq, hkept.spoiled.trans h.unspoiled, h.calm.later hkept.fate⟩
    | error e =>
      obtain ⟨hblame, -⟩ := hflush.fault hrun
      exact absurd hblame (h.blameless henc h.accepted)

theorem SpoolSound.setBudget (h : SpoolSound enc rows s) (budget : Nat) : SpoolSound enc rows (s.setBudget budget) := by
  obtain ⟨contents, hheld⟩ := h.holds
  exact ⟨⟨contents, hheld.setBudget budget⟩, h.accepted, h.seq, h.unspoiled, h.calm⟩

/-- Every run of calls leaves the spool sound, with the rows whose keys were taken. -/
theorem SpoolSound.run (henc : enc.Ranks) (ops : List SpoolOp) (h : SpoolSound enc rows s) (hfits : ∀ op ∈ ops, op.Fits)
    (hmany : (rows ++ pushedRows enc ops).length ≤ 2 ^ 64) :
    SpoolSound enc (rows ++ pushedRows enc ops) (ops.foldl SpoolOp.after s) := by
  induction ops generalizing rows s with
  | nil => simpa [pushedRows] using h
  | cons op ops ih =>
    have hrest : ∀ op ∈ ops, op.Fits := fun op' hop => hfits op' (mem_cons_of_mem _ hop)
    rw [foldl_cons]
    cases op with
    | push key value =>
      obtain ⟨hkey, hvalue⟩ := hfits _ mem_cons_self
      have hrow : (if enc.Accepts key then rows ++ [(key, value)] else rows) ++ pushedRows enc ops =
          rows ++ pushedRows enc (.push key value :: ops) := by
        rw [pushedRows]
        split <;> simp
      rw [← hrow] at hmany ⊢
      apply ih (h.push henc hkey hvalue fun hacc => ?_) hrest hmany
      simp only [if_pos hacc, length_append, length_singleton] at hmany
      omega
    | flush => exact ih (h.flush henc) hrest hmany
    | setBudget budget => exact ih (h.setBudget budget) hrest hmany

end

/-- The external sort is a stable sort. Whatever spills, merges and rewrites took place, the
stream gives the rows whose keys were taken, each once, by key and then by arrival. -/
theorem spool_sorts_stably (enc : KeyEncoding) (henc : enc.Ranks) (budget : Nat) (fate : Fate) (hcalm : fate.Calm)
    (ops : List SpoolOp) (hfits : ∀ key value, .push key value ∈ ops → key.length ≤ 65535 ∧ value.length < 2 ^ 32)
    (hmany : (pushedRows enc ops).length ≤ 2 ^ 64) :
    ∃ src t rs, RecordSpool.intoSorted.run (ops.foldl SpoolOp.after (RecordSpool.new enc budget fate)) = (.ok src, t) ∧
      Streams src rs none ∧ rs.Perm (numbered (pushedRows enc ops)) ∧
      rs.Pairwise fun a b =>
        enc.compare a.key b.key = .ok .lt ∨ enc.compare a.key b.key = .ok .eq ∧ a.seq < b.seq := by
  have hops : ∀ op ∈ ops, op.Fits := by
    intro op hop
    cases op with
    | push key value =>
      obtain ⟨hkey, hvalue⟩ := hfits key value hop
      exact ⟨Nat.lt_of_le_of_lt hkey (by decide), hvalue⟩
    | flush => trivial
    | setBudget _ => trivial
  have hsound : SpoolSound enc (pushedRows enc ops) (ops.foldl SpoolOp.after (RecordSpool.new enc budget fate)) := by
    have hnew : SpoolSound enc [] (RecordSpool.new enc budget fate) := .new hcalm budget
    simpa using hnew.run henc ops hops (by simpa using hmany)
  generalize ops.foldl SpoolOp.after (RecordSpool.new enc budget fate) = s at hsound
  obtain ⟨contents, hheld⟩ := hsound.holds
  exact hheld.sorted henc (accepts_numbered hsound.accepted) (nodup_numbered _) hsound.unspoiled hsound.calm

theorem spool_sorts_stably_three :
    ∃ src t rs, RecordSpool.intoSorted.run
        ([SpoolOp.push [2] [1], .flush, .push [1] [], .push [2] [0]].foldl SpoolOp.after (RecordSpool.new asciiEncoding 0 {})) =
        (.ok src, t) ∧
      Streams src rs none ∧ rs.Perm (numbered [([2], [1]), ([1], []), ([2], [0])]) ∧
      rs.Pairwise fun a b => asciiEncoding.compare a.key b.key = .ok .lt ∨
        asciiEncoding.compare a.key b.key = .ok .eq ∧ a.seq < b.seq :=
  spool_sorts_stably asciiEncoding ascii_orderedBy.ranks 0 {} (fun _ => ⟨rfl, rfl⟩) _
    (by intro key value h; simp at h; rcases h with ⟨rfl, rfl⟩ | ⟨rfl, rfl⟩ | ⟨rfl, rfl⟩ <;> simp) (by decide)

end DryDb
