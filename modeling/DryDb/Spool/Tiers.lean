import DryDb.Lib.Positional
import DryDb.Spool.Streams
/-!
# How often records are written

The runs of a spool count its spills in base 16: a spill adds a run of level 0, and sixteen
runs of one level become one of the next. A run of level `l` holds the records of `16 ^ l`
spills in a row and has been written `l + 1` times. Rewriting the file leaves the runs as they
are; it happens once more than half of the file is dead, and then at least as much was written
since the last time as it copies. So no byte is written more than twice per level.
-/

namespace DryDb

open RecordSpool List

/-! ## The books -/

/-- Bytes of the records in the runs. -/
def liveBytes (contents : List (List Record)) : Nat := (encodeAll contents.flatten).length

/-- Bytes that spills and merges wrote to get the runs to their levels. -/
def movedBytes (levels : List Nat) (contents : List (List Record)) : Nat :=
  (List.zipWith (fun level rs => (level + 1) * (encodeAll rs).length) levels contents).sum

theorem encodeAll_length_perm {as bs : List Record} (h : as.Perm bs) : (encodeAll as).length = (encodeAll bs).length :=
  (h.flatMap_right Record.encode).length_eq

theorem liveBytes_append (cs ds : List (List Record)) : liveBytes (cs ++ ds) = liveBytes cs + liveBytes ds := by
  rw [liveBytes, flatten_append, encodeAll_append, length_append]
  rfl

@[simp] theorem liveBytes_singleton (rs : List Record) : liveBytes [rs] = (encodeAll rs).length := by
  simp [liveBytes]

theorem movedBytes_append {ls ms : List Nat} {cs ds : List (List Record)} (h : ls.length = cs.length) :
    movedBytes (ls ++ ms) (cs ++ ds) = movedBytes ls cs + movedBytes ms ds := by
  rw [movedBytes, zipWith_append h, sum_append]
  rfl

@[simp] theorem movedBytes_singleton (level : Nat) (rs : List Record) :
    movedBytes [level] [rs] = (level + 1) * (encodeAll rs).length := by
  simp [movedBytes]

/-- Runs of one level have all been written equally often. -/
theorem movedBytes_replicate (l : Nat) (cs : List (List Record)) :
    movedBytes (List.replicate cs.length l) cs = (l + 1) * liveBytes cs := by
  induction cs with
  | nil => simp [movedBytes, liveBytes]
  | cons c cs ih =>
    have hcons : movedBytes ([l] ++ List.replicate cs.length l) ([c] ++ cs) =
        movedBytes [l] [c] + movedBytes (List.replicate cs.length l) cs := movedBytes_append rfl
    have hlive := liveBytes_append [c] cs
    rw [singleton_append, singleton_append] at hcons
    rw [singleton_append] at hlive
    rw [length_cons, replicate_succ, hcons, hlive, ih, movedBytes_singleton, liveBytes_singleton, Nat.mul_add]

variable {levels : List Nat} {contents : List (List Record)} {groups : List (List (List Record))} {runs : List SpoolRun}
  {file value : Bytes} {r : RunReader} {s : RecordSpool}

/-- No record has been written more often than its level says. -/
theorem movedBytes_le {n : Nat} (h : ∀ l ∈ levels, l ≤ n) :
    movedBytes levels contents ≤ (n + 1) * liveBytes contents := by
  induction levels generalizing contents with
  | nil => simp [movedBytes]
  | cons l levels ih =>
    cases contents with
    | nil => simp [movedBytes]
    | cons c contents =>
      have hrest : movedBytes levels contents ≤ (n + 1) * liveBytes contents := ih fun m hm => h m (mem_cons_of_mem _ hm)
      have hhead : (l + 1) * (encodeAll c).length ≤ (n + 1) * (encodeAll c).length :=
        Nat.mul_le_mul_right _ (by have := h l mem_cons_self; omega)
      have hmoved : movedBytes (l :: levels) (c :: contents) =
          (l + 1) * (encodeAll c).length + movedBytes levels contents := by
        simp [movedBytes]
      have hlive : liveBytes (c :: contents) = (encodeAll c).length + liveBytes contents := by
        simp [liveBytes, encodeAll_append]
      rw [hmoved, hlive, Nat.mul_add]
      omega

theorem flatten_length_of_levels (h : List.Forall₂ (fun level group => group.length = mergeFanIn ^ level) levels groups) :
    groups.flatten.length = weight mergeFanIn levels := by
  induction h with
  | nil => rfl
  | cons hlevel _ ih => rw [weight_cons, ← ih, flatten_cons, length_append, hlevel]

theorem flatten_perm_of_groups (h : List.Forall₂ (fun rs group => rs.Perm group.flatten) contents groups) :
    contents.flatten.Perm groups.flatten.flatten := by
  induction h with
  | nil => exact .refl _
  | cons hperm _ ih =>
    rw [flatten_cons, flatten_cons, flatten_append]
    exact hperm.append ih

/-- The books of a spool whose runs have these levels and contents, after the spills
`batches`. -/
structure Tiered (levels : List Nat) (contents batches : List (List Record)) (writePos written : Nat) : Prop where
  groups : ∃ groups : List (List (List Record)), groups.flatten = batches ∧
    List.Forall₂ (fun level group => group.length = mergeFanIn ^ level) levels groups ∧
    List.Forall₂ (fun rs group => rs.Perm group.flatten) contents groups
  live : liveBytes contents ≤ writePos
  cost : written + writePos ≤ 2 * movedBytes levels contents + liveBytes contents

namespace Tiered

variable {levels : List Nat} {contents batches : List (List Record)} {writePos written : Nat} {rs : List Record}

theorem length_eq (h : Tiered levels contents batches writePos written) : levels.length = contents.length := by
  obtain ⟨groups, -, hlevels, hcontents⟩ := h.groups
  rw [hlevels.length_eq, hcontents.length_eq]

/-- The levels weigh as much as there were spills. -/
theorem weight_eq (h : Tiered levels contents batches writePos written) : weight mergeFanIn levels = batches.length := by
  obtain ⟨groups, rfl, hlevels, -⟩ := h.groups
  exact (flatten_length_of_levels hlevels).symm

/-- What was spilled is what the runs hold. -/
theorem live_eq (h : Tiered levels contents batches writePos written) : liveBytes contents = liveBytes batches := by
  obtain ⟨groups, rfl, -, hcontents⟩ := h.groups
  exact encodeAll_length_perm (flatten_perm_of_groups hcontents)

/-- A spill. -/
theorem spill (h : Tiered levels contents batches writePos written) {batch : List Record} (hperm : rs.Perm batch) :
    Tiered (levels ++ [0]) (contents ++ [rs]) (batches ++ [batch]) (writePos + (encodeAll rs).length)
      (written + (encodeAll rs).length) := by
  obtain ⟨groups, hgroups, hlevels, hcontents⟩ := h.groups
  have hlive := h.live
  have hcost := h.cost
  refine ⟨⟨groups ++ [[batch]], by simp [hgroups], ?_, ?_⟩, ?_, ?_⟩
  · exact rel_append hlevels (.cons rfl .nil)
  · exact rel_append hcontents (.cons (by simpa using hperm) .nil)
  · rw [liveBytes_append, liveBytes_singleton]
    omega
  · rw [liveBytes_append, liveBytes_singleton, movedBytes_append h.length_eq, movedBytes_singleton]
    omega

/-- Sixteen runs of one level become one of the next. -/
theorem merge {front : List Nat} {l : Nat}
    (h : Tiered (front ++ List.replicate mergeFanIn l) contents batches writePos written)
    (hperm : rs.Perm (contents.drop front.length).flatten) :
    Tiered (front ++ [l + 1]) (contents.take front.length ++ [rs]) batches (writePos + (encodeAll rs).length)
      (written + (encodeAll rs).length) := by
  obtain ⟨groups, hgroups, hlevels, hcontents⟩ := h.groups
  have hsplit := take_append_drop front.length contents
  have hlen := h.length_eq
  rw [length_append, length_replicate] at hlen
  have hfront : (contents.take front.length).length = front.length := by
    rw [length_take]
    omega
  have htail : (contents.drop front.length).length = mergeFanIn := by
    rw [length_drop]
    omega
  have hbytes : (encodeAll rs).length = liveBytes (contents.drop front.length) := encodeAll_length_perm hperm
  have hlive : liveBytes contents = liveBytes (contents.take front.length) + (encodeAll rs).length := by
    rw [hbytes, ← liveBytes_append, hsplit]
  have hmoved : movedBytes (front ++ List.replicate mergeFanIn l) contents =
      movedBytes front (contents.take front.length) + (l + 1) * (encodeAll rs).length := by
    conv_lhs => rw [← hsplit]
    rw [movedBytes_append hfront.symm, ← htail, movedBytes_replicate, hbytes]
  have hlevels_front := forall₂_take front.length hlevels
  have hlevels_tail := forall₂_drop front.length hlevels
  rw [take_left] at hlevels_front
  rw [drop_left] at hlevels_tail
  have hl := h.live
  have hc := h.cost
  refine ⟨⟨groups.take front.length ++ [(groups.drop front.length).flatten], ?_, ?_, ?_⟩, ?_, ?_⟩
  · rw [flatten_append, flatten_singleton, ← flatten_append, take_append_drop, hgroups]
  · apply rel_append hlevels_front
    refine .cons ?_ .nil
    rw [flatten_length_of_levels hlevels_tail, weight_replicate, Nat.pow_succ, Nat.mul_comm]
  · apply rel_append (forall₂_take front.length hcontents)
    exact .cons (hperm.trans (flatten_perm_of_groups (forall₂_drop front.length hcontents))) .nil
  · rw [liveBytes_append, liveBytes_singleton]
    omega
  · rw [liveBytes_append, liveBytes_singleton, movedBytes_append hfront.symm, movedBytes_singleton]
    rw [hmoved, hlive] at hc
    have : (l + 1 + 1) * (encodeAll rs).length = (l + 1) * (encodeAll rs).length + (encodeAll rs).length := by ring
    omega

/-- Writing the live runs out to a fresh file. -/
theorem rewrite (h : Tiered levels contents batches writePos written) (hdead : liveBytes contents * compactAt < writePos) :
    Tiered levels contents batches (liveBytes contents) (written + liveBytes contents) := by
  have hcost := h.cost
  unfold compactAt at hdead
  exact ⟨h.groups, Nat.le_refl _, by omega⟩

end Tiered

/-! ## The calls -/

/-- The newest runs are sixteen of one level. -/
theorem tierFull_some {level : Nat} (h : tierFull runs = some level) :
    mergeFanIn ≤ runs.length ∧
      runs.map SpoolRun.level = (runs.take (runs.length - mergeFanIn)).map SpoolRun.level ++ List.replicate mergeFanIn level := by
  unfold tierFull at h
  cases htail : runs.drop (runs.length - mergeFanIn) with
  | nil => rw [htail] at h; cases h
  | cons run rest =>
    simp only [htail] at h
    split at h
    · rename_i hfull
      obtain ⟨hlen, hall⟩ := hfull
      obtain rfl := Option.some.inj h
      refine ⟨hlen, ?_⟩
      conv_lhs => rw [← take_append_drop (runs.length - mergeFanIn) runs, map_append, htail]
      congr 1
      apply eq_replicate_iff.2 ⟨?_, ?_⟩
      · rw [length_map, ← htail, length_drop]
        omega
      · intro l hl
        obtain ⟨r, hr, rfl⟩ := mem_map.1 hl
        rcases mem_cons.1 hr with rfl | hr
        · rfl
        · exact beq_iff_eq.1 (all_eq_true.1 hall r hr)
    · cases h

theorem tierFull_none (h : tierFull runs = none) (front : List Nat) (l : Nat) :
    runs.map SpoolRun.level ≠ front ++ List.replicate mergeFanIn l := by
  intro heq
  have hlen := congrArg List.length heq
  rw [length_map, length_append, length_replicate] at hlen
  have htail : (runs.drop (runs.length - mergeFanIn)).map SpoolRun.level = List.replicate mergeFanIn l := by
    rw [map_drop, heq, hlen, Nat.add_sub_cancel, drop_left]
  unfold tierFull at h
  cases hdrop : runs.drop (runs.length - mergeFanIn) with
  | nil => rw [hdrop] at htail; cases htail
  | cons run rest =>
    rw [hdrop, map_cons] at htail
    have hrun : run.level = l := eq_of_mem_replicate (htail ▸ mem_cons_self)
    simp only [hdrop] at h
    rw [if_pos] at h
    · cases h
    · refine ⟨by omega, all_eq_true.2 fun r hr => ?_⟩
      have : r.level = l := eq_of_mem_replicate (htail ▸ mem_cons_of_mem _ (mem_map_of_mem hr))
      rw [this, hrun]
      exact beq_self_eq_true l

/-- What the spool holds and what its books say, while levels may still have to be traded. -/
structure Carrying (enc : KeyEncoding) (taken : List Record) (batches : List (List Record)) (s : RecordSpool) : Prop where
  holds : ∃ contents, SpoolHolds enc taken s contents ∧
    Tiered (s.runs.map SpoolRun.level) contents batches s.writePos s.written
  carries : Carries mergeFanIn (s.runs.map SpoolRun.level)

/-- The same when everything is traded. -/
structure Settled (enc : KeyEncoding) (taken : List Record) (batches : List (List Record)) (s : RecordSpool) : Prop where
  holds : ∃ contents, SpoolHolds enc taken s contents ∧
    Tiered (s.runs.map SpoolRun.level) contents batches s.writePos s.written
  tidy : Tidy mergeFanIn (s.runs.map SpoolRun.level)

section

variable {enc : KeyEncoding} {taken : List Record} {batches : List (List Record)} {s : RecordSpool} {runs : List SpoolRun}
  {file : Bytes}

/-- One merge of the newest runs, or none because everything is traded. -/
theorem mergeNewest_carries (h : Carrying enc taken batches s) :
    Spools (Refuses enc taken) mergeNewest s fun more t =>
      if more then Carrying enc taken batches t ∧ t.records = s.records ∧ t.runs.length < s.runs.length
      else Settled enc taken batches t ∧ t.records = s.records := by
  obtain ⟨contents, hheld, htiers⟩ := h.holds
  apply (mergeNewest_spools hheld).mono
  · rintro more t ht -
    cases more with
    | true =>
      obtain ⟨level, rs, hfull, ht, hperm, hrecords, hwritten⟩ := ht
      obtain ⟨hlen, hlevels⟩ := tierFull_some hfull
      have hfan : mergeFanIn = 16 := rfl
      have hkeep : ((s.runs.take (s.runs.length - mergeFanIn)).map SpoolRun.level).length = s.runs.length - mergeFanIn := by
        rw [length_map, length_take]
        omega
      have hcarries := h.carries
      rw [hlevels] at htiers hcarries
      rw [← hkeep] at hperm ht
      have hlevels' : t.runs.map SpoolRun.level =
          (s.runs.take (s.runs.length - mergeFanIn)).map SpoolRun.level ++ [level + 1] := by
        rw [hwritten.runs, map_append]
        rfl
      refine ⟨⟨⟨_, ht, ?_⟩, ?_⟩, hrecords, ?_⟩
      · rw [hlevels', hwritten.writePos, hwritten.written]
        exact htiers.merge hperm
      · rw [hlevels']
        exact hcarries.trade (by decide)
      · rw [hwritten.runs, length_append, length_take, length_singleton]
        omega
    | false =>
      obtain ⟨hnone, rfl⟩ := ht
      exact ⟨⟨⟨contents, hheld, htiers⟩, h.carries.tidy (tierFull_none hnone)⟩, rfl⟩
  · exact fun _ he => he

theorem mergeFull_settles (h : Carrying enc taken batches s) :
    Spools (Refuses enc taken) (mergeFull s.runs.length) s fun _ t =>
      Settled enc taken batches t ∧ t.records = s.records := by
  unfold mergeFull
  apply Spools.repeatWhile (I := fun n t => Carrying enc taken batches t ∧ t.records = s.records ∧ t.runs.length ≤ n)
  · rintro n t ⟨ht, hrecords, hlen⟩
    apply (mergeNewest_carries ht).mono
    · rintro more u hu -
      cases more with
      | true => exact ⟨hu.1, hu.2.1.trans hrecords, by have := hu.2.2; omega⟩
      | false => exact ⟨hu.1, hu.2.trans hrecords⟩
    · exact fun _ he => he
  · rintro t ⟨ht, hrecords, hlen⟩
    refine ⟨⟨ht.holds, ht.carries.tidy fun front l heq => ?_⟩, hrecords⟩
    have := congrArg List.length heq
    rw [length_map, length_append, length_replicate] at this
    have hfan : mergeFanIn = 16 := rfl
    omega
  · exact ⟨h, rfl, Nat.le_refl _⟩

theorem chunks_one {turns : Nat} (h : runs.length ≤ turns) : chunks 1 turns runs = runs.map fun run => [run] := by
  induction turns generalizing runs with
  | zero =>
    obtain rfl := length_eq_zero_iff.1 (Nat.le_zero.1 h)
    rfl
  | succ turns ih =>
    cases runs with
    | nil => rfl
    | cons run runs =>
      rw [chunks, map_cons, drop_succ_cons, drop_zero, ih (by simpa using h)]
      · rfl
      · simp

/-- Runs copied one by one hold what they held. -/
theorem groupsMerged_single {grouped : List (List (List Record))}
    {merged : List (List Record)} (h : List.Forall₂ (RunsHold file) (runs.map fun run => [run]) grouped)
    (hm : GroupsMerged enc taken grouped merged) : merged = grouped.flatten := by
  induction runs generalizing grouped merged with
  | nil =>
    cases h
    cases hm
    rfl
  | cons run runs ih =>
    cases h with
    | cons hgroup hrest =>
      cases hm with
      | cons hmerge hmrest =>
        cases hgroup with
        | cons _ hnil =>
          cases hnil
          rw [ih hrest hmrest, hmerge.single]
          rfl

theorem RunsHold.live_eq {contents : List (List Record)}
    (h : RunsHold file runs contents) : (runs.map SpoolRun.len).sum = liveBytes contents := by
  induction h with
  | nil => rfl
  | cons hr _ ih =>
    have hlen := hr.stop
    rw [map_cons, sum_cons, ih, ← singleton_append, liveBytes_append, liveBytes_singleton, SpoolRun.len]
    omega

theorem compact_settles (h : Settled enc taken batches s) :
    Spools (Refuses enc taken) compact s fun _ t => Settled enc taken batches t ∧ t.records = s.records := by
  obtain ⟨contents, hheld, htiers⟩ := h.holds
  unfold compact
  apply Spools.get
  dsimp only
  split
  · rename_i hdead
    rw [hheld.runs.live_eq] at hdead
    apply (replaceRuns_spools hheld (by decide)).mono
    · rintro _ t ⟨grouped, merged, ht, hflat, hmerged, hgrouped, hlevels, hrecords, hpos, hwritten⟩ -
      rw [chunks_one (Nat.le_refl _)] at hgrouped hlevels
      obtain rfl : merged = contents := (groupsMerged_single hgrouped hmerged).trans hflat.symm
      have hsame : t.runs.map SpoolRun.level = s.runs.map SpoolRun.level := by
        rw [hlevels, map_map]
        rfl
      refine ⟨⟨⟨merged, ht, ?_⟩, ?_⟩, hrecords⟩
      · rw [hsame, hwritten, hpos]
        exact htiers.rewrite hdead.1
      · rw [hsame]
        exact h.tidy
    · exact fun _ he => he
  · exact Spools.pure ⟨h, rfl⟩

/-- A spill of a buffer that holds something is one more batch. -/
theorem spill_settles (h : Settled enc taken batches s) (hbuffer : s.records ≠ []) :
    Spools (Refuses enc taken) spill s fun _ t => Settled enc taken (batches ++ [s.records]) t ∧ t.records = [] := by
  obtain ⟨contents, hheld, htiers⟩ := h.holds
  unfold spill
  apply Spools.get
  rw [if_neg hbuffer]
  apply Spools.bind (writeRun_spools hheld)
  rintro _ t ⟨ht, hempty, hwritten⟩ -
  have hlevels : t.runs.map SpoolRun.level = s.runs.map SpoolRun.level ++ [0] := by
    rw [hwritten.runs, take_length, map_append]
    rfl
  have hcarrying : Carrying enc taken (batches ++ [s.records]) t := by
    refine ⟨⟨_, ht, ?_⟩, ?_⟩
    · rw [hlevels, hwritten.writePos, hwritten.written]
      exact htiers.spill (s.fate.sorter.perm _ _)
    · rw [hlevels]
      exact h.tidy.add
  unfold mergeTiers
  apply Spools.get
  apply Spools.bind (mergeFull_settles hcarrying)
  rintro _ u ⟨hu, hrecords⟩ -
  apply (compact_settles hu).mono
  · rintro _ v ⟨hv, hrecords'⟩ -
    exact ⟨hv, by rw [hrecords', hrecords, hempty]⟩
  · exact fun _ he => he

end

/-! ## Every run of calls -/

/-- What a call spills: the buffer with the record it takes, when it ends with an empty buffer. -/
def SpoolOp.spilled (s : RecordSpool) : SpoolOp → List (List Record)
  | push key value =>
    match (RecordSpool.push key value).run s with
    | (.ok (), t) => if t.records = [] then [s.records ++ [{ seq := s.nextSeq, key, value }]] else []
    | (.error _, _) => []
  | flush => if s.records = [] then [] else [s.records]
  | setBudget _ => []

/-- The non-empty spills of a run of calls. -/
def spills (s : RecordSpool) : List SpoolOp → List (List Record)
  | [] => []
  | op :: ops => op.spilled s ++ spills (op.after s) ops

section

variable {enc : KeyEncoding} {taken : List Record} {batches : List (List Record)} {s : RecordSpool} {value : Bytes}

/-- The records a call writes out, or would: the buffer, and the record that fills it. -/
def SpoolOp.outgoing (s : RecordSpool) : SpoolOp → List Record
  | push key value =>
    if s.encoding.Accepts key ∧ s.budget ≤ (withRecord s key value).bufferedBytes then
      s.records ++ [{ seq := s.nextSeq, key, value }]
    else []
  | flush => s.records
  | setBudget _ => []

/-- The records a run of calls writes out. -/
def outgoing (s : RecordSpool) : List SpoolOp → List Record
  | [] => []
  | op :: ops => op.outgoing s ++ outgoing (op.after s) ops

/-- The spills so far are on the books and nothing has gone wrong. Nothing is said about the lengths of what the
buffer holds. -/
structure Tallied (enc : KeyEncoding) (batches : List (List Record)) (s : RecordSpool) : Prop where
  settled : ∃ taken, Settled enc taken batches { s with records := [] } ∧ ∀ r ∈ taken, enc.Accepts r.key
  buffer : ∀ r ∈ s.records, enc.Accepts r.key ∧ r.seq < 2 ^ 64
  unspoiled : s.spoiled = none
  calm : s.fate.Calm

/-- With a buffer that fits, the whole spool is settled. -/
theorem Tallied.whole (h : Tallied enc batches s) (hfits : ∀ r ∈ s.records, r.key.length < 2 ^ 32 ∧ r.value.length < 2 ^ 32) :
    ∃ taken, Settled enc taken batches s ∧ ∀ r ∈ taken, enc.Accepts r.key := by
  obtain ⟨taken, ⟨⟨contents, hheld, htiers⟩, htidy⟩, haccepts⟩ := h.settled
  have hperm : contents.flatten.Perm taken := by simpa using hheld.perm
  refine ⟨taken ++ s.records, ⟨⟨contents, ⟨hheld.encoding, hheld.seq, fun r hr => ?_, hheld.file, hheld.runs, hperm.append_right _,
    fun ho => hheld.ordered (ho.mono fun r hr => mem_append_left _ hr)⟩, htiers⟩, htidy⟩, fun r hr => ?_⟩
  · exact (mem_append.1 hr).elim (hheld.fits r) fun hr => ⟨(h.buffer r hr).2, (hfits r hr).1, (hfits r hr).2⟩
  · exact (mem_append.1 hr).elim (haccepts r) fun hr => (h.buffer r hr).1

theorem Settled.tallied (h : Settled enc taken batches s) (henc : enc.Ranks) (haccepts : ∀ r ∈ taken, enc.Accepts r.key)
    (hs : s.spoiled = none) (hcalm : s.fate.Calm) : Tallied enc batches s := by
  obtain ⟨contents, hheld, htiers⟩ := h.holds
  have hmem : ∀ r, r ∈ contents.flatten ∨ r ∈ s.records → r ∈ taken := fun r hr => hheld.perm.mem_iff.1 (mem_append.2 hr)
  have hordered := hheld.ordered (henc.ordersRecords haccepts)
  refine ⟨⟨contents.flatten, ⟨⟨contents, ⟨hheld.encoding, hheld.seq, fun r hr => hheld.fits r (hmem r (.inl hr)), hheld.file,
    hheld.runs, by simp, fun _ => hordered⟩, htiers⟩, h.tidy⟩, fun r hr => haccepts r (hmem r (.inl hr))⟩, fun r hr => ?_, hs, hcalm⟩
  exact ⟨haccepts r (hmem r (.inr hr)), (hheld.fits r (hmem r (.inr hr))).seq⟩

/-- A spill of records that fit. -/
theorem Tallied.spill (h : Tallied enc batches s) (henc : enc.Ranks) (hne : s.records ≠ [])
    (hfits : ∀ r ∈ s.records, r.key.length < 2 ^ 32 ∧ r.value.length < 2 ^ 32) :
    spillOrSpoil.Leads s (fun _ t => Tallied enc (batches ++ [s.records]) t ∧ t.records = []) fun _ _ => False := by
  obtain ⟨taken, hsettled, haccepts⟩ := h.whole hfits
  refine (spillOrSpoil_leads (spill_settles hsettled hne)).mono ?_ ?_
  · rintro _ t ⟨⟨ht, hempty⟩, hkept⟩
    exact ⟨ht.tallied henc haccepts (hkept.spoiled.trans h.unspoiled) (h.calm.later hkept.fate), hempty⟩
  · rintro e t ⟨hblame | hrefuses, -⟩
    · exact h.calm.not_blames hblame
    · exact henc.not_refuses haccepts hrefuses

theorem Tallied.withRecord (h : Tallied enc batches s) {key : Bytes} (hkey : enc.Accepts key) :
    Tallied enc batches (DryDb.withRecord s key value) := by
  obtain ⟨taken, ⟨⟨contents, hheld, htiers⟩, htidy⟩, haccepts⟩ := h.settled
  refine ⟨⟨taken, ⟨⟨contents, ⟨hheld.encoding, Nat.mod_lt _ (by decide), hheld.fits, hheld.file, hheld.runs, hheld.perm,
    hheld.ordered⟩, htiers⟩, htidy⟩, haccepts⟩, fun r hr => ?_, h.unspoiled, h.calm.later s.fate.later_next⟩
  rcases mem_append.1 (show r ∈ s.records ++ [_] from hr) with hr | hr
  · exact h.buffer r hr
  · obtain rfl := mem_singleton.1 hr
    exact ⟨hkey, hheld.seq⟩

theorem Tallied.push (h : Tallied enc batches s) (henc : enc.Ranks) {key : Bytes}
    (hfits : ∀ r ∈ (SpoolOp.push key value).outgoing s, r.key.length < 2 ^ 32 ∧ r.value.length < 2 ^ 32) :
    (RecordSpool.push key value).Leads s
      (fun _ t => Tallied enc (batches ++ if t.records = [] then [s.records ++ [{ seq := s.nextSeq, key, value }]] else []) t)
      fun _ t => t = s := by
  obtain ⟨_, ⟨⟨_, hheld, -⟩, -⟩, -⟩ := h.settled
  obtain rfl : s.encoding = enc := hheld.encoding
  refine push_leads_of h.unspoiled (fun _ _ => rfl) fun hacc => Act.Leads.ite (fun hfull => ?_) fun _ => Act.Leads.pure ?_
  · rw [SpoolOp.outgoing, if_pos ⟨hacc, hfull⟩] at hfits
    refine ((h.withRecord hacc).spill henc (by simp [DryDb.withRecord]) hfits).mono ?_ fun _ _ hno => hno.elim
    rintro _ t ⟨ht, hempty⟩
    rw [if_pos hempty]
    exact ht
  · rw [if_neg (by simp [DryDb.withRecord]), append_nil]
    exact h.withRecord hacc

/-- One call: another spill on the books, or none. -/
theorem Tallied.step (h : Tallied enc batches s) (henc : enc.Ranks) (op : SpoolOp)
    (hfits : ∀ r ∈ op.outgoing s, r.key.length < 2 ^ 32 ∧ r.value.length < 2 ^ 32) :
    Tallied enc (batches ++ op.spilled s) (op.after s) := by
  cases op with
  | push key value =>
    have hpush := h.push henc hfits
    simp only [SpoolOp.spilled, SpoolOp.after, SpoolOp.run]
    cases hrun : (RecordSpool.push key value).run s with
    | mk out t =>
      cases out with
      | ok _ => exact hpush.post hrun
      | error e =>
        obtain rfl := hpush.fault hrun
        simpa using h
  | flush =>
    have hflush : RecordSpool.flush.Leads s (fun _ t => Tallied enc (batches ++ if s.records = [] then [] else [s.records]) t)
        fun _ _ => False := by
      refine flush_leads_of h.unspoiled ?_
      by_cases hempty : s.records = []
      · have hspill : Spools (fun _ => False) RecordSpool.spill s fun _ t => t = s := by
          unfold RecordSpool.spill
          apply Spools.get
          rw [if_pos hempty]
          exact Spools.pure rfl
        rw [if_pos hempty, append_nil]
        refine (spillOrSpoil_leads hspill).mono ?_ fun _ _ hno => hno.1.elim h.calm.not_blames id
        rintro _ _ ⟨rfl, -⟩
        exact h
      · rw [if_neg hempty]
        exact (h.spill henc hempty hfits).mono (fun _ _ ht => ht.1) fun _ _ hno => hno
    simp only [SpoolOp.spilled, SpoolOp.after, SpoolOp.run]
    cases hrun : RecordSpool.flush.run s with
    | mk out t =>
      cases out with
      | ok _ => exact hflush.post hrun
      | error e => exact (hflush.fault hrun).elim
  | setBudget budget =>
    obtain ⟨taken, ⟨⟨contents, hheld, htiers⟩, htidy⟩, haccepts⟩ := h.settled
    rw [SpoolOp.spilled, append_nil]
    exact ⟨⟨taken, ⟨⟨contents, hheld.setBudget budget, htiers⟩, htidy⟩, haccepts⟩, h.buffer, h.unspoiled, h.calm⟩

theorem Tallied.run (henc : enc.Ranks) (ops : List SpoolOp) (h : Tallied enc batches s)
    (hfits : ∀ r ∈ outgoing s ops, r.key.length < 2 ^ 32 ∧ r.value.length < 2 ^ 32) :
    Tallied enc (batches ++ spills s ops) (ops.foldl SpoolOp.after s) := by
  induction ops generalizing batches s with
  | nil => simpa [spills] using h
  | cons op ops ih =>
    rw [spills, ← append_assoc]
    exact ih (h.step henc op fun r hr => hfits r (mem_append_left _ hr)) fun r hr => hfits r (mem_append_right _ hr)

end

/-! ## Base 16 -/

/-- Reading a run back when no read fails. -/
inductive ReadsBack (file : Bytes) : RunReader → List Record → Prop where
  | done {r r' : RunReader} (h : ((r.readNext file).run {}).1 = .ok (none, r')) : ReadsBack file r []
  | next {r r' : RunReader} {p : Pending} {value : Bytes} {rs : List Record}
      (h : ((r.readNext file).run {}).1 = .ok (some p, r')) (hvalue : ((readValue file p).run {}).1 = .ok value)
      (hrest : ReadsBack file r' rs) : ReadsBack file r ({ seq := p.seq, key := p.key, value } :: rs)

theorem calm_default : Fate.Calm {} := fun _ => ⟨rfl, rfl⟩

/-- What a run holds can be read back from it. -/
theorem RunHolds.readsBack {rs : List Record} (h : RunHolds file r.pos r.stop rs) :
    ReadsBack file r rs := by
  induction rs generalizing r with
  | nil =>
    obtain ⟨_, g, hrun, rfl, -⟩ := (readNext_nil h).calm calm_default
    exact .done (by rw [hrun])
  | cons x rs ih =>
    obtain ⟨_, g, hrun, ⟨p, rfl, hp⟩, -⟩ := (readNext_cons h).calm calm_default
    obtain ⟨_, g', hvalue, rfl, -⟩ := (readValue_fated hp).calm calm_default
    have hx : x = { seq := p.seq, key := p.key, value := x.value } := by rw [hp.seq, hp.key]
    rw [hx]
    exact .next (by rw [hrun]) (by rw [hvalue]) (ih h.pieces.2.2.2)

theorem RunsHold.readBack_groups (h : RunsHold file runs contents)
    (hlevels : List.Forall₂ (fun level group => group.length = mergeFanIn ^ level) (runs.map SpoolRun.level) groups)
    (hcontents : List.Forall₂ (fun rs group => rs.Perm group.flatten) contents groups) :
    List.Forall₂ (fun run group => group.length = 16 ^ run.level ∧
      ∃ rs, ReadsBack file (RunReader.new run) rs ∧ rs.Perm group.flatten) runs groups := by
  induction h generalizing groups with
  | nil =>
    cases hcontents
    exact .nil
  | cons hr _ ih =>
    cases hcontents with
    | cons hperm hcontents =>
      cases hlevels with
      | cons hlevel hlevels => exact .cons ⟨hlevel, _, RunHolds.readsBack hr, hperm⟩ (ih hlevels hcontents)

/-- The runs of a spool after the spills `batches`: their levels are the digits of the number
of spills in base 16, each holds the records of that many spills in a row, and no byte was
written more than twice per digit. -/
structure TierBounds (s : RecordSpool) (batches : List (List Record)) : Prop where
  sorted : (s.runs.map SpoolRun.level).Pairwise (· ≥ ·)
  digits : ∀ j, (s.runs.map SpoolRun.level).count j = (Nat.digits 16 batches.length).getD j 0
  groups : ∃ groups : List (List (List Record)), groups.flatten = batches ∧
    List.Forall₂ (fun run group => group.length = 16 ^ run.level ∧
      ∃ rs, ReadsBack (s.file.getD []) (RunReader.new run) rs ∧ rs.Perm group.flatten) s.runs groups
  few : s.runs.length ≤ 15 * (1 + Nat.log 16 batches.length)
  cost : s.written ≤ 2 * (1 + Nat.log 16 batches.length) * (encodeAll batches.flatten).length

theorem Settled.bounds {enc : KeyEncoding} {taken : List Record} {batches : List (List Record)}
    (h : Settled enc taken batches s) : TierBounds s batches := by
  obtain ⟨contents, hheld, htiers⟩ := h.holds
  have hweight := htiers.weight_eq
  have hfew : ∀ j, (s.runs.map SpoolRun.level).count j ≤ 15 := fun j => Nat.le_of_lt_succ (h.tidy.few j)
  have hlevel : ∀ l ∈ s.runs.map SpoolRun.level, l ≤ Nat.log 16 batches.length := by
    intro l hl
    rw [← hweight]
    exact level_le_log (by decide) hl
  constructor
  · exact h.tidy.sorted
  · intro j
    rw [← hweight]
    exact count_eq_digit (by decide) h.tidy.few j
  · obtain ⟨groups, hflat, hlevels, hcontents⟩ := htiers.groups
    exact ⟨groups, hflat, hheld.runs.readBack_groups hlevels hcontents⟩
  · have := length_le_of_count hfew fun l hl => Nat.lt_succ_of_le (hlevel l hl)
    rw [length_map] at this
    rwa [Nat.add_comm 1]
  · have hcost := htiers.cost
    have hlive := htiers.live
    have hmoved : movedBytes _ contents ≤ _ := movedBytes_le hlevel
    rw [htiers.live_eq] at hmoved hlive hcost
    change s.written ≤ 2 * (1 + Nat.log 16 batches.length) * liveBytes batches
    rw [Nat.mul_assoc, Nat.add_comm 1]
    omega

/-- The runs count the spills in base 16, and the disk traffic is logarithmic: in every run of calls in which no file
operation fails and the keys and values that are written out fit a record's header. -/
theorem spool_tiers_bounded (enc : KeyEncoding) (henc : enc.Ranks) (budget : Nat) (fate : Fate) (hcalm : fate.Calm)
    (ops : List SpoolOp)
    (hfits : ∀ r ∈ outgoing (RecordSpool.new enc budget fate) ops, r.key.length < 2 ^ 32 ∧ r.value.length < 2 ^ 32) :
    TierBounds (ops.foldl SpoolOp.after (RecordSpool.new enc budget fate)) (spills (RecordSpool.new enc budget fate) ops) := by
  have hnew : Settled enc [] [] (RecordSpool.new enc budget fate) := by
    refine ⟨⟨[], ⟨rfl, by simp [RecordSpool.new], by simp, rfl, .nil, .refl _, by simp⟩, ?_⟩, .nil, by simp [RecordSpool.new, mergeFanIn]⟩
    exact ⟨⟨[], rfl, .nil, .nil⟩, Nat.zero_le _, Nat.zero_le _⟩
  have h := (hnew.tallied henc (by simp) rfl hcalm).run henc ops hfits
  rw [nil_append] at h
  obtain ⟨taken, hsettled, -⟩ := h.settled
  have hbounds := hsettled.bounds
  exact ⟨hbounds.sorted, hbounds.digits, hbounds.groups, hbounds.few, hbounds.cost⟩

/-- Seventeen rows, each spilled on its own. -/
def seventeen : List SpoolOp := (List.range 17).flatMap fun i => [.push [UInt8.ofNat (17 - i)] [7], .flush]

set_option maxRecDepth 10000 in
/-- Sixteen of the spills are merged into one run, and the last stands behind it. -/
theorem spool_tiers_bounded_seventeen :
    let s := seventeen.foldl SpoolOp.after (RecordSpool.new asciiEncoding 0 {})
    s.runs.map SpoolRun.level = [1, 0] ∧ (spills (RecordSpool.new asciiEncoding 0 {}) seventeen).length = 17 ∧
      TierBounds s (spills (RecordSpool.new asciiEncoding 0 {}) seventeen) :=
  ⟨by decide +kernel, by decide +kernel,
    spool_tiers_bounded asciiEncoding ascii_orderedBy.ranks 0 {} calm_default seventeen (by decide +kernel)⟩

/-- A single run is left alone. -/
theorem mergeTiers_single {fault : Error → Prop} {run : SpoolRun} (h : s.runs = [run]) :
    Spools fault mergeTiers s fun _ t => t = s := by
  unfold mergeTiers
  apply Spools.get
  apply Spools.bind (Q := fun _ t => t = s)
  · unfold mergeFull
    apply Spools.repeatWhile (I := fun _ t => t = s)
    · rintro _ _ rfl
      unfold mergeNewest
      apply Spools.get
      rw [h, show tierFull [run] = none from rfl]
      exact Spools.pure rfl
    · exact fun _ ht => ht
    · rfl
  · rintro _ _ rfl -
    unfold compact
    apply Spools.get
    dsimp only
    rw [if_neg (by rw [h]; simp)]
    exact Spools.pure rfl

/-- The file of a spool that has spilled once: these bytes, as one run. -/
structure OneRun (bytes : Bytes) (t : RecordSpool) : Prop where
  runs : t.runs = [{ start := 0, stop := bytes.length, level := 0 }]
  file : t.file = some bytes
  writePos : t.writePos = bytes.length
  records : t.records = []

/-- A record as long as the buffer is spilled at once, as the only one of a run. -/
theorem push_spills {budget : Nat} {key : Bytes} (hlen : max budget minSpoolBudget ≤ key.length + value.length) :
    (RecordSpool.push key value).Leads (RecordSpool.new asciiEncoding budget {})
      (fun _ t => OneRun (Record.mk 0 key value).encode t ∧ (withRecord (RecordSpool.new asciiEncoding budget {}) key value).Kept t)
      fun _ _ => False := by
  apply push_leads_of rfl
  · rintro e (he | he)
    · cases he
    · cases he
  · intro _
    let s := withRecord (RecordSpool.new asciiEncoding budget {}) key value
    have hsorted : sortedBuffer s = [{ seq := 0, key, value }] :=
      perm_singleton.1 (s.fate.sorter.perm (order s.encoding) s.records)
    have hspill : Spools (fun _ => False) RecordSpool.spill s fun _ t => OneRun (Record.mk 0 key value).encode t := by
      unfold RecordSpool.spill
      apply Spools.get
      rw [if_neg (by simp [s, withRecord])]
      have hrun : Spools (fun _ => False) writeRun s _ := (writeRun_effect rfl).mono (fun _ _ ht _ => ht) ?_
      · refine Spools.bind hrun ?_
        rintro _ t ⟨hfile, hempty, hwritten⟩ -
        rw [hsorted, encodeAll_cons, encodeAll_nil, append_nil] at hfile hwritten
        have hruns := hwritten.runs
        apply (mergeTiers_single hruns).mono
        · rintro _ _ rfl -
          exact ⟨by simpa [s, withRecord, RecordSpool.new] using hruns, hfile,
            by simpa [s, withRecord, RecordSpool.new] using hwritten.writePos, hempty⟩
        · exact fun _ he => he
      · intro e he
        obtain ⟨pair, hpair, hrefusal⟩ := exists_of_findSome?_eq_some he
        cases hrefusal
    apply Act.Leads.ite
    · intro _
      apply (spillOrSpoil_leads hspill).mono
      · exact fun _ _ ht => ht
      · rintro e t ⟨hblame | hno, -⟩
        · exact calm_default.not_blames (hblame.sooner ⟨rfl, 1, fun _ => rfl⟩)
        · exact hno
    · intro hsmall
      apply absurd _ hsmall
      simp only [RecordSpool.new, withRecord, RecordSpool.bufferedBytes, nil_append, map_cons, map_nil, sum_cons,
        sum_nil]
      omega

/-- What a reader makes of the header in front of it. -/
theorem readNext_valueLen {header : Bytes} (hpos : r.pos < r.stop)
    (hpiece : PieceAt file r.pos header) (hlen : header.length = recordHeaderLen) :
    Fated (fun _ => True) (r.readNext file) fun out => ∀ p, out.1 = some p → p.valueLen = ofLe (header.drop 12) := by
  unfold RunReader.readNext
  rw [if_neg (by omega)]
  apply Fated.bind (Fated.io _)
  intro _ _
  have hread : Fated (fun _ => True) (Fate.readExact file r.pos _) _ := Fated.readExact hpiece
  rw [hlen] at hread
  apply Fated.bind hread
  rintro _ rfl
  unfold RunReader.readRecord
  dsimp only
  split
  · exact Fated.fail trivial
  · apply Fated.bind Fated.readExact_length
    intro key _
    apply Fated.pure
    rintro p hp
    obtain rfl := Option.some.inj hp
    rfl

theorem readValue_length {p : Pending} :
    Fated (fun _ => True) (readValue file p) fun value => value.length = p.valueLen := by
  exact Fated.bind (Fated.io _) fun _ _ => Fated.readExact_length

/-- What follows a header that says zero is not read as the value. -/
theorem value_not_read_back {seq : Nat} (hlen : value.length = 2 ^ 32) (hpos : r.pos = 0)
    (hstop : 0 < r.stop) : ¬ ReadsBack ({ seq, key := [], value } : Record).encode r [{ seq, key := [], value }] := by
  intro hread
  have hpiece : PieceAt ({ seq, key := [], value } : Record).encode r.pos (leBytes 8 seq ++ leBytes 4 0 ++ leBytes 4 (2 ^ 32)) := by
    refine ⟨[], value, ?_, by simp [hpos]⟩
    simp [Record.encode, hlen]
  have hzero : ofLe ((leBytes 8 seq ++ leBytes 4 0 ++ leBytes 4 (2 ^ 32)).drop 12) = 0 := by
    rw [drop_left' (by simp)]
    decide
  generalize ({ seq, key := [], value } : Record).encode = file at hread hpiece
  generalize hrs : [({ seq, key := [], value } : Record)] = rs at hread
  cases hread with
  | done _ => cases hrs
  | @next _ r' p value' rs h hvalue _ =>
    have heq : value' = value := (congrArg Record.value (List.cons.inj hrs).1).symm
    have hnext := readNext_valueLen (by omega) hpiece (by simp [recordHeaderLen]) {}
    have hval : Act.Leads (readValue file p) {} _ _ := readValue_length {}
    have hp := (hnext.post (Prod.ext h rfl)).1 p rfl
    have hv := (hval.post (Prod.ext hvalue rfl)).1
    rw [hp, hzero, heq, hlen] at hv
    omega

/-- A value of `2 ^ 32` bytes is written out whole, but the length in front of it is cast to 32
bits: no operation on a file fails, and the run does not hold the record. -/
theorem oversized_value_is_lost : ∃ value : Bytes,
    let s := RecordSpool.new asciiEncoding 0 {}
    let ops := [SpoolOp.push [] value]
    s.fate.Calm ∧ (ops.foldl SpoolOp.after s).spoiled = none ∧ ¬ TierBounds (ops.foldl SpoolOp.after s) (spills s ops) := by
  obtain ⟨value, hlen⟩ : ∃ value : Bytes, value.length = 2 ^ 32 := ⟨List.replicate (2 ^ 32) 0, length_replicate⟩
  refine ⟨value, calm_default, ?_⟩
  have hpush : Act.Leads (RecordSpool.push [] value) (RecordSpool.new asciiEncoding 0 {}) _ _ := push_spills (by simp only [minSpoolBudget, length_nil]; omega)
  simp only [foldl_cons, foldl_nil, SpoolOp.after, SpoolOp.run, spills, SpoolOp.spilled, append_nil]
  cases hrun : (RecordSpool.push [] value).run (RecordSpool.new asciiEncoding 0 {}) with
  | mk out t =>
    cases out with
    | error e => exact (hpush.fault hrun).elim
    | ok _ =>
      obtain ⟨hone, hkept⟩ := hpush.post hrun
      refine ⟨hkept.spoiled, fun hbounds => ?_⟩
      simp only [hone.records, if_true] at hbounds
      obtain ⟨groups, hflat, hgroups⟩ := hbounds.groups
      rw [hone.runs, hone.file, Option.getD_some] at hgroups
      cases hgroups with
      | cons hgroup hnil =>
        obtain ⟨-, rs, hread, hperm⟩ := hgroup
        cases hnil
        rw [flatten_singleton] at hflat
        rw [hflat] at hperm
        obtain rfl := perm_singleton.1 hperm
        exact value_not_read_back hlen rfl (Nat.lt_of_lt_of_le (by decide) (Record.recordHeaderLen_le _)) hread

end DryDb
