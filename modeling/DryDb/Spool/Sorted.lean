import DryDb.Spool.Merging
/-!
# The spool keeps what it took

`SpoolHolds s taken` says that a spool's runs and buffer together hold exactly the records it
took, every run in order. Spilling, merging tiers, compacting and reducing keep that; a
record that was taken and could not be written leaves the spool spoiled. A spool that is not
spoiled hands out a rearrangement of what it took, in order when the encoding orders the keys.
-/

namespace DryDb

open RecordSpool List

/-! ## Code on a spool -/

/-- What no code on a spool changes, short of taking a record or spoiling. -/
structure RecordSpool.Kept (s t : RecordSpool) : Prop where
  encoding : t.encoding = s.encoding
  budget : t.budget = s.budget
  nextSeq : t.nextSeq = s.nextSeq
  count : t.count = s.count
  spoiled : t.spoiled = s.spoiled
  fate : s.fate.Later t.fate

theorem RecordSpool.Kept.refl (s : RecordSpool) : s.Kept s := ⟨rfl, rfl, rfl, rfl, rfl, .refl _⟩

theorem RecordSpool.Kept.trans {s t u : RecordSpool} (h : s.Kept t) (h' : t.Kept u) : s.Kept u :=
  ⟨h'.encoding.trans h.encoding, h'.budget.trans h.budget, h'.nextSeq.trans h.nextSeq, h'.count.trans h.count,
    h'.spoiled.trans h.spoiled, h.fate.trans h'.fate⟩

/-- Code on a spool: it ends in `Q`, or fails by fate or the way `fault` allows. -/
def Spools {α : Type} (fault : Error → Prop) (x : RecordSpool.Do α) (s : RecordSpool) (Q : α → RecordSpool → Prop) : Prop :=
  x.Leads s (fun a t => Q a t ∧ s.Kept t) fun e t => (s.fate.Blames e ∨ fault e) ∧ s.Kept t

namespace Spools

variable {α β : Type} {fault fault' : Error → Prop} {s : RecordSpool} {Q Q' : α → RecordSpool → Prop}
  {P : β → RecordSpool → Prop} {x : RecordSpool.Do α}

theorem pure {a : α} (h : Q a s) : Spools fault (Pure.pure a) s Q := ⟨h, .refl s⟩

theorem get {k : RecordSpool → RecordSpool.Do β} (h : Spools fault (k s) s P) :
    Spools fault (Act.get >>= k) s P := h

theorem bind {k : α → RecordSpool.Do β} (hx : Spools fault x s Q)
    (hk : ∀ a t, Q a t → s.Kept t → Spools fault (k a) t P) : Spools fault (x >>= k) s P := by
  apply Act.Leads.bind hx
  rintro a t ⟨ha, hst⟩
  apply (hk a t ha hst).mono
  · rintro b u ⟨hb, htu⟩
    exact ⟨hb, hst.trans htu⟩
  · rintro e u ⟨he, htu⟩
    exact ⟨he.imp_left fun h => h.sooner hst.fate, hst.trans htu⟩

theorem mono (hx : Spools fault x s Q) (hQ : ∀ a t, Q a t → s.Kept t → Q' a t)
    (hf : ∀ e, fault e → fault' e) : Spools fault' x s Q' := by
  apply Act.Leads.mono hx
  · rintro a t ⟨ha, hst⟩
    exact ⟨hQ a t ha hst, hst⟩
  · rintro e t ⟨he, hst⟩
    exact ⟨he.imp_right (hf e), hst⟩

theorem modify {f : RecordSpool → RecordSpool} {Q : Unit → RecordSpool → Prop} (hkept : s.Kept (f s)) (h : Q () (f s)) :
    Spools fault (Act.modify f) s Q := ⟨h, hkept⟩

/-- A loop: `I` holds after every step, and what a last step leaves is in `P`. -/
theorem repeatWhile {step : RecordSpool.Do Bool} {I : Nat → RecordSpool → Prop} {P : RecordSpool → Prop}
    (hstep : ∀ n t, I (n + 1) t → Spools fault step t fun more u => if more then I n u else P u)
    (hlast : ∀ t, I 0 t → P t) (n : Nat) (h : I n s) : Spools fault (step.repeatWhile n) s fun _ t => P t := by
  apply Act.Leads.repeatWhile (I := fun n t => I n t ∧ s.Kept t) (P := fun t => P t ∧ s.Kept t)
  · rintro n t ⟨ht, hst⟩
    apply Act.Leads.mono (hstep n t ht)
    · rintro more u ⟨hu, htu⟩
      cases more with
      | true => exact ⟨hu, hst.trans htu⟩
      | false => exact ⟨hu, hst.trans htu⟩
    · rintro e u ⟨he, htu⟩
      exact ⟨he.imp_left fun hb => hb.sooner hst.fate, hst.trans htu⟩
  · rintro t ⟨ht, hst⟩
    exact ⟨hlast t ht, hst⟩
  · exact ⟨h, .refl s⟩

/-- The machine decides: only the fate of the spool moves on. -/
theorem decided {x : Act Fate Error α} {P : α → Prop} (hx : Fated fault x P) :
    Spools fault (RecordSpool.decided x) s fun a t => P a ∧ ∃ f, t = { s with fate := f } := by
  apply Act.Leads.zoom
  apply (hx s.fate).mono
  · rintro a f ⟨ha, hf⟩
    exact ⟨⟨ha, f, rfl⟩, rfl, rfl, rfl, rfl, rfl, hf⟩
  · rintro e f ⟨he, hf⟩
    exact ⟨he, rfl, rfl, rfl, rfl, rfl, hf⟩

end Spools

/-! ## What a spool holds -/

/-- The runs hold `contents` and the buffer the rest of the records taken, every run in
order. -/
structure SpoolHolds (enc : KeyEncoding) (taken : List Record) (s : RecordSpool) (contents : List (List Record)) : Prop where
  encoding : s.encoding = enc
  seq : s.nextSeq < 2 ^ 64
  fits : ∀ r ∈ taken, r.Fits
  file : (s.file.getD []).length = s.writePos
  runs : RunsHold (s.file.getD []) s.runs contents
  perm : (contents.flatten ++ s.records).Perm taken
  ordered : OrdersRecords enc taken → ∀ rs ∈ contents, Ascends (order enc) rs

variable {file : Bytes} {runs : List SpoolRun} {contents : List (List Record)}

theorem RunsHold.append (h : RunsHold file runs contents) (bytes : Bytes) : RunsHold (file ++ bytes) runs contents :=
  h.imp fun _ _ hr => hr.append bytes

/-- A run written at the end of the file. -/
theorem RunsHold.concat {rs : List Record}
    (h : RunsHold file runs contents) (hfits : ∀ r ∈ rs, r.Fits) {run : SpoolRun} (hstart : run.start = file.length)
    (hstop : run.stop = file.length + (encodeAll rs).length) :
    RunsHold (file ++ encodeAll rs) (runs ++ [run]) (contents ++ [rs]) := by
  apply rel_append (h.append _)
  refine .cons ⟨⟨file, [], by simp, hstart⟩, by rw [hstop, hstart], hfits⟩ .nil

/-- Records of a merge fit, since they come from runs. -/
theorem RunsHold.fits (h : RunsHold file runs contents) :
    ∀ r ∈ contents.flatten, r.Fits := by
  intro r hr
  obtain ⟨rs, hrs, hr⟩ := mem_flatten.1 hr
  obtain ⟨i, hi⟩ := mem_iff_getElem?.1 hrs
  obtain ⟨run, -, hold⟩ := forall₂_getElem? h hi
  exact hold.fits r hr

section

variable {enc : KeyEncoding} {taken : List Record} {s : RecordSpool} {contents : List (List Record)} {fault : Error → Prop}
  {groups : List (List SpoolRun)} {grouped : List (List (List Record))}

namespace SpoolHolds

theorem mem_buffer (h : SpoolHolds enc taken s contents) : ∀ r ∈ s.records, r ∈ taken := by
  intro r hr
  exact h.perm.mem_iff.1 (mem_append_right _ hr)

theorem mem_runs (h : SpoolHolds enc taken s contents) : ∀ r ∈ contents.flatten, r ∈ taken := by
  intro r hr
  exact h.perm.mem_iff.1 (mem_append_left _ hr)

end SpoolHolds

/-- The buffer as the sort leaves it. -/
def sortedBuffer (s : RecordSpool) : List Record := s.fate.sorter.sort (order s.encoding) s.records

theorem sortBuffer_spools :
    Spools (fun e => s.sortFailure = some e) sortBuffer s fun _ t => ∃ f,
      t = { s with records := sortedBuffer s, fate := f } := by
  unfold sortBuffer
  apply Spools.get
  have hmod : Spools (fun e => s.sortFailure = some e)
      (Act.modify fun s => { s with records := s.fate.sorter.sort (order s.encoding) s.records }) s
      fun _ t => t = { s with records := sortedBuffer s } :=
    .modify ⟨rfl, rfl, rfl, rfl, rfl, .refl _⟩ rfl
  apply Spools.bind hmod
  rintro _ _ rfl -
  apply (Spools.decided (Fated.compared fun _ he => he)).mono
  · rintro _ t ⟨-, f, rfl⟩ -
    exact ⟨f, rfl⟩
  · exact fun _ he => he

namespace SpoolHolds

/-- A failure of the sort is one of the encoding. -/
theorem refuses (h : SpoolHolds enc taken s contents) {e : Error} (he : s.sortFailure = some e) : Refuses enc taken e := by
  obtain ⟨pair, hpair, hrefusal⟩ := exists_of_findSome?_eq_some he
  obtain ⟨ha, hb⟩ := s.fate.sorter.asked_mem _ _ pair hpair
  refine ⟨pair.1, h.mem_buffer _ ha, pair.2, h.mem_buffer _ hb, ?_⟩
  unfold KeyEncoding.refusal at hrefusal
  rw [h.encoding] at hrefusal
  cases hc : enc.compare pair.1.key pair.2.key with
  | ok o => rw [hc] at hrefusal; cases hrefusal
  | error e' => rw [hc] at hrefusal; cases hrefusal; rfl

theorem sorted_perm (h : SpoolHolds enc taken s contents) : (contents.flatten ++ sortedBuffer s).Perm taken :=
  ((s.fate.sorter.perm (order s.encoding) s.records).append_left _).trans h.perm

theorem sorted_ascends (h : SpoolHolds enc taken s contents) (ho : OrdersRecords enc taken) :
    Ascends (order enc) (sortedBuffer s) := by
  rw [← h.encoding] at ho ⊢
  exact s.fate.sorter.ascends _ _ (ho.mono h.mem_buffer)

end SpoolHolds

/-! ### Writing a run -/

theorem createFile_spools :
    Spools fault createFile s fun _ t => ∃ f, t = { s with file := some (s.file.getD []), fate := f } := by
  unfold createFile
  apply Spools.get
  cases hs : s.file with
  | some bytes =>
    apply Spools.pure
    exact ⟨s.fate, by rw [Option.getD_some, ← hs]⟩
  | none =>
    simp only [Option.isNone_none, if_true]
    apply Spools.bind (Spools.decided (Fated.io _))
    rintro _ t ⟨-, f, rfl⟩ -
    exact Spools.modify ⟨rfl, rfl, rfl, rfl, rfl, .refl _⟩ ⟨f, rfl⟩

/-- Writing records appends their bytes. -/
theorem writeRecords_spools (bytes : Bytes) (rs : List Record) (hfile : s.file = some bytes)
    (hpos : bytes.length = s.writePos) :
    Spools fault (writeRecords rs) s fun _ t => ∃ f,
      t = { s with file := some (bytes ++ encodeAll rs), writePos := s.writePos + (encodeAll rs).length, fate := f } := by
  induction rs generalizing s bytes with
  | nil =>
    rw [writeRecords]
    apply (Spools.decided (Fated.io _)).mono
    · rintro _ t ⟨-, f, rfl⟩ -
      exact ⟨f, by simp [hfile]⟩
    · exact fun _ he => he
  | cons r rs ih =>
    rw [writeRecords]
    apply Spools.bind (Spools.decided (Fated.io _))
    rintro _ t ⟨-, f, rfl⟩ -
    have happend : ({ s with fate := f } : RecordSpool).append r.encode =
        { s with file := some (bytes ++ r.encode), writePos := s.writePos + r.encode.length, fate := f } := by
      simp [append, hfile, ← hpos, overwrite_end]
    apply Spools.bind (Q := fun _ t => t = { s with
        file := some (bytes ++ r.encode), writePos := s.writePos + r.encode.length, fate := f })
    · apply Spools.modify
      · rw [happend]
        exact ⟨rfl, rfl, rfl, rfl, rfl, .refl _⟩
      · exact happend
    · rintro _ _ rfl -
      apply (ih _ rfl (by simp [hpos])).mono
      · rintro _ t ⟨g, rfl⟩ -
        exact ⟨g, by simp [Nat.add_assoc]⟩
      · exact fun _ he => he

/-- How the books change when a run of `bytes` bytes is written at the end of the file, in the
place of the runs from `keep` on. -/
structure RunWritten (s t : RecordSpool) (keep bytes level : Nat) : Prop where
  runs : t.runs = s.runs.take keep ++ [{ start := s.writePos, stop := s.writePos + bytes, level }]
  writePos : t.writePos = s.writePos + bytes
  written : t.written = s.written + bytes

/-- The buffer becomes a run. -/
theorem writeRun_effect (hfile : (s.file.getD []).length = s.writePos) :
    Spools (fun e => s.sortFailure = some e) writeRun s fun _ t =>
      t.file = some (s.file.getD [] ++ encodeAll (sortedBuffer s)) ∧ t.records = [] ∧
      RunWritten s t s.runs.length (encodeAll (sortedBuffer s)).length 0 := by
  unfold writeRun
  apply Spools.bind sortBuffer_spools
  rintro _ _ ⟨f, rfl⟩ -
  apply Spools.bind createFile_spools
  rintro _ _ ⟨g, rfl⟩ -
  apply Spools.bind (Spools.decided (Fated.io _))
  rintro _ _ ⟨-, g, rfl⟩ -
  apply Spools.get
  refine Spools.bind (writeRecords_spools (s.file.getD []) _ rfl hfile) ?_
  rintro _ _ ⟨f', rfl⟩ -
  apply Spools.modify ⟨rfl, rfl, rfl, rfl, rfl, .refl _⟩
  exact ⟨rfl, rfl, by simp [closeRun], rfl, by simp [closeRun]⟩

theorem writeRun_spools (h : SpoolHolds enc taken s contents) :
    Spools (Refuses enc taken) writeRun s fun _ t => SpoolHolds enc taken t (contents ++ [sortedBuffer s]) ∧
      t.records = [] ∧ RunWritten s t s.runs.length (encodeAll (sortedBuffer s)).length 0 := by
  apply (writeRun_effect h.file).mono
  · rintro _ t ⟨hfile, hempty, hwritten⟩ hkept
    have hfits : ∀ r ∈ sortedBuffer s, r.Fits := by
      intro r hr
      exact h.fits r (h.sorted_perm.mem_iff.1 (mem_append_right _ hr))
    refine ⟨⟨hkept.encoding.trans h.encoding, ?_, h.fits, ?_, ?_, ?_, ?_⟩, hempty, hwritten⟩
    · rw [hkept.nextSeq]
      exact h.seq
    · rw [hfile, hwritten.writePos, Option.getD_some, length_append, h.file]
    · rw [hfile, hwritten.runs, take_length]
      exact h.runs.concat hfits h.file.symm (by rw [h.file])
    · rw [hempty]
      simpa using h.sorted_perm
    · intro ho rs hrs
      rcases mem_append.1 hrs with hrs | hrs
      · exact h.ordered ho rs hrs
      · obtain rfl := mem_singleton.1 hrs
        exact h.sorted_ascends ho
  · exact fun _ he => h.refuses he

/-! ### Merging -/

/-- Merging the last runs into one. -/
theorem mergeTail_spools (h : SpoolHolds enc taken s contents) (count level : Nat) :
    Spools (Refuses enc taken) (mergeTail count level) s fun _ t => ∃ rs,
      SpoolHolds enc taken t (contents.take (s.runs.length - count) ++ [rs]) ∧
      rs.Perm (contents.drop (s.runs.length - count)).flatten ∧ t.records = s.records ∧
      RunWritten s t (s.runs.length - count) (encodeAll rs).length level := by
  obtain rfl := h.encoding
  unfold mergeTail
  apply Spools.get
  apply Spools.bind (Spools.decided (Fated.io _))
  rintro _ t ⟨-, f, rfl⟩ -
  apply Spools.bind (Spools.decided (Fated.io _))
  rintro _ t ⟨-, g, rfl⟩ -
  generalize s.runs.length - count = keep
  have htail : RunsHold (s.file.getD []) (s.runs.drop keep) (contents.drop keep) := forall₂_drop keep h.runs
  have hsub : ∀ r ∈ (contents.drop keep).flatten, r ∈ taken := by
    intro r hr
    obtain ⟨rs, hrs, hr⟩ := mem_flatten.1 hr
    exact h.mem_runs r (mem_flatten.2 ⟨rs, mem_of_mem_drop hrs, hr⟩)
  have hmerge : Fated (Refuses s.encoding taken) (Merger.mergeRuns s.encoding (s.file.getD []) (s.runs.drop keep)) fun bytes =>
      ∃ rs, bytes = encodeAll rs ∧ Merges (order s.encoding) (OrdersRecords s.encoding taken) (contents.drop keep) rs := by
    apply (mergeRuns_fated htail).mono
    · rintro bytes ⟨rs, rfl, hrs⟩
      exact ⟨rs, rfl, hrs.mono fun ho => ho.mono hsub⟩
    · exact fun e he => he.mono hsub
  apply Spools.bind (Spools.decided hmerge)
  rintro _ t ⟨⟨rs, rfl, hrs⟩, f', rfl⟩ -
  have hfits : ∀ r ∈ rs, r.Fits := fun r hr => htail.fits r (hrs.perm.mem_iff.1 hr)
  apply Spools.modify ⟨rfl, rfl, rfl, rfl, rfl, .refl _⟩
  refine ⟨rs, ⟨rfl, h.seq, h.fits, ?_, ?_, ?_, ?_⟩, hrs.perm, rfl, rfl, rfl, rfl⟩
  · simp only [append, Option.getD_some, ← h.file, overwrite_end, length_append]
  · simp only [append, Option.getD_some, ← h.file, overwrite_end]
    exact RunsHold.concat (forall₂_take keep h.runs) hfits rfl rfl
  · refine List.Perm.trans ?_ h.perm
    apply List.Perm.append_right
    conv_rhs => rw [← take_append_drop keep contents, flatten_append]
    rw [flatten_append, flatten_cons, flatten_nil, append_nil]
    exact hrs.perm.append_left _
  · intro ho lane hlane
    rcases mem_append.1 hlane with hlane | hlane
    · exact h.ordered ho lane (mem_of_mem_take hlane)
    · obtain rfl := mem_singleton.1 hlane
      exact hrs.ascends ho (ho.mono hsub) fun l hl => h.ordered ho l (mem_of_mem_drop hl)

theorem flatten_chunks {group : Nat} (hgroup : 0 < group) {turns : Nat} {runs : List SpoolRun} (h : runs.length ≤ turns) :
    (chunks group turns runs).flatten = runs := by
  induction turns generalizing runs with
  | zero =>
    obtain rfl := length_eq_zero_iff.1 (Nat.le_zero.1 h)
    rfl
  | succ turns ih =>
    cases runs with
    | nil => rfl
    | cons run runs =>
      rw [chunks, flatten_cons, ih]
      · exact take_append_drop ..
      · rw [length_drop]
        rw [length_cons] at h ⊢
        omega
      · simp

/-- Contents of runs in groups are in groups. -/
theorem exists_groups {file : Bytes} {contents : List (List Record)} (h : RunsHold file groups.flatten contents) :
    ∃ grouped, contents = grouped.flatten ∧ List.Forall₂ (RunsHold file) groups grouped := by
  induction groups generalizing contents with
  | nil =>
    cases h
    exact ⟨[], rfl, .nil⟩
  | cons group groups ih =>
    have hfirst := forall₂_take group.length h
    have hrest := forall₂_drop group.length h
    rw [flatten_cons, take_left] at hfirst
    rw [flatten_cons, drop_left] at hrest
    obtain ⟨grouped, hg, hgroups⟩ := ih hrest
    exact ⟨contents.take group.length :: grouped, by rw [flatten_cons, ← hg, take_append_drop],
      .cons hfirst hgroups⟩

/-- The groups merged one by one. -/
abbrev GroupsMerged (enc : KeyEncoding) (taken : List Record) : List (List (List Record)) → List (List Record) → Prop :=
  List.Forall₂ fun lanes rs => Merges (order enc) (OrdersRecords enc taken) lanes rs

theorem GroupsMerged.perm {merged : List (List Record)}
    (h : GroupsMerged enc taken grouped merged) : merged.flatten.Perm grouped.flatten.flatten := by
  induction h with
  | nil => exact List.Perm.refl _
  | cons hm _ ih =>
    rw [flatten_cons, flatten_cons, flatten_append]
    exact hm.perm.append ih

/-- Merging groups of runs one after another behind `out`. -/
theorem mergeChunks_fated {input : Bytes}
    (h : List.Forall₂ (RunsHold input) groups grouped) (hsub : ∀ r ∈ grouped.flatten.flatten, r ∈ taken) (out : Bytes) :
    Fated (Refuses enc taken) (mergeChunks enc input groups out) fun made => ∃ merged,
      made.1 = out ++ encodeAll merged.flatten ∧ RunsHold made.1 made.2 merged ∧
      made.2.map SpoolRun.level = groups.map mergedLevel ∧ GroupsMerged enc taken grouped merged := by
  induction h generalizing out with
  | nil => exact Fated.pure ⟨[], by simp, .nil, rfl, .nil⟩
  | @cons group lanes groups grouped hgroup _ ih =>
    rw [flatten_cons, flatten_append] at hsub
    have hlanes : ∀ r ∈ lanes.flatten, r ∈ taken := fun r hr => hsub r (mem_append_left _ hr)
    rw [mergeChunks]
    apply Fated.bind ((mergeRuns_fated hgroup).mono (fun _ hb => hb) fun e he => he.mono hlanes)
    rintro _ ⟨rs, rfl, hrs⟩
    apply Fated.bind (ih (fun r hr => hsub r (mem_append_right _ hr)) (out ++ encodeAll rs))
    rintro ⟨file, runs⟩ ⟨merged, hfile, hruns, hlevels, hmerges⟩
    simp only at hfile hruns hlevels
    have hfits : ∀ r ∈ rs, r.Fits := fun r hr => hgroup.fits r (hrs.perm.mem_iff.1 hr)
    apply Fated.pure
    refine ⟨rs :: merged, by simp [hfile], .cons ⟨⟨out, encodeAll merged.flatten, ?_, rfl⟩, rfl, hfits⟩ hruns, ?_,
      .cons (hrs.mono fun ho => ho.mono hlanes) hmerges⟩
    · exact hfile
    · simp [hlevels]

/-- Writing the runs out to a fresh file, merged in groups. -/
theorem replaceRuns_spools (h : SpoolHolds enc taken s contents) {group : Nat} (hgroup : 0 < group) :
    Spools (Refuses enc taken) (replaceRuns group) s fun _ t => ∃ grouped merged,
      SpoolHolds enc taken t merged ∧ contents = grouped.flatten ∧ GroupsMerged enc taken grouped merged ∧
      List.Forall₂ (RunsHold (s.file.getD [])) (chunks group s.runs.length s.runs) grouped ∧
      t.runs.map SpoolRun.level = (chunks group s.runs.length s.runs).map mergedLevel ∧ t.records = s.records ∧
      t.writePos = (encodeAll merged.flatten).length ∧ t.written = s.written + t.writePos := by
  have hheld := h.runs
  rw [← flatten_chunks hgroup (Nat.le_refl s.runs.length)] at hheld
  obtain ⟨grouped, rfl, hgrouped⟩ := exists_groups hheld
  obtain rfl := h.encoding
  unfold replaceRuns mergeGroups
  apply Spools.get
  have hmade : Fated (Refuses s.encoding taken) _ _ := mergeChunks_fated hgrouped h.mem_runs []
  apply Spools.bind (Spools.decided (Fated.bind (Fated.io _) fun _ _ => hmade))
  rintro ⟨file, runs⟩ t ⟨⟨merged, hfile, hruns, hlevels, hmerges⟩, f, rfl⟩ -
  simp only [nil_append] at hfile hruns hlevels
  apply Spools.modify ⟨rfl, rfl, rfl, rfl, rfl, .refl _⟩
  refine ⟨grouped, merged, ⟨rfl, h.seq, h.fits, rfl, hruns, ?_, ?_⟩, rfl, hmerges, hgrouped, hlevels, rfl, ?_, rfl⟩
  · exact (hmerges.perm.append_right _).trans h.perm
  · intro ho rs hrs
    obtain ⟨i, hi⟩ := mem_iff_getElem?.1 hrs
    obtain ⟨lanes, hl, hm⟩ := forall₂_getElem? hmerges hi
    have hlanes := mem_of_getElem? hl
    apply hm.ascends ho
    · apply ho.mono
      intro r hr
      obtain ⟨lane, hlane, hr⟩ := mem_flatten.1 hr
      exact h.mem_runs r (mem_flatten.2 ⟨lane, mem_flatten.2 ⟨lanes, hlanes, hlane⟩, hr⟩)
    · exact fun lane hlane => h.ordered ho lane (mem_flatten.2 ⟨lanes, hlanes, hlane⟩)
  · rw [hfile]

theorem mergeNewest_spools (h : SpoolHolds enc taken s contents) :
    Spools (Refuses enc taken) mergeNewest s fun more t =>
      if more then ∃ level rs, tierFull s.runs = some level ∧
        SpoolHolds enc taken t (contents.take (s.runs.length - mergeFanIn) ++ [rs]) ∧
        rs.Perm (contents.drop (s.runs.length - mergeFanIn)).flatten ∧ t.records = s.records ∧
        RunWritten s t (s.runs.length - mergeFanIn) (encodeAll rs).length (level + 1)
      else tierFull s.runs = none ∧ t = s := by
  unfold mergeNewest
  apply Spools.get
  cases htier : tierFull s.runs with
  | none => exact Spools.pure ⟨rfl, rfl⟩
  | some level =>
    apply Spools.bind (mergeTail_spools h _ _)
    rintro _ t ⟨rs, ht⟩ _
    exact Spools.pure ⟨level, rs, rfl, ht⟩

theorem mergeTiers_spools (h : SpoolHolds enc taken s contents) :
    Spools (Refuses enc taken) mergeTiers s fun _ t => (∃ merged, SpoolHolds enc taken t merged) ∧ t.records = s.records := by
  unfold mergeTiers mergeFull
  apply Spools.get
  apply Spools.bind (Q := fun _ t => (∃ merged, SpoolHolds enc taken t merged) ∧ t.records = s.records)
  · apply Spools.repeatWhile (I := fun _ t => (∃ merged, SpoolHolds enc taken t merged) ∧ t.records = s.records)
    · rintro n t ⟨⟨merged, ht⟩, hrecords⟩
      apply (mergeNewest_spools ht).mono
      · rintro more u hu -
        cases more with
        | true =>
          obtain ⟨level, rs, -, hu, -, hu', -⟩ := hu
          exact ⟨⟨_, hu⟩, hu'.trans hrecords⟩
        | false =>
          obtain ⟨-, rfl⟩ := hu
          exact ⟨⟨_, ht⟩, hrecords⟩
      · exact fun _ he => he
    · exact fun t ht => ht
    · exact ⟨⟨contents, h⟩, rfl⟩
  · rintro _ t ⟨⟨merged, ht⟩, hrecords⟩ -
    unfold compact
    apply Spools.get
    dsimp only
    split
    · apply (replaceRuns_spools ht (by decide)).mono
      · rintro _ u ⟨-, merged', hu, -, -, -, -, hu', -⟩ -
        exact ⟨⟨merged', hu⟩, hu'.trans hrecords⟩
      · exact fun _ he => he
    · exact Spools.pure ⟨⟨merged, ht⟩, hrecords⟩

/-! ### Spilling -/

/-- A spill moves the buffer into the file. -/
theorem spill_spools (h : SpoolHolds enc taken s contents) :
    Spools (Refuses enc taken) spill s fun _ t => (∃ merged, SpoolHolds enc taken t merged) ∧ t.records = [] := by
  unfold spill
  apply Spools.get
  split
  · rename_i hempty
    exact Spools.pure ⟨⟨contents, h⟩, hempty⟩
  · apply Spools.bind (writeRun_spools h)
    rintro _ t ⟨ht, hempty, -⟩ -
    apply (mergeTiers_spools ht).mono
    · rintro _ u ⟨hu, hu'⟩ -
      exact ⟨hu, hu'.trans hempty⟩
    · exact fun _ he => he

end

end DryDb
