import DryDb.Lib.Lists
import DryDb.Model.Builder
import DryDb.Spool.Streams
/-!
# Spools that share a buffer

Whichever spool holds the most is written out until all of them together are inside the budget.
A spool that has been written out holds nothing, so each turn of the loop leaves one spool fewer
that holds something, and the loop ends by its own test.
-/

namespace DryDb

open List

/-! ## One spool -/

namespace RecordSpool

/-- The buffer of a spool: its records and what they take. -/
def held (s : RecordSpool) : List Record × Nat := (s.records, s.buffered)

/-- An empty buffer takes nothing. -/
def Tidy (s : RecordSpool) : Prop := s.records = [] → s.buffered = 0

section Frames

variable {ρ : Type} {f : RecordSpool → ρ}

/-- What does not depend on the file and its runs. -/
def Unfiled (f : RecordSpool → ρ) : Prop :=
  ∀ s file runs writePos written fate, f { s with file, runs, writePos, written, fate } = f s

theorem Unfiled.decided (h : Unfiled f) {α : Type} (x : Act Fate Error α) : (decided x).Keeps f :=
  Act.Keeps.zoom fun fate s => h s s.file s.runs s.writePos s.written fate

theorem Unfiled.mergeTail (h : Unfiled f) (count level : Nat) : (mergeTail count level).Keeps f := by
  refine .bind .get fun s => .bind (h.decided _) fun _ => .bind (h.decided _) fun _ => .bind (h.decided _) fun _ => ?_
  exact .modify fun s => h s _ _ _ _ s.fate

theorem Unfiled.replaceRuns (h : Unfiled f) (group : Nat) : (replaceRuns group).Keeps f := by
  refine .bind .get fun s => .bind (h.decided _) fun _ => ?_
  exact .modify fun s => h s _ _ _ _ s.fate

theorem Unfiled.mergeNewest (h : Unfiled f) : mergeNewest.Keeps f := by
  refine .bind .get fun s => ?_
  split
  · exact .pure _
  · exact .bind (h.mergeTail _ _) fun _ => .pure _

theorem Unfiled.mergeTiers (h : Unfiled f) : mergeTiers.Keeps f := by
  refine .bind .get fun s => .bind (h.mergeNewest.repeatWhile _) fun _ => .bind .get fun s => ?_
  dsimp only
  split
  · exact h.replaceRuns 1
  · exact .pure _

theorem unfiled_held : Unfiled held := fun _ _ _ _ _ _ => rfl

/-- What does not depend on the buffer either. -/
structure Unspilled (f : RecordSpool → ρ) : Prop where
  file : Unfiled f
  buffer : ∀ s records buffered, f { s with records, buffered } = f s

theorem Unspilled.writeRecords (h : Unspilled f) (rs : List Record) : (writeRecords rs).Keeps f := by
  induction rs with
  | nil => exact h.file.decided _
  | cons r rs ih => exact .bind (h.file.decided _) fun _ => .bind (.modify fun s => h.file s _ s.runs _ s.written s.fate) fun _ => ih

theorem Unspilled.writeRun (h : Unspilled f) : writeRun.Keeps f := by
  have hsort : sortBuffer.Keeps f :=
    .bind .get fun _ => .bind (.modify fun s => h.buffer s _ s.buffered) fun _ => h.file.decided _
  have hcreate : createFile.Keeps f := by
    refine .bind .get fun s => ?_
    split
    · exact .bind (h.file.decided _) fun _ => .modify fun s => h.file s _ s.runs s.writePos s.written s.fate
    · exact .pure _
  refine .bind hsort fun _ => .bind hcreate fun _ => .bind (h.file.decided _) fun _ => .bind .get fun _ =>
    .bind (h.writeRecords _) fun _ => .modify fun s => ?_
  exact (h.file { s with records := [], buffered := 0 } s.file _ s.writePos _ s.fate).trans (h.buffer s [] 0)

theorem Unspilled.spill (h : Unspilled f) : spill.Keeps f := by
  refine .bind .get fun s => ?_
  split
  · exact .pure _
  · exact .bind h.writeRun fun _ => h.file.mergeTiers

/-- What no call on a spool changes. -/
structure Lasting (f : RecordSpool → ρ) : Prop where
  spill : Unspilled f
  spoiled : ∀ s spoiled, f { s with spoiled } = f s
  count : ∀ s nextSeq count, f { s with nextSeq, count } = f s
  budget : ∀ s budget, f { s with budget } = f s

theorem Lasting.spillOrSpoil (h : Lasting f) : spillOrSpoil.Keeps f := by
  have hattempt : DryDb.RecordSpool.spill.attempt.Keeps f := fun s => h.spill.spill s
  refine .bind hattempt fun r => ?_
  split
  · exact .pure _
  · exact .bind (.modify fun s => h.spoiled s _) fun _ => .fail _

theorem Lasting.flush (h : Lasting f) : flush.Keeps f :=
  .bind .get fun _ => .bind (.lift _) fun _ => h.spillOrSpoil

theorem Lasting.push (h : Lasting f) (key value : Bytes) : (push key value).Keeps f := by
  have hbuffer : (buffer key value).Keeps f := by
    refine .bind (.modify fun s => ?_) fun _ => .bind .get fun s => .bind (h.spill.file.decided _) fun _ => .modify fun s => ?_
    · exact (h.spill.buffer { s with nextSeq := (s.nextSeq + 1) % 2 ^ 64, count := s.count + 1 } _ s.buffered).trans
        (h.count s _ _)
    · exact h.spill.buffer s s.records _
  refine .bind .get fun s => .bind (.lift _) fun _ => .bind (.lift _) fun _ => .bind (.lift _) fun _ =>
    .bind hbuffer fun _ => .bind .get fun s => ?_
  split
  · exact h.spillOrSpoil
  · exact .pure _

theorem lasting_encoding : Lasting encoding :=
  ⟨⟨fun _ _ _ _ _ _ => rfl, fun _ _ _ => rfl⟩, fun _ _ => rfl, fun _ _ _ => rfl, fun _ _ => rfl⟩

end Frames

variable {s : RecordSpool}

/-- A spill leaves an empty buffer. -/
theorem spill_empties (h : s.Tidy) : spill.Leads s (fun _ t => t.held = ([], 0)) fun _ _ => True := by
  refine Act.Leads.bind (Act.Leads.get (Q := fun a t => a = s ∧ t = s) ⟨rfl, rfl⟩) ?_
  rintro _ _ ⟨rfl, rfl⟩
  refine Act.Leads.ite (fun hnil => Act.Leads.pure ?_) fun _ => ?_
  · rw [held, hnil, h hnil]
  -- Writing the run closes it; the merges leave the buffer alone.
  have hrun : ∀ s, writeRun.Leads s (fun _ t => t.held = ([], 0)) fun _ _ => True := by
    intro s
    unfold writeRun
    refine Act.Leads.bind Act.Leads.trivial fun _ s _ => ?_
    refine Act.Leads.bind Act.Leads.trivial fun _ s _ => ?_
    refine Act.Leads.bind Act.Leads.trivial fun _ s _ => ?_
    refine Act.Leads.bind Act.Leads.trivial fun _ s _ => ?_
    refine Act.Leads.bind Act.Leads.trivial fun _ s _ => ?_
    exact Act.Leads.modify rfl
  refine Act.Leads.bind (hrun _) fun _ t ht => ?_
  exact (unfiled_held.mergeTiers.leads t).mono (fun _ u hu => hu.trans ht) fun _ _ _ => trivial

/-- A spill that fails spoils the spool. -/
theorem spillOrSpoil_empties (h : s.Tidy) :
    spillOrSpoil.Leads s (fun _ t => t.held = ([], 0)) fun e t => t.spoiled = some e.kind := by
  refine Act.Leads.bind (Q := fun r t => r = .ok () → t.held = ([], 0)) (Act.Leads.attempt ?_) ?_
  · exact (spill_empties h).mono (fun _ _ ht _ => ht) fun _ _ _ hr => by cases hr
  · intro r t ht
    cases r with
    | ok _ => exact Act.Leads.pure (ht rfl)
    | error e =>
      refine Act.Leads.bind (Act.Leads.modify (Q := fun _ t => t.spoiled = some e.kind) rfl) fun _ t ht => ?_
      exact Act.Leads.fail ht

/-- Code that first asks whether the spool can be used. -/
theorem usable_leads {α : Type} {k : Unit → Do α} {Q : α → RecordSpool → Prop} {R : Error → RecordSpool → Prop}
    (hspoiled : ∀ e, s.spoiled = some e → ∀ e', R e' s) (hk : s.spoiled = none → (k ()).Leads s Q R) :
    (do let a ← (MonadLiftT.monadLift s.checkUsable : Do Unit); k a).Leads s Q R := by
  cases hs : s.spoiled with
  | none => exact checkUsable_leads hs (hk hs)
  | some kind =>
    refine Act.Leads.bind (Act.Leads.liftM (Q := fun _ _ => False) (fun _ hok => ?_) fun e _ => hspoiled kind hs e) ?_
    · simp only [checkUsable, hs] at hok
      cases hok
    · intro _ _ hfalse
      exact hfalse.elim

/-- What a flush does to a buffer, by whether it succeeds. -/
theorem flush_held (h : s.spoiled = none → s.Tidy) :
    flush.Leads s (fun _ t => s.spoiled = none ∧ t.held = ([], 0)) fun _ t => t.spoiled ≠ none := by
  refine Act.Leads.bind (Act.Leads.get (Q := fun a t => a = s ∧ t = s) ⟨rfl, rfl⟩) ?_
  rintro a u ⟨rfl, rfl⟩
  refine usable_leads (fun kind hs _ => by simp [hs]) fun hs => ?_
  exact (spillOrSpoil_empties (h hs)).mono (fun _ _ ht => ⟨hs, ht⟩) fun _ _ ht => by simp [ht]

end RecordSpool

/-! ## The fullest of several -/

variable {l : List Nat}

theorem maxByKey_eq_none (h : maxByKey l = none) : l = [] := by
  cases l with
  | nil => rfl
  | cons x l =>
    unfold maxByKey at h
    split at h
    · split at h <;> cases h
    · cases h

theorem maxByKey_eq_some {i m : Nat} (h : maxByKey l = some (i, m)) : l[i]? = some m ∧ ∀ x ∈ l, x ≤ m := by
  induction l generalizing i m with
  | nil => cases h
  | cons x l ih =>
    unfold maxByKey at h
    cases hl : maxByKey l with
    | none =>
      rw [hl] at h
      cases h
      rw [maxByKey_eq_none hl]
      simp
    | some p =>
      obtain ⟨j, n⟩ := p
      obtain ⟨hj, hmax⟩ := ih hl
      simp only [hl] at h
      split_ifs at h with hle
      · cases h
        exact ⟨hj, forall_mem_cons.2 ⟨hle, hmax⟩⟩
      · cases h
        exact ⟨rfl, forall_mem_cons.2 ⟨Nat.le_refl _, fun y hy => (hmax y hy).trans (Nat.le_of_not_le hle)⟩⟩

namespace RecordSpool

variable {budget : Nat} {spools : List RecordSpool} {s t : RecordSpool} {spools' now : List RecordSpool}

theorem flushAt_run {i : Nat} (h : spools[i]? = some s) :
    (flushAt i).run spools = ((flush.run s).1, spools.set i (flush.run s).2) := by
  simp only [flushAt, h]

/-- One turn: nothing to do inside the budget, and outside of it a spool that holds something is
flushed. -/
theorem spillFullest_cases (budget : Nat) (spools : List RecordSpool) :
    (DryDb.bufferedBytes spools ≤ budget ∧ (spillFullest budget).run spools = (.ok false, spools)) ∨
    (budget < DryDb.bufferedBytes spools ∧ ∃ i s, spools[i]? = some s ∧ 0 < s.buffered ∧
      (spillFullest budget).run spools = ((flush.run s).1.map fun _ => true, spools.set i (flush.run s).2)) := by
  by_cases hle : DryDb.bufferedBytes spools ≤ budget
  · refine .inl ⟨hle, ?_⟩
    show (if _ then _ else _ : Act (List RecordSpool) Error Bool).run spools = _
    rw [if_pos hle]
    rfl
  · refine .inr ⟨Nat.lt_of_not_le hle, ?_⟩
    have hsum : DryDb.bufferedBytes spools = (spools.map bufferedBytes).sum := rfl
    cases hmax : maxByKey (spools.map bufferedBytes) with
    | none =>
      rw [hsum, maxByKey_eq_none hmax] at hle
      exact absurd (Nat.zero_le _) hle
    | some p =>
      obtain ⟨i, m⟩ := p
      obtain ⟨hi, hall⟩ := maxByKey_eq_some hmax
      rw [getElem?_map, Option.map_eq_some_iff] at hi
      obtain ⟨s, hs, hm⟩ := hi
      -- If the largest held nothing, all of them together would.
      have hpos : m ≠ 0 := by
        rintro rfl
        rw [hsum, sum_eq_zero fun x hx => Nat.le_zero.1 (hall x hx)] at hle
        exact hle (Nat.zero_le _)
      refine ⟨i, s, hs, by rw [← hm] at hpos; exact Nat.pos_of_ne_zero hpos, ?_⟩
      show (if _ then _ else _ : Act (List RecordSpool) Error Bool).run spools = _
      rw [if_neg hle, hmax]
      show (if _ then _ else _ : Act (List RecordSpool) Error Bool).run spools = _
      rw [if_neg hpos]
      rw [Act.run_bind, flushAt_run hs]
      cases (flush.run s).1 <;> rfl

/-- A spool that nothing has gone wrong with is tidy. -/
def Sound (s : RecordSpool) : Prop := s.spoiled = none → s.Tidy

/-- A flush that succeeds leaves a spool that holds nothing. -/
theorem flush_eq_ok (h : flush.run s = (.ok (), t)) (hs : s.Sound) : t.held = ([], 0) :=
  ((flush_held hs).post h).2

theorem sound_of_held (h : t.held = ([], 0)) : t.Sound := fun _ _ => congrArg Prod.snd h

theorem sound_flush (h : s.Sound) : (flush.run s).2.Sound := by
  have hleads : flush.Leads s (fun _ t => t.Sound) fun _ t => t.Sound :=
    (flush_held h).mono (fun _ _ ht => sound_of_held ht.2) fun _ _ ht hs => absurd hs ht
  exact hleads.state

theorem sound_push (h : s.Sound) (key value : Bytes) : ((push key value).run s).2.Sound := by
  have hleads : (push key value).Leads s (fun _ t => t.Sound) fun _ t => t.Sound := by
    cases hs : s.spoiled with
    | some kind =>
      refine Act.Leads.bind (Act.Leads.get (Q := fun a t => a = s ∧ t = s) ⟨rfl, rfl⟩) ?_
      rintro a u ⟨rfl, rfl⟩
      exact usable_leads (fun _ _ _ => h) fun hnone => by simp [hs] at hnone
    | none =>
      refine push_leads_of hs (fun _ _ => h) fun _ => Act.Leads.ite (fun _ => ?_) fun _ => Act.Leads.pure ?_
      · have htidy : (withRecord s key value).Tidy := fun hnil => by simp [withRecord] at hnil
        exact (spillOrSpoil_empties htidy).mono (fun _ _ ht => sound_of_held ht) fun _ _ ht hnone => by simp [ht] at hnone
      · intro _ hnil
        simp [withRecord] at hnil
  exact hleads.state

/-- Flushed some number of times. -/
def FlushesTo : RecordSpool → RecordSpool → Prop := Relation.ReflTransGen fun s t => flush.run s = (.ok (), t)

theorem FlushesTo.sound (h : s.FlushesTo t) (hs : s.Sound) : t.Sound := by
  induction h with
  | refl => exact hs
  | tail _ hstep ih =>
    exact sound_of_held (flush_eq_ok hstep ih)

/-- Where calls lead from a spool, whatever they returned. -/
def Reaches (s t : RecordSpool) : Prop := ∃ ops : List SpoolOp, t = ops.foldl SpoolOp.after s

theorem Reaches.refl (s : RecordSpool) : s.Reaches s := ⟨[], rfl⟩

theorem Reaches.trans {u : RecordSpool} (h : s.Reaches t) (h' : t.Reaches u) : s.Reaches u := by
  obtain ⟨ops, rfl⟩ := h
  obtain ⟨ops', rfl⟩ := h'
  exact ⟨ops ++ ops', by rw [foldl_append]⟩

theorem reaches_flush (s : RecordSpool) : s.Reaches (flush.run s).2 := ⟨[.flush], rfl⟩

theorem reaches_push (s : RecordSpool) (key value : Bytes) : s.Reaches ((push key value).run s).2 := ⟨[.push key value], rfl⟩

theorem reaches_setBudget (s : RecordSpool) (budget : Nat) : s.Reaches (s.setBudget budget) := ⟨[.setBudget budget], rfl⟩

/-- What every call keeps is kept by all of them. -/
theorem Reaches.induction {P : RecordSpool → Prop} (h : s.Reaches t) (hs : P s)
    (hop : ∀ (op : SpoolOp) s, P s → P (op.after s)) : P t := by
  obtain ⟨ops, rfl⟩ := h
  induction ops generalizing s with
  | nil => exact hs
  | cons op ops ih => exact ih (hop op s hs)

theorem Reaches.sound (h : s.Reaches t) (hs : s.Sound) : t.Sound := by
  refine h.induction hs fun op s hs => ?_
  cases op with
  | push key value => exact sound_push hs key value
  | flush => exact sound_flush hs
  | setBudget budget => exact hs

theorem Reaches.encoding (h : s.Reaches t) : t.encoding = s.encoding := by
  refine h.induction (P := fun u => u.encoding = s.encoding) rfl fun op u hu => ?_
  cases op with
  | push key value => exact (lasting_encoding.push key value u).trans hu
  | flush => exact (lasting_encoding.flush u).trans hu
  | setBudget budget => exact hu

/-- How many spools hold something. -/
def holding (spools : List RecordSpool) : Nat := spools.countP fun s => decide (0 < s.buffered)

theorem bufferedBytes_of_holding (h : holding spools = 0) : DryDb.bufferedBytes spools = 0 := by
  refine sum_eq_zero fun x hx => ?_
  obtain ⟨s, hs, rfl⟩ := mem_map.1 hx
  have := countP_eq_zero.1 h s hs
  simpa [bufferedBytes] using this

/-- Emptying a spool that holds something leaves one fewer. -/
theorem holding_set {i : Nat} (hi : spools[i]? = some s) (hs : 0 < s.buffered) (ht : t.buffered = 0) :
    holding (spools.set i t) + 1 = holding spools := by
  obtain ⟨hlt, rfl⟩ := List.getElem?_eq_some_iff.1 hi
  have hcount := countP_set (p := fun s : RecordSpool => decide (0 < s.buffered)) (a := t) hlt
  have hpos : 0 < holding spools := countP_pos_iff.2 ⟨spools[i], getElem_mem hlt, by simpa using hs⟩
  rw [holding, hcount]
  simp only [hs, decide_true, if_true, ht, Nat.lt_irrefl, decide_false, Bool.false_eq_true, if_false]
  rw [holding] at hpos ⊢
  omega

/-- A turn that goes on: a spool that held something is empty. -/
theorem spillFullest_again (hsound : ∀ s ∈ spools, s.Sound) (h : (spillFullest budget).run spools = (.ok true, spools')) :
    List.Forall₂ FlushesTo spools spools' ∧ holding spools' + 1 = holding spools := by
  rcases spillFullest_cases budget spools with ⟨-, hrun⟩ | ⟨-, i, s, hi, hpos, hrun⟩
  · rw [hrun] at h
    cases h
  · rw [hrun] at h
    cases hflush : flush.run s with
    | mk r t =>
      rw [hflush] at h
      cases r with
      | error e => cases h
      | ok _ =>
        cases h
        have hempty : t.buffered = 0 :=
          congrArg Prod.snd (flush_eq_ok hflush (hsound s (mem_of_getElem? hi)))
        refine ⟨?_, holding_set hi hpos hempty⟩
        obtain ⟨hlt, rfl⟩ := List.getElem?_eq_some_iff.1 hi
        refine forall₂_iff_get.2 ⟨by simp, fun j hj hj' => ?_⟩
        simp only [get_eq_getElem, getElem_set]
        split
        · rename_i hij
          subst hij
          exact .single hflush
        · exact .refl

theorem sound_of_forall₂ (h : List.Forall₂ FlushesTo spools spools')
    (hsound : ∀ s ∈ spools, s.Sound) : ∀ s ∈ spools', s.Sound := by
  intro t ht
  obtain ⟨s, hs, hst⟩ := exists_of_mem_left h.flip ht
  exact FlushesTo.sound hst (hsound s hs)

theorem forall₂_flushesTo_trans {a b c : List RecordSpool} (h : List.Forall₂ FlushesTo a b) (h' : List.Forall₂ FlushesTo b c) :
    List.Forall₂ FlushesTo a c := by
  induction h generalizing c with
  | nil => exact h'
  | cons hab _ ih =>
    cases h' with
    | cons hbc hrest => exact .cons (hab.trans hbc) (ih hrest)

/-- Where the loop stands with `n` turns left: only flushes have happened, and at most `n` spools
hold something. -/
def Spilling (spools : List RecordSpool) (n : Nat) (now : List RecordSpool) : Prop :=
  List.Forall₂ FlushesTo spools now ∧ (∀ s ∈ now, s.Sound) ∧ holding now ≤ n

theorem Spilling.step {n : Nat} {next : List RecordSpool} (h : Spilling spools (n + 1) now)
    (hrun : (spillFullest budget).run now = (.ok true, next)) : Spilling spools n next := by
  obtain ⟨hflushes, hcount⟩ := spillFullest_again h.2.1 hrun
  refine ⟨forall₂_flushesTo_trans h.1 hflushes, sound_of_forall₂ hflushes h.2.1, ?_⟩
  have := h.2.2
  omega

theorem Spilling.last (h : Spilling spools 0 now) :
    (spillFullest budget).run now = (.ok false, now) := by
  rcases spillFullest_cases budget now with ⟨-, hrun⟩ | ⟨hlt, -⟩
  · exact hrun
  · rw [bufferedBytes_of_holding (Nat.le_zero.1 h.2.2)] at hlt
    exact absurd hlt (Nat.not_lt_zero _)

theorem Spilling.start (hsound : ∀ s ∈ spools, s.Sound) : Spilling spools spools.length spools :=
  ⟨forall₂_same.2 fun _ _ => .refl, hsound, countP_le_length⟩

/-- The loop ends inside the budget, having only flushed. -/
theorem keepInside_eq_ok (hsound : ∀ s ∈ spools, s.Sound) (h : (keepInside budget).run spools = (.ok (), spools')) :
    List.Forall₂ FlushesTo spools spools' ∧ DryDb.bufferedBytes spools' ≤ budget := by
  have hloop : ((spillFullest budget).repeatWhile spools.length).Leads spools
      (fun _ now => List.Forall₂ FlushesTo spools now ∧ DryDb.bufferedBytes now ≤ budget) fun _ _ => True := by
    refine Act.Leads.repeatWhile (I := Spilling spools) ?_ ?_ _ (Spilling.start hsound)
    · intro n now hnow
      unfold Act.Leads
      cases hrun : (spillFullest budget).run now with
      | mk r next =>
        cases r with
        | error e => trivial
        | ok again =>
          cases again with
          | true => exact hnow.step hrun
          | false =>
            rcases spillFullest_cases budget now with ⟨hle, hrun'⟩ | ⟨-, i, s, -, -, hrun'⟩
            · rw [hrun] at hrun'
              cases hrun'
              exact ⟨hnow.1, hle⟩
            · rw [hrun] at hrun'
              cases hf : (flush.run s).1 <;> simp [hf, Except.map] at hrun'
    · intro now hnow
      exact ⟨hnow.1, by rw [bufferedBytes_of_holding (Nat.le_zero.1 hnow.2.2)]; exact Nat.zero_le _⟩
  exact hloop.post h

/-- The loop ends by its own test. -/
theorem keepInside_ends (hsound : ∀ s ∈ spools, s.Sound) (more : Nat) :
    ((spillFullest budget).repeatWhile (spools.length + more)).run spools = (keepInside budget).run spools :=
  Act.repeatWhile_add (I := Spilling spools) (fun _ _ _ h hrun => h.step hrun) (fun _ h => h.last) (Spilling.start hsound) more

end RecordSpool

end DryDb
