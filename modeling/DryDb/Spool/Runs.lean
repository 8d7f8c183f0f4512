import DryDb.Model.Spool
/-!
# Runs of records

A run holds a list of records when the file has their bytes from its start to its end, and
every length fits the four bytes it is written in (`RunHolds`). Reading such a run gives
the records back one by one.

`Fated fault x Q` is what is said of code that the machine decides about: a result is in
`Q`, and an error is either one the fate is to blame for or one `fault` allows.
-/

namespace DryDb

/-! ## Fates -/

namespace Fate

/-- `g` is what is left of `f`. -/
def Later (f g : Fate) : Prop := g.sorter = f.sorter ∧ ∃ k, ∀ n, g.draws n = f.draws (n + k)

theorem Later.refl (f : Fate) : f.Later f := ⟨rfl, 0, fun _ => rfl⟩

theorem Later.trans {f g h : Fate} (hfg : f.Later g) (hgh : g.Later h) : f.Later h := by
  obtain ⟨hs, k, hk⟩ := hfg
  obtain ⟨hs', k', hk'⟩ := hgh
  refine ⟨hs'.trans hs, k' + k, fun n => ?_⟩
  rw [hk', hk, Nat.add_assoc]

theorem later_next (f : Fate) : f.Later f.next := ⟨rfl, 1, fun _ => rfl⟩

/-- The errors a fate brings about. -/
inductive Blames (f : Fate) : Error → Prop where
  | io {n : Nat} (what : String) (h : (f.draws n).fails = true) : Blames f (.io what)
  | refusal {n : Nat} {e : Error} (h : (f.draws n).refusal = some e) : Blames f e

theorem Blames.sooner {f g : Fate} {e : Error} (h : g.Blames e) (hfg : f.Later g) : f.Blames e := by
  obtain ⟨-, k, hk⟩ := hfg
  cases h with
  | io what h => exact .io what (by rwa [hk] at h)
  | refusal h => exact .refusal (by rwa [hk] at h)

/-- Nothing fails. -/
def Calm (f : Fate) : Prop := ∀ n, (f.draws n).fails = false ∧ (f.draws n).refusal = none

theorem Calm.not_blames {f : Fate} (h : f.Calm) {e : Error} : ¬ f.Blames e := by
  intro hb
  cases hb with
  | io what hf => rw [(h _).1] at hf; cases hf
  | refusal hr => rw [(h _).2] at hr; cases hr

theorem Calm.later {f g : Fate} (h : f.Calm) (hfg : f.Later g) : g.Calm := by
  obtain ⟨-, k, hk⟩ := hfg
  intro n
  rw [hk]
  exact h _

end Fate

/-- A result is in `Q`; an error is the fate's doing or one that `fault` allows. -/
def Fated {α : Type} (fault : Error → Prop) (x : Act Fate Error α) (Q : α → Prop) : Prop :=
  ∀ f, x.Leads f (fun a g => Q a ∧ f.Later g) fun e g => (f.Blames e ∨ fault e) ∧ f.Later g

namespace Fated

variable {α β : Type} {fault fault' : Error → Prop} {Q Q' : α → Prop} {x : Act Fate Error α} {file : Bytes}

theorem pure {a : α} (h : Q a) : Fated fault (Pure.pure a) Q := by
  intro f
  exact ⟨h, .refl f⟩

theorem fail {e : Error} (h : fault e) : Fated fault (Act.fail e : Act Fate Error α) Q := by
  intro f
  exact ⟨.inr h, .refl f⟩

theorem bind {k : α → Act Fate Error β} {P : β → Prop} (hx : Fated fault x Q)
    (hk : ∀ a, Q a → Fated fault (k a) P) : Fated fault (x >>= k) P := by
  intro f
  apply Act.Leads.bind (hx f)
  rintro a g ⟨ha, hfg⟩
  apply (hk a ha g).mono
  · rintro b h ⟨hb, hgh⟩
    exact ⟨hb, hfg.trans hgh⟩
  · rintro e h ⟨he, hgh⟩
    exact ⟨he.imp_left fun hb => hb.sooner hfg, hfg.trans hgh⟩

theorem mono (hx : Fated fault x Q) (hQ : ∀ a, Q a → Q' a) (hf : ∀ e, fault e → fault' e) :
    Fated fault' x Q' := by
  intro f
  apply (hx f).mono
  · rintro a g ⟨ha, hfg⟩
    exact ⟨hQ a ha, hfg⟩
  · rintro e g ⟨he, hfg⟩
    exact ⟨he.imp_right (hf e), hfg⟩

theorem io (what : String) : Fated fault (Fate.io what) fun _ => True := by
  intro f
  simp only [Act.Leads, Fate.io]
  cases hd : (f.draws 0).fails with
  | true => exact ⟨.inl (.io what hd), f.later_next⟩
  | false => exact ⟨trivial, f.later_next⟩

theorem compared {failure : Option Error} (h : ∀ e, failure = some e → fault e) :
    Fated fault (Fate.compared failure) fun _ => failure = none := by
  intro f
  simp only [Act.Leads, Fate.compared]
  cases failure with
  | some e => exact ⟨.inr (h e rfl), f.later_next⟩
  | none =>
    rw [Option.none_or]
    cases hr : (f.draws 0).refusal with
    | some e => exact ⟨.inl (.refusal hr), f.later_next⟩
    | none => exact ⟨rfl, f.later_next⟩

/-- What a calm fate and no other fault leave: a result. -/
theorem calm (h : Fated (fun _ => False) x Q) {f : Fate} (hf : f.Calm) :
    ∃ a g, x.run f = (.ok a, g) ∧ Q a ∧ f.Later g := by
  have hx := h f
  cases hr : x.run f with
  | mk out g =>
    cases out with
    | ok a => exact ⟨a, g, rfl, hx.post hr⟩
    | error e => exact absurd (hx.fault hr).1 (by simp [hf.not_blames])

/-- Reading gives as many bytes as were asked for. -/
theorem readExact_length {pos len : Nat} :
    Fated (fun _ => True) (Fate.readExact file pos len) fun bytes => bytes.length = len := by
  unfold Fate.readExact
  apply bind (io _)
  intro _ _
  split
  · rename_i bytes hslice
    exact pure (slice_length hslice)
  · exact fail trivial

/-- Reading bytes that are there. -/
theorem readExact {bytes : Bytes} {pos : Nat} (h : PieceAt file pos bytes) :
    Fated fault (Fate.readExact file pos bytes.length) (· = bytes) := by
  unfold Fate.readExact
  apply bind (io _)
  intro _ _
  rw [h.slice_eq]
  exact pure rfl

end Fated

/-! ## Records in a file -/

/-- The record can be read back from a run. -/
structure Record.Fits (r : Record) : Prop where
  seq : r.seq < 2 ^ 64
  key : r.key.length < 2 ^ 32
  value : r.value.length < 2 ^ 32

def encodeAll (rs : List Record) : Bytes := rs.flatMap Record.encode

@[simp] theorem encodeAll_nil : encodeAll [] = [] := rfl

@[simp] theorem encodeAll_cons (r : Record) (rs : List Record) : encodeAll (r :: rs) = r.encode ++ encodeAll rs := rfl

@[simp] theorem encodeAll_append (rs ts : List Record) : encodeAll (rs ++ ts) = encodeAll rs ++ encodeAll ts :=
  List.flatMap_append

theorem Record.length_encode (r : Record) :
    r.encode.length = recordHeaderLen + r.key.length + r.value.length := by
  simp only [encode, recordHeaderLen, List.length_append, leBytes_length]

theorem Record.recordHeaderLen_le (r : Record) : recordHeaderLen ≤ r.encode.length := by
  rw [r.length_encode]
  omega

/-- The part of the file from `start` to `stop` holds these records. -/
structure RunHolds (file : Bytes) (start stop : Nat) (rs : List Record) : Prop where
  piece : PieceAt file start (encodeAll rs)
  stop : stop = start + (encodeAll rs).length
  fits : ∀ r ∈ rs, r.Fits

variable {file : Bytes} {rs : List Record} {fault : Error → Prop} {reader : RunReader} {r : Record}

theorem RunHolds.append {start stop : Nat} (h : RunHolds file start stop rs)
    (bytes : Bytes) : RunHolds (file ++ bytes) start stop rs :=
  ⟨h.piece.append_left bytes, h.stop, h.fits⟩

/-- The record a pending one stands for. -/
structure PendingHolds (file : Bytes) (p : Pending) (r : Record) : Prop where
  seq : p.seq = r.seq
  key : p.key = r.key
  value : PieceAt file p.valuePos r.value
  length : p.valueLen = r.value.length

/-- A reader at the end of its run has nothing more. -/
theorem readNext_nil (h : RunHolds file reader.pos reader.stop []) :
    Fated fault (reader.readNext file) (· = (none, reader)) := by
  unfold RunReader.readNext
  have hstop : reader.stop = reader.pos := by simpa using h.stop
  rw [if_pos (by omega)]
  exact .pure rfl

theorem RunHolds.pieces {start stop : Nat} (h : RunHolds file start stop (r :: rs)) :
    PieceAt file start (leBytes 8 r.seq ++ leBytes 4 r.key.length ++ leBytes 4 r.value.length) ∧
      PieceAt file (start + recordHeaderLen) r.key ∧ PieceAt file (start + (recordHeaderLen + r.key.length)) r.value ∧
      RunHolds file (start + r.encode.length) stop rs := by
  have hlen := r.length_encode
  have hhead : (leBytes 8 r.seq ++ leBytes 4 r.key.length ++ leBytes 4 r.value.length).length = recordHeaderLen := by
    simp [recordHeaderLen]
  have hall := h.piece
  refine ⟨hall.trans ⟨[], r.key ++ r.value ++ encodeAll rs, ?_, rfl⟩, hall.trans ⟨_, r.value ++ encodeAll rs, ?_, hhead.symm⟩,
    hall.trans ⟨_, encodeAll rs, rfl, ?_⟩, hall.trans ⟨r.encode, [], by simp, rfl⟩, ?_, ?_⟩
  · simp [Record.encode]
  · simp [Record.encode]
  · simp [recordHeaderLen]
    omega
  · rw [h.stop]
    simp
    omega
  · exact fun x hx => h.fits x (List.mem_cons_of_mem _ hx)

/-- A reader in front of a record reads it. -/
theorem readNext_cons (h : RunHolds file reader.pos reader.stop (r :: rs)) :
    Fated fault (reader.readNext file) fun out => ∃ p, out = (some p, { reader with pos := reader.pos + r.encode.length }) ∧
      PendingHolds file p r := by
  obtain ⟨hhead, hkey, hvalue, hrest⟩ := h.pieces
  have hfits := h.fits r List.mem_cons_self
  have hlen := r.length_encode
  have hstop : reader.pos + r.encode.length ≤ reader.stop := by
    have := hrest.stop
    omega
  have hheader : (leBytes 8 r.seq ++ leBytes 4 r.key.length ++ leBytes 4 r.value.length).length = recordHeaderLen := by
    simp [recordHeaderLen]
  unfold RunReader.readNext
  rw [if_neg (by simp only [recordHeaderLen] at hlen; omega)]
  apply Fated.bind (Fated.io _)
  intro _ _
  have hread : Fated fault (Fate.readExact file reader.pos _) _ := Fated.readExact hhead
  rw [hheader] at hread
  apply Fated.bind hread
  rintro _ rfl
  -- The three fields of the header come back as they were written.
  have hseq : ofLe ((leBytes 8 r.seq ++ leBytes 4 r.key.length ++ leBytes 4 r.value.length).take 8) = r.seq := by
    rw [List.append_assoc, List.take_left' (by simp), ofLe_leBytes_of_lt hfits.seq]
  have hk : ofLe (((leBytes 8 r.seq ++ leBytes 4 r.key.length ++ leBytes 4 r.value.length).drop 8).take 4) =
      r.key.length := by
    rw [List.append_assoc, List.drop_left' (by simp), List.take_left' (by simp), ofLe_leBytes_of_lt hfits.key]
  have hv : ofLe ((leBytes 8 r.seq ++ leBytes 4 r.key.length ++ leBytes 4 r.value.length).drop 12) =
      r.value.length := by
    rw [List.drop_left' (by simp), ofLe_leBytes_of_lt hfits.value]
  unfold RunReader.readRecord
  simp only [hseq, hk, hv]
  rw [if_neg (by omega)]
  apply Fated.bind (Fated.readExact hkey)
  rintro _ rfl
  apply Fated.pure
  refine ⟨_, by rw [hlen], rfl, rfl, hvalue, rfl⟩

theorem readValue_fated {p : Pending} (h : PendingHolds file p r) :
    Fated fault (readValue file p) (· = r.value) := by
  unfold readValue
  apply Fated.bind (Fated.io _)
  intro _ _
  rw [h.length]
  exact Fated.readExact h.value

end DryDb
