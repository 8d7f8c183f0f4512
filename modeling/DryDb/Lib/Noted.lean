import DryDb.Lib.Chance
/-!
# Programs that note what they do

Some answers are ruled out by what is known of the environment: `Within post p a` says that
answers which meet `post` lead `p` to `a`.

A program can be rewritten to return notes of what it does next to its result. `Erases p q` says
that `p` is `q` with notes: the two come to the same results. A claim about something that
happens inside of `q` is a claim about the notes of `p`.
-/

namespace DryDb.Program

variable {Op : Type} {Ans : Op → Type} {ε α β ν : Type}

/-- The program can come to this result by answers that meet `post`. -/
def Within (post : (op : Op) → Ans op → Prop) : Program Op Ans ε α → α → Prop
  | done a, b => a = b
  | fail _, _ => False
  | ask op k, b => ∃ r, post op r ∧ (k r).Within post b

section
variable {post : (op : Op) → Ans op → Prop} {P : α → Prop} {p : Program Op Ans ε α} {f : α → Program Op Ans ε β}
  {a : α} {b : β}

@[simp] theorem within_pure {a' : α} : (pure a : Program Op Ans ε α).Within post a' ↔ a = a' := Iff.rfl

theorem within_bind : (p >>= f).Within post b ↔ ∃ a, p.Within post a ∧ (f a).Within post b := by
  change (p.bind f).Within post b ↔ _
  induction p with
  | done a => simp [bind, Within]
  | fail e => simp [bind, Within]
  | ask op k ih =>
    simp only [bind, Within, ih]
    constructor
    · rintro ⟨r, hr, a, ha, hb⟩
      exact ⟨a, ⟨r, hr, ha⟩, hb⟩
    · rintro ⟨a, ⟨r, hr, ha⟩, hb⟩
      exact ⟨r, hr, a, ha, hb⟩

theorem Within.yields (h : p.Within post a) : p.Yields a := by
  induction p with
  | done a' => exact h
  | fail e => exact h
  | ask op k ih =>
    obtain ⟨r, -, hr⟩ := h
    exact ⟨r, ih r hr⟩

/-- What holds whatever is answered. -/
theorem Ensures.upholds (h : p.Ensures P) : p.Upholds (fun _ => True) post P := by
  induction p with
  | done a => exact h
  | fail e => trivial
  | ask op k ih => exact ⟨trivial, fun r _ => ih r (h r)⟩

theorem Upholds.of_within {pre : Op → Prop} (h : p.Upholds pre post P) (hw : p.Within post a) : P a := by
  induction p with
  | done a' => exact hw ▸ h
  | fail e => exact hw.elim
  | ask op k ih =>
    obtain ⟨r, hr, hw⟩ := hw
    exact ih r (h.2 r hr) hw

end

/-! ## Notes -/

/-- One noting program after another; the notes follow each other. -/
def noting (p : Program Op Ans ε (α × List ν)) (f : α → Program Op Ans ε (β × List ν)) : Program Op Ans ε (β × List ν) := do
  let x ← p
  let y ← f x.1
  pure (y.1, x.2 ++ y.2)

/-- Notes something about the result. -/
def note (p : Program Op Ans ε α) (f : α → ν) : Program Op Ans ε (α × List ν) := do
  let a ← p
  pure (a, [f a])

/-- The program is `q` and makes notes. -/
def Erases (p : Program Op Ans ε (α × List ν)) (q : Program Op Ans ε α) : Prop :=
  ∀ (post : (op : Op) → Ans op → Prop) (a : α), q.Within post a ↔ ∃ notes, p.Within post (a, notes)

section
variable {p p' : Program Op Ans ε (α × List ν)} {q q' : Program Op Ans ε α} {f : α → Program Op Ans ε (β × List ν)}
  {g : α → Program Op Ans ε β}

theorem erases_pure (a : α) (notes : List ν) : Erases (pure (a, notes) : Program Op Ans ε (α × List ν)) (pure a) := by
  intro post a'
  simp only [within_pure, Prod.mk.injEq, exists_and_left, exists_eq', and_true]

theorem erases_note (q : Program Op Ans ε α) (f : α → ν) : Erases (q.note f) q := by
  intro post a
  simp only [note, within_bind, within_pure, Prod.mk.injEq]
  constructor
  · exact fun h => ⟨_, a, h, rfl, rfl⟩
  · rintro ⟨_, a', h, rfl, -⟩
    exact h

/-- A part that makes no notes, at the end. -/
theorem erases_silent (q : Program Op Ans ε α) :
    Erases (do let a ← q; pure (a, []) : Program Op Ans ε (α × List ν)) q := by
  intro post a
  simp only [within_bind, within_pure, Prod.mk.injEq]
  constructor
  · exact fun h => ⟨[], a, h, rfl, rfl⟩
  · rintro ⟨_, a', h, rfl, -⟩
    exact h

theorem Erases.noting (h : Erases p q) (hf : ∀ a, Erases (f a) (g a)) : Erases (p.noting f) (q >>= g) := by
  intro post b
  simp only [Program.noting, within_bind, within_pure, h post _, hf _ post _]
  constructor
  · rintro ⟨a, ⟨n, ha⟩, m, hb⟩
    exact ⟨n ++ m, (a, n), ha, (b, m), hb, rfl⟩
  · rintro ⟨notes, ⟨a, n⟩, ha, ⟨b', m⟩, hb, heq⟩
    cases heq
    exact ⟨a, ⟨n, ha⟩, m, hb⟩

/-- The same before other parts. -/
theorem Erases.after (q : Program Op Ans ε α) (hf : ∀ a, Erases (f a) (g a)) : Erases (q >>= f) (q >>= g) := by
  intro post b
  simp only [within_bind, hf _ post _]
  constructor
  · rintro ⟨a, ha, n, hb⟩
    exact ⟨n, a, ha, hb⟩
  · rintro ⟨n, a, ha, hb⟩
    exact ⟨a, ha, n, hb⟩

theorem Erases.ite {c : Prop} [Decidable c] (h : c → Erases p q) (h' : ¬ c → Erases p' q') :
    Erases (if c then p else p') (if c then q else q') := by
  split
  · exact h ‹_›
  · exact h' ‹_›

end

/-- What a result and every note on the way to it meet. -/
def Noted (N : ν → Prop) (P : α → Prop) (x : α × List ν) : Prop := P x.1 ∧ ∀ n ∈ x.2, N n

section
variable {pre : Op → Prop} {post : (op : Op) → Ans op → Prop} {N : ν → Prop} {P : α → Prop} {R : β → Prop}
  {p : Program Op Ans ε (α × List ν)} {q : Program Op Ans ε α} {f : α → Program Op Ans ε (β × List ν)}

theorem Noted.nil {a : α} (h : P a) : Noted N P (a, []) := ⟨h, fun _ hn => absurd hn List.not_mem_nil⟩

theorem Upholds.noting (h : p.Upholds pre post (Noted N P)) (hf : ∀ a, P a → (f a).Upholds pre post (Noted N R)) :
    (p.noting f).Upholds pre post (Noted N R) := by
  refine h.bind fun x hx => (hf x.1 hx.1).bind fun y hy => ⟨hy.1, fun n hn => ?_⟩
  rcases List.mem_append.1 hn with hn | hn
  · exact hx.2 n hn
  · exact hy.2 n hn

theorem Upholds.note {fn : α → ν} (h : q.Upholds pre post fun a => P a ∧ N (fn a)) :
    (q.note fn).Upholds pre post (Noted N P) := by
  refine h.bind fun a ha => ⟨ha.1, fun n hn => ?_⟩
  rw [List.mem_singleton.1 hn]
  exact ha.2

end

end DryDb.Program
