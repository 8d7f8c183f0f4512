import DryDb.Lib.Program
/-!
# Programs whose answers are anyone's choice

`Ensures P p`: however the questions of `p` are answered, a result it comes to satisfies `P`.
`Yields p a`: some answers lead `p` to `a`. The rules follow the shape of the program, so
code that asks an allocator or a budget is reasoned about without naming the answers.
-/

namespace DryDb.Program

variable {Op : Type} {Ans : Op → Type} {ε α β : Type}

/-- Every result the program can come to satisfies `P`. -/
def Ensures (P : α → Prop) : Program Op Ans ε α → Prop
  | done a => P a
  | fail _ => True
  | ask _ k => ∀ r, (k r).Ensures P

/-- The program can come to this result. -/
def Yields : Program Op Ans ε α → α → Prop
  | done a, b => a = b
  | fail _, _ => False
  | ask _ k, b => ∃ r, (k r).Yields b

section
variable {P Q : α → Prop} {R : β → Prop} {p : Program Op Ans ε α} {f : α → Program Op Ans ε β} {a : α} {b : β}

@[simp] theorem ensures_pure : (pure a : Program Op Ans ε α).Ensures P ↔ P a := Iff.rfl

@[simp] theorem yields_pure {a' : α} : (pure a : Program Op Ans ε α).Yields a' ↔ a = a' := Iff.rfl

theorem ensures_iff : p.Ensures P ↔ ∀ a, p.Yields a → P a := by
  induction p with
  | done a => simp [Ensures, Yields]
  | fail e => simp [Ensures, Yields]
  | ask op k ih =>
    simp only [Ensures, Yields, ih]
    constructor
    · rintro h a ⟨r, hr⟩
      exact h r a hr
    · intro h r a hr
      exact h a ⟨r, hr⟩

theorem Ensures.of_yields (h : p.Ensures P) (hy : p.Yields a) : P a := ensures_iff.1 h a hy

theorem Ensures.mono (h : p.Ensures P) (hpq : ∀ a, P a → Q a) : p.Ensures Q :=
  ensures_iff.2 fun a ha => hpq a (h.of_yields ha)

/-- A sequence: the second part starts from whatever the first established. -/
theorem Ensures.bind (h : p.Ensures P) (hf : ∀ a, P a → (f a).Ensures R) : (p >>= f).Ensures R := by
  change (p.bind f).Ensures R
  induction p with
  | done a => exact hf a h
  | fail e => trivial
  | ask op k ih => exact fun r => ih r (h r)

theorem Ensures.ite {c : Prop} [Decidable c] {q : Program Op Ans ε α} (hp : c → p.Ensures P)
    (hq : ¬ c → q.Ensures P) : (if c then p else q).Ensures P := by
  split
  · exact hp ‹_›
  · exact hq ‹_›

/-- A program that cannot fail comes to something. -/
theorem exists_yields [∀ op, Nonempty (Ans op)] [IsEmpty ε] (p : Program Op Ans ε α) : ∃ a, p.Yields a := by
  induction p with
  | done a => exact ⟨a, rfl⟩
  | fail e => exact isEmptyElim e
  | ask op k ih =>
    obtain ⟨r⟩ : Nonempty (Ans op) := inferInstance
    obtain ⟨a, ha⟩ := ih r
    exact ⟨a, r, ha⟩

end

/-! ## Programs among others

`Upholds pre post P p`: every question of `p` meets `pre`, and as long as the answers meet `post`
a result meets `P`. What `p` asks may change what others share, so `pre` is what it owes them and
`post` what it may rely on. -/

def Upholds (pre : Op → Prop) (post : (op : Op) → Ans op → Prop) (P : α → Prop) : Program Op Ans ε α → Prop
  | done a => P a
  | fail _ => True
  | ask op k => pre op ∧ ∀ r, post op r → (k r).Upholds pre post P

section
variable {pre : Op → Prop} {post : (op : Op) → Ans op → Prop} {P Q : α → Prop} {R : β → Prop}
  {p : Program Op Ans ε α} {f : α → Program Op Ans ε β}

theorem Upholds.mono (h : p.Upholds pre post P) (hpq : ∀ a, P a → Q a) : p.Upholds pre post Q := by
  induction p with
  | done a => exact hpq a h
  | fail e => trivial
  | ask op k ih => exact ⟨h.1, fun r hr => ih r (h.2 r hr)⟩

theorem Upholds.bind (h : p.Upholds pre post P) (hf : ∀ a, P a → (f a).Upholds pre post R) :
    (p >>= f).Upholds pre post R := by
  change (p.bind f).Upholds pre post R
  induction p with
  | done a => exact hf a h
  | fail e => trivial
  | ask op k ih => exact ⟨h.1, fun r hr => ih r (h.2 r hr)⟩

theorem upholds_question (op : Op) (hpre : pre op) :
    (question op : Program Op Ans ε (Ans op)).Upholds pre post (post op) := ⟨hpre, fun _ hr => hr⟩

/-- A computation that asks nothing upholds what it returns. -/
theorem upholds_lift (x : Except ε α) : (liftM x : Program Op Ans ε α).Upholds pre post fun a => x = .ok a := by
  cases x with
  | ok a => exact rfl
  | error e => trivial

theorem Upholds.ite {c : Prop} [Decidable c] {q : Program Op Ans ε α} (hp : c → p.Upholds pre post P)
    (hq : ¬ c → q.Upholds pre post P) : (if c then p else q).Upholds pre post P := by
  split
  · exact hp ‹_›
  · exact hq ‹_›

end

/-! ## Programs that return

`Delivers post P p`: as long as the answers meet `post`, the program returns, and what it returns
meets `P`. -/

def Delivers (post : (op : Op) → Ans op → Prop) (P : α → Prop) : Program Op Ans ε α → Prop
  | done a => P a
  | fail _ => False
  | ask op k => ∀ r, post op r → (k r).Delivers post P

section
variable {post : (op : Op) → Ans op → Prop} {P Q : α → Prop} {R : β → Prop} {p : Program Op Ans ε α}
  {f : α → Program Op Ans ε β}

theorem Delivers.mono (h : p.Delivers post P) (hpq : ∀ a, P a → Q a) : p.Delivers post Q := by
  induction p with
  | done a => exact hpq a h
  | fail e => exact h
  | ask op k ih => exact fun r hr => ih r (h r hr)

theorem Delivers.bind (h : p.Delivers post P) (hf : ∀ a, P a → (f a).Delivers post R) : (p >>= f).Delivers post R := by
  change (p.bind f).Delivers post R
  induction p with
  | done a => exact hf a h
  | fail e => exact h.elim
  | ask op k ih => exact fun r hr => ih r (h r hr)

theorem delivers_question (op : Op) : (question op : Program Op Ans ε (Ans op)).Delivers post (post op) := fun _ hr => hr

theorem delivers_lift {x : Except ε α} {a : α} (h : x = .ok a) :
    (liftM x : Program Op Ans ε α).Delivers post fun b => b = a := by
  subst h
  exact rfl

end

end DryDb.Program
