import DryDb.Lib.Program
/-!
# Programs that act on what they have learned

Some questions may only be asked once a fact is known, and some answers teach a fact. `Learns`
follows a program with the set of facts it knows: every question it asks is one its knowledge
allows (`need`), every answer adds what it teaches (`gain`). Facts stay true, so a program among
others never has to learn the same thing twice.
-/

namespace DryDb.Program

variable {Op : Type} {Ans : Op → Type} {ε α β F : Type}

/-- Knowing `known`, the program only asks what it may, and a result meets `P`. -/
def Learns (need : Op → Set F → Prop) (gain : (op : Op) → Ans op → Set F) (P : Set F → α → Prop) :
    Program Op Ans ε α → Set F → Prop
  | done a, known => P known a
  | fail _, _ => True
  | ask op k, known => need op known ∧ ∀ r, (k r).Learns need gain P (known ∪ gain op r)

variable {need : Op → Set F → Prop} {gain : (op : Op) → Ans op → Set F} {P : Set F → α → Prop} {Q : Set F → β → Prop}
  {known : Set F} {p : Program Op Ans ε α}

theorem learns_pure {a : α} (h : P known a) : (pure a : Program Op Ans ε α).Learns need gain P known := h

theorem learns_fail (e : ε) : (fail e : Program Op Ans ε α).Learns need gain P known := trivial

theorem learns_lift {x : Except ε α} (h : ∀ a, x = .ok a → P known a) :
    (liftM x : Program Op Ans ε α).Learns need gain P known := by
  cases x with
  | ok a => exact h a rfl
  | error e => trivial

theorem learns_question {op : Op} {P : Set F → Ans op → Prop} (hn : need op known)
    (h : ∀ r, P (known ∪ gain op r) r) : (question op : Program Op Ans ε (Ans op)).Learns need gain P known :=
  ⟨hn, h⟩

/-- A sequence: the second part knows what the first knew and what it learned. -/
theorem Learns.bind {f : α → Program Op Ans ε β} (h : p.Learns need gain P known)
    (hf : ∀ known' a, known ⊆ known' → P known' a → (f a).Learns need gain Q known') :
    (p >>= f).Learns need gain Q known := by
  change (p.bind f).Learns need gain Q known
  induction p generalizing known with
  | done a => exact hf known a (fun _ h => h) h
  | fail e => trivial
  | ask op k ih =>
    refine ⟨h.1, fun r => ih r (h.2 r) ?_⟩
    intro known' a hk ha
    exact hf known' a (fun x hx => hk (.inl hx)) ha

theorem Learns.mono {P' : Set F → α → Prop} (h : p.Learns need gain P known)
    (hp : ∀ known' a, known ⊆ known' → P known' a → P' known' a) : p.Learns need gain P' known := by
  induction p generalizing known with
  | done a => exact hp known a (fun _ h => h) h
  | fail e => trivial
  | ask op k ih =>
    refine ⟨h.1, fun r => ih r (h.2 r) ?_⟩
    intro known' a hk ha
    exact hp known' a (fun x hx => hk (.inl hx)) ha

theorem Learns.ite {c : Prop} [Decidable c] {q : Program Op Ans ε α} (hp : c → p.Learns need gain P known)
    (hq : ¬ c → q.Learns need gain P known) : (if c then p else q).Learns need gain P known := by
  split
  · exact hp ‹_›
  · exact hq ‹_›

theorem Learns.attempt (h : p.Learns need gain P known) :
    p.attempt.Learns need gain (fun known' r => ∀ a, r = .ok a → P known' a) known := by
  induction p generalizing known with
  | done a =>
    intro b hb
    cases hb
    exact h
  | fail e =>
    intro b hb
    cases hb
  | ask op k ih => exact ⟨h.1, fun r => ih r (h.2 r)⟩

end DryDb.Program
