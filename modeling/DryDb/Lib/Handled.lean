import DryDb.Lib.Program
/-!
# Programs answered by a state

The questions of a program are answered by a state they may change: `answers s op r s'`. What is
left open there, such as what an allocator does, is any of the answers it allows.

`Secures answers may Q R p s`: run from `s`, every question `p` asks has an answer and is asked in
a state where `may` allows it, a result satisfies `Q` and a failure satisfies `R`, each with the
state it is reached in. The rules follow the shape of the program.
-/

namespace DryDb.Program

variable {σ Op : Type} {Ans : Op → Type} {ε α β : Type}

def Secures (answers : σ → (op : Op) → Ans op → σ → Prop) (may : σ → Op → Prop) (Q : α → σ → Prop) (R : ε → σ → Prop) :
    Program Op Ans ε α → σ → Prop
  | done a, s => Q a s
  | fail e, s => R e s
  | ask op k, s => may s op ∧ (∃ r s', answers s op r s') ∧
    ∀ r s', answers s op r s' → (k r).Secures answers may Q R s'

namespace Secures

variable {answers : σ → (op : Op) → Ans op → σ → Prop} {may : σ → Op → Prop} {Q Q' : α → σ → Prop} {P : β → σ → Prop}
  {R R' : ε → σ → Prop} {p q : Program Op Ans ε α} {f : α → Program Op Ans ε β} {s : σ}

theorem mono (h : p.Secures answers may Q R s) (hQ : ∀ a s, Q a s → Q' a s) (hR : ∀ e s, R e s → R' e s) :
    p.Secures answers may Q' R' s := by
  induction p generalizing s with
  | done a => exact hQ a s h
  | fail e => exact hR e s h
  | ask op k ih => exact ⟨h.1, h.2.1, fun r s' hr => ih r (h.2.2 r s' hr)⟩

/-- A sequence: the second part starts from every state the first leaves. -/
theorem bind (h : p.Secures answers may Q R s) (hf : ∀ a s, Q a s → (f a).Secures answers may P R s) :
    (p >>= f).Secures answers may P R s := by
  change (p.bind f).Secures answers may P R s
  induction p generalizing s with
  | done a => exact hf a s h
  | fail e => exact h
  | ask op k ih => exact ⟨h.1, h.2.1, fun r s' hr => ih r (h.2.2 r s' hr)⟩

theorem question {op : Op} {Q : Ans op → σ → Prop} (hmay : may s op) (hsome : ∃ r s', answers s op r s')
    (h : ∀ r s', answers s op r s' → Q r s') :
    (Program.question op : Program Op Ans ε (Ans op)).Secures answers may Q R s := ⟨hmay, hsome, h⟩

theorem lift {x : Except ε α} (hok : ∀ a, x = .ok a → Q a s) (herror : ∀ e, x = .error e → R e s) :
    (liftM x : Program Op Ans ε α).Secures answers may Q R s := by
  cases x with
  | ok a => exact hok a rfl
  | error e => exact herror e rfl

theorem ite {c : Prop} [Decidable c] (hp : c → p.Secures answers may Q R s) (hq : ¬ c → q.Secures answers may Q R s) :
    (if c then p else q).Secures answers may Q R s := by
  split
  · exact hp ‹_›
  · exact hq ‹_›

end Secures

end DryDb.Program
