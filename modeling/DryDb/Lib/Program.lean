import DryDb.Lib.Outcome
/-!
# Programs that ask an environment

A `Program` is code that may fail and that asks questions whose answers come from
outside. `run` answers them from one environment; `visits` counts the questions of
a run that a predicate picks. The lemmas say how both go through a sequence, so a
function written in `do` is reasoned about as the `Except` computation it becomes.
-/

namespace DryDb

/-- A program with questions `Op`, answers `Ans`, failures `ε` and result `α`. -/
inductive Program (Op : Type) (Ans : Op → Type) (ε α : Type) where
  | done (a : α)
  | fail (e : ε)
  | ask (op : Op) (k : Ans op → Program Op Ans ε α)

namespace Program

variable {Op : Type} {Ans : Op → Type} {ε α β : Type}

def bind : Program Op Ans ε α → (α → Program Op Ans ε β) → Program Op Ans ε β
  | done a, f => f a
  | fail e, _ => fail e
  | ask op k, f => ask op fun r => (k r).bind f

instance : Monad (Program Op Ans ε) where
  pure := done
  bind := bind

/-- The question by itself. -/
def question (op : Op) : Program Op Ans ε (Ans op) := ask op done

/-- A computation that asks nothing. -/
def lift : Except ε α → Program Op Ans ε α
  | .ok a => done a
  | .error e => fail e

instance : MonadLift (Except ε) (Program Op Ans ε) where
  monadLift := lift

/-- Makes a failure a result. -/
def attempt : Program Op Ans ε α → Program Op Ans ε (Except ε α)
  | done a => done (.ok a)
  | fail e => done (.error e)
  | ask op k => ask op fun r => (k r).attempt

/-- Runs the program with the answers of `env`. -/
def run (env : ∀ op, Ans op) : Program Op Ans ε α → Except ε α
  | done a => .ok a
  | fail e => .error e
  | ask op k => (k (env op)).run env

/-- How many questions picked by `p` the run asks. -/
def visits (p : Op → Bool) (env : ∀ op, Ans op) : Program Op Ans ε α → Nat
  | done _ => 0
  | fail _ => 0
  | ask op k => (if p op then 1 else 0) + (k (env op)).visits p env

section Run
variable (env : ∀ op, Ans op)

@[simp] theorem run_pure (a : α) : (pure a : Program Op Ans ε α).run env = .ok a := rfl

@[simp] theorem run_done (a : α) : (done a : Program Op Ans ε α).run env = .ok a := rfl

@[simp] theorem run_fail (e : ε) : (fail e : Program Op Ans ε α).run env = .error e := rfl

@[simp] theorem run_question (op : Op) : (question op : Program Op Ans ε (Ans op)).run env = .ok (env op) := rfl

@[simp] theorem run_bind (x : Program Op Ans ε α) (f : α → Program Op Ans ε β) :
    (x >>= f).run env = x.run env >>= fun a => (f a).run env := by
  change (x.bind f).run env = _
  induction x with
  | done a => rfl
  | fail e => rfl
  | ask op k ih => simp only [bind, run, ih]

@[simp] theorem run_lift (x : Except ε α) : (lift x : Program Op Ans ε α).run env = x := by
  cases x <;> rfl

@[simp] theorem run_liftM (x : Except ε α) : (liftM x : Program Op Ans ε α).run env = x := run_lift env x

@[simp] theorem run_monadLift (x : Except ε α) : (monadLift x : Program Op Ans ε α).run env = x := run_lift env x

@[simp] theorem run_attempt (x : Program Op Ans ε α) : x.attempt.run env = .ok (x.run env) := by
  induction x with
  | done a => rfl
  | fail e => rfl
  | ask op k ih => simp only [attempt, run, ih]

@[simp] theorem run_ite (c : Prop) [Decidable c] (x y : Program Op Ans ε α) :
    (if c then x else y).run env = if c then x.run env else y.run env := by
  split <;> rfl

end Run

section Visits
variable (p : Op → Bool) (env : ∀ op, Ans op)

@[simp] theorem visits_pure (a : α) : (pure a : Program Op Ans ε α).visits p env = 0 := rfl

@[simp] theorem visits_fail (e : ε) : (fail e : Program Op Ans ε α).visits p env = 0 := rfl

@[simp] theorem visits_lift (x : Except ε α) : (lift x : Program Op Ans ε α).visits p env = 0 := by
  cases x <;> rfl

@[simp] theorem visits_liftM (x : Except ε α) : (liftM x : Program Op Ans ε α).visits p env = 0 :=
  visits_lift p env x

@[simp] theorem visits_monadLift (x : Except ε α) : (monadLift x : Program Op Ans ε α).visits p env = 0 :=
  visits_lift p env x

@[simp] theorem visits_question (op : Op) :
    (question op : Program Op Ans ε (Ans op)).visits p env = if p op then 1 else 0 := rfl

@[simp] theorem visits_attempt (x : Program Op Ans ε α) : x.attempt.visits p env = x.visits p env := by
  induction x with
  | done a => rfl
  | fail e => rfl
  | ask op k ih => simp only [attempt, visits, ih]

/-- A sequence asks what its first part asks and, when that succeeds, what the rest asks. -/
theorem visits_bind_le {x : Program Op Ans ε α} {f : α → Program Op Ans ε β} {m n : Nat}
    (hx : x.visits p env ≤ m) (hf : ∀ a, x.run env = .ok a → (f a).visits p env ≤ n) :
    (x >>= f).visits p env ≤ m + n := by
  change (x.bind f).visits p env ≤ m + n
  induction x generalizing m with
  | done a =>
    have := hf a rfl
    simp only [bind]
    omega
  | fail e => simp only [bind, visits, Nat.zero_le]
  | ask op k ih =>
    simp only [visits, bind] at hx ⊢
    have := ih (env op) (m := m - if p op then 1 else 0) (by omega) (fun a ha => hf a ha)
    omega

end Visits

end Program

end DryDb
