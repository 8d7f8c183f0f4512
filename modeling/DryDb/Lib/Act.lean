import DryDb.Lib.Outcome
/-!
# Code on a state that outlives its failures

An `Act` is a method on `&mut self` that returns a `Result`: what it did to the state before
it failed stays done. `Leads x s Q R` says where `x` ends from `s`: with an answer and a
state in `Q`, or with an error and a state in `R`. The rules follow the constructors, so a
method written in `do` is proved statement by statement.
-/

namespace DryDb

/-- Code on a state `σ` with failures `ε` and result `α`. -/
structure Act (σ ε α : Type) where
  run : σ → Except ε α × σ

namespace Act

variable {σ τ ε α β : Type} {s : σ} {x : Act σ ε α}

instance : Monad (Act σ ε) where
  pure a := ⟨fun s => (.ok a, s)⟩
  bind x f := ⟨fun s =>
    match x.run s with
    | (.ok a, s) => (f a).run s
    | (.error e, s) => (.error e, s)⟩

theorem run_bind (x : Act σ ε α) (f : α → Act σ ε β) (s : σ) :
    (x >>= f).run s = match x.run s with
      | (.ok a, s) => (f a).run s
      | (.error e, s) => (.error e, s) := rfl

def fail (e : ε) : Act σ ε α := ⟨fun s => (.error e, s)⟩

def get : Act σ ε σ := ⟨fun s => (.ok s, s)⟩

def modify (f : σ → σ) : Act σ ε Unit := ⟨fun s => (.ok (), f s)⟩

/-- A new state, or a failure that leaves the old one. -/
def update (f : σ → Except ε σ) : Act σ ε Unit := ⟨fun s =>
  match f s with
  | .ok s' => (.ok (), s')
  | .error e => (.error e, s)⟩

/-- A computation that does not touch the state. -/
def lift (x : Except ε α) : Act σ ε α := ⟨fun s => (x, s)⟩

instance : MonadLift (Except ε) (Act σ ε) where
  monadLift := lift

/-- Makes a failure a result. -/
def attempt (x : Act σ ε α) : Act σ ε (Except ε α) := ⟨fun s => (.ok (x.run s).1, (x.run s).2)⟩

/-- Runs code on a part of the state. -/
def zoom (part : σ → τ) (put : τ → σ → σ) (x : Act τ ε α) : Act σ ε α :=
  ⟨fun s => ((x.run (part s)).1, put (x.run (part s)).2 s)⟩

/-- Takes steps as long as they say there is more to do, at most `turns` of them. -/
def repeatWhile (step : Act σ ε Bool) : Nat → Act σ ε Unit
  | 0 => pure ()
  | turns + 1 => do
    if ← step then repeatWhile step turns else pure ()

/-- What code comes to when a failure ends the caller as well: the state is then lost. -/
def outcome (x : Act σ ε α) (s : σ) : Except ε (α × σ) := (x.run s).1.map fun a => (a, (x.run s).2)

/-- From `s` the code ends in `Q`, or fails in `R`. -/
def Leads (x : Act σ ε α) (s : σ) (Q : α → σ → Prop) (R : ε → σ → Prop) : Prop :=
  match x.run s with
  | (.ok a, s') => Q a s'
  | (.error e, s') => R e s'

namespace Leads

variable {Q Q' : α → σ → Prop} {R R' : ε → σ → Prop} {s : σ} {x : Act σ ε α}

theorem pure {a : α} (h : Q a s) : Leads (Pure.pure a : Act σ ε α) s Q R := h

theorem fail {e : ε} (h : R e s) : Leads (Act.fail e : Act σ ε α) s Q R := h

theorem get {Q : σ → σ → Prop} (h : Q s s) : Leads (Act.get : Act σ ε σ) s Q R := h

theorem modify {Q : Unit → σ → Prop} {f : σ → σ} (h : Q () (f s)) : Leads (Act.modify f : Act σ ε Unit) s Q R := h

theorem lift {x : Except ε α} (hok : ∀ a, x = .ok a → Q a s) (herr : ∀ e, x = .error e → R e s) :
    Leads (Act.lift x : Act σ ε α) s Q R := by
  unfold Leads Act.lift
  cases x with
  | ok a => exact hok a rfl
  | error e => exact herr e rfl

theorem liftM {x : Except ε α} (hok : ∀ a, x = .ok a → Q a s) (herr : ∀ e, x = .error e → R e s) :
    Leads (MonadLiftT.monadLift x : Act σ ε α) s Q R := lift hok herr

/-- A sequence: the second statement starts where the first one ended. -/
theorem bind {f : α → Act σ ε β} {P : β → σ → Prop} (hx : Leads x s Q R)
    (hf : ∀ a s', Q a s' → Leads (f a) s' P R) : Leads (x >>= f) s P R := by
  unfold Leads at hx ⊢
  rw [run_bind]
  cases hr : x.run s with
  | mk r s' =>
    rw [hr] at hx
    cases r with
    | ok a => exact hf a s' hx
    | error e => exact hx

theorem mono (hx : Leads x s Q R) (hQ : ∀ a s', Q a s' → Q' a s') (hR : ∀ e s', R e s' → R' e s') :
    Leads x s Q' R' := by
  unfold Leads at *
  cases hr : x.run s with
  | mk r s' =>
    rw [hr] at hx
    cases r with
    | ok a => exact hQ a s' hx
    | error e => exact hR e s' hx

theorem ite {c : Prop} [Decidable c] {y : Act σ ε α} (ht : c → Leads x s Q R) (hf : ¬ c → Leads y s Q R) :
    Leads (if c then x else y) s Q R := by
  split
  · exact ht ‹c›
  · exact hf ‹¬ c›

theorem attempt {Q : Except ε α → σ → Prop}
    (hx : Leads x s (fun a s' => Q (.ok a) s') fun e s' => Q (.error e) s') : Leads x.attempt s Q R := by
  unfold Leads at *
  simp only [Act.attempt]
  cases hr : x.run s with
  | mk r s' =>
    rw [hr] at hx
    cases r with
    | ok a => exact hx
    | error e => exact hx

theorem zoom {part : σ → τ} {put : τ → σ → σ} {x : Act τ ε α}
    (hx : Leads x (part s) (fun a t => Q a (put t s)) fun e t => R e (put t s)) : Leads (Act.zoom part put x) s Q R := by
  unfold Leads at *
  simp only [Act.zoom]
  cases hr : x.run (part s) with
  | mk r t =>
    rw [hr] at hx
    cases r with
    | ok a => exact hx
    | error e => exact hx

/-- A loop: `I n` holds when `n` turns are left, and a step that says there is nothing more to
do leaves `P`. -/
theorem repeatWhile {step : Act σ ε Bool} {I : Nat → σ → Prop} {P : σ → Prop}
    (hstep : ∀ n t, I (n + 1) t → Leads step t (fun more u => if more then I n u else P u) R)
    (hlast : ∀ t, I 0 t → P t) (n : Nat) (h : I n s) : Leads (step.repeatWhile n) s (fun _ t => P t) R := by
  induction n generalizing s with
  | zero => exact Leads.pure (hlast s h)
  | succ n ih =>
    rw [Act.repeatWhile]
    apply Leads.bind (hstep n s h)
    intro more t ht
    cases more with
    | true => exact ih ht
    | false => exact Leads.pure ht

/-- What a run that ended well established. -/
theorem post (hx : Leads x s Q R) {a : α} {s' : σ} (h : x.run s = (.ok a, s')) : Q a s' := by
  unfold Leads at hx
  rwa [h] at hx

theorem fault (hx : Leads x s Q R) {e : ε} {s' : σ} (h : x.run s = (.error e, s')) : R e s' := by
  unfold Leads at hx
  rwa [h] at hx

end Leads

/-- A loop that ends by its own test: turns beyond those its measure `I` counts change nothing. -/
theorem repeatWhile_add {step : Act σ ε Bool} {I : Nat → σ → Prop}
    (hstep : ∀ n t u, I (n + 1) t → step.run t = (.ok true, u) → I n u) (hlast : ∀ t, I 0 t → step.run t = (.ok false, t))
    {n : Nat} (h : I n s) (more : Nat) : (step.repeatWhile (n + more)).run s = (step.repeatWhile n).run s := by
  induction n generalizing s with
  | zero =>
    cases more with
    | zero => rfl
    | succ more =>
      show (step >>= fun again => if again then step.repeatWhile (0 + more) else pure ()).run s = _
      rw [run_bind, hlast s h]
      rfl
  | succ n ih =>
    rw [Nat.succ_add, repeatWhile, repeatWhile, run_bind, run_bind]
    cases hr : step.run s with
    | mk r t =>
      cases r with
      | error e => rfl
      | ok again =>
        cases again with
        | false => rfl
        | true => exact ih (hstep n s t h hr)

/-! ## Frames

`Keeps f x`: whatever `x` does and however it ends, `f` of the state stays what it was. -/

def Keeps {ρ : Type} (f : σ → ρ) (x : Act σ ε α) : Prop := ∀ s, f (x.run s).2 = f s

namespace Keeps

variable {ρ : Type} {f : σ → ρ}

theorem pure (a : α) : Keeps f (Pure.pure a : Act σ ε α) := fun _ => rfl

theorem fail (e : ε) : Keeps f (Act.fail e : Act σ ε α) := fun _ => rfl

theorem get : Keeps f (Act.get : Act σ ε σ) := fun _ => rfl

theorem lift (x : Except ε α) : Keeps f (Act.lift x) := fun _ => rfl

theorem modify {g : σ → σ} (h : ∀ s, f (g s) = f s) : Keeps f (Act.modify g : Act σ ε Unit) := h

theorem bind {x : Act σ ε α} {k : α → Act σ ε β} (hx : Keeps f x) (hk : ∀ a, Keeps f (k a)) : Keeps f (x >>= k) := by
  intro s
  rw [run_bind]
  have hs := hx s
  cases hr : x.run s with
  | mk r t =>
    rw [hr] at hs
    cases r with
    | ok a => exact (hk a t).trans hs
    | error e => exact hs

theorem zoom {part : σ → τ} {put : τ → σ → σ} {x : Act τ ε α} (h : ∀ t s, f (put t s) = f s) :
    Keeps f (Act.zoom part put x) := fun s => h _ s

theorem repeatWhile {step : Act σ ε Bool} (h : Keeps f step) (turns : Nat) : Keeps f (step.repeatWhile turns) := by
  induction turns with
  | zero => exact Keeps.pure ()
  | succ turns ih =>
    refine bind h fun more => ?_
    cases more with
    | true => exact ih
    | false => exact Keeps.pure ()

end Keeps

/-- What holds of the state however the code ends. -/
theorem Leads.state {P : σ → Prop} (h : Leads x s (fun _ t => P t) fun _ t => P t) :
    P (x.run s).2 := by
  unfold Leads at h
  cases hr : x.run s with
  | mk r t =>
    rw [hr] at h
    cases r <;> exact h

theorem Leads.trivial : Leads x s (fun _ _ => True) fun _ _ => True := by
  unfold Leads
  split <;> exact True.intro

/-- Code that keeps `f` ends where `f` is what it was. -/
theorem Keeps.leads {ρ : Type} {f : σ → ρ} (h : Keeps f x) (s : σ) :
    Leads x s (fun _ t => f t = f s) fun _ t => f t = f s := by
  have hs := h s
  unfold Leads
  cases hr : x.run s with
  | mk r t =>
    rw [hr] at hs
    cases r <;> exact hs

end Act

end DryDb
