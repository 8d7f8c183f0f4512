import Mathlib
/-!
# Computations that may fail

The model's functions return `Except`. These lemmas run a `do` block forwards
(`ok_bind`) and take a successful one apart (`bind_eq_ok`), so that no proof
unfolds the monad.
-/

namespace DryDb

variable {ε α β : Type} {x : Except ε α} {e : ε} {a : α}

@[simp] theorem ok_bind (a : α) (f : α → Except ε β) : (Except.ok a >>= f) = f a := rfl

@[simp] theorem error_bind (e : ε) (f : α → Except ε β) : ((Except.error e : Except ε α) >>= f) = .error e := rfl

@[simp] theorem pure_eq_ok (a : α) : (pure a : Except ε α) = .ok a := rfl

@[simp] theorem throw_eq_error (e : ε) : (throw e : Except ε α) = .error e := rfl

@[simp] theorem map_ok (f : α → β) (a : α) : (f <$> (Except.ok a : Except ε α)) = .ok (f a) := rfl

@[simp] theorem map_error (f : α → β) (e : ε) : (f <$> (Except.error e : Except ε α)) = .error e := rfl

/-- A sequence succeeds exactly when both of its steps do. -/
theorem bind_eq_ok {f : α → Except ε β} {b : β} :
    (x >>= f) = .ok b ↔ ∃ a, x = .ok a ∧ f a = .ok b := by
  cases x with
  | error e => simp
  | ok a => simp

theorem map_eq_ok {f : α → β} {b : β} :
    (f <$> x) = .ok b ↔ ∃ a, x = .ok a ∧ f a = b := by
  cases x <;> simp

theorem map_eq_error {f : α → β} : (f <$> x) = .error e ↔ x = .error e := by
  cases x <;> simp

/-- What `if c then return Err(e)` leaves behind when the function went on. -/
theorem guard_eq_ok {c : Prop} [Decidable c] :
    (if c then .error e else x) = .ok a ↔ ¬ c ∧ x = .ok a := by
  by_cases h : c <;> simp [h]

theorem mapError_eq_ok {ε' : Type} {f : ε → ε'} :
    x.mapError f = .ok a ↔ x = .ok a := by
  cases x <;> simp [Except.mapError]

@[simp] theorem mapError_ok {ε' : Type} (f : ε → ε') (a : α) : (Except.ok a : Except ε α).mapError f = .ok a := rfl

/-- `Option::ok_or`. -/
def okOr (o : Option α) (e : ε) : Except ε α :=
  match o with
  | some a => .ok a
  | none => .error e

@[simp] theorem okOr_some (a : α) (e : ε) : okOr (some a) e = .ok a := rfl

@[simp] theorem okOr_none (e : ε) : okOr (none : Option α) e = .error e := rfl

theorem okOr_eq_ok {o : Option α} : okOr o e = .ok a ↔ o = some a := by
  cases o <;> simp [okOr]

/-- A list of results is one of the steps' results each. -/
theorem mapM_eq_ok {f : α → Except ε β} {l : List α} {l' : List β} :
    l.mapM f = .ok l' ↔ List.Forall₂ (fun a b => f a = .ok b) l l' := by
  induction l generalizing l' with
  | nil =>
    rw [List.mapM_nil, pure_eq_ok, Except.ok.injEq, List.forall₂_nil_left_iff]
    exact eq_comm
  | cons a l ih =>
    simp only [List.mapM_cons, bind_eq_ok, pure_eq_ok, Except.ok.injEq, ih]
    constructor
    · rintro ⟨b, hb, bs, hbs, rfl⟩
      exact .cons hb hbs
    · rintro (_ | ⟨hb, hbs⟩)
      exact ⟨_, hb, _, hbs, rfl⟩

/-! ## What a computation may do

`Meets fault post x`: the result of `x` satisfies `post`, or `x` failed with an error that
`fault` allows. -/

def Meets (fault : ε → Prop) (post : α → Prop) : Except ε α → Prop
  | .ok a => post a
  | .error e => fault e

namespace Meets

variable {fault : ε → Prop} {P Q : α → Prop} {R : β → Prop} {x : Except ε α}

@[simp] theorem ok_iff {a : α} : Meets fault P (.ok a) ↔ P a := Iff.rfl

@[simp] theorem error_iff {e : ε} : Meets fault P (.error e : Except ε α) ↔ fault e := Iff.rfl

/-- A sequence: the second step starts from whatever the first one established. -/
theorem bind {f : α → Except ε β} (hx : Meets fault P x) (hf : ∀ a, x = .ok a → P a → Meets fault R (f a)) :
    Meets fault R (x >>= f) := by
  cases x with
  | ok a => exact hf a rfl hx
  | error e => exact hx

theorem map {f : α → β} (hx : Meets fault (fun a => R (f a)) x) : Meets fault R (f <$> x) := by
  cases x with
  | ok a => exact hx
  | error e => exact hx

theorem mono (hx : Meets fault P x) (h : ∀ a, P a → Q a) : Meets fault Q x := by
  cases x with
  | ok a => exact h a hx
  | error e => exact hx

/-- A step about which only its failures are known. -/
theorem of_fault (h : ∀ e, x = .error e → fault e) : Meets fault (fun a => x = .ok a) x := by
  cases x with
  | ok a => rfl
  | error e => exact h e rfl

/-- What a successful computation established. -/
theorem post {a : α} (h : Meets fault P x) (hx : x = .ok a) : P a := by
  subst hx
  exact h

end Meets

/-! ## Loops over an index range -/

/-- Runs `f` at `i`, `i + 1`, …, `n` times, stopping at the first error. -/
def forRange (f : Nat → Except ε α) : Nat → Nat → Except ε Unit
  | _, 0 => .ok ()
  | i, n + 1 => do
    let _ ← f i
    forRange f (i + 1) n

theorem forRange_eq_ok {f : Nat → Except ε α} {i n : Nat} :
    forRange f i n = .ok () ↔ ∀ j, i ≤ j → j < i + n → ∃ a, f j = .ok a := by
  induction n generalizing i with
  | zero => simp only [forRange, true_iff]; omega
  | succ n ih =>
    simp only [forRange, bind_eq_ok, ih]
    constructor
    · rintro ⟨a, ha, h⟩ j hij hj
      rcases Nat.eq_or_lt_of_le hij with rfl | hlt
      · exact ⟨a, ha⟩
      · exact h j hlt (by omega)
    · intro h
      obtain ⟨a, ha⟩ := h i (Nat.le_refl i) (by omega)
      exact ⟨a, ha, fun j hj hj' => h j (by omega) (by omega)⟩

end DryDb
