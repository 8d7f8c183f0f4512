import DryDb.Lib.Bytes
import DryDb.Lib.Outcome
/-!
# Code on machine words

Compiled code can do more than return a value or an error: a sum may not fit its word, a
difference may be negative, an index may lie outside its slice, a loop may not end. Such
code is a `Machine`, where all of these stop the program with a `Trap`. `lift` embeds code
that cannot trap, so that `m = lift x` says that `m` never traps and computes what `x`
computes. The rules below prove such equations statement by statement.
-/

namespace DryDb

/-- Why a program stopped although nothing reported an error. -/
inductive Trap where
  /-- An unchecked operation left the range of a word. -/
  | overflow
  /-- A slice was indexed outside its bounds, or copied to an array of another length. -/
  | outOfRange
  /-- A loop took more turns than it was given. -/
  | endless
  deriving DecidableEq, Repr

/-- How a program ends without a value. -/
inductive Stop (ε : Type) where
  | error (e : ε)
  | trap (t : Trap)
  deriving DecidableEq, Repr

abbrev Machine (ε α : Type) := Except (Stop ε) α

namespace Machine

variable {ε α β : Type} {x : Except ε α} {m : Machine ε α} {a b : Nat}

/-- Code that cannot trap. -/
def lift (x : Except ε α) : Machine ε α := x.mapError .error

/-- Reports an error. -/
def fail (e : ε) : Machine ε α := .error (.error e)

def trap (t : Trap) : Machine ε α := .error (.trap t)

/-- Unchecked addition of words below `limit`. -/
def add (limit a b : Nat) : Machine ε Nat := if a + b < limit then .ok (a + b) else trap .overflow

/-- Unchecked multiplication of words below `limit`. -/
def mul (limit a b : Nat) : Machine ε Nat := if a * b < limit then .ok (a * b) else trap .overflow

/-- Unchecked subtraction. -/
def sub (a b : Nat) : Machine ε Nat := if b ≤ a then .ok (a - b) else trap .overflow

/-- The slice `start .. stop`, by indexing. -/
def index (l : List α) (start stop : Nat) : Machine ε (List α) :=
  if start ≤ stop ∧ stop ≤ l.length then .ok ((l.drop start).take (stop - start)) else trap .outOfRange

/-- Copies a slice into an array of `n` elements. -/
def copyFromSlice (n : Nat) (l : List α) : Machine ε (List α) := if l.length = n then .ok l else trap .outOfRange

/-! ## Running without a trap -/

@[simp] theorem lift_ok (a : α) : lift (.ok a : Except ε α) = .ok a := rfl

@[simp] theorem lift_error (e : ε) : lift (.error e : Except ε α) = fail e := rfl

theorem lift_map (f : α → β) (x : Except ε α) : lift (f <$> x) = f <$> lift x := by
  cases x <;> rfl

/-- A sequence runs without a trap when both of its steps do. -/
theorem bind_lift {f : α → Except ε β} {g : α → Machine ε β}
    (hm : m = lift x) (hg : ∀ a, x = .ok a → g a = lift (f a)) : (m >>= g) = lift (x >>= f) := by
  subst hm
  cases x with
  | error e => rfl
  | ok a => exact hg a rfl

/-- So does a check with the code after it. -/
theorem guard_lift {c : Prop} [Decidable c] {e : ε} (h : ¬ c → m = lift x) :
    (if c then fail e else m) = lift (if c then .error e else x) := by
  by_cases hc : c
  · rw [if_pos hc, if_pos hc]
    rfl
  · rw [if_neg hc, if_neg hc]
    exact h hc

theorem ite_lift {c : Prop} [Decidable c] {y : Except ε α} {n : Machine ε α} (hm : c → m = lift x)
    (hn : ¬ c → n = lift y) : (if c then m else n) = lift (if c then x else y) := by
  by_cases hc : c
  · rw [if_pos hc, if_pos hc]
    exact hm hc
  · rw [if_neg hc, if_neg hc]
    exact hn hc

theorem add_of_lt {limit : Nat} (h : a + b < limit) : (add limit a b : Machine ε Nat) = .ok (a + b) := if_pos h

theorem mul_of_lt {limit : Nat} (h : a * b < limit) : (mul limit a b : Machine ε Nat) = .ok (a * b) := if_pos h

theorem sub_of_le (h : b ≤ a) : (sub a b : Machine ε Nat) = .ok (a - b) := if_pos h

theorem index_of_le {l : List α} {start stop : Nat} (h : start ≤ stop) (hl : stop ≤ l.length) :
    (index l start stop : Machine ε (List α)) = .ok ((l.drop start).take (stop - start)) := if_pos ⟨h, hl⟩

theorem copyFromSlice_of_eq {n : Nat} {l : List α} (h : l.length = n) :
    (copyFromSlice n l : Machine ε (List α)) = .ok l := if_pos h

/-- A loop over an index range. -/
theorem forRange_lift {f : Nat → Except ε α} {g : Nat → Machine ε α} (h : ∀ i, g i = lift (f i)) (i n : Nat) :
    forRange g i n = lift (forRange f i n) := by
  induction n generalizing i with
  | zero => rfl
  | succ n ih => exact bind_lift (h i) fun _ _ => ih (i + 1)

end Machine

end DryDb
