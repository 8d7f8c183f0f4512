import Mathlib
/-!
# Runs of a system that takes one step after another

A `Run` is a finite execution of a labelled step relation: the state it reached and
every step it took on the way, newest first. A theorem about every `Run` holds at every
moment of every interleaving, because each prefix of a run is a run.
-/

namespace DryDb

variable {σ ℓ : Type}

/-- One step of a run. -/
structure Event (σ ℓ : Type) where
  before : σ
  label : ℓ
  after : σ

/-- Executions from an initial state. -/
inductive Run (init : σ → Prop) (step : σ → ℓ → σ → Prop) : List (Event σ ℓ) → σ → Prop
  | start {s : σ} : init s → Run init step [] s
  | next {past : List (Event σ ℓ)} {s s' : σ} {l : ℓ} :
      Run init step past s → step s l s' → Run init step (⟨s, l, s'⟩ :: past) s'

namespace Run

variable {init : σ → Prop} {step : σ → ℓ → σ → Prop} {past : List (Event σ ℓ)} {s : σ}

/-- What holds at the start and is kept by every step, whatever happened before it, holds
of every run. -/
theorem invariant {I : List (Event σ ℓ) → σ → Prop} (h0 : ∀ s, init s → I [] s)
    (hs : ∀ past s l s', I past s → step s l s' → I (⟨s, l, s'⟩ :: past) s') (h : Run init step past s) : I past s := by
  induction h with
  | start hi => exact h0 _ hi
  | next _ hstep ih => exact hs _ _ _ _ ih hstep

/-- The same for a property of the state alone. -/
theorem state {I : σ → Prop} (h0 : ∀ s, init s → I s) (hs : ∀ s l s', I s → step s l s' → I s')
    (h : Run init step past s) : I s :=
  h.invariant (I := fun _ s => I s) h0 fun _ s l s' hi hstep => hs s l s' hi hstep

/-- Every event of a run is a step, taken from a state a shorter run reached. -/
theorem event {e : Event σ ℓ} (h : Run init step past s) (he : e ∈ past) :
    ∃ before, Run init step before e.before ∧ step e.before e.label e.after := by
  induction h with
  | start _ => cases he
  | next hr hstep ih =>
    rcases List.mem_cons.1 he with rfl | he
    · exact ⟨_, hr, hstep⟩
    · exact ih he

end Run

/-- The states a run passed through, the last one first. -/
def visited (past : List (Event σ ℓ)) (s : σ) : List σ := s :: past.map (·.before)

@[simp] theorem visited_nil (s : σ) : visited ([] : List (Event σ ℓ)) s = [s] := rfl

@[simp] theorem visited_cons (e : Event σ ℓ) (past : List (Event σ ℓ)) (s : σ) :
    visited (e :: past) s = s :: visited past e.before := rfl

end DryDb
