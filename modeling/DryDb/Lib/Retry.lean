import DryDb.Lib.Program
/-!
# Programs that are tried again

Answers may fail for a while. `Comes may p r`: with answers that `may` allows, `p` comes to the
outcome `r`. `Tracks` compares that with one run of a second program in which nothing fails: what
the first returns the second returns too, and a failure of the first is excused or is also one of
the second. The rules follow the shape of the programs.

The second half is about a call made again and again on a state it keeps (`Retried`). When a call
that fails leaves the state as it was, the calls that do not fail return, in order, what the same
calls return with no failure at all (`Retried.resumes`).
-/

namespace DryDb

namespace Program

variable {Op : Type} {Ans : Op → Type} {ε α β γ δ : Type}

/-- The program can come to this outcome when every answer is one `may` allows. -/
def Comes (may : (op : Op) → Ans op → Prop) : Program Op Ans ε α → Except ε α → Prop
  | done a, r => r = .ok a
  | fail e, r => r = .error e
  | ask op k, r => ∃ x, may op x ∧ (k x).Comes may r

section
variable {may : (op : Op) → Ans op → Prop} {p : Program Op Ans ε α} {f : α → Program Op Ans ε β} {r : Except ε α}

@[simp] theorem comes_pure {a : α} : (pure a : Program Op Ans ε α).Comes may r ↔ r = .ok a := Iff.rfl

@[simp] theorem comes_fail {e : ε} : (fail e : Program Op Ans ε α).Comes may r ↔ r = .error e := Iff.rfl

@[simp] theorem comes_question {op : Op} {r : Except ε (Ans op)} :
    (question op : Program Op Ans ε (Ans op)).Comes may r ↔ ∃ x, may op x ∧ r = .ok x := Iff.rfl

@[simp] theorem comes_lift {x : Except ε α} : (liftM x : Program Op Ans ε α).Comes may r ↔ r = x := by
  cases x <;> exact Iff.rfl

/-- A sequence comes to what its second part comes to, or fails where its first part does. -/
theorem comes_bind {r : Except ε β} : (p >>= f).Comes may r ↔
    (∃ a, p.Comes may (.ok a) ∧ (f a).Comes may r) ∨ ∃ e, p.Comes may (.error e) ∧ r = .error e := by
  change (p.bind f).Comes may r ↔ _
  induction p with
  | done a => simp [bind, Comes]
  | fail e => simp [bind, Comes]
  | ask op k ih =>
    simp only [bind, Comes, ih]
    constructor
    · rintro ⟨x, hx, ⟨a, ha, hr⟩ | ⟨e, he, hr⟩⟩
      · exact .inl ⟨a, ⟨x, hx, ha⟩, hr⟩
      · exact .inr ⟨e, ⟨x, hx, he⟩, hr⟩
    · rintro (⟨a, ⟨x, hx, ha⟩, hr⟩ | ⟨e, ⟨x, hx, he⟩, hr⟩)
      · exact ⟨x, hx, .inl ⟨a, ha, hr⟩⟩
      · exact ⟨x, hx, .inr ⟨e, he, hr⟩⟩

theorem comes_attempt {r : Except ε (Except ε α)} : p.attempt.Comes may r ↔ ∃ x, p.Comes may x ∧ r = .ok x := by
  induction p with
  | done a => simp [attempt, Comes]
  | fail e => simp [attempt, Comes]
  | ask op k ih =>
    simp only [attempt, Comes, ih]
    constructor
    · rintro ⟨a, ha, x, hx, hr⟩
      exact ⟨x, ⟨a, ha, hx⟩, hr⟩
    · rintro ⟨x, ⟨a, ha, hx⟩, hr⟩
      exact ⟨a, ha, x, hx, hr⟩

/-- A run is one of the outcomes when its own answers are allowed. -/
theorem comes_run {env : (op : Op) → Ans op} (h : ∀ op, may op (env op)) (p : Program Op Ans ε α) :
    p.Comes may (p.run env) := by
  induction p with
  | done a => exact rfl
  | fail e => exact rfl
  | ask op k ih => exact ⟨env op, h op, ih (env op)⟩

end

/-- Whatever `p` comes to with answers `may` allows, the run of `q` with the answers of `env`
comes to as well, up to `R`; a failure of `p` may be excused. -/
def Tracks (may : (op : Op) → Ans op → Prop) (env : (op : Op) → Ans op) (excused : Prop) (R : α → β → Prop)
    (p : Program Op Ans ε α) (q : Program Op Ans ε β) : Prop :=
  (∀ a, p.Comes may (.ok a) → ∃ b, q.run env = .ok b ∧ R a b) ∧
    ∀ e, p.Comes may (.error e) → excused ∨ q.run env = .error e

namespace Tracks

variable {may : (op : Op) → Ans op → Prop} {env : (op : Op) → Ans op} {excused : Prop} {R : α → β → Prop}
  {S : γ → δ → Prop} {p : Program Op Ans ε α} {q : Program Op Ans ε β}

theorem pure {a : α} {b : β} (h : R a b) :
    Tracks may env excused R (pure a : Program Op Ans ε α) (pure b : Program Op Ans ε β) := by
  refine ⟨fun a' ha => ?_, fun e he => ?_⟩
  · cases comes_pure.1 ha
    exact ⟨b, rfl, h⟩
  · cases comes_pure.1 he

theorem fail (e : ε) : Tracks may env excused R (fail e : Program Op Ans ε α) (Program.fail e : Program Op Ans ε β) := by
  refine ⟨fun a ha => ?_, fun e' he => ?_⟩
  · cases comes_fail.1 ha
  · cases comes_fail.1 he
    exact .inr rfl

theorem lift (x : Except ε α) :
    Tracks may env excused Eq (liftM x : Program Op Ans ε α) (liftM x : Program Op Ans ε α) := by
  refine ⟨fun a ha => ⟨a, ?_, rfl⟩, fun e he => .inr ?_⟩
  · rw [run_liftM, comes_lift.1 ha]
  · rw [run_liftM, comes_lift.1 he]

theorem mono (h : Tracks may env excused R p q) {R' : α → β → Prop} (hr : ∀ a b, R a b → R' a b) :
    Tracks may env excused R' p q := by
  refine ⟨fun a ha => ?_, h.2⟩
  obtain ⟨b, hb, hab⟩ := h.1 a ha
  exact ⟨b, hb, hr a b hab⟩

/-- Two sequences: the second parts start from related results. -/
theorem bind {f : α → Program Op Ans ε γ} {g : β → Program Op Ans ε δ} (h : Tracks may env excused R p q)
    (hf : ∀ a b, R a b → Tracks may env excused S (f a) (g b)) : Tracks may env excused S (p >>= f) (q >>= g) := by
  have hok : ∀ a, p.Comes may (.ok a) → ∃ b, (q >>= g).run env = (g b).run env ∧ R a b := by
    intro a ha
    obtain ⟨b, hb, hab⟩ := h.1 a ha
    exact ⟨b, by rw [run_bind, hb, ok_bind], hab⟩
  refine ⟨fun c hc => ?_, fun e he => ?_⟩
  · rcases comes_bind.1 hc with ⟨a, ha, hr⟩ | ⟨e, -, hr⟩
    · obtain ⟨b, hb, hab⟩ := hok a ha
      rw [hb]
      exact (hf a b hab).1 c hr
    · cases hr
  · rcases comes_bind.1 he with ⟨a, ha, hr⟩ | ⟨e', he', hr⟩
    · obtain ⟨b, hb, hab⟩ := hok a ha
      rw [hb]
      exact (hf a b hab).2 e hr
    · cases hr
      exact (h.2 e he').imp_right fun hq => by rw [run_bind, hq, error_bind]

/-- The same when both first parts return the same thing. -/
theorem seq {p q : Program Op Ans ε α} {f : α → Program Op Ans ε γ} {g : α → Program Op Ans ε δ}
    (h : Tracks may env excused Eq p q) (hf : ∀ a, Tracks may env excused S (f a) (g a)) :
    Tracks may env excused S (p >>= f) (q >>= g) :=
  h.bind fun a _ hab => hab ▸ hf a

theorem ite {c : Prop} [Decidable c] {p' : Program Op Ans ε α} {q' : Program Op Ans ε β}
    (h : Tracks may env excused R p q) (h' : Tracks may env excused R p' q') :
    Tracks may env excused R (if c then p else p') (if c then q else q') := by
  split
  · exact h
  · exact h'

/-- Failures become results, related in the same way. -/
theorem attempt (h : Tracks may env excused R p q) : Tracks may env excused
    (fun x y => (∀ a, x = .ok a → ∃ b, y = .ok b ∧ R a b) ∧ ∀ e, x = .error e → excused ∨ y = .error e)
    p.attempt q.attempt := by
  refine ⟨fun x hx => ⟨q.run env, run_attempt env q, ?_⟩, fun e he => ?_⟩
  · obtain ⟨x', hx', hxx⟩ := comes_attempt.1 hx
    cases hxx
    exact ⟨fun a ha => h.1 a (ha ▸ hx'), fun e he => h.2 e (he ▸ hx')⟩
  · obtain ⟨_, _, hxx⟩ := comes_attempt.1 he
    cases hxx

end Tracks

/-- The run comes to a result. -/
def Succeeds (env : (op : Op) → Ans op) (p : Program Op Ans ε α) : Prop := ∃ a, p.run env = .ok a

namespace Succeeds

variable {env : (op : Op) → Ans op} {p : Program Op Ans ε α}

theorem pure (a : α) : Succeeds env (pure a : Program Op Ans ε α) := ⟨a, rfl⟩

theorem attempt (p : Program Op Ans ε α) : Succeeds env p.attempt := ⟨p.run env, run_attempt env p⟩

theorem bind {f : α → Program Op Ans ε β} (h : Succeeds env p) (hf : ∀ a, Succeeds env (f a)) :
    Succeeds env (p >>= f) := by
  obtain ⟨a, ha⟩ := h
  obtain ⟨b, hb⟩ := hf a
  exact ⟨b, by rw [run_bind, ha, ok_bind, hb]⟩

theorem ite {c : Prop} [Decidable c] {q : Program Op Ans ε α} (h : Succeeds env p) (h' : Succeeds env q) :
    Succeeds env (if c then p else q) := by
  split
  · exact h
  · exact h'

end Succeeds

namespace Tracks

variable {may : (op : Op) → Ans op → Prop} {env : (op : Op) → Ans op} {excused : Prop} {R : α → β → Prop}
  {S : γ → δ → Prop} {p : Program Op Ans ε α} {q : Program Op Ans ε β}

/-- Two sequences of which the first may give up early with a result that says so. -/
theorem bindOr {f : α → Program Op Ans ε γ} {g : β → Program Op Ans ε δ} (h : Tracks may env excused R p q)
    (hq : Succeeds env (q >>= g))
    (hf : ∀ a b, R a b → Tracks may env excused S (f a) (g b) ∨ ∃ c, f a = Pure.pure c ∧ ∀ d, S c d) :
    Tracks may env excused S (p >>= f) (q >>= g) := by
  have hok : ∀ a, p.Comes may (.ok a) →
      (∃ b, (q >>= g).run env = (g b).run env ∧ Tracks may env excused S (f a) (g b)) ∨
        ∃ c, f a = Pure.pure c ∧ ∀ d, S c d := by
    intro a ha
    obtain ⟨b, hb, hab⟩ := h.1 a ha
    exact (hf a b hab).imp_left fun ht => ⟨b, by rw [run_bind, hb, ok_bind], ht⟩
  refine ⟨fun c hc => ?_, fun e he => ?_⟩
  · rcases comes_bind.1 hc with ⟨a, ha, hr⟩ | ⟨e, -, hr⟩
    · rcases hok a ha with ⟨b, hb, ht⟩ | ⟨c', hfa, hall⟩
      · rw [hb]
        exact ht.1 c hr
      · rw [hfa] at hr
        cases comes_pure.1 hr
        exact hq.imp fun d hd => ⟨hd, hall d⟩
    · cases hr
  · rcases comes_bind.1 he with ⟨a, ha, hr⟩ | ⟨e', he', hr⟩
    · rcases hok a ha with ⟨b, hb, ht⟩ | ⟨c', hfa, hall⟩
      · rw [hb]
        exact ht.2 e hr
      · rw [hfa] at hr
        cases comes_pure.1 hr
    · cases hr
      exact (h.2 e he').imp_right fun hq => by rw [run_bind, hq, error_bind]

/-- Two programs that go on after a failure they caught: from related results, from the same
failure, or, when the failure is excused, with a result that says so. -/
theorem caught {f : Except ε α → Program Op Ans ε γ} {g : Except ε β → Program Op Ans ε δ}
    (h : Tracks may env excused R p q) (hq : Succeeds env (q.attempt >>= g))
    (hok : ∀ a b, R a b → Tracks may env excused S (f (.ok a)) (g (.ok b)))
    (herror : ∀ e, Tracks may env excused S (f (.error e)) (g (.error e)))
    (hexcused : ∀ e, ∃ c, f (.error e) = Pure.pure c ∧ (excused → ∀ d, S c d)) :
    Tracks may env excused S (p.attempt >>= f) (q.attempt >>= g) := by
  refine h.attempt.bindOr hq fun x y hxy => ?_
  cases x with
  | ok a =>
    obtain ⟨b, rfl, hab⟩ := hxy.1 a rfl
    exact .inl (hok a b hab)
  | error e =>
    rcases hxy.2 e rfl with hexc | rfl
    · obtain ⟨c, hc, hall⟩ := hexcused e
      exact .inr ⟨c, hc, hall hexc⟩
    · exact .inl (herror e)

end Tracks

/-- A program that fails only with an excuse, whatever it returns. -/
def Forgiving (may : (op : Op) → Ans op → Prop) (env : (op : Op) → Ans op) (excused : Prop)
    (p : Program Op Ans ε α) : Prop :=
  Succeeds env p ∧ ∀ e, p.Comes may (.error e) → excused

namespace Forgiving

variable {may : (op : Op) → Ans op → Prop} {env : (op : Op) → Ans op} {excused : Prop} {p : Program Op Ans ε α}

theorem pure (a : α) : Forgiving may env excused (pure a : Program Op Ans ε α) := by
  refine ⟨.pure a, fun e he => ?_⟩
  cases comes_pure.1 he

theorem bind {f : α → Program Op Ans ε β} (h : Forgiving may env excused p)
    (hf : ∀ a, Forgiving may env excused (f a)) : Forgiving may env excused (p >>= f) := by
  refine ⟨h.1.bind fun a => (hf a).1, fun e he => ?_⟩
  rcases comes_bind.1 he with ⟨a, _, hr⟩ | ⟨e', he', _⟩
  · exact (hf a).2 e hr
  · exact h.2 e' he'

theorem ite {c : Prop} [Decidable c] {q : Program Op Ans ε α} (h : Forgiving may env excused p)
    (h' : Forgiving may env excused q) : Forgiving may env excused (if c then p else q) := by
  split
  · exact h
  · exact h'

theorem tracks {q : Program Op Ans ε β} (h : Forgiving may env excused p) (h' : Forgiving may env excused q) :
    Tracks may env excused (fun _ _ => True) p q :=
  ⟨fun _ _ => h'.1.imp fun _ hb => ⟨hb, trivial⟩, fun e he => .inl (h.2 e he)⟩

end Forgiving

end Program

/-! ## Calls on a state that is kept between them -/

section
variable {Op : Type} {Ans : Op → Type} {ε σ ρ : Type}

/-- What a call handed back: a row, or that there is none left. -/
def handedBack (row : σ → ρ) (s : σ) (r : Except ε Bool) : Except ε (Option ρ) :=
  r.map fun more => if more then some (row s) else none

/-- Calls made one after another, and what each handed back. Every call meets answers of its own;
the flag of `may` says whether they may include failures. -/
inductive Retried (may : Prop → (op : Op) → Ans op → Prop) (call : σ → Program Op Ans ε (σ × Except ε Bool))
    (row : σ → ρ) (s : σ) : List (Except ε (Option ρ)) → σ → Prop
  | nil : Retried may call row s [] s
  | call {outs : List (Except ε (Option ρ))} {s₁ s₂ : σ} {r : Except ε Bool} {failing : Prop} :
      Retried may call row s outs s₁ → (call s₁).Comes (may failing) (.ok (s₂, r)) →
      Retried may call row s (outs ++ [handedBack row s₂ r]) s₂

/-- Calls answered by one environment each. -/
def replay (call : σ → Program Op Ans ε (σ × Except ε Bool)) (row : σ → ρ) (s : σ) :
    List ((op : Op) → Ans op) → List (Except ε (Option ρ)) × σ
  | [] => ([], s)
  | env :: rest =>
    let (outs, s₁) := replay call row s rest
    match (call s₁).run env with
    | .ok (s₂, r) => (outs ++ [handedBack row s₂ r], s₂)
    | .error _ => (outs, s₁)

theorem Retried.of_replay {may : Prop → (op : Op) → Ans op → Prop} {failing : Prop}
    {call : σ → Program Op Ans ε (σ × Except ε Bool)} {row : σ → ρ} {s : σ} {envs : List ((op : Op) → Ans op)}
    (h : ∀ env ∈ envs, ∀ op, may failing op (env op)) :
    Retried may call row s (replay call row s envs).1 (replay call row s envs).2 := by
  induction envs with
  | nil => exact .nil
  | cons env rest ih =>
    have hrest := ih fun e he => h e (List.mem_cons_of_mem _ he)
    have hcomes := Program.comes_run (h env List.mem_cons_self) (call (replay call row s rest).2)
    rw [replay]
    dsimp only
    split
    · rename_i s₂ r hrun
      rw [hrun] at hcomes
      exact hrest.call hcomes
    · exact hrest

/-- The rows of the calls that returned one. -/
def delivered (outs : List (Except ε (Option ρ))) : List ρ := outs.filterMap fun r => r.toOption.join

/-- The state after `n` calls answered by `env`. -/
def afterCalls (env : (op : Op) → Ans op) (call : σ → Program Op Ans ε (σ × Except ε Bool)) (s : σ) : Nat → σ
  | 0 => s
  | n + 1 =>
    match (call (afterCalls env call s n)).run env with
    | .ok (s', _) => s'
    | .error _ => afterCalls env call s n

/-- What call number `n` hands back when all of them are answered by `env`. -/
def nthCall (env : (op : Op) → Ans op) (call : σ → Program Op Ans ε (σ × Except ε Bool)) (row : σ → ρ) (s : σ)
    (n : Nat) : Except ε (Option ρ) := do
  let (s', r) ← (call (afterCalls env call s n)).run env
  handedBack row s' r

/-- The calls handed back what the first calls of the run without failures hand back. -/
structure Resumes (clean : Nat → Except ε (Option ρ)) (outs : List (Except ε (Option ρ))) : Prop where
  /-- Row for row, with none lost and none repeated. -/
  rows : ∀ i row, (delivered outs)[i]? = some row → clean i = .ok (some row)
  /-- The end is only reported when there is no further row. -/
  ended : .ok none ∈ outs → ∀ i, (delivered outs).length ≤ i → clean i = .ok none

variable {may : Prop → (op : Op) → Ans op → Prop} {env : (op : Op) → Ans op}
  {call : σ → Program Op Ans ε (σ × Except ε Bool)} {row : σ → ρ}

/-- How a call from one of two states that are the `same` relates to the call from the other. -/
def CallRel (same : σ → σ → Prop) (row : σ → ρ) (excused : Prop) (s : σ) (x y : σ × Except ε Bool) : Prop :=
  match x.2 with
  | .ok more => y.2 = .ok more ∧ same x.1 y.1 ∧ (more = true → row x.1 = row y.1)
  | .error e => same x.1 s ∧ (excused ∨ y.2 = .error e)

/-- What a call owes to be retried: failures leave the state as it was, and nothing follows the end. -/
structure Retriable (may : Prop → (op : Op) → Ans op → Prop) (env : (op : Op) → Ans op)
    (call : σ → Program Op Ans ε (σ × Except ε Bool)) (row : σ → ρ) (same : σ → σ → Prop) (spent : σ → Prop) :
    Prop where
  trans : ∀ s₁ s₂ s₃, same s₁ s₂ → same s₂ s₃ → same s₁ s₃
  tracks : ∀ failing s₁ s₂, same s₁ s₂ →
    Program.Tracks (may failing) env failing (CallRel same row failing s₁) (call s₁) (call s₂)
  closes : ∀ s s', (call s).run env = .ok (s', .ok false) → spent s'
  stays : ∀ s, spent s → ∃ s', (call s).run env = .ok (s', .ok false)

@[simp] theorem delivered_append_row (outs : List (Except ε (Option ρ))) (r : ρ) :
    delivered (outs ++ [.ok (some r)]) = delivered outs ++ [r] := by
  simp [delivered, Except.toOption]

@[simp] theorem delivered_append_end (outs : List (Except ε (Option ρ))) :
    delivered (outs ++ [.ok none]) = delivered outs := by
  simp [delivered, Except.toOption]

@[simp] theorem delivered_append_error (outs : List (Except ε (Option ρ))) (e : ε) :
    delivered (outs ++ [.error e]) = delivered outs := by
  simp [delivered, Except.toOption]

section
variable {s : σ} {n : Nat} {s' : σ} {r : Except ε Bool}

theorem afterCalls_succ (h : (call (afterCalls env call s n)).run env = .ok (s', r)) :
    afterCalls env call s (n + 1) = s' := by
  rw [afterCalls, h]

theorem nthCall_eq (h : (call (afterCalls env call s n)).run env = .ok (s', r)) :
    nthCall env call row s n = handedBack row s' r := by
  rw [nthCall, h]
  rfl

end

section
variable {same : σ → σ → Prop} {spent : σ → Prop} {s : σ} {m : Nat} {outs : List (Except ε (Option ρ))}

/-- Once the end is reached, every later call reports it again. -/
theorem Retriable.nthCall_of_spent (h : Retriable may env call row same spent) {n : Nat}
    (ho : spent (afterCalls env call s n)) (hm : n ≤ m) : nthCall env call row s m = .ok none := by
  have hspent : ∀ k, spent (afterCalls env call s (n + k)) := by
    intro k
    induction k with
    | zero => exact ho
    | succ k ih =>
      obtain ⟨s', hs'⟩ := h.stays _ ih
      rw [← Nat.add_assoc, afterCalls_succ hs']
      exact h.closes _ _ hs'
  obtain ⟨k, rfl⟩ := Nat.exists_eq_add_of_le hm
  obtain ⟨s', hs'⟩ := h.stays _ (hspent k)
  exact nthCall_eq hs'

/-- Where the calls stand: `m` of the calls of the run without failures have been made. -/
structure Standing (env : (op : Op) → Ans op) (call : σ → Program Op Ans ε (σ × Except ε Bool)) (row : σ → ρ)
    (same : σ → σ → Prop) (s : σ) (outs : List (Except ε (Option ρ))) (s' : σ) (m : Nat) : Prop where
  resumes : Resumes (nthCall env call row s) outs
  state : same s' (afterCalls env call s m)
  made : (delivered outs).length ≤ m
  going : .ok none ∉ outs → m = (delivered outs).length

/-- The next call of the run without failures, after any that have reported the end. -/
theorem Standing.nthCall_eq_length {s' : σ} (h : Standing env call row same s outs s' m) :
    nthCall env call row s m = nthCall env call row s (delivered outs).length := by
  by_cases hend : .ok none ∈ outs
  · rw [h.resumes.ended hend _ (Nat.le_refl _), h.resumes.ended hend _ h.made]
  · rw [h.going hend]

/-- One more call. -/
theorem Standing.next {s₁ s₂ : σ} {r : Except ε Bool} {failing : Prop}
    (hr : Retriable may env call row same spent) (h : Standing env call row same s outs s₁ m)
    (hc : (call s₁).Comes (may failing) (.ok (s₂, r))) :
    (∃ m', Standing env call row same s (outs ++ [handedBack row s₂ r]) s₂ m') ∧
      (failing ∨ handedBack row s₂ r = nthCall env call row s (delivered outs).length) := by
  obtain ⟨⟨s₃, r'⟩, hrun, hrel⟩ := (hr.tracks failing _ _ h.state).1 _ hc
  rw [← h.nthCall_eq_length, nthCall_eq hrun]
  match r, hrel with
  | .error e, ⟨hsame, hexc⟩ =>
    refine ⟨⟨m, ?_⟩, hexc.imp_right fun he => by rw [show r' = .error e from he]; rfl⟩
    have hout : handedBack row s₂ (.error e : Except ε Bool) = .error e := rfl
    refine ⟨⟨?_, ?_⟩, hr.trans _ _ _ hsame h.state, ?_, ?_⟩
    · rw [hout, delivered_append_error]
      exact h.resumes.rows
    · rw [hout, delivered_append_error]
      intro hend
      exact h.resumes.ended (by simpa using hend)
    · rw [hout, delivered_append_error]
      exact h.made
    · rw [hout, delivered_append_error]
      intro hend
      exact h.going fun hm => hend (List.mem_append_left _ hm)
  | .ok false, ⟨hr', hsame, _⟩ =>
    cases (show r' = .ok false from hr')
    have hclean : nthCall env call row s m = .ok none := nthCall_eq hrun
    refine ⟨⟨m + 1, ?_⟩, .inr rfl⟩
    have hout : handedBack row s₂ (.ok false : Except ε Bool) = .ok none := rfl
    refine ⟨⟨?_, ?_⟩, by rw [afterCalls_succ hrun]; exact hsame, ?_, ?_⟩
    · rw [hout, delivered_append_end]
      exact h.resumes.rows
    · rw [hout, delivered_append_end]
      intro _ i hi
      by_cases hend : .ok none ∈ outs
      · exact h.resumes.ended hend i hi
      · -- This is the first call to report the end, so it is the call after the last row.
        have hm := h.going hend
        rcases Nat.eq_or_lt_of_le hi with rfl | hlt
        · rw [← hm]
          exact hclean
        · have hspent : spent (afterCalls env call s (m + 1)) := by
            rw [afterCalls_succ hrun]
            exact hr.closes _ _ hrun
          exact hr.nthCall_of_spent hspent (by omega)
    · rw [hout, delivered_append_end]
      exact Nat.le_succ_of_le h.made
    · rw [hout]
      intro hend
      exact absurd (List.mem_append_right _ (List.mem_singleton_self _)) hend
  | .ok true, ⟨hr', hsame, hrow⟩ =>
    cases (show r' = .ok true from hr')
    have hout : handedBack row s₂ (.ok true : Except ε Bool) = .ok (some (row s₂)) := rfl
    have hout' : handedBack row s₃ (.ok true : Except ε Bool) = .ok (some (row s₂)) := by rw [hrow rfl]; rfl
    have hclean : nthCall env call row s m = .ok (some (row s₂)) := by rw [nthCall_eq hrun, hout']
    -- A row means that no end was reported before it.
    have hgoing : .ok none ∉ outs := by
      intro hend
      rw [h.resumes.ended hend m h.made] at hclean
      cases hclean
    have hm := h.going hgoing
    refine ⟨⟨m + 1, ?_⟩, .inr (hout.trans hout'.symm)⟩
    refine ⟨⟨?_, ?_⟩, by rw [afterCalls_succ hrun]; exact hsame, ?_, ?_⟩
    · rw [hout, delivered_append_row]
      intro i x hx
      rw [List.getElem?_append] at hx
      split at hx
      · exact h.resumes.rows i x hx
      · obtain ⟨hi, rfl⟩ := List.getElem?_eq_some_iff.1 hx
        have : i = m := by simp at hi; omega
        subst this
        simpa using hclean
    · rw [hout]
      intro hend
      rcases List.mem_append.1 hend with hend | hend
      · exact absurd hend hgoing
      · simp at hend
    · rw [hout, delivered_append_row]
      simp [hm]
    · rw [hout, delivered_append_row]
      simp [hm]

/-- Calls that are tried again resume where they failed: together they hand back what the run
without failures hands back, and a call that meets no failure hands back its next outcome. -/
theorem Retried.resumes (hr : Retriable may env call row same spent) {s' : σ}
    (hs : same s s) (h : Retried may call row s outs s') :
    Resumes (nthCall env call row s) outs ∧
      ∀ s₂ r, (call s').Comes (may False) (.ok (s₂, r)) →
        handedBack row s₂ r = nthCall env call row s (delivered outs).length := by
  have hstanding : ∃ m, Standing env call row same s outs s' m := by
    induction h with
    | nil =>
      refine ⟨0, ⟨fun i x hx => ?_, fun hend => ?_⟩, hs, Nat.le_refl _, fun _ => rfl⟩
      · cases hx
      · cases hend
    | call _ hc ih =>
      obtain ⟨m, hm⟩ := ih
      exact (hm.next hr hc).1
  obtain ⟨m, hm⟩ := hstanding
  exact ⟨hm.resumes, fun s₂ r hc => ((hm.next hr hc).2).resolve_left id⟩

end

end

end DryDb
