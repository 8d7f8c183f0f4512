import DryDb.Lib.Bytes
/-!
# Parsing a prefix of a file

A parser reads a buffer that may be only the beginning of the input, so it has three
outcomes: a value with the position behind it, a failure, or the number of bytes it
needs. `Stable` says that more input never changes an answer already given: on a
longer buffer a value and a failure stay what they were, and a request for `n` bytes
stays the same request until `n` bytes are there. Every parser built from `take` and
sequencing is stable.

`ReadsAt` is the other direction: a parser that starts where an image was written gives
back what the image stands for, and stops behind it.
-/

namespace DryDb

/-- Outcome of parsing a prefix. -/
inductive Parsed (α : Type) where
  | complete (a : α) (pos : Nat)
  /-- At least this many bytes are needed. -/
  | needMore (len : Nat)
  deriving DecidableEq, Repr

/-- A parser over a buffer, from a position on. -/
def Parser (ε α : Type) := Bytes → Nat → Except ε (Parsed α)

namespace Parser

variable {ε α β : Type} {p : Parser ε α} {buf : Bytes} {pos : Nat}

/-- Takes the next `len` bytes. -/
def take (len : Nat) : Parser ε Bytes := fun buf pos =>
  match slice buf pos len with
  | some s => .ok (.complete s (pos + len))
  | none => .ok (.needMore (pos + len))

/-- The position reached. -/
def position : Parser ε Nat := fun _ pos => .ok (.complete pos pos)

def pure (a : α) : Parser ε α := fun _ pos => .ok (.complete a pos)

def bind (p : Parser ε α) (f : α → Parser ε β) : Parser ε β := fun buf pos =>
  match p buf pos with
  | .error e => .error e
  | .ok (.needMore n) => .ok (.needMore n)
  | .ok (.complete a pos) => f a buf pos

instance : Monad (Parser ε) where
  pure := pure
  bind := bind

/-- A check of what was read. -/
def lift (x : Except ε α) : Parser ε α := fun _ pos =>
  match x with
  | .ok a => .ok (.complete a pos)
  | .error e => .error e

instance : MonadLift (Except ε) (Parser ε) where
  monadLift := lift

/-- Runs `p` `n` times; it is given the number of the run. -/
def replicate (p : Nat → Parser ε α) : Nat → Nat → Parser ε (List α)
  | 0, _ => pure []
  | n + 1, i => do
    let a ← p i
    let rest ← replicate p n (i + 1)
    return a :: rest

/-! ## More input keeps the answer -/

/-- What parsing one buffer says about every longer one. -/
structure StableAt (p : Parser ε α) (buf more : Bytes) (pos : Nat) : Prop where
  complete : ∀ a stop, p buf pos = .ok (.complete a stop) → p (buf ++ more) pos = .ok (.complete a stop)
  failure : ∀ e, p buf pos = .error e → p (buf ++ more) pos = .error e
  needMore : ∀ n, p buf pos = .ok (.needMore n) →
    buf.length < n ∧ ((buf ++ more).length < n → p (buf ++ more) pos = .ok (.needMore n))

/-- The parser answers a prefix the way it answers the whole. -/
def Stable (p : Parser ε α) : Prop := ∀ buf more pos, StableAt p buf more pos

theorem bind_eq_complete {f : α → Parser ε β} {stop : Nat} {b : β} :
    bind p f buf pos = .ok (.complete b stop) ↔
      ∃ a mid, p buf pos = .ok (.complete a mid) ∧ f a buf mid = .ok (.complete b stop) := by
  unfold bind
  cases hp : p buf pos with
  | error e => simp
  | ok parsed => cases parsed <;> simp

theorem take_of_le {len : Nat} (h : pos + len ≤ buf.length) :
    (take len : Parser ε Bytes) buf pos = .ok (.complete ((buf.drop pos).take len) (pos + len)) := by
  simp only [take, slice_of_le h]

theorem take_of_lt {len : Nat} (h : buf.length < pos + len) :
    (take len : Parser ε Bytes) buf pos = .ok (.needMore (pos + len)) := by
  have hnone : slice buf pos len = none := by
    cases hs : slice buf pos len with
    | none => rfl
    | some s =>
      have := (slice_eq_some.mp hs).1
      omega
  simp only [take, hnone]

theorem stable_take (len : Nat) : Stable (take len : Parser ε Bytes) := by
  intro buf more pos
  have hlen : (buf ++ more).length = buf.length + more.length := List.length_append
  by_cases hle : pos + len ≤ buf.length
  · have hbuf := take_of_le (ε := ε) hle
    constructor
    · intro a stop h
      rw [hbuf] at h
      cases h
      rw [take_of_le (by omega), List.drop_append_of_le_length (by omega),
        List.take_append_of_le_length (by rw [List.length_drop]; omega)]
    · intro e h
      rw [hbuf] at h
      cases h
    · intro n h
      rw [hbuf] at h
      cases h
  · have hbuf : (take len : Parser ε Bytes) buf pos = .ok (.needMore (pos + len)) := take_of_lt (by omega)
    constructor
    · intro a stop h
      rw [hbuf] at h
      cases h
    · intro e h
      rw [hbuf] at h
      cases h
    · intro n h
      rw [hbuf] at h
      cases h
      exact ⟨by omega, fun hlt => take_of_lt hlt⟩

/-- A parser that reads nothing is stable. -/
theorem stable_of_const (r : Nat → Except ε (α × Nat))
    (h : ∀ buf pos, p buf pos = (r pos).map fun x => .complete x.1 x.2) : Stable p := by
  intro buf more pos
  constructor
  · intro a stop ha
    rw [h] at ha ⊢
    exact ha
  · intro e he
    rw [h] at he ⊢
    exact he
  · intro n hn
    rw [h] at hn
    cases hr : r pos <;> simp [hr, Except.map] at hn

theorem stable_pure (a : α) : Stable (pure a : Parser ε α) :=
  stable_of_const (fun pos => .ok (a, pos)) fun _ _ => rfl

theorem stable_position : Stable (position : Parser ε Nat) :=
  stable_of_const (fun pos => .ok (pos, pos)) fun _ _ => rfl

theorem stable_lift (x : Except ε α) : Stable (lift x : Parser ε α) :=
  stable_of_const (fun pos => x.map fun a => (a, pos)) fun _ _ => by cases x <;> rfl

theorem stable_bind {f : α → Parser ε β} (hp : Stable p) (hf : ∀ a, Stable (f a)) :
    Stable (bind p f) := by
  intro buf more pos
  have first := hp buf more pos
  cases h : p buf pos with
  | error e =>
    have h' := first.failure e h
    constructor <;> simp [bind, h, h']
  | ok r =>
    cases r with
    | needMore n =>
      obtain ⟨hlen, hlonger⟩ := first.needMore n h
      constructor
      · simp [bind, h]
      · simp [bind, h]
      · intro m hm
        simp only [bind, h, Except.ok.injEq, Parsed.needMore.injEq] at hm
        subst hm
        exact ⟨hlen, fun hlt => by simp only [bind, hlonger hlt]⟩
    | complete a mid =>
      have hwhole := first.complete a mid h
      have second := hf a buf more mid
      constructor
      · intro b stop hb
        simp only [bind, h] at hb
        simp only [bind, hwhole, second.complete b stop hb]
      · intro e he
        simp only [bind, h] at he
        simp only [bind, hwhole, second.failure e he]
      · intro n hn
        simp only [bind, h] at hn
        obtain ⟨h1, h2⟩ := second.needMore n hn
        exact ⟨h1, by simpa only [bind, hwhole] using h2⟩

theorem stable_replicate {p : Nat → Parser ε α} (hp : ∀ i, Stable (p i)) (n i : Nat) : Stable (replicate p n i) := by
  induction n generalizing i with
  | zero => exact stable_pure []
  | succ n ih => exact stable_bind (hp i) fun a => stable_bind (ih (i + 1)) fun rest => stable_pure (a :: rest)

/-! ## Growing prefixes of one input -/

section Prefixes

variable {p : Parser ε α} {input : Bytes} {i j pos : Nat}

theorem Stable.at_take (hp : Stable p) (input : Bytes) (pos : Nat) (hij : i ≤ j) :
    ∃ more, input.take j = input.take i ++ more ∧ StableAt p (input.take i) more pos := by
  refine ⟨(input.drop i).take (j - i), ?_, hp _ _ _⟩
  rw [← List.take_add, Nat.add_sub_cancel' hij]

theorem Stable.complete_take (hp : Stable p) (hij : i ≤ j) {a : α} {stop : Nat}
    (h : p (input.take i) pos = .ok (.complete a stop)) : p (input.take j) pos = .ok (.complete a stop) := by
  obtain ⟨more, hmore, hat⟩ := hp.at_take input pos hij
  rw [hmore]
  exact hat.complete a stop h

theorem Stable.failure_take (hp : Stable p) (hij : i ≤ j) {e : ε} (h : p (input.take i) pos = .error e) :
    p (input.take j) pos = .error e := by
  obtain ⟨more, hmore, hat⟩ := hp.at_take input pos hij
  rw [hmore]
  exact hat.failure e h

theorem Stable.lt_of_needMore (hp : Stable p) {buf : Bytes} {n : Nat} (h : p buf pos = .ok (.needMore n)) :
    buf.length < n :=
  ((hp buf [] pos).needMore n h).1

/-- A parse that runs out at `i` bytes and asks for `n` runs out on every prefix shorter
than `n`: on a shorter one because its answer would have been kept, on a longer one
because the request is. -/
theorem Stable.needMore_take (hp : Stable p) {n : Nat} (h : p (input.take i) pos = .ok (.needMore n))
    (hlt : (input.take j).length < n) : ∃ m, p (input.take j) pos = .ok (.needMore m) := by
  by_cases hij : i ≤ j
  · obtain ⟨more, hmore, hat⟩ := hp.at_take input pos hij
    rw [hmore] at hlt ⊢
    exact ⟨n, (hat.needMore n h).2 hlt⟩
  · cases hj : p (input.take j) pos with
    | error e =>
      rw [hp.failure_take (Nat.le_of_not_le hij) hj] at h
      cases h
    | ok r =>
      cases r with
      | needMore m => exact ⟨m, rfl⟩
      | complete a stop =>
        rw [hp.complete_take (Nat.le_of_not_le hij) hj] at h
        cases h

end Prefixes

/-! ## Reading what was written -/

/-- From `pos` on, where `image` stands, the parser reads `a` and stops behind it. -/
def ReadsAt (p : Parser ε α) (pos : Nat) (image : Bytes) (a : α) : Prop :=
  ∀ before after, before.length = pos → p (before ++ (image ++ after)) pos = .ok (.complete a (pos + image.length))

section Reading

variable {pos : Nat} {image rest : Bytes} {a : α} {b : β} {p : Parser ε α}

theorem readsAt_take {len : Nat} (h : len = image.length) : ReadsAt (take len : Parser ε Bytes) pos image image := by
  intro before after hpos
  subst h
  simp only [take, slice_append hpos.symm rfl]

theorem readsAt_pure (a : α) : ReadsAt (pure a : Parser ε α) pos [] a := fun _ _ _ => rfl

theorem readsAt_position : ReadsAt (position : Parser ε Nat) pos [] pos := fun _ _ _ => rfl

theorem readsAt_lift {x : Except ε α} (h : x = .ok a) : ReadsAt (lift x) pos [] a := by
  intro before after _
  subst h
  rfl

theorem ReadsAt.bind {f : α → Parser ε β} (hp : ReadsAt p pos image a)
    (hf : ReadsAt (f a) (pos + image.length) rest b) : ReadsAt (Parser.bind p f) pos (image ++ rest) b := by
  intro before after hpos
  have hfirst := hp before (rest ++ after) hpos
  have hsecond := hf (before ++ image) after (by rw [List.length_append, hpos])
  rw [List.append_assoc] at hsecond
  rw [List.append_assoc]
  simp only [Parser.bind, hfirst, hsecond, List.length_append, Nat.add_assoc]

/-- The second part reads nothing. -/
theorem ReadsAt.bind_nil {f : α → Parser ε β} (hp : ReadsAt p pos image a)
    (hf : ReadsAt (f a) (pos + image.length) [] b) : ReadsAt (Parser.bind p f) pos image b := by
  simpa using hp.bind hf

/-- The first part reads nothing. -/
theorem ReadsAt.nil_bind {f : α → Parser ε β} (hp : ReadsAt p pos [] a)
    (hf : ReadsAt (f a) pos rest b) : ReadsAt (Parser.bind p f) pos rest b := hp.bind hf

/-- The images of a list one after another, from run `i` of `p` on. -/
def ReadAllAt (p : Nat → Parser ε α) : Nat → Nat → List Bytes → List α → Prop
  | i, pos, image :: images, a :: as => ReadsAt (p i) pos image a ∧ ReadAllAt p (i + 1) (pos + image.length) images as
  | _, _, [], [] => True
  | _, _, _, _ => False

theorem ReadAllAt.replicate {p : Nat → Parser ε α} {i : Nat} {images : List Bytes} {as : List α}
    (h : ReadAllAt p i pos images as) : ReadsAt (Parser.replicate p as.length i) pos images.flatten as := by
  induction as generalizing i pos images with
  | nil =>
    cases images with
    | nil => exact readsAt_pure []
    | cons image images => exact h.elim
  | cons a as ih =>
    cases images with
    | nil => exact h.elim
    | cons image images => exact h.1.bind ((ih h.2).bind_nil (readsAt_pure _))

end Reading

end Parser

end DryDb
