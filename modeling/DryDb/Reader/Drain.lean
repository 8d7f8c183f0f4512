import DryDb.Reader.Rows
/-!
# Running a cursor to its end, and counting

`Drains` is a cursor advanced until it is exhausted or fails, each step against the
answers the store gives at that moment. The rows that come out are those of the scan
from its first entry on (`drains_of_over`), and a count is their number.
-/

namespace DryDb

open List Program

/-! ## Where a scan starts -/

/-- The entry in front of position `i` of the leaf after `pre`: on the leaf itself, or the
last one of the nearest leaf to the left that has one. -/
def EntryBefore (pre : List PagePin) (pin : PagePin) (i : Nat) : Option Place → Prop
  | none => i = 0 ∧ places pre = []
  | some (q, j) => (0 < i ∧ q = pin ∧ j = i - 1) ∨
      (i = 0 ∧ ∃ pre' mid, pre = pre' ++ q :: mid ∧ places mid = [] ∧ j + 1 = q.view.entryCount)

/-- The entry a scan starts from. -/
def StartsAt (leaves : List PagePin) (order : Order) (lower upper : Bound) (low high : Place → Bool)
    (start : Option Place) : Prop :=
  match order with
  | .ascending =>
    match startOp lower with
    | none => start = leaves.head?.bind fun pin => pin.places.head?
    | some _ => FirstHit leaves low start
  | .descending =>
    match endOp upper with
    | none => start = leaves.getLast?.bind fun pin => pin.places.getLast?
    | some _ =>
      (FirstHit leaves high none ∧ start = leaves.getLast?.bind fun pin => pin.places.getLast?) ∨
        ∃ pre pin rest i, leaves = pre ++ pin :: rest ∧ (∀ x ∈ places pre, high x = false) ∧
          (List.range pin.view.entryCount).find? (fun j => high (pin, j)) = some i ∧ EntryBefore pre pin i start

section

variable {t : Tree} {env : Env} {fault : Error → Prop} {leaves : List PagePin} {lower upper : Bound}
  {low high : Place → Bool}

theorem run_lowerStart (h : Chain t env fault leaves) (hl : Reaches t env fault leaves true low (startOp lower)) :
    Meets fault (StartsAt leaves .ascending lower upper low high) ((lowerStart t lower).run env) := by
  unfold StartsAt
  cases lower with
  | unbounded => exact h.first
  | included k => exact Target.search hl
  | excluded k => exact Target.search hl

/-- One turn of the leftward walk. -/
theorem run_leftward (t : Tree) (env : Env) (steps : Nat) (pin : PagePin) :
    (Cursor.leftward t (steps + 1) pin).run env = (do
      match ← (t.toSibling false pin).run env with
      | none => .ok none
      | some next =>
        if 0 < next.view.entryCount then .ok (some (next, next.view.entryCount - 1))
        else (Cursor.leftward t steps next).run env) := by
  rw [Cursor.leftward]
  unfold Tree.toSibling
  simp only [Bool.false_eq_true, if_false]
  cases pin.view.leftSibling with
  | none =>
    simp only [run_bind]
    cases (t.endsAt pin.ordinal false).run env with
    | error e => rfl
    | ok ends => cases ends <;> rfl
  | some left =>
    simp only [run_bind]
    cases (t.stepSibling pin.ordinal left false).run env with
    | error e => rfl
    | ok next =>
      simp only [ok_bind, run_pure, run_ite]

theorem leftward_meets (h : Chain t env fault leaves) {pre : List PagePin} {pin : PagePin} {rest : List PagePin}
    (hl : leaves = pre ++ pin :: rest) {steps : Nat} (hs : pre.length < steps) :
    Meets fault (EntryBefore pre pin 0) ((Cursor.leftward t steps pin).run env) := by
  induction steps generalizing pre pin rest with
  | zero => exact absurd hs (Nat.not_lt_zero _)
  | succ steps ih =>
    rw [run_leftward]
    refine Meets.bind (h.left pre pin rest hl) fun moved _ hmoved => ?_
    subst hmoved
    rcases eq_nil_or_concat pre with rfl | ⟨init, next, rfl⟩
    · exact ⟨rfl, rfl⟩
    · simp only [concat_eq_append] at hl hs ⊢
      rw [getLast?_concat]
      simp only
      by_cases hc : 0 < next.view.entryCount
      · rw [if_pos hc]
        exact Or.inr ⟨rfl, init, [], by simp, rfl, by omega⟩
      · -- A leaf without entries is passed over.
        have hz : next.places = [] := length_eq_zero_iff.1 (by rw [PagePin.length_places]; omega)
        rw [if_neg hc]
        simp only [length_append, length_cons, length_nil] at hs
        have hl' : leaves = init ++ next :: pin :: rest := by simp [hl]
        refine (ih hl' (by omega)).mono fun start hstart => ?_
        cases start with
        | none => exact ⟨rfl, by simp [hstart.2, hz]⟩
        | some x =>
          obtain ⟨q, j⟩ := x
          rcases hstart with ⟨hpos, -⟩ | ⟨-, pre', mid, rfl, hmid, hj⟩
          · omega
          · exact Or.inr ⟨rfl, pre', mid ++ [next], by simp, by simp [hmid, hz], hj⟩

theorem run_upperStart (h : Chain t env fault leaves) (hu : Reaches t env fault leaves false high (endOp upper)) :
    Meets fault (StartsAt leaves .descending lower upper low high) ((Cursor.upperStart t upper).run env) := by
  have hbound := h.bounded
  -- Both bounded cases go through the search for the first entry past the bound.
  have hbounded : ∀ k op, Target t env fault leaves op k high →
      Meets fault (fun start => (FirstHit leaves high none ∧
          start = leaves.getLast?.bind fun pin => pin.places.getLast?) ∨
        ∃ pre pin rest i, leaves = pre ++ pin :: rest ∧ (∀ x ∈ places pre, high x = false) ∧
          (List.range pin.view.entryCount).find? (fun j => high (pin, j)) = some i ∧ EntryBefore pre pin i start)
        ((Cursor.descendingStart t k op).run env) := by
    intro k op ht
    unfold Cursor.descendingStart
    simp only [run_bind]
    refine Meets.bind ht.search fun found _ hfound => ?_
    cases found with
    | none => exact h.last.mono fun start hstart => Or.inl ⟨hfound, hstart⟩
    | some x =>
      obtain ⟨pin, i⟩ := x
      obtain ⟨pre, rest, hl, hpre, hi⟩ := hfound
      simp only
      by_cases h0 : 0 < i
      · rw [if_pos h0]
        exact Or.inr ⟨pre, pin, rest, i, hl, hpre, hi, Or.inl ⟨h0, rfl, rfl⟩⟩
      · obtain rfl : i = 0 := by omega
        rw [if_neg h0]
        have hlen : pre.length < t.store.pageCount + 1 := by
          rw [hl, length_append, length_cons] at hbound
          omega
        exact (leftward_meets h hl hlen).mono fun start hstart => Or.inr ⟨pre, pin, rest, 0, hl, hpre, hi, hstart⟩
  unfold StartsAt
  cases upper with
  | unbounded => exact h.last
  | included k => exact hbounded k .upperBound hu
  | excluded k => exact hbounded k .lowerBound hu

theorem firstEntry_meets {c : Cursor} (ho : c.Over t env fault leaves low high) :
    Meets fault (StartsAt leaves c.order c.range.lower c.range.upper low high) (c.firstEntry.run env) := by
  unfold Cursor.firstEntry
  rw [ho.tree]
  cases c.order with
  | ascending => exact run_lowerStart ho.chain ho.within.lower
  | descending => exact run_upperStart ho.chain ho.within.upper

/-- The rows of a scan from its first entry on. -/
def Scan.Emits (s : Scan) (leaves : List PagePin) (start : Option Place) (rows : List Place) : Prop :=
  match start with
  | none => rows = []
  | some (pin, i) => i < pin.view.entryCount ∧ ∃ rest, s.Before leaves pin rest ∧ rows = s.rowsFrom pin i rest

theorem PagePin.head?_places (pin : PagePin) :
    pin.places.head? = if 0 < pin.view.entryCount then some (pin, 0) else none := by
  split
  · rename_i h
    rw [head?_eq_getElem?, PagePin.getElem?_places h]
  · rename_i h
    rw [head?_eq_none_iff, ← length_eq_zero_iff, PagePin.length_places]
    omega

theorem PagePin.getLast?_places (pin : PagePin) :
    pin.places.getLast? = if 0 < pin.view.entryCount then some (pin, pin.view.entryCount - 1) else none := by
  split
  · rename_i h
    rw [getLast?_eq_getElem?, PagePin.length_places, PagePin.getElem?_places (by omega)]
  · rename_i h
    rw [getLast?_eq_none_iff, ← length_eq_zero_iff, PagePin.length_places]
    omega

/-- The seek ends on the first row of the scan. -/
theorem seekFirst_meets {c : Cursor} (ho : c.Over t env fault leaves low high)
    (hsteps : c.pageStepsLeft = t.store.pageCount + 1) {rows : List Place}
    (hrows : ∀ start, StartsAt leaves c.order c.range.lower c.range.upper low high start →
      (c.scan low high).Emits leaves start rows) :
    Meets fault (c.Reached (c.scan low high) leaves rows) (c.seekFirst.run env) := by
  unfold Cursor.seekFirst
  simp only [run_bind]
  refine Meets.bind (firstEntry_meets ho) fun start _ hstart => ?_
  have hemits := hrows start hstart
  cases start with
  | none =>
    obtain rfl : rows = [] := hemits
    exact ⟨⟨rfl, rfl, rfl, rfl, rfl⟩, rfl⟩
  | some x =>
    obtain ⟨pin, i⟩ := x
    obtain ⟨hi, rest, hb, rfl⟩ := hemits
    have hover : Cursor.Over { c with page := some pin, index := i } t env fault leaves low high :=
      ⟨ho.tree, ho.chain, ho.within⟩
    have hlen : rest.length < c.pageStepsLeft := by
      have := Scan.length_before hb
      have := ho.chain.bounded
      omega
    obtain ⟨c', hc', hsame, hindex, hleft, hat⟩ := hover.recompute rfl hb hlen (Or.inl hi)
    simp only at hindex hleft
    have hscan : c'.scan low high = c.scan low high := hsame.scan
    have hskip : Meets fault (c'.Reached (c'.scan low high) leaves ((c'.scan low high).rowsFrom pin c'.index rest))
        ((Cursor.skipToValid c'.pageStepsLeft c').run env) := by
      refine Cursor.At.skip_meets ?_ (hsame.over hover) ?_
      · rw [hscan]
        exact hat
      · rw [hleft]
        exact hlen
    simp only [run_bind, run_liftM, hc', ok_bind]
    refine hskip.mono fun moved hmoved => ?_
    rw [hscan, hindex] at hmoved
    exact ⟨⟨hmoved.1.tree.trans hsame.tree, hmoved.1.order.trans hsame.order, hmoved.1.range.trans hsame.range,
      hmoved.1.started.trans hsame.started, hmoved.1.finished.trans hsame.finished⟩, hmoved.2⟩

end

/-! ## Advancing -/

/-- The cursor is on a row and owes `rows` after it. -/
structure Cursor.Owes (c : Cursor) (s : Scan) (leaves : List PagePin) (rows : List Place) : Prop where
  started : c.started = true
  finished : c.finished = false
  stands : ∃ pin rest, c.At s leaves pin rest ∧ c.index < pin.view.entryCount ∧
    s.rowsFrom pin c.index rest = (pin, c.index) :: rows

/-- What an advance leaves behind when `rows` were owed. -/
def Cursor.Advanced (c : Cursor) (s : Scan) (leaves : List PagePin) (row : Place → Bytes × Bytes) (rows : List Place)
    (c' : Cursor) (more : Bool) : Prop :=
  c'.tree = c.tree ∧ c'.order = c.order ∧ c'.range = c.range ∧
  match rows with
  | [] => more = false ∧ c'.finished = true
  | x :: xs => more = true ∧ c'.Owes s leaves xs ∧ c'.currentRow = some (row x)

/-- What an advance does after its move: reads the row reached, or finishes. -/
def Cursor.readMoved (env : Env) : Bool × Cursor → Result (Cursor × Result Bool)
  | (false, m) => .ok (m.finish, .ok false)
  | (true, m) => m.materialize.run env >>= fun r => .ok (r.1, r.2.map fun _ => true)

section

variable {t : Tree} {env : Env} {fault : Error → Prop} {leaves : List PagePin} {low high : Place → Bool}
  {row : Place → Bytes × Bytes} {c : Cursor} {rows : List Place}

/-- A move that reaches the first of `rows`, followed by reading it. -/
theorem Cursor.Reached.advanced {s : Scan} {moved : Bool × Cursor} (h : c.Reached s leaves rows moved)
    (hu : env.Unrefused) (ht : c.tree = t) (hs : c.started = true) (hf : c.finished = false)
    (hrow : ∀ x ∈ places leaves, t.RowAt env x (row x)) :
    ∃ c' more, c.Advanced s leaves row rows c' more ∧ Cursor.readMoved env moved = .ok (c', .ok more) := by
  obtain ⟨hsame, hrows⟩ := h
  obtain ⟨more, m⟩ := moved
  cases rows with
  | nil =>
    simp only at hrows
    subst hrows
    exact ⟨m.finish, false, ⟨hsame.tree, hsame.order, hsame.range, rfl, rfl⟩, rfl⟩
  | cons x xs =>
    obtain ⟨hmore, pin, rest, hat, rfl, hi, hfrom⟩ := hrows
    simp only at hmore hat hi hfrom
    subst hmore
    have hmem : (pin, m.index) ∈ places leaves := mem_places.2 ⟨Scan.mem_before hat.before, hi⟩
    obtain ⟨c', hc', hcur, hpos, hsame'⟩ := Cursor.materialize_eq hu (hsame.tree.trans ht) hat.page (hrow _ hmem)
    have hall := hsame.trans hsame'
    refine ⟨c', true, ⟨hall.tree, hall.order, hall.range, rfl, ⟨?_, ?_, pin, rest, ?_, ?_, ?_⟩, hcur⟩, ?_⟩
    · rw [hall.started, hs]
    · rw [hall.finished, hf]
    · refine ⟨?_, ?_, hat.before, ?_, ?_, ?_, ?_⟩
      · rw [hpos]; exact hat.page
      · rw [hsame'.order]; exact hat.order
      · rw [hpos]; exact hat.limit
      · rw [hpos]; exact hat.ends
      · rw [hpos]; exact hat.steps
      · rw [hpos]; exact hat.inside
    · rw [hpos]; exact hi
    · rw [hpos]; exact hfrom
    · simp only [Cursor.readMoved, hc', ok_bind]
      rfl

/-- The cursor an advance starts from. -/
def Cursor.cleared (c : Cursor) : Cursor := { c with current := none, blob := none, started := true }

/-- An advance fails as its move does, and otherwise reads the row the move reached. -/
theorem run_advance (c : Cursor) (env : Env) (hf : c.finished = false) :
    c.advance.run env =
      match (if c.started then Cursor.step { c with current := none, blob := none } else c.cleared.seekFirst).run env with
      | .error e => .ok (Cursor.restore { c with current := none, blob := none } c.toPosition, .error e)
      | .ok moved => Cursor.readMoved env moved >>= fun r =>
        match r.2 with
        | .ok more => .ok (r.1, .ok more)
        | .error e => .ok (r.1.restore c.toPosition, .error e) := by
  unfold Cursor.advance Cursor.stepAndRead
  rw [if_neg (by simp [hf])]
  simp only [run_bind, run_attempt, ok_bind]
  have hmove : (if ({ c with current := none, blob := none } : Cursor).started then
      Cursor.step { c with current := none, blob := none }
      else Cursor.seekFirst { ({ c with current := none, blob := none } : Cursor) with started := true }) =
      (if c.started then Cursor.step { c with current := none, blob := none } else c.cleared.seekFirst) := rfl
  simp only [hmove]
  cases (if c.started then Cursor.step { c with current := none, blob := none } else c.cleared.seekFirst).run env with
  | error e => rfl
  | ok moved =>
    obtain ⟨more, m⟩ := moved
    cases more with
    | false => rfl
    | true =>
      simp only [run_bind, Cursor.readMoved]
      cases m.materialize.run env with
      | error e => rfl
      | ok r =>
        obtain ⟨c', result⟩ := r
        cases result <;> rfl

/-- Advancing a cursor that is on a row. -/
theorem Cursor.Owes.advance_meets (h : c.Owes (c.scan low high) leaves rows)
    (ho : c.Over t env fault leaves low high) (hu : env.Unrefused) (hrow : ∀ x ∈ places leaves, t.RowAt env x (row x)) :
    ∃ c' result, c.advance.run env = .ok (c', result) ∧
      Meets fault (c.Advanced (c.scan low high) leaves row rows c') result := by
  obtain ⟨pin, rest, hat, hi, hfrom⟩ := h.stands
  have hstep : Meets fault (Cursor.Reached { c with current := none, blob := none } (c.scan low high) leaves rows)
      ((Cursor.step { c with current := none, blob := none }).run env) :=
    Cursor.At.step_meets (c := { c with current := none, blob := none }) (t := t)
      ⟨hat.page, hat.order, hat.before, hat.limit, hat.ends, hat.steps, hat.inside⟩ ⟨ho.tree, ho.chain, ho.within⟩ hi hfrom
  rw [run_advance c env h.finished, h.started, if_pos rfl]
  cases hrun : (Cursor.step { c with current := none, blob := none }).run env with
  | error e =>
    rw [hrun] at hstep
    exact ⟨_, _, rfl, hstep⟩
  | ok moved =>
    rw [hrun] at hstep
    obtain ⟨c', more, hadv, heq⟩ := Cursor.Reached.advanced hstep hu ho.tree h.started h.finished hrow
    exact ⟨c', .ok more, by simp only [heq, ok_bind], hadv⟩

/-- Advancing a cursor for the first time. -/
theorem Cursor.first_advance (hs : c.started = false) (hf : c.finished = false)
    (hsteps : c.pageStepsLeft = t.store.pageCount + 1) (ho : c.Over t env fault leaves low high) (hu : env.Unrefused)
    (hrow : ∀ x ∈ places leaves, t.RowAt env x (row x))
    (hrows : ∀ start, StartsAt leaves c.order c.range.lower c.range.upper low high start →
      (c.scan low high).Emits leaves start rows) :
    ∃ c' result, c.advance.run env = .ok (c', result) ∧
      Meets fault (c.Advanced (c.scan low high) leaves row rows c') result := by
  have hseek : Meets fault (c.cleared.Reached (c.scan low high) leaves rows) (c.cleared.seekFirst.run env) :=
    seekFirst_meets (c := c.cleared) (t := t) ⟨ho.tree, ho.chain, ho.within⟩ hsteps hrows
  rw [run_advance c env hf, hs, if_neg (by simp)]
  cases hrun : c.cleared.seekFirst.run env with
  | error e =>
    rw [hrun] at hseek
    exact ⟨_, _, rfl, hseek⟩
  | ok moved =>
    rw [hrun] at hseek
    obtain ⟨c', more, hadv, heq⟩ := Cursor.Reached.advanced (c := c.cleared) hseek hu ho.tree rfl hf hrow
    exact ⟨c', .ok more, by simp only [heq, ok_bind], hadv⟩

end

/-! ## To the end -/

/-- A cursor advanced until it is exhausted or fails, step `n` against `envs n`: the rows
it showed, and the error it ended with. -/
inductive Cursor.Drains : (Nat → Env) → Cursor → List (Bytes × Bytes) → Option Error → Prop where
  | done {envs : Nat → Env} {c c' : Cursor} (h : c.advance.run (envs 0) = .ok (c', .ok false)) : Drains envs c [] none
  | failed {envs : Nat → Env} {c c' : Cursor} {e : Error} (h : c.advance.run (envs 0) = .ok (c', .error e)) :
      Drains envs c [] (some e)
  | row {envs : Nat → Env} {c c' : Cursor} {row : Bytes × Bytes} {rows : List (Bytes × Bytes)} {out : Option Error}
      (h : c.advance.run (envs 0) = .ok (c', .ok true)) (hr : c'.currentRow = some row)
      (hrest : Drains (fun n => envs (n + 1)) c' rows out) : Drains envs c (row :: rows) out

/-- The rows of a finished run are `rows`, and a run that failed did so as `fault` allows. -/
def Cursor.DrainsTo (c : Cursor) (envs : Nat → Env) (fault : Error → Prop) (rows : List (Bytes × Bytes)) : Prop :=
  ∃ got out, c.Drains envs got out ∧ (out = none → got = rows) ∧ ∀ e ∈ out, fault e

section

variable {t : Tree} {fault : Error → Prop} {leaves : List PagePin} {low high : Place → Bool}
  {row : Place → Bytes × Bytes} {c : Cursor} {envs : Nat → Env} {rows : List Place}

/-- The step both inductions take: one advance, then the rest. -/
theorem Cursor.Advanced.drains {c' : Cursor} {result : Result Bool} (hrun : c.advance.run (envs 0) = .ok (c', result))
    (hres : Meets fault (c.Advanced (c.scan low high) leaves row rows c') result)
    (hrest : ∀ x xs, rows = x :: xs → c'.tree = c.tree → c'.range = c.range → c'.scan low high = c.scan low high →
      c'.Owes (c'.scan low high) leaves xs → c'.DrainsTo (fun n => envs (n + 1)) fault (xs.map row)) :
    c.DrainsTo envs fault (rows.map row) := by
  cases result with
  | error e => exact ⟨[], some e, .failed hrun, by simp, by simpa using hres⟩
  | ok more =>
    obtain ⟨htree, horder, hrange, hrows⟩ := hres
    cases rows with
    | nil =>
      obtain ⟨rfl, -⟩ := hrows
      exact ⟨[], none, .done hrun, by simp, by simp⟩
    | cons x xs =>
      obtain ⟨rfl, howes, hcur⟩ := hrows
      have hscan : c'.scan low high = c.scan low high := by
        unfold Cursor.scan
        rw [horder, hrange]
      obtain ⟨got, out, hd, hgot, hout⟩ := hrest x xs rfl htree hrange hscan (hscan ▸ howes)
      exact ⟨row x :: got, out, .row hrun hcur hd, fun he => by rw [hgot he, map_cons], hout⟩

theorem Cursor.Owes.drains (h : c.Owes (c.scan low high) leaves rows)
    (ho : ∀ n, c.Over t (envs n) fault leaves low high) (hu : ∀ n, (envs n).Unrefused)
    (hrow : ∀ n, ∀ x ∈ places leaves, t.RowAt (envs n) x (row x)) : c.DrainsTo envs fault (rows.map row) := by
  induction rows generalizing c envs with
  | nil =>
    obtain ⟨c', result, hrun, hres⟩ := h.advance_meets (ho 0) (hu 0) (hrow 0)
    exact Cursor.Advanced.drains hrun hres fun x xs hx => absurd hx (by simp)
  | cons x rows ih =>
    obtain ⟨c', result, hrun, hres⟩ := h.advance_meets (ho 0) (hu 0) (hrow 0)
    refine Cursor.Advanced.drains hrun hres fun y ys hy htree hrange _ howes => ?_
    obtain ⟨-, rfl⟩ := List.cons.inj hy
    exact ih howes (fun n => ⟨htree.trans (ho (n + 1)).tree, (ho (n + 1)).chain, hrange ▸ (ho (n + 1)).within⟩)
      (fun n => hu (n + 1)) (fun n => hrow (n + 1))

/-- A fresh cursor emits the rows of its scan from the first entry on. -/
theorem drains_of_over (hs : c.started = false) (hf : c.finished = false)
    (hsteps : c.pageStepsLeft = t.store.pageCount + 1) (ho : ∀ n, c.Over t (envs n) fault leaves low high)
    (hu : ∀ n, (envs n).Unrefused) (hrow : ∀ n, ∀ x ∈ places leaves, t.RowAt (envs n) x (row x))
    (hrows : ∀ start, StartsAt leaves c.order c.range.lower c.range.upper low high start →
      (c.scan low high).Emits leaves start rows) :
    c.DrainsTo envs fault (rows.map row) := by
  obtain ⟨c', result, hrun, hres⟩ := Cursor.first_advance hs hf hsteps (ho 0) (hu 0) (hrow 0) hrows
  refine Cursor.Advanced.drains hrun hres fun x xs _ htree hrange _ howes => Cursor.Owes.drains (t := t) howes ?_ ?_ ?_
  · exact fun n => ⟨htree.trans (ho (n + 1)).tree, (ho (n + 1)).chain, hrange ▸ (ho (n + 1)).within⟩
  · exact fun n => hu (n + 1)
  · exact fun n => hrow (n + 1)

end

/-! ## Counting -/

section

variable {t : Tree} {env : Env} {fault : Error → Prop} {leaves : List PagePin} {lower upper : Bound}
  {low high : Place → Bool} {pin : PagePin}

theorem boundIndex_eq (hu : Reaches t env fault leaves false high (endOp upper)) (hp : pin ∈ leaves) :
    boundIndex t pin.view upper = .ok ((List.range pin.view.entryCount).find? fun j => high (pin, j)) := by
  unfold boundIndex
  cases he : endOp upper with
  | none =>
    rw [he] at hu
    simp only [Reaches] at hu
    have : (List.range pin.view.entryCount).find? (fun j => high (pin, j)) = none := by
      rw [find?_eq_none]
      simp [hu]
    rw [this]
  | some target =>
    obtain ⟨op, key⟩ := target
    rw [he] at hu
    obtain ⟨d, hd, hs⟩ := Target.leaf hu
    simp only [hd, ok_bind, hs pin hp]

/-- One turn of the counting walk. -/
theorem run_countFrom (t : Tree) (env : Env) (upper : Bound) (steps : Nat) (pin : PagePin) (index count : Nat) :
    (countFrom t upper (steps + 1) pin index count).run env = (do
      match ← boundIndex t pin.view upper with
      | some bound => .ok (count + (bound - index))
      | none =>
        match ← (t.toSibling true pin).run env with
        | none => .ok (count + (pin.view.entryCount - index))
        | some next => (countFrom t upper steps next 0 (count + (pin.view.entryCount - index))).run env) := by
  rw [countFrom]
  simp only [run_bind, run_liftM]
  cases boundIndex t pin.view upper with
  | error e => rfl
  | ok found =>
    cases found with
    | some bound => rfl
    | none =>
      simp only [ok_bind, Tree.toSibling, if_true]
      cases pin.view.rightSibling with
      | none =>
        simp only [run_bind]
        cases (t.endsAt pin.ordinal true).run env with
        | error e => rfl
        | ok ends => cases ends <;> rfl
      | some right =>
        simp only [run_bind]
        cases (t.stepSibling pin.ordinal right true).run env <;> rfl

/-- How much of a leaf an ascending scan emits. -/
theorem Scan.length_takeWhile_ahead {s : Scan} (ho : s.order = .ascending) (hm : s.Mono pin) (index : Nat) :
    ((s.ahead pin index).takeWhile fun x => !s.stop x).length = (s.window pin).1 - index := by
  by_cases hi : index < pin.view.entryCount
  · have hlimit := Scan.lt_limit_ascending ho hm hi
    rw [Scan.ahead_ascending ho hi]
    cases hs : s.stop (pin, index) with
    | true =>
      have hnot : ¬ index < (s.window pin).1 := fun hlt => by
        rw [hlimit.1 hlt] at hs
        cases hs
      rw [takeWhile_cons_of_neg (by simp [hs])]
      simp only [length_nil]
      omega
    | false =>
      have hlt := hlimit.2 hs
      have ih := Scan.length_takeWhile_ahead ho hm (index + 1)
      rw [takeWhile_cons_of_pos (by simp [hs]), length_cons, ih]
      omega
  · have hle : (s.window pin).1 ≤ pin.view.entryCount := by
      simp only [Scan.window, ho]
      cases hf : (List.range pin.view.entryCount).find? fun i => s.stop (pin, i) with
      | none => exact le_rfl
      | some i => exact (find?_range_lt hf).le
    have : s.ahead pin index = [] := by
      simp only [Scan.ahead, ho]
      exact drop_of_length_le (by rw [PagePin.length_places]; omega)
    rw [this]
    simp only [takeWhile_nil, length_nil]
    omega
termination_by pin.view.entryCount - index

theorem Scan.length_rowsFrom {s : Scan} (ho : s.order = .ascending) (he : s.emptyEnds = false)
    (hm : s.Mono pin) (index : Nat) (rest : List PagePin) :
    (s.rowsFrom pin index rest).length =
      (s.window pin).1 - index + if (s.window pin).2 then 0 else (s.rows rest).length := by
  unfold Scan.rowsFrom
  rw [length_append, Scan.length_takeWhile_ahead ho hm, Scan.window_ends hm fun _ => he]
  split <;> rfl

/-- The counting walk adds up what an ascending scan would emit. -/
theorem countFrom_meets (h : Chain t env fault leaves) (hw : Within t env fault leaves lower upper low high)
    {pre : List PagePin} {rest : List PagePin} (hl : leaves = pre ++ pin :: rest) {steps : Nat}
    (hs : rest.length < steps) (index count : Nat) :
    Meets fault (· = count + ((scanOf .ascending lower low high).rowsFrom pin index rest).length)
      ((countFrom t upper steps pin index count).run env) := by
  induction steps generalizing pre pin rest index count with
  | zero => exact absurd hs (Nat.not_lt_zero _)
  | succ steps ih =>
    have hp : pin ∈ leaves := by simp [hl]
    rw [run_countFrom, boundIndex_eq hw.upper hp, ok_bind, Scan.length_rowsFrom rfl rfl (hw.mono .ascending hp)]
    cases hf : (List.range pin.view.entryCount).find? fun j => high (pin, j) with
    | some bound =>
      have hwin : (scanOf .ascending lower low high).window pin = (bound, true) := by
        simp [Scan.window, scanOf, hf]
      rw [hwin]
      exact rfl
    | none =>
      have hwin : (scanOf .ascending lower low high).window pin = (pin.view.entryCount, false) := by
        simp [Scan.window, scanOf, hf]
      rw [hwin]
      refine Meets.bind (h.right pre pin rest hl) fun moved _ hmoved => ?_
      subst hmoved
      cases rest with
      | nil => exact rfl
      | cons next rest =>
        rw [length_cons] at hs
        have hl' : leaves = (pre ++ [pin]) ++ next :: rest := by simp [hl]
        refine (ih hl' (by omega) 0 (count + (pin.view.entryCount - index))).mono fun n hn => ?_
        have henter : (scanOf .ascending lower low high).rowsFrom next 0 rest =
            (scanOf .ascending lower low high).rows (next :: rest) := by
          have : (scanOf .ascending lower low high).ahead next _ = _ := Scan.ahead_enter
          simp only [scanOf_order, beq_self_eq_true, if_true] at this
          unfold Scan.rowsFrom
          rw [this]
          rfl
        rw [hn, henter, Nat.add_assoc]
        rfl

/-- A count is the number of rows of the ascending scan. -/
theorem countRange_meets (h : Chain t env fault leaves) (hw : Within t env fault leaves lower upper low high)
    (hv : validateBounds t.encoding lower upper = .ok ()) (ho : checkOrder t.encoding lower upper = .ok ())
    {rows : List Place} (hrows : ∀ start, StartsAt leaves .ascending lower upper low high start →
      (scanOf .ascending lower low high).Emits leaves start rows) :
    Meets fault (· = rows.length) ((countRange t lower upper).run env) := by
  unfold countRange
  simp only [run_bind, run_liftM, hv, ho, ok_bind]
  have hlower : Meets fault (StartsAt leaves .ascending lower upper low high) ((lowerStart t lower).run env) :=
    run_lowerStart h hw.lower
  refine Meets.bind hlower fun start _ hstart => ?_
  have hemits := hrows start hstart
  cases start with
  | none =>
    obtain rfl : rows = [] := hemits
    rfl
  | some x =>
    obtain ⟨pin, i⟩ := x
    obtain ⟨hi, rest, ⟨passed, hl⟩, rfl⟩ := hemits
    have hbound := h.bounded
    rw [scanOf_order] at hl
    rw [hl, length_append, length_cons] at hbound
    exact (countFrom_meets h hw hl (by omega) i 0).mono fun n hn => by rw [hn, Nat.zero_add]

end

end DryDb
