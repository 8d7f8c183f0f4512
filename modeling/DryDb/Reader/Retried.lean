import DryDb.Reader.Image
import DryDb.Reader.Steady
/-!
# Cursors that are advanced again after a failure

`advance` moves across any number of pages, rebuilds the key and loads the value, and each of
these can fail. It then puts back all that says where the cursor stands (`Cursor.SamePlace`); only
the key buffer may have grown. An index cursor also puts back the cursor inside it, which has
moved by the time its reference is resolved. So both resume where they failed.
-/

namespace DryDb

variable {t : Tree} {failing : Prop}

open Program

namespace Cursor

/-- The same cursor up to its key buffer. -/
def Alike (c d : Cursor) : Prop := ∃ b, d = { c with keyBuf := b }

/-- Nothing is materialised. -/
def clear (c : Cursor) : Cursor := { c with current := none, blob := none }

/-- The two cursors stand at the same place of the same scan. -/
def SamePlace (c d : Cursor) : Prop := Alike c.clear d.clear

/-- What a move keeps of a cursor. -/
structure Keeps (c d : Cursor) : Prop where
  tree : d.tree = c.tree
  order : d.order = c.order
  range : d.range = c.range

/-- The same for two cursors that came from the cursor `q`. -/
def SameScan (q c d : Cursor) : Prop := SamePlace c d ∧ Keeps q c

theorem Alike.refl (c : Cursor) : Alike c c := ⟨c.keyBuf, rfl⟩

theorem Keeps.refl (c : Cursor) : Keeps c c := ⟨rfl, rfl, rfl⟩

theorem Keeps.buffer (c : Cursor) (b : KeyBuffer) : Keeps c { c with keyBuf := b } := ⟨rfl, rfl, rfl⟩

variable {c d : Cursor} {b : KeyBuffer}

theorem Keeps.trans {e : Cursor} (h : Keeps c d) (h' : Keeps d e) : Keeps c e :=
  ⟨h'.tree.trans h.tree, h'.order.trans h.order, h'.range.trans h.range⟩

theorem SamePlace.refl (c : Cursor) : SamePlace c c := Alike.refl _

theorem Alike.samePlace (h : Alike c d) : SamePlace c d := by
  obtain ⟨b, rfl⟩ := h
  exact ⟨b, rfl⟩

theorem SamePlace.trans {e : Cursor} (h : SamePlace c d) (h' : SamePlace d e) : SamePlace c e := by
  obtain ⟨b, hb⟩ := h
  obtain ⟨b', hb'⟩ := h'
  exact ⟨b', by rw [hb', hb]⟩

/-- A cursor that is put back stands where it stood. -/
theorem samePlace_restore (h : Keeps c d) : SamePlace (d.restore c.toPosition) c := by
  obtain ⟨htree, horder, hrange⟩ := h
  refine ⟨c.keyBuf, ?_⟩
  simp only [clear, restore, htree, horder, hrange]

/-- How a move of a cursor relates to the move of one that is alike. -/
def Moved (c : Cursor) (x y : Bool × Cursor) : Prop := x.1 = y.1 ∧ Alike x.2 y.2 ∧ Keeps c x.2

theorem Moved.of_keeps {x y : Bool × Cursor} (h : Moved d x y) (hk : Keeps c d) : Moved c x y :=
  ⟨h.1, h.2.1, hk.trans h.2.2⟩

theorem steady_recomputeLeafBounds (c : Cursor) (b : KeyBuffer) :
    t.Steady failing (fun x y => Alike x y ∧ Keeps c x) (liftM c.recomputeLeafBounds : Read Cursor)
      (liftM (recomputeLeafBounds { c with keyBuf := b }) : Read Cursor) := by
  have heq : recomputeLeafBounds { c with keyBuf := b } =
      (fun d : Cursor => { d with keyBuf := b }) <$> c.recomputeLeafBounds := by
    unfold recomputeLeafBounds
    cases hp : c.page with
    | none => rfl
    | some page =>
      have hw : window { c with keyBuf := b } page.view = c.window page.view := rfl
      simp only [hw]
      cases c.window page.view with
      | error e => rfl
      | ok w => rfl
  have hkeeps : ∀ d, c.recomputeLeafBounds = .ok d → Keeps c d := by
    intro d hd
    unfold recomputeLeafBounds at hd
    cases hp : c.page with
    | none =>
      rw [hp] at hd
      cases hd
      exact .refl c
    | some page =>
      rw [hp] at hd
      obtain ⟨w, -, hw⟩ := bind_eq_ok.1 hd
      cases hw
      exact ⟨rfl, rfl, rfl⟩
  refine ⟨fun d hd => ?_, fun e he => .inr ?_⟩
  · have hd := (comes_lift.1 hd).symm
    exact ⟨{ d with keyBuf := b }, by rw [run_liftM, heq, hd]; rfl, ⟨b, rfl⟩, hkeeps d hd⟩
  · rw [run_liftM, heq, ← comes_lift.1 he]
    rfl

theorem steady_nextPage (c : Cursor) (b : KeyBuffer) (ht : c.tree = t) :
    t.Steady failing (Moved c) c.nextPage (nextPage { c with keyBuf := b }) := by
  unfold nextPage
  refine .ite (.pure ⟨rfl, ⟨b, rfl⟩, .refl c⟩) ?_
  cases hs : c.pageStepsLeft with
  | zero => exact .fail _
  | succ steps =>
    cases hp : c.page with
    | none => exact .pure ⟨rfl, ⟨b, rfl⟩, ⟨rfl, rfl, rfl⟩⟩
    | some page =>
      simp only
      cases (if (c.order == Order.ascending) = true then page.view.rightSibling else page.view.leftSibling) with
      | none =>
        rw [ht]
        exact steady_chainEnd _ _ (.pure ⟨rfl, ⟨b, rfl⟩, ⟨ht.symm, rfl, rfl⟩⟩)
      | some sibling =>
        simp only [ht]
        refine (steady_stepSibling _ _ _).seq fun pin => ?_
        refine (steady_recomputeLeafBounds _ b).bind fun x y hxy => .pure ⟨rfl, hxy.1, ?_⟩
        exact ⟨hxy.2.tree.trans ht.symm, hxy.2.order, hxy.2.range⟩

theorem steady_skipToValid (steps : Nat) (c : Cursor) (b : KeyBuffer) (ht : c.tree = t) :
    t.Steady failing (Moved c) (skipToValid steps c) (skipToValid steps { c with keyBuf := b }) := by
  induction steps using Nat.strongRecOn generalizing c b with
  | ind steps ih =>
    unfold skipToValid
    cases hp : c.page with
    | none => exact .pure ⟨rfl, ⟨b, rfl⟩, .refl c⟩
    | some page =>
      refine .ite (.pure ⟨rfl, ⟨b, rfl⟩, .refl c⟩) ?_
      refine (steady_nextPage c b ht).bind fun x y hxy => ?_
      obtain ⟨more, d⟩ := x
      obtain ⟨more', d'⟩ := y
      obtain ⟨rfl, ⟨b', rfl⟩, hkeeps⟩ := hxy
      refine .ite (.pure ⟨rfl, ⟨b', rfl⟩, hkeeps⟩) ?_
      cases steps with
      | zero => exact .fail _
      | succ steps =>
        exact (ih steps (Nat.lt_succ_self _) d b' (hkeeps.tree.trans ht)).mono fun _ _ h => h.of_keeps hkeeps

theorem steady_firstEntry (c : Cursor) (b : KeyBuffer) (ht : c.tree = t) :
    t.Steady failing Eq c.firstEntry (firstEntry { c with keyBuf := b }) := by
  subst ht
  unfold firstEntry
  cases c.order with
  | ascending => exact steady_lowerStart _
  | descending => exact steady_upperStart _

theorem steady_seekFirst (c : Cursor) (b : KeyBuffer) (ht : c.tree = t) :
    t.Steady failing (Moved c) c.seekFirst (seekFirst { c with keyBuf := b }) := by
  refine (steady_firstEntry c b ht).seq fun start => ?_
  rcases start with _ | ⟨pin, index⟩
  · exact .pure ⟨rfl, ⟨b, rfl⟩, .refl c⟩
  · refine (steady_recomputeLeafBounds _ b).bind fun x y hxy => ?_
    obtain ⟨⟨b', rfl⟩, hkeeps⟩ := hxy
    have hkeeps : Keeps c x := ⟨hkeeps.tree, hkeeps.order, hkeeps.range⟩
    exact (steady_skipToValid _ x b' (hkeeps.tree.trans ht)).mono fun _ _ h => h.of_keeps hkeeps

theorem steady_step (c : Cursor) (b : KeyBuffer) (ht : c.tree = t) :
    t.Steady failing (Moved c) c.step (step { c with keyBuf := b }) := by
  have hinside : stepInside { c with keyBuf := b } = c.stepInside.map fun d => { d with keyBuf := b } := by
    unfold stepInside
    cases c.order with
    | ascending => simp only; split <;> rfl
    | descending => simp only; split <;> rfl
  have hkeeps : ∀ d, c.stepInside = some d → Keeps c d := by
    intro d hd
    unfold stepInside at hd
    split at hd <;> split at hd <;> cases hd <;> exact ⟨rfl, rfl, rfl⟩
  unfold step
  rw [hinside]
  cases hs : c.stepInside with
  | some d => exact .pure ⟨rfl, ⟨b, rfl⟩, hkeeps d hs⟩
  | none =>
    refine (steady_nextPage c b ht).bind fun x y hxy => ?_
    obtain ⟨more, d⟩ := x
    obtain ⟨more', d'⟩ := y
    obtain ⟨rfl, ⟨b', rfl⟩, hkeeps⟩ := hxy
    refine .ite (.pure ⟨rfl, ⟨b', rfl⟩, hkeeps⟩) ?_
    exact (steady_skipToValid _ d b' (hkeeps.tree.trans ht)).mono fun _ _ h => h.of_keeps hkeeps

/-! ## Reading the entry -/

/-- How the key read from an entry relates to the key a like cursor reads. -/
def KeyRead (failing : Prop) (x y : KeyBuffer × Result KeySource) : Prop :=
  (∀ k, x.2 = .ok k → y.2 = .ok k ∧ (k = .rebuilt → x.1.contents = y.1.contents)) ∧
    ∀ e, x.2 = .error e → failing ∨ y.2 = .error e

theorem KeyRead.same {b' : KeyBuffer} {r : Result KeySource} (h : r ≠ .ok .rebuilt) :
    KeyRead failing (b, r) (b', r) := by
  refine ⟨fun k hk => ⟨hk, fun hr => ?_⟩, fun e he => .inr he⟩
  subst hr
  exact absurd hk h

theorem KeyRead.excused {e : Error} {y : KeyBuffer × Result KeySource} (h : failing) :
    KeyRead failing (b, .error e) y := by
  refine ⟨fun _ hk => ?_, fun _ _ => .inl h⟩
  cases hk

theorem succeeds_readKey (env : Env) (c : Cursor) (page : PagePin) (entry : LeafEntry) :
    Succeeds env (c.readKey page entry) := by
  unfold readKey
  refine .ite (.pure _) ?_
  cases c.tree.rebuiltKeyCapacity with
  | error e => exact .pure _
  | ok capacity =>
    refine (Succeeds.attempt _).bind fun x => ?_
    cases x with
    | error e => exact .pure _
    | ok buf =>
      dsimp only
      cases c.tree.rebuildKey page.view c.index with
      | error e => exact .pure _
      | ok found =>
        cases found with
        | none => exact .pure _
        | some key =>
          refine (Succeeds.attempt _).bind fun x => ?_
          cases x <;> exact .pure _

theorem steady_readKey (c : Cursor) (b : KeyBuffer) (page : PagePin) (entry : LeafEntry) :
    t.Steady failing (KeyRead failing) (c.readKey page entry) (readKey { c with keyBuf := b } page entry) := by
  have htotal := succeeds_readKey t.calm { c with keyBuf := b } page entry
  unfold readKey at htotal ⊢
  by_cases homit : (!page.view.layout.omittedKeys) = true
  · rw [if_pos homit, if_pos homit]
    exact .pure (.same (by simp))
  rw [if_neg homit] at htotal
  rw [if_neg homit, if_neg homit]
  dsimp only at htotal ⊢
  cases hcap : c.tree.rebuiltKeyCapacity with
  | error e => exact .pure (.same (by simp))
  | ok capacity =>
    rw [hcap] at htotal
    refine ((forgiving_charge _ capacity).tracks (forgiving_charge _ capacity)).caught htotal
      (fun buf buf' _ => ?_) (fun e => .pure (.same (by simp))) fun e => ⟨_, rfl, fun h _ => .excused h⟩
    cases c.tree.rebuildKey page.view c.index with
    | error e => exact .pure (.same (by simp))
    | ok found =>
      cases found with
      | none => exact .pure (.same (by simp))
      | some key =>
        refine ((forgiving_chargeAtLeast _ _).tracks (forgiving_chargeAtLeast _ _)).caught ?_
          (fun n n' _ => .pure ?_) (fun e => .pure (.same (by simp))) fun e => ⟨_, rfl, fun h _ => .excused h⟩
        · refine (Succeeds.attempt _).bind fun x => ?_
          cases x <;> exact .pure _
        · exact ⟨fun k hk => ⟨hk, fun _ => rfl⟩, fun e he => .inr he⟩

theorem steady_readValue (entry : LeafEntry) : t.Steady failing Eq (readValue entry) (readValue entry) := by
  unfold readValue
  cases entry.value with
  | inline offset len => exact .pure rfl
  | overflow page =>
    have hblob : t.Steady failing Eq (Read.blob page) (Read.blob page) := (steady_page page).seq fun _ => .lift _
    exact hblob.seq fun _ => .pure rfl

/-- How a read or a step of a cursor relates to that of one that is alike. -/
structure Stepped (failing : Prop) (c : Cursor) {α : Type} (shown : α → Prop) (x y : Cursor × Result α) : Prop where
  keeps : Keeps c x.1
  ok : ∀ a, x.2 = .ok a → y.2 = .ok a ∧ Alike x.1 y.1 ∧ (shown a → x.1.currentRow = y.1.currentRow)
  error : ∀ e, x.2 = .error e → failing ∨ y.2 = .error e

section
variable {α : Type} {shown : α → Prop} {c d : Cursor} {e : Error}

theorem Stepped.excused (hk : Keeps c d) (h : failing) (y : Cursor × Result α) :
    Stepped failing c shown (d, .error e) y := by
  refine ⟨hk, fun _ ha => ?_, fun _ _ => .inl h⟩
  cases ha

theorem Stepped.failed (hk : Keeps c d) (d' : Cursor) : Stepped failing c shown (d, .error e) (d', .error e) := by
  refine ⟨hk, fun _ ha => ?_, fun _ he => .inr he⟩
  cases ha

theorem Stepped.passed {a : α} {d' : Cursor} (hk : Keeps c d) (ha : Alike d d')
    (hrow : shown a → d.currentRow = d'.currentRow) : Stepped failing c shown (d, .ok a) (d', .ok a) := by
  refine ⟨hk, fun _ h => ?_, fun _ h => ?_⟩
  · cases h
    exact ⟨rfl, ha, hrow⟩
  · cases h

end

theorem succeeds_materialize (env : Env) (c : Cursor) : Succeeds env c.materialize := by
  unfold materialize
  cases c.page with
  | none => exact .pure _
  | some page =>
    dsimp only
    cases page.view.leafEntry c.index with
    | error e => exact .pure _
    | ok entry =>
      refine (succeeds_readKey env c page entry).bind fun x => ?_
      obtain ⟨buf, key⟩ := x
      cases key with
      | error e => exact .pure _
      | ok key =>
        refine (Succeeds.attempt _).bind fun x => ?_
        cases x <;> exact .pure _

theorem steady_materialize (c : Cursor) (b : KeyBuffer) :
    t.Steady failing (Stepped failing c fun _ => True) c.materialize (materialize { c with keyBuf := b }) := by
  have htotal := succeeds_materialize t.calm { c with keyBuf := b }
  unfold materialize at htotal ⊢
  cases hp : c.page with
  | none => exact .pure (.failed (.refl c) _)
  | some page =>
    simp only [hp] at htotal ⊢
    cases hentry : page.view.leafEntry c.index with
    | error e => exact .pure (.failed (.refl c) _)
    | ok entry =>
      simp only [hentry] at htotal
      refine (steady_readKey c b page entry).bindOr htotal fun x y hxy => ?_
      obtain ⟨buf, key⟩ := x
      obtain ⟨buf', key'⟩ := y
      cases key with
      | error e =>
        rcases hxy.2 e rfl with hf | he
        · exact .inr ⟨_, rfl, fun _ => .excused (.buffer c buf) hf _⟩
        · cases (show key' = .error e from he)
          exact .inl (.pure (.failed (.buffer c buf) _))
      | ok key =>
        obtain ⟨hkey, hcontents⟩ := hxy.1 key rfl
        cases (show key' = .ok key from hkey)
        refine .inl ((steady_readValue entry).caught ?_ (fun v v' hv => ?_) (fun e => ?_) fun e => ?_)
        · refine (Succeeds.attempt _).bind fun x => ?_
          cases x <;> exact .pure _
        · subst hv
          refine .pure (.passed ⟨rfl, rfl, rfl⟩ ⟨buf', rfl⟩ fun _ => ?_)
          cases key with
          | page offset len => rfl
          | rebuilt =>
            have hc : buf.contents = buf'.contents := hcontents rfl
            simp only [currentRow, hc]
        · exact .pure (.failed (.buffer c buf) _)
        · exact ⟨_, rfl, fun h _ => .excused (.buffer c buf) h _⟩

theorem succeeds_stepAndRead (env : Env) (c : Cursor) : Succeeds env c.stepAndRead := by
  unfold stepAndRead
  refine (Succeeds.attempt _).bind fun x => ?_
  rcases x with e | ⟨_ | _, d⟩
  · exact .pure _
  · exact .pure _
  · exact (succeeds_materialize env d).bind fun _ => .pure _

theorem steady_stepAndRead (c : Cursor) (b : KeyBuffer) (ht : c.tree = t) :
    t.Steady failing (Stepped failing c fun more => more = true) c.stepAndRead
      (stepAndRead { c with keyBuf := b }) := by
  have htotal := succeeds_stepAndRead t.calm { c with keyBuf := b }
  have hmove : t.Steady failing (Moved c) (if c.started then c.step else seekFirst { c with started := true })
      (if c.started then step { c with keyBuf := b } else seekFirst { c with keyBuf := b, started := true }) :=
    .ite (steady_step c b ht)
      ((steady_seekFirst { c with started := true } b ht).mono fun _ _ h => h.of_keeps ⟨rfl, rfl, rfl⟩)
  refine hmove.caught htotal (fun x y hxy => ?_) (fun e => .pure (.failed (.refl c) _))
    fun e => ⟨_, rfl, fun h _ => .excused (.refl c) h _⟩
  obtain ⟨more, d⟩ := x
  obtain ⟨more', d'⟩ := y
  obtain ⟨rfl, ⟨b', rfl⟩, hkeeps⟩ := hxy
  cases more with
  | false =>
    refine .pure (.passed ?_ ⟨b', rfl⟩ fun h => ?_)
    · exact ⟨hkeeps.tree, hkeeps.order, hkeeps.range⟩
    · cases h
  | true =>
    refine (steady_materialize d b').bind fun x y hxy => .pure ⟨?_, ?_, ?_⟩
    · exact hkeeps.trans hxy.keeps
    · intro more hmore
      obtain ⟨u, hu, rfl⟩ := map_eq_ok.1 hmore
      obtain ⟨hy, halike, hrow⟩ := hxy.ok u hu
      exact ⟨map_eq_ok.2 ⟨u, hy, rfl⟩, halike, fun _ => hrow trivial⟩
    · intro e he
      exact (hxy.error e (map_eq_error.1 he)).imp_right fun hy => map_eq_error.2 hy

/-- A failed call leaves the cursor where it was; any other returns what the call without
failures returns. -/
theorem steady_advance {q : Cursor} (h : SameScan q c d) :
    q.tree.Steady failing (CallRel (SameScan q) currentRow failing c) c.advance d.advance := by
  obtain ⟨⟨b, hb⟩, hq⟩ := h
  have hclear : ∀ c : Cursor, c.advance = c.clear.advance := fun _ => rfl
  rw [hclear d, hb]
  unfold advance
  refine .ite (.pure ⟨rfl, ⟨⟨b, rfl⟩, ⟨hq.tree, hq.order, hq.range⟩⟩, fun h => ?_⟩) ?_
  · cases h
  · refine (steady_stepAndRead c.clear b hq.tree).bind fun x y hxy => ?_
    obtain ⟨moved, result⟩ := x
    obtain ⟨moved', result'⟩ := y
    have hkeeps : Keeps q moved := hq.trans ⟨hxy.keeps.tree, hxy.keeps.order, hxy.keeps.range⟩
    cases result with
    | ok more =>
      obtain ⟨hy, halike, hrow⟩ := hxy.ok more rfl
      cases (show result' = .ok more from hy)
      exact .pure ⟨rfl, ⟨halike.samePlace, hkeeps⟩, hrow⟩
    | error e =>
      have hplace : SamePlace (moved.restore c.toPosition) c :=
        (samePlace_restore (c := c.clear) hxy.keeps).trans ⟨c.keyBuf, rfl⟩
      have hscan : SameScan q (moved.restore c.toPosition) c :=
        ⟨hplace, ⟨hkeeps.tree, hkeeps.order, hkeeps.range⟩⟩
      cases result' with
      | ok more => exact .pure ⟨hscan, (hxy.error e rfl).imp_right fun h => by cases h⟩
      | error e' => exact .pure ⟨hscan, hxy.error e rfl⟩

theorem succeeds_advance (env : Env) (c : Cursor) : Succeeds env c.advance := by
  unfold advance
  refine .ite (.pure _) ((succeeds_stepAndRead env _).bind fun x => ?_)
  obtain ⟨moved, result⟩ := x
  cases result <;> exact .pure _

/-- A cursor that reported the end is finished. -/
theorem finished_of_advance {env : Env} (h : c.advance.run env = .ok (d, .ok false)) :
    d.finished = true := by
  unfold advance at h
  simp only [run_ite, run_pure, run_bind] at h
  split at h
  · rename_i hfinished
    cases h
    exact hfinished
  · obtain ⟨⟨moved, result⟩, hstep, h⟩ := bind_eq_ok.1 h
    cases result with
    | error e => cases h
    | ok more =>
      cases h
      unfold stepAndRead at hstep
      simp only [run_bind, run_attempt, ok_bind] at hstep
      split at hstep
      · cases hstep
      · cases hstep
        rfl
      · rw [run_bind] at hstep
        obtain ⟨⟨e, read⟩, -, hread⟩ := bind_eq_ok.1 hstep
        obtain ⟨-, hread⟩ := Prod.mk.inj (Except.ok.inj hread)
        obtain ⟨_, _, hread⟩ := map_eq_ok.1 hread
        cases hread

theorem advance_of_finished (env : Env) (h : c.finished = true) :
    c.advance.run env = .ok (c.clear, .ok false) := by
  unfold advance
  rw [run_ite, if_pos h]
  rfl

theorem retriable_advance (q : Cursor) :
    Retriable q.tree.Admits q.tree.calm advance currentRow (SameScan q) fun c => c.finished = true where
  trans := fun _ _ _ h h' => ⟨h.1.trans h'.1, h.2⟩
  tracks := fun _ _ _ h => steady_advance h
  closes := fun _ _ h => finished_of_advance h
  stays := fun _ h => ⟨_, advance_of_finished _ h⟩

end Cursor

/-! ## Index cursors -/

namespace IndexCursor

/-- The key and the value an index cursor shows. -/
def shown (c : IndexCursor) : Bytes × Option ValueGuard := (c.key.contents, c.value)

/-- The two index cursors stand at the same place of the scan that `q` began. -/
structure SameScan (q c d : IndexCursor) : Prop where
  cursor : Cursor.SameScan q.cursor c.cursor d.cursor
  unique : c.unique = q.unique
  unique' : d.unique = q.unique

theorem steady_resolveReference (r : PageRef) : t.Steady failing Eq (resolveReference r) (resolveReference r) :=
  (steady_page _).seq fun _ => (Tracks.lift _).seq fun _ => .lift _

variable {c d q : IndexCursor}

theorem entryReference_congr (hrow : c.cursor.currentRow = d.cursor.currentRow)
    (hu : c.unique = d.unique) : c.entryReference = d.entryReference := by
  unfold entryReference
  rw [hrow, hu]

/-- What a call of the index cursor leaves, before a failure is undone. -/
structure Advanced (failing : Prop) (q : IndexCursor) (x y : IndexCursor × Result Bool) : Prop where
  keeps : Cursor.Keeps q.cursor x.1.cursor
  unique : x.1.unique = q.unique
  ok : ∀ more, x.2 = .ok more → y.2 = .ok more ∧ Cursor.SamePlace x.1.cursor y.1.cursor ∧ y.1.unique = q.unique ∧
    (more = true → x.1.shown = y.1.shown)
  error : ∀ e, x.2 = .error e → failing ∨ y.2 = .error e

section
variable {q c d : IndexCursor} {e : Error} {cursor : Cursor} {unique : Bool} {key : KeyBuffer}
  {value : Option ValueGuard}

theorem Advanced.excused (hk : Cursor.Keeps q.cursor cursor) (hu : unique = q.unique) (h : failing)
    (y : IndexCursor × Result Bool) : Advanced failing q ({ cursor, unique, key, value }, .error e) y := by
  refine ⟨hk, hu, fun _ ha => ?_, fun _ _ => .inl h⟩
  cases ha

theorem Advanced.failed (hk : Cursor.Keeps q.cursor cursor) (hu : unique = q.unique) (d : IndexCursor) :
    Advanced failing q ({ cursor, unique, key, value }, .error e) (d, .error e) := by
  refine ⟨hk, hu, fun _ ha => ?_, fun _ he => .inr he⟩
  cases ha

theorem Advanced.passed {more : Bool} (h : SameScan q c d) (hs : more = true → c.shown = d.shown) :
    Advanced failing q (c, .ok more) (d, .ok more) := by
  refine ⟨h.cursor.2, h.unique, fun _ ha => ?_, fun _ he => ?_⟩
  · cases ha
    exact ⟨rfl, h.cursor.1, h.unique', hs⟩
  · cases he

end

theorem succeeds_advanceInner (env : Env) (c : IndexCursor) : Succeeds env c.advanceInner := by
  unfold advanceInner
  refine (Cursor.succeeds_advance env _).bind fun x => ?_
  obtain ⟨cursor, moved⟩ := x
  rcases moved with e | _ | _
  · exact .pure _
  · exact .pure _
  · dsimp only
    split
    · exact .pure _
    · refine (Succeeds.attempt _).bind fun x => ?_
      cases x with
      | error e => exact .pure _
      | ok key =>
        refine (Succeeds.attempt _).bind fun x => ?_
        cases x <;> exact .pure _

theorem steady_advanceInner (h : SameScan q c d) :
    q.cursor.tree.Steady failing (Advanced failing q) c.advanceInner d.advanceInner := by
  obtain ⟨hscan, hu, hu'⟩ := h
  have htotal := succeeds_advanceInner q.cursor.tree.calm d
  refine (Cursor.steady_advance hscan).bindOr htotal fun x y hxy => ?_
  obtain ⟨cursor, moved⟩ := x
  obtain ⟨cursor', moved'⟩ := y
  cases moved with
  | error e =>
    obtain ⟨hback, hf | he⟩ := hxy
    · exact .inr ⟨_, rfl, fun _ => .excused hback.2 hu hf _⟩
    · cases (show moved' = .error e from he)
      exact .inl (.pure (.failed hback.2 hu _))
  | ok more =>
    obtain ⟨hy, hsame, hrow⟩ := hxy
    cases (show moved' = .ok more from hy)
    refine .inl ?_
    cases more with
    | false => exact .pure (.passed ⟨hsame, hu, hu'⟩ fun h => by cases h)
    | true =>
      have hreference : entryReference { c with cursor := cursor, value := none } =
          entryReference { d with cursor := cursor', value := none } :=
        entryReference_congr (hrow rfl) (hu.trans hu'.symm)
      dsimp only
      rw [hreference]
      cases entryReference { d with cursor := cursor', value := none } with
      | error e => exact .pure (.failed hsame.2 hu _)
      | ok found =>
        obtain ⟨reference, sourceKey⟩ := found
        refine ((forgiving_charge _ _).tracks (forgiving_charge _ _)).caught ?_ (fun buf buf' _ => ?_)
          (fun e => .pure (.failed hsame.2 hu _)) fun e => ⟨_, rfl, fun h _ => .excused hsame.2 hu h _⟩
        · refine (Succeeds.attempt _).bind fun x => ?_
          cases x with
          | error e => exact .pure _
          | ok key =>
            refine (Succeeds.attempt _).bind fun x => ?_
            cases x <;> exact .pure _
        · refine (steady_resolveReference reference).caught ?_ (fun guard guard' hg => ?_)
            (fun e => .pure (.failed hsame.2 hu _)) fun e => ⟨_, rfl, fun h _ => .excused hsame.2 hu h _⟩
          · refine (Succeeds.attempt _).bind fun x => ?_
            cases x <;> exact .pure _
          · subst hg
            exact .pure (.passed ⟨hsame, hu, hu'⟩ fun _ => rfl)

theorem steady_advance (h : SameScan q c d) :
    q.cursor.tree.Steady failing (CallRel (SameScan q) shown failing c) c.advance d.advance := by
  refine (steady_advanceInner h).bind fun x y hxy => ?_
  obtain ⟨moved, result⟩ := x
  obtain ⟨moved', result'⟩ := y
  cases result with
  | ok more =>
    obtain ⟨hy, hplace, hu, hrow⟩ := hxy.ok more rfl
    cases (show result' = .ok more from hy)
    exact .pure ⟨rfl, ⟨⟨hplace, hxy.keeps⟩, hxy.unique, hu⟩, hrow⟩
  | error e =>
    have hkeeps : Cursor.Keeps c.cursor moved.cursor := by
      obtain ⟨-, hq⟩ := h.cursor
      exact ⟨hxy.keeps.tree.trans hq.tree.symm, hxy.keeps.order.trans hq.order.symm,
        hxy.keeps.range.trans hq.range.symm⟩
    have hscan : ∀ key, SameScan q
        { moved with cursor := moved.cursor.restore c.cursor.toPosition, key, value := none } c :=
      fun key => ⟨⟨Cursor.samePlace_restore hkeeps, ⟨hxy.keeps.tree, hxy.keeps.order, hxy.keeps.range⟩⟩,
        hxy.unique, h.unique⟩
    cases result' with
    | ok more => exact .pure ⟨hscan _, (hxy.error e rfl).imp_right fun h => by cases h⟩
    | error e' => exact .pure ⟨hscan _, hxy.error e rfl⟩

theorem finished_of_advance {env : Env} (h : c.advance.run env = .ok (d, .ok false)) :
    d.cursor.finished = true := by
  unfold advance at h
  rw [run_bind] at h
  obtain ⟨⟨moved, result⟩, hinner, h⟩ := bind_eq_ok.1 h
  cases result with
  | error e => cases h
  | ok more =>
    cases h
    unfold advanceInner at hinner
    rw [run_bind] at hinner
    obtain ⟨⟨cursor, stepped⟩, hcursor, hinner⟩ := bind_eq_ok.1 hinner
    rcases stepped with e | _ | _
    · cases hinner
    · cases hinner
      exact Cursor.finished_of_advance hcursor
    · -- Past this point a call returns a row or fails.
      dsimp only at hinner
      split at hinner
      · cases hinner
      · simp only [run_bind, run_attempt, ok_bind] at hinner
        split at hinner
        · cases hinner
        · simp only [run_bind, run_attempt, ok_bind] at hinner
          split at hinner <;> cases hinner

theorem advance_of_finished (env : Env) (h : c.cursor.finished = true) :
    ∃ d, c.advance.run env = .ok (d, .ok false) := by
  unfold advance advanceInner
  simp only [run_bind, Cursor.advance_of_finished env h, ok_bind]
  exact ⟨_, rfl⟩

theorem retriable_advance (q : IndexCursor) :
    Retriable q.cursor.tree.Admits q.cursor.tree.calm advance shown (SameScan q) fun c => c.cursor.finished = true where
  trans := fun _ _ _ h h' => ⟨⟨h.cursor.1.trans h'.cursor.1, h.cursor.2⟩, h.unique, h'.unique'⟩
  tracks := fun _ _ _ h => steady_advance h
  closes := fun _ _ h => finished_of_advance h
  stays := fun _ h => advance_of_finished _ h

end IndexCursor

/-! ## Retried cursors -/

/-- However the loads and reservations of its calls fail, a cursor delivers the rows of the same
cursor without failures, one after the other, and reports the end only behind the last of them; a
call in which nothing fails hands back the next outcome. The same holds for an index cursor. -/
theorem retried_cursors_resume :
    (∀ (c : Cursor) outs c', Retried c.tree.Admits Cursor.advance Cursor.currentRow c outs c' →
      Resumes (nthCall c.tree.calm Cursor.advance Cursor.currentRow c) outs ∧
        ∀ d r, c'.advance.Comes (c.tree.Admits False) (.ok (d, r)) →
          handedBack Cursor.currentRow d r =
            nthCall c.tree.calm Cursor.advance Cursor.currentRow c (delivered outs).length) ∧
    ∀ (c : IndexCursor) outs c', Retried c.cursor.tree.Admits IndexCursor.advance IndexCursor.shown c outs c' →
      Resumes (nthCall c.cursor.tree.calm IndexCursor.advance IndexCursor.shown c) outs ∧
        ∀ d r, c'.advance.Comes (c.cursor.tree.Admits False) (.ok (d, r)) →
          handedBack IndexCursor.shown d r =
            nthCall c.cursor.tree.calm IndexCursor.advance IndexCursor.shown c (delivered outs).length := by
  constructor
  · intro c outs c' h
    exact h.resumes (Cursor.retriable_advance c) ⟨.refl c, .refl c⟩
  · intro c outs c' h
    exact h.resumes (IndexCursor.retriable_advance c) ⟨⟨.refl _, .refl _⟩, rfl, rfl⟩

namespace Twin

def indexCursor : IndexCursor := { cursor, unique := true }

/-- A moment at which no page can be loaded. -/
def starved : Env
  | .page _ => .error (.io "interrupted")
  | op => tree.calm op

def rows : List (Bytes × Bytes) := [(leBytes 8 7, PageRef.encode ⟨0, 40, 16⟩), (leBytes 8 9, PageRef.encode ⟨1, 40, 16⟩)]

/-- The first call delivers a row, the second cannot load the leaf of the next one; nothing fails in the two after it. -/
def moments : List Env := [tree.calm, tree.calm, starved, tree.calm]

theorem admits_moments : ∀ env ∈ moments, ∀ op, tree.Admits True op (env op) := by
  have hstarved : ∀ op, tree.Admits True op (starved op) := by
    intro op
    cases op with
    | page o => exact .inr ⟨trivial, _, rfl⟩
    | _ => exact tree.admits_calm True _
  intro env henv
  simp only [moments, List.mem_cons, List.not_mem_nil, or_false] at henv
  rcases henv with rfl | rfl | rfl | rfl
  · exact tree.admits_calm True
  · exact tree.admits_calm True
  · exact hstarved
  · exact tree.admits_calm True

/-- What the calls of the two cursors hand back. -/
def outs : List (Result (Option (Option (Bytes × Bytes)))) := (replay Cursor.advance Cursor.currentRow cursor moments).1

def indexOuts : List (Result (Option (Bytes × Option ValueGuard))) :=
  (replay IndexCursor.advance IndexCursor.shown indexCursor moments).1

end Twin

theorem retried_cursors_resume_twin :
    Twin.outs.map Except.isOk = [true, false, true, true] ∧
      delivered Twin.outs = Twin.rows.map some ∧ (delivered Twin.indexOuts).length = 2 ∧
      Resumes (nthCall Twin.tree.calm Cursor.advance Cursor.currentRow Twin.cursor) Twin.outs ∧
      Resumes (nthCall Twin.tree.calm IndexCursor.advance IndexCursor.shown Twin.indexCursor) Twin.indexOuts := by
  refine ⟨by decide +kernel, by decide +kernel, by decide +kernel, ?_, ?_⟩
  · exact (retried_cursors_resume.1 Twin.cursor _ _ (.of_replay Twin.admits_moments)).1
  · exact (retried_cursors_resume.2 Twin.indexCursor _ _ (.of_replay Twin.admits_moments)).1

end DryDb
