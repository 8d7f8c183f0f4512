import DryDb.Reader.Env
/-!
# Every counted walk ends

How many pages each read visits, for any answers of the store at all: whatever the
child and sibling ordinals of the pages are, a descent visits at most one page per
level of the depth limit, a sibling walk at most one page per page of the file, and
the end-of-tree check of a walk that runs out costs one more descent.
-/

namespace DryDb

open Program

/-- The questions that fetch a page. -/
def isVisit : ReadOp → Bool
  | .page _ => true
  | .pageCached _ => true
  | _ => false

/-- The page visits of one run. -/
def pageVisits {α : Type} (env : Env) (x : Read α) : Nat := x.visits isVisit env

namespace Visits

variable {α β : Type} (env : Env) {x : Read α} {n : Nat}

/-! ## How visits add up -/

@[simp] theorem pure_eq (a : α) : pageVisits env (pure a : Read α) = 0 := rfl

@[simp] theorem fail_eq (e : Error) : pageVisits env (.fail e : Read α) = 0 := rfl

@[simp] theorem liftM_eq (x : Result α) : pageVisits env (liftM x : Read α) = 0 := visits_liftM _ _ x

@[simp] theorem monadLift_eq (x : Result α) : pageVisits env (monadLift x : Read α) = 0 := visits_lift _ _ x

@[simp] theorem attempt_eq (x : Read α) : pageVisits env x.attempt = pageVisits env x := visits_attempt _ _ x

theorem bind_le {f : α → Read β} {m : Nat} (hx : pageVisits env x ≤ m)
    (hf : ∀ a, x.run env = .ok a → pageVisits env (f a) ≤ n) : pageVisits env (x >>= f) ≤ m + n :=
  visits_bind_le _ _ hx hf

/-- The rule for a first part that visits nothing. -/
theorem bind_le_of_zero {f : α → Read β} (hx : pageVisits env x = 0)
    (hf : ∀ a, x.run env = .ok a → pageVisits env (f a) ≤ n) : pageVisits env (x >>= f) ≤ n := by
  have := bind_le env hx.le hf
  omega

/-- The rule for a last part that visits nothing. -/
theorem bind_le_left {f : α → Read β} (hx : pageVisits env x ≤ n)
    (hf : ∀ a, x.run env = .ok a → pageVisits env (f a) = 0) : pageVisits env (x >>= f) ≤ n := by
  have := bind_le env hx fun a ha => (hf a ha).le
  omega

@[simp] theorem page_eq (o : Nat) : pageVisits env (Read.page o) = 1 := by
  change 1 + pageVisits env (liftM (env (.page o)) : Read PagePin) = 1
  simp

@[simp] theorem pageCached_eq (o : Nat) : pageVisits env (Read.pageCached o) = 1 := rfl

@[simp] theorem retainedRoot_eq (t : Nat) : pageVisits env (Read.retainedRoot t) = 0 := rfl

@[simp] theorem retainRoot_eq (t : Nat) (p : PagePin) : pageVisits env (Read.retainRoot t p) = 0 := rfl

@[simp] theorem reserve_eq (n : Nat) : pageVisits env (Read.reserve n) = 0 := by
  change 0 + pageVisits env (liftM (env (.reserve n)) : Read Unit) = 0
  simp

@[simp] theorem digestsCheckedBy_eq (t : Nat) (p : PagePin) : pageVisits env (Read.digestsCheckedBy t p) = 0 := rfl

@[simp] theorem markDigestsChecked_eq (t : Nat) (p : PagePin) :
    pageVisits env (Read.markDigestsChecked t p) = 0 := rfl

/-! ## Loading -/

section Tree
variable (t : Tree)

theorem checkPage_eq (pin : PagePin) : pageVisits env (t.checkPage pin) = 0 := by
  unfold Tree.checkPage
  split
  · rfl
  · refine Nat.le_zero.mp (bind_le_of_zero env (digestsCheckedBy_eq env _ _) fun marked _ => ?_)
    split
    · simp
    · exact bind_le_of_zero env (liftM_eq env _) fun _ _ => by simp

theorem treePage_le (o : Nat) : pageVisits env (t.treePage o) ≤ 1 :=
  bind_le_left env (page_eq env o).le fun pin _ =>
    Nat.le_zero.mp (bind_le_of_zero env (checkPage_eq env t pin) fun _ _ => by simp)

theorem rootPage_le : pageVisits env t.rootPage ≤ 1 := by
  unfold Tree.rootPage
  split
  · simp
  · refine bind_le_of_zero env (retainedRoot_eq env _) fun kept _ => ?_
    split
    · simp
    · exact bind_le_left env (treePage_le env t _) fun pin _ =>
        Nat.le_zero.mp (bind_le_of_zero env (retainRoot_eq env _ _) fun _ _ => by simp)

theorem currentPage_le (o : Nat) (current : Option PagePin) : pageVisits env (t.currentPage o current) ≤ 1 := by
  unfold Tree.currentPage
  split
  · simp
  · exact treePage_le env t o

theorem stepSibling_le (source target : Nat) (ascending : Bool) :
    pageVisits env (t.stepSibling source target ascending) ≤ 1 := by
  refine bind_le_left env (bind_le_left env (treePage_le env t target) fun pin _ => ?_) fun pin _ => ?_
  · split <;> rfl
  · dsimp only
    split <;> split <;> rfl

/-! ## Going down -/

/-- A descent visits at most one page per level it has left. -/
theorem descendFrom_le (key : Bytes) (d : UInt64) (depth o : Nat) (current : Option PagePin) (conservative : Bool) :
    pageVisits env (t.descendFrom key d depth o current conservative) ≤ depth := by
  induction depth generalizing o current conservative with
  | zero => simp [Tree.descendFrom]
  | succ depth ih =>
    rw [Tree.descendFrom, Nat.add_comm depth 1]
    refine bind_le env (currentPage_le env t o current) fun pin _ => ?_
    split
    · simp
    · exact bind_le_of_zero env (liftM_eq env _) fun next _ => ih _ _ _

theorem descend_le (key : Bytes) (d : UInt64) :
    pageVisits env (t.descend key d) ≤ 1 + t.store.limits.maxTreeDepth := by
  refine bind_le env (rootPage_le env t) fun root _ => ?_
  split
  · simp
  · exact bind_le_left env (descendFrom_le env t key d _ _ _ _) fun _ _ => by simp

theorem edgeLeafFrom_le (leftmost : Bool) (depth o : Nat) (current : Option PagePin) :
    pageVisits env (t.edgeLeafFrom leftmost depth o current) ≤ depth := by
  induction depth generalizing o current with
  | zero => simp [Tree.edgeLeafFrom]
  | succ depth ih =>
    rw [Tree.edgeLeafFrom, Nat.add_comm depth 1]
    refine bind_le env (currentPage_le env t o current) fun pin _ => ?_
    split
    · dsimp only
      split <;> simp
    · exact bind_le_of_zero env (liftM_eq env _) fun next _ => ih _ _

/-- What one walk to an edge of the tree may visit. -/
def edgeBound (t : Tree) : Nat := 1 + t.store.limits.maxTreeDepth

theorem edgeLeaf_le (leftmost : Bool) : pageVisits env (t.edgeLeaf leftmost) ≤ edgeBound t := by
  refine bind_le env (rootPage_le env t) fun root _ => ?_
  split
  · simp
  · exact edgeLeafFrom_le env t leftmost _ _ _

theorem endsAt_le (o : Nat) (ascending : Bool) : pageVisits env (t.endsAt o ascending) ≤ edgeBound t := by
  refine bind_le_left env (edgeLeaf_le env t _) fun edge _ => ?_
  split <;> rfl

/-- A walk that runs out of siblings asks where the tree ends, once. -/
theorem endsCheck_le (o : Nat) (ascending : Bool) (a : α) (e : Error) :
    pageVisits env (do if ← t.endsAt o ascending then pure a else .fail e) ≤ edgeBound t := by
  refine bind_le_left env (endsAt_le env t o ascending) fun ends _ => ?_
  split <;> rfl

/-! ## Going right -/

theorem searchFrom_le (key : Bytes) (d : UInt64) (op : SearchOp) (conservative : Bool) (steps : Nat) (pin : PagePin) :
    pageVisits env (t.searchFrom key d op conservative steps pin) ≤ steps + edgeBound t := by
  induction steps generalizing pin with
  | zero =>
    unfold Tree.searchFrom
    refine bind_le_of_zero env (liftM_eq env _) fun found _ => ?_
    split
    · simp
    · refine bind_le_of_zero env (liftM_eq env _) fun stops _ => ?_
      split
      · simp
      · split
        · rw [Nat.zero_add]
          exact endsCheck_le env t _ _ _ _
        · simp
  | succ steps ih =>
    unfold Tree.searchFrom
    refine bind_le_of_zero env (liftM_eq env _) fun found _ => ?_
    split
    · simp
    · refine bind_le_of_zero env (liftM_eq env _) fun stops _ => ?_
      split
      · simp
      · split
        · exact (endsCheck_le env t _ _ _ _).trans (Nat.le_add_left _ _)
        · rw [show steps + 1 + edgeBound t = 1 + (steps + edgeBound t) by omega]
          exact bind_le env (stepSibling_le env t _ _ _) fun next _ => ih next

/-- What one search may visit: a descent, one page per page of the file, one end check. -/
def searchBound (t : Tree) : Nat := edgeBound t + (t.store.pageCount + 1 + edgeBound t)

theorem search_le (key : Bytes) (op : SearchOp) : pageVisits env (t.search key op) ≤ searchBound t := by
  refine bind_le_of_zero env (liftM_eq env _) fun d _ => ?_
  refine bind_le env (descend_le env t key d) fun found _ => ?_
  split
  · simp
  · exact searchFrom_le env t key d op _ _ _

theorem lowerStart_le (lower : Bound) : pageVisits env (lowerStart t lower) ≤ searchBound t := by
  unfold lowerStart searchBound
  split
  · exact (edgeLeaf_le env t true).trans (Nat.le_add_right _ _)
  · exact search_le env t _ _
  · exact search_le env t _ _

theorem countFrom_le (upper : Bound) (steps : Nat) (page : PagePin) (index count : Nat) :
    pageVisits env (countFrom t upper steps page index count) ≤ steps + edgeBound t := by
  induction steps generalizing page index count with
  | zero =>
    unfold countFrom
    refine bind_le_of_zero env (liftM_eq env _) fun found _ => ?_
    split
    · simp
    · dsimp only
      split
      · rw [Nat.zero_add]
        exact endsCheck_le env t _ _ _ _
      · simp
  | succ steps ih =>
    unfold countFrom
    refine bind_le_of_zero env (liftM_eq env _) fun found _ => ?_
    split
    · simp
    · dsimp only
      split
      · exact (endsCheck_le env t _ _ _ _).trans (Nat.le_add_left _ _)
      · rw [show steps + 1 + edgeBound t = 1 + (steps + edgeBound t) by omega]
        exact bind_le env (stepSibling_le env t _ _ _) fun next _ => ih next 0 _

/-- A count is one search for its start and one walk along the chain. -/
theorem countRange_le (lower upper : Bound) :
    pageVisits env (countRange t lower upper) ≤ searchBound t + (t.store.pageCount + 1 + edgeBound t) := by
  refine bind_le_of_zero env (liftM_eq env _) fun _ _ => ?_
  refine bind_le_of_zero env (liftM_eq env _) fun _ _ => ?_
  refine bind_le env (lowerStart_le env t lower) fun start _ => ?_
  split
  · simp
  · exact countFrom_le env t upper _ _ _ _

/-! ## Cursors -/

theorem leftward_le (steps : Nat) (pin : PagePin) :
    pageVisits env (Cursor.leftward t steps pin) ≤ steps + edgeBound t := by
  induction steps generalizing pin with
  | zero =>
    unfold Cursor.leftward
    split
    · rw [Nat.zero_add]
      exact endsCheck_le env t _ _ _ _
    · simp
  | succ steps ih =>
    unfold Cursor.leftward
    split
    · exact (endsCheck_le env t _ _ _ _).trans (Nat.le_add_left _ _)
    · rw [show steps + 1 + edgeBound t = 1 + (steps + edgeBound t) by omega]
      refine bind_le env (stepSibling_le env t _ _ _) fun next _ => ?_
      dsimp only
      split
      · simp
      · exact ih next

/-- What finding the start of a range may visit. -/
def seekBound (t : Tree) : Nat := searchBound t + (t.store.pageCount + 1 + edgeBound t)

theorem descendingStart_le (key : Bytes) (op : SearchOp) :
    pageVisits env (Cursor.descendingStart t key op) ≤ seekBound t := by
  refine bind_le env (search_le env t key op) fun found _ => ?_
  split
  · exact (edgeLeaf_le env t false).trans (Nat.le_add_left _ _)
  · split
    · simp
    · exact leftward_le env t _ _

end Tree

theorem firstEntry_le (c : Cursor) : pageVisits env c.firstEntry ≤ seekBound c.tree := by
  unfold Cursor.firstEntry
  split
  · exact (lowerStart_le env c.tree _).trans (Nat.le_add_right _ _)
  · unfold Cursor.upperStart
    split
    · refine (edgeLeaf_le env c.tree false).trans ?_
      unfold seekBound searchBound
      omega
    · exact descendingStart_le env c.tree _ _
    · exact descendingStart_le env c.tree _ _

theorem nextPage_le (c : Cursor) : pageVisits env c.nextPage ≤ edgeBound c.tree := by
  unfold Cursor.nextPage
  split
  · simp
  · split
    · simp
    · dsimp only
      split
      · simp
      · split
        · exact endsCheck_le env c.tree _ _ _ _
        · have hone : 1 ≤ edgeBound c.tree := Nat.le_add_right _ _
          refine (bind_le_left env (stepSibling_le env c.tree _ _ _) fun pin _ => ?_).trans hone
          exact Nat.le_zero.mp (bind_le_of_zero env (liftM_eq env _) fun _ _ => by simp)

/-- The far bound changes the emit window and nothing else. -/
theorem recomputeLeafBounds_eq_ok {c c' : Cursor} (h : c.recomputeLeafBounds = .ok c') :
    ∃ limit ends, c' = { c with leafLimit := limit, leafEndsScan := ends } := by
  unfold Cursor.recomputeLeafBounds at h
  split at h
  · cases h
    exact ⟨c.leafLimit, c.leafEndsScan, rfl⟩
  · obtain ⟨w, -, h⟩ := bind_eq_ok.mp h
    cases h
    exact ⟨w.1, w.2, rfl⟩

/-- A move to the next leaf stays in the tree and never gains page steps. -/
theorem nextPage_keeps {c c' : Cursor} {more : Bool} (h : c.nextPage.run env = .ok (more, c')) :
    c'.tree = c.tree ∧ c'.pageStepsLeft ≤ c.pageStepsLeft := by
  unfold Cursor.nextPage at h
  split at h
  · cases h
    exact ⟨rfl, le_rfl⟩
  · split at h
    · cases h
    · rename_i steps hsteps
      have hle : steps ≤ c.pageStepsLeft := by omega
      dsimp only at h
      split at h
      · cases h
        exact ⟨rfl, hle⟩
      · split at h
        · simp only [run_bind, bind_eq_ok, run_ite, run_pure, run_fail] at h
          obtain ⟨ends, -, h⟩ := h
          split at h <;> cases h
          exact ⟨rfl, hle⟩
        · simp only [run_bind, bind_eq_ok, run_pure, run_liftM] at h
          obtain ⟨pin, -, c₁, hc₁, h⟩ := h
          cases h
          obtain ⟨limit, ends, rfl⟩ := recomputeLeafBounds_eq_ok hc₁
          exact ⟨rfl, hle⟩

theorem skipToValid_le (steps : Nat) (c : Cursor) :
    pageVisits env (Cursor.skipToValid steps c) ≤ (steps + 1) * edgeBound c.tree := by
  induction steps generalizing c with
  | zero =>
    unfold Cursor.skipToValid
    split
    · simp
    · split
      · simp
      · rw [Nat.zero_add, Nat.one_mul]
        refine bind_le_left env (nextPage_le env c) fun next _ => ?_
        split
        split <;> rfl
  | succ steps ih =>
    unfold Cursor.skipToValid
    split
    · simp
    · split
      · simp
      · rw [show (steps + 1 + 1) * edgeBound c.tree = edgeBound c.tree + (steps + 1) * edgeBound c.tree by ring]
        refine bind_le env (nextPage_le env c) fun next hnext => ?_
        split
        rename_i more c'
        split
        · simp
        · rw [← (nextPage_keeps env hnext).1]
          exact ih c'

/-- The seek to the start of a range ends. -/
theorem seekFirst_le (c : Cursor) :
    pageVisits env c.seekFirst ≤ seekBound c.tree + (c.pageStepsLeft + 1) * edgeBound c.tree := by
  refine bind_le env (firstEntry_le env c) fun start _ => ?_
  split
  · simp
  · refine bind_le_of_zero env (liftM_eq env _) fun c' hc' => ?_
    rw [run_liftM] at hc'
    obtain ⟨limit, ends, rfl⟩ := recomputeLeafBounds_eq_ok hc'
    exact skipToValid_le env _ _

/-- What one move of a cursor with `steps` page steps left may visit. -/
def moveBound (t : Tree) (steps : Nat) : Nat := seekBound t + (steps + 1) * edgeBound t

theorem step_le (c : Cursor) : pageVisits env c.step ≤ moveBound c.tree c.pageStepsLeft := by
  unfold Cursor.step moveBound
  split
  · simp
  · have hseek : edgeBound c.tree ≤ seekBound c.tree := by
      unfold seekBound
      omega
    refine (bind_le env (nextPage_le env c) fun next hnext => ?_).trans (Nat.add_le_add_right hseek _)
    split
    rename_i more c'
    split
    · simp
    · obtain ⟨htree, hsteps⟩ := nextPage_keeps env hnext
      rw [← htree]
      exact (skipToValid_le env _ _).trans (Nat.mul_le_mul_right _ (by omega))

theorem chargeAtLeast_eq (charged bytes : Nat) : pageVisits env (chargeAtLeast charged bytes) = 0 := by
  unfold chargeAtLeast
  dsimp only
  split
  · rfl
  · exact Nat.le_zero.mp (bind_le_of_zero env (reserve_eq env _) fun _ _ => by simp)

theorem charge_eq (b : KeyBuffer) (len : Nat) : pageVisits env (b.charge len) = 0 := by
  unfold KeyBuffer.charge
  split
  · rfl
  · exact Nat.le_zero.mp (bind_le_of_zero env (chargeAtLeast_eq env _ _) fun _ _ => by simp)

/-- Rebuilding a key reserves memory and fetches nothing. -/
theorem readKey_eq (c : Cursor) (page : PagePin) (entry : LeafEntry) : pageVisits env (c.readKey page entry) = 0 := by
  unfold Cursor.readKey
  split
  · rfl
  · split
    · rfl
    · refine Nat.le_zero.mp (bind_le_of_zero env ?_ fun buf _ => ?_)
      · rw [attempt_eq, charge_eq]
      · split
        · simp
        · split
          · simp
          · simp
          · refine bind_le_of_zero env ?_ fun charged _ => ?_
            · rw [attempt_eq, chargeAtLeast_eq]
            · split <;> simp

theorem blob_le (o : Nat) : pageVisits env (Read.blob o) ≤ 1 :=
  bind_le_left env (page_eq env o).le fun _ _ => liftM_eq env _

theorem materialize_le (c : Cursor) : pageVisits env c.materialize ≤ 1 := by
  unfold Cursor.materialize
  split
  · simp
  · split
    · simp
    · refine bind_le_of_zero env (readKey_eq env c _ _) fun key _ => ?_
      split
      dsimp only
      split
      · simp
      · refine bind_le_left env ?_ fun found _ => ?_
        · rw [attempt_eq]
          unfold Cursor.readValue
          split
          · simp
          · exact bind_le_left env (blob_le env _) fun _ _ => by simp
        · split <;> rfl

/-- Every advance of every cursor ends, in either direction. -/
theorem advance_le (c : Cursor) : pageVisits env c.advance ≤ moveBound c.tree c.pageStepsLeft + 1 := by
  unfold Cursor.advance
  dsimp only
  split
  · simp
  · refine bind_le_left env (bind_le env (m := moveBound c.tree c.pageStepsLeft) (n := 1) ?_ ?_) ?_
    · rw [attempt_eq]
      split
      · exact step_le env _
      · exact seekFirst_le env _
    · intro moved _
      split
      · simp
      · simp
      · exact bind_le_left env (materialize_le env _) fun _ _ => by simp
    · intro moved _
      split <;> rfl

theorem find_le (t : Tree) (key : Bytes) : pageVisits env (t.find key) ≤ searchBound t := search_le env t key .equal

/-- A point lookup ends: one search, and one page for a value that has its own. -/
theorem get_le (t : Table) (key : Bytes) : pageVisits env (t.get key) ≤ searchBound t.primary + 1 := by
  refine bind_le_of_zero env (liftM_eq env _) fun _ _ => bind_le env (find_le env t.primary key) fun found _ => ?_
  split
  · simp
  · refine bind_le_of_zero env (liftM_eq env _) fun entry _ => bind_le_left env ?_ fun value _ => ?_
    · unfold resolveValue
      split
      · simp
      · exact blob_le env _
    · exact Nat.le_zero.mp (bind_le_of_zero env (liftM_eq env _) fun _ _ => by simp)

theorem containsKey_le (t : Table) (key : Bytes) : pageVisits env (t.containsKey key) ≤ searchBound t.primary :=
  bind_le_of_zero env (liftM_eq env _) fun _ _ => bind_le_left env (find_le env t.primary key) fun _ _ => by simp

/-- An index cursor adds the page its reference points at. -/
theorem indexAdvance_le (c : IndexCursor) :
    pageVisits env c.advance ≤ moveBound c.cursor.tree c.cursor.pageStepsLeft + 1 + 1 := by
  refine bind_le_left env (bind_le env (advance_le env c.cursor) fun moved _ => ?_) fun moved _ => ?_
  · dsimp only
    split
    · simp
    · simp
    · split
      · simp
      · refine bind_le_of_zero env ?_ fun key _ => ?_
        · rw [attempt_eq, charge_eq]
        · split
          · simp
          · refine bind_le_left env ?_ fun value _ => ?_
            · rw [attempt_eq]
              refine bind_le_left env (page_eq env _).le fun pin _ => ?_
              exact Nat.le_zero.mp (bind_le_of_zero env (liftM_eq env _) fun _ _ => by simp)
            · split <;> rfl
  · split
    split <;> rfl

end Visits

end DryDb
