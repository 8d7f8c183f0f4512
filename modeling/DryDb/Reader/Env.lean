import DryDb.Model.Db
/-!
# What a query depends on

The answers of the store while a query runs are arbitrary except for what the store
promises: a cached page is the page the file holds, a page carries a tree's mark only
after that tree's check passed on it, a retained root is the checked root page
(`Env.Honest`). Under that promise every page a tree touches is `Tree.fetch`, a
function of the page answers alone, so nothing depends on the cache or the marks.
-/

namespace DryDb

open Program

/-- The check a tree makes of a page, whether or not it has made it before. -/
def Tree.admit (t : Tree) (pin : PagePin) : Result Unit :=
  if t.validateDigests then (t.checkDigests pin.view).mapError fun e => e.atPage pin.ordinal else .ok ()

/-- A page of the tree: loaded and checked. -/
def Tree.fetch (t : Tree) (env : Env) (ordinal : Nat) : Result PagePin := do
  let pin ← env (.page ordinal)
  t.admit pin
  .ok pin

/-- What the store promises the tree `t`. -/
structure Env.Honest (env : Env) (t : Tree) : Prop where
  /-- A page answers to the ordinal it was asked by. -/
  ordinal : ∀ o pin, env (.page o) = .ok pin → pin.ordinal = o
  /-- A cached page is the page a load returns. -/
  cached : ∀ o pin, env (.pageCached o) = some pin → env (.page o) = .ok pin
  /-- A retained root is the tree's checked root page. -/
  retained : ∀ pin, env (.retainedRoot t.id) = some pin → ∃ root, t.root = some root ∧ t.fetch env root = .ok pin
  /-- A mark of this tree stands only on pages its check passed on. -/
  checked : ∀ pin, env (.digestsCheckedBy t.id pin) = true → t.checkDigests pin.view = .ok ()

/-- The page answers come from the file of `store`. -/
def Env.Reads (env : Env) (store : PageStore) : Prop := ∀ o, env (.page o) = store.page o

/-- The memory budget refuses nothing. -/
def Env.Unrefused (env : Env) : Prop := ∀ n, env (.reserve n) = .ok ()

variable {pin : PagePin}

theorem PageStore.page_ordinal {s : PageStore} {o : Nat} (h : s.page o = .ok pin) :
    pin.ordinal = o := by
  unfold PageStore.page at h
  rw [mapError_eq_ok] at h
  unfold PageStore.load at h
  simp only [bind_eq_ok, guard_eq_ok] at h
  obtain ⟨_, _, _, _, _, _, _, _, _, _, _, _, _, _, _, _, _, _, _, h⟩ := h
  exact (PagePin.new_eq_ok.mp h).1

theorem Tree.fetch_eq_ok {t : Tree} {env : Env} {o : Nat} :
    t.fetch env o = .ok pin ↔ env (.page o) = .ok pin ∧ t.admit pin = .ok () := by
  unfold Tree.fetch
  rw [bind_eq_ok]
  constructor
  · rintro ⟨p, hp, h⟩
    obtain ⟨u, hu, hpin⟩ := bind_eq_ok.mp h
    cases hpin
    exact ⟨hp, hu⟩
  · rintro ⟨hp, hu⟩
    exact ⟨pin, hp, by rw [hu]; rfl⟩

theorem Tree.admit_eq_ok {t : Tree} :
    t.admit pin = .ok () ↔ (t.validateDigests = true → t.checkDigests pin.view = .ok ()) := by
  unfold Tree.admit
  cases t.validateDigests <;> simp [mapError_eq_ok]

section
variable {env : Env} {t : Tree} {pin : PagePin}

theorem Env.Honest.run_checkPage (h : env.Honest t) (pin : PagePin) : (t.checkPage pin).run env = t.admit pin := by
  unfold Tree.checkPage Tree.admit
  cases t.validateDigests with
  | false => simp
  | true =>
    cases hm : env (.digestsCheckedBy t.id pin) with
    | true => simp [hm, h.checked pin hm]
    | false =>
      simp [hm]
      cases (t.checkDigests pin.view).mapError _ <;> rfl

theorem Env.Honest.run_treePage (h : env.Honest t) (o : Nat) : (t.treePage o).run env = t.fetch env o := by
  unfold Tree.treePage Tree.fetch
  simp [h.run_checkPage]

theorem Env.Honest.fetch_ordinal (h : env.Honest t) {o : Nat} (hp : t.fetch env o = .ok pin) :
    pin.ordinal = o :=
  h.ordinal o pin (Tree.fetch_eq_ok.mp hp).1

/-- The root page is the checked page at the root ordinal, retained or not. -/
theorem Env.Honest.run_rootPage (h : env.Honest t) :
    t.rootPage.run env = match t.root with
      | none => .ok none
      | some root => some <$> t.fetch env root := by
  unfold Tree.rootPage
  cases hr : t.root with
  | none => rfl
  | some root =>
    simp only [run_bind, Read.run_retainedRoot, ok_bind]
    cases hk : env (.retainedRoot t.id) with
    | some pin =>
      obtain ⟨root', hroot, hp⟩ := h.retained pin hk
      rw [hr] at hroot
      cases hroot
      simp [hp]
    | none =>
      simp only [run_bind, h.run_treePage, Read.run_retainRoot, ok_bind, run_pure]
      cases t.fetch env root <;> rfl

/-- The page of a downward loop is the checked page at its ordinal, also when the loop
was handed the root it starts with. -/
theorem Env.Honest.run_currentPage (h : env.Honest t) {o : Nat} {current : Option PagePin}
    (hc : ∀ pin, current = some pin → t.fetch env o = .ok pin) :
    (t.currentPage o current).run env = t.fetch env o := by
  unfold Tree.currentPage
  cases current with
  | none => exact h.run_treePage o
  | some pin => simp [hc pin rfl]

theorem Env.Honest.run_leafPage (h : env.Honest t) (o : Nat) :
    (t.leafPage o).run env = (t.fetch env o >>= fun pin =>
      if pin.view.kind ≠ .leaf then
        .error ((Error.corrupt "leaf sibling chain points at an internal page").atPage o)
      else .ok pin) := by
  unfold Tree.leafPage
  simp only [run_bind, h.run_treePage, run_ite, run_fail, run_pure]

/-- A step along the chain succeeds exactly on a checked leaf that points back. -/
theorem Env.Honest.stepSibling_eq_ok (h : env.Honest t) {source target : Nat} {ascending : Bool} :
    (t.stepSibling source target ascending).run env = .ok pin ↔
      t.fetch env target = .ok pin ∧ pin.view.kind = .leaf ∧
        (if ascending then pin.view.leftSibling else pin.view.rightSibling) = some source := by
  unfold Tree.stepSibling
  simp only [run_bind, h.run_leafPage, run_ite, run_fail, run_pure, bind_eq_ok,
    guard_eq_ok, Except.ok.injEq]
  constructor
  · rintro ⟨p, ⟨q, hq, hk, rfl⟩, hb, rfl⟩
    exact ⟨hq, by simpa using hk, by simpa using hb⟩
  · rintro ⟨hq, hk, hb⟩
    exact ⟨pin, ⟨pin, hq, by simpa using hk, rfl⟩, by simpa using hb, rfl⟩

end

end DryDb
