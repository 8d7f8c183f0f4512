import Mathlib
/-!
# Lists

What the development needs of lists beyond the library: members of related lists, the two
sides of a zip, and a sum with one number changed.
-/

namespace DryDb

variable {α β : Type}

theorem exists_of_mem_left {R : α → β → Prop} {l : List α} {m : List β} (h : List.Forall₂ R l m) {a : α}
    (ha : a ∈ l) : ∃ b ∈ m, R a b := by
  induction h with
  | nil => simp at ha
  | cons hr _ ih =>
    rcases List.mem_cons.1 ha with rfl | ha
    · exact ⟨_, List.mem_cons_self, hr⟩
    · obtain ⟨b, hb, hr⟩ := ih ha
      exact ⟨b, List.mem_cons_of_mem _ hb, hr⟩

theorem exists_forall₂ {R : α → β → Prop} {l : List α} (h : ∀ a ∈ l, ∃ b, R a b) : ∃ m, List.Forall₂ R l m := by
  induction l with
  | nil => exact ⟨[], .nil⟩
  | cons a l ih =>
    obtain ⟨b, hb⟩ := h a List.mem_cons_self
    obtain ⟨m, hm⟩ := ih fun x hx => h x (List.mem_cons_of_mem a hx)
    exact ⟨b :: m, .cons hb hm⟩

/-- What is related to a list of groups one after another falls into groups itself. -/
theorem forall₂_groups {γ : Type} {R : α → β → Prop} {f : γ → List α} {ws : List γ} {bs : List β}
    (h : List.Forall₂ R (ws.flatMap f) bs) :
    ∃ groups, List.Forall₂ (fun w g => List.Forall₂ R (f w) g) ws groups ∧ groups.flatten = bs := by
  induction ws generalizing bs with
  | nil =>
    obtain rfl : bs = [] := by simpa using h
    exact ⟨[], .nil, rfl⟩
  | cons w ws ih =>
    rw [List.flatMap_cons] at h
    have hfirst := List.forall₂_take (f w).length h
    have hrest := List.forall₂_drop (f w).length h
    rw [List.take_left] at hfirst
    rw [List.drop_left] at hrest
    obtain ⟨groups, hgroups, hflat⟩ := ih hrest
    exact ⟨bs.take (f w).length :: groups, .cons hfirst hgroups, by rw [List.flatten_cons, hflat, List.take_append_drop]⟩

theorem zip_append_left (a b : List α) (l : List β) :
    (a ++ b).zip l = a.zip l ++ b.zip (l.drop a.length) := by
  induction a generalizing l with
  | nil => rfl
  | cons x a ih =>
    cases l with
    | nil => simp
    | cons y l => simp [ih]

theorem map_fst_zip_take (a : List α) (l : List β) : (a.zip l).map Prod.fst = a.take l.length := by
  induction a generalizing l with
  | nil => simp
  | cons x a ih =>
    cases l with
    | nil => rfl
    | cons y l => simp [ih]

theorem sum_set {l : List Nat} {i x : Nat} (h : l[i]? = some x) (y : Nat) : (l.set i y).sum + x = l.sum + y := by
  induction l generalizing i with
  | nil => cases h
  | cons a l ih =>
    cases i with
    | zero =>
      cases h
      simp only [List.set_cons_zero, List.sum_cons]
      omega
    | succ i =>
      have := ih (i := i) h
      simp only [List.set_cons_succ, List.sum_cons]
      omega

end DryDb
