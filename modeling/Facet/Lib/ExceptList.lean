import Mathlib.Data.List.Forall2

/-!
# Lists traversed with errors

Running a fallible step over a list either gives all the results, in order, or the error of
one of the steps.
-/

namespace ExceptList

universe u

variable {ε α β : Type*}

theorem forall₂_of_mapM_ok {f : α → Except ε β} {xs : List α} {ys : List β}
    (h : xs.mapM f = .ok ys) : List.Forall₂ (fun x y => f x = .ok y) xs ys := by
  induction xs generalizing ys with
  | nil =>
    cases h
    exact .nil
  | cons x xs ih =>
    rw [List.mapM_cons] at h
    cases hx : f x with
    | error e => simp [hx, bind, Except.bind] at h
    | ok y =>
      cases hxs : xs.mapM f with
      | error e => simp [hx, hxs, bind, Except.bind] at h
      | ok zs =>
        simp only [hx, hxs, bind, Except.bind, pure, Except.pure, Except.ok.injEq] at h
        subst h
        exact .cons hx (ih hxs)

theorem exists_of_mapM_error {f : α → Except ε β} {xs : List α} {e : ε}
    (h : xs.mapM f = .error e) : ∃ x ∈ xs, f x = .error e := by
  induction xs with
  | nil => cases h
  | cons x xs ih =>
    rw [List.mapM_cons] at h
    cases hx : f x with
    | error e' =>
      simp only [hx, bind, Except.bind, Except.error.injEq] at h
      exact ⟨x, List.mem_cons_self, h ▸ hx⟩
    | ok y =>
      cases hxs : xs.mapM f with
      | error e' =>
        simp only [hx, hxs, bind, Except.bind, Except.error.injEq] at h
        obtain ⟨z, hz, hez⟩ := ih (h ▸ hxs)
        exact ⟨z, List.mem_cons_of_mem x hz, hez⟩
      | ok zs => simp [hx, hxs, bind, Except.bind, pure, Except.pure] at h

/-- The results are exactly what the step gives for the members. -/
theorem mem_iff_of_mapM_ok {f : α → Except ε β} {xs : List α} {ys : List β}
    (h : xs.mapM f = .ok ys) (y : β) : y ∈ ys ↔ ∃ x ∈ xs, f x = .ok y := by
  have hall := forall₂_of_mapM_ok h
  clear h
  induction hall with
  | nil => simp
  | @cons x y' xs ys hx _ ih =>
    simp only [List.mem_cons, ih, exists_eq_or_imp, hx, Except.ok.injEq, @eq_comm _ y' y]

/-- A step that succeeds on every member has been carried out on each of them. -/
theorem exists_ok_of_mapM_ok {f : α → Except ε β} {xs : List α} {ys : List β}
    (h : xs.mapM f = .ok ys) {x : α} (hx : x ∈ xs) : ∃ y ∈ ys, f x = .ok y := by
  have hall := forall₂_of_mapM_ok h
  clear h
  induction hall with
  | nil => simp at hx
  | @cons x' y xs ys hxy _ ih =>
    rcases List.mem_cons.mp hx with rfl | hx
    · exact ⟨y, List.mem_cons_self, hxy⟩
    · obtain ⟨z, hz, hxz⟩ := ih hx
      exact ⟨z, List.mem_cons_of_mem y hz, hxz⟩

/-- A sequence of two steps that succeeds has succeeded twice. -/
theorem exists_of_bind_ok {σ τ : Type u} {x : Except ε σ} {f : σ → Except ε τ} {y : τ}
    (h : x >>= f = .ok y) : ∃ a, x = .ok a ∧ f a = .ok y := by
  cases x with
  | error e => cases h
  | ok a => exact ⟨a, rfl, h⟩

theorem exists_of_map_ok {σ τ : Type u} {x : Except ε σ} {f : σ → τ} {y : τ} (h : x.map f = .ok y) :
    ∃ a, x = .ok a ∧ f a = y := by
  cases x with
  | error e => cases h
  | ok a =>
    cases h
    exact ⟨a, rfl, rfl⟩

theorem exists_of_any {x : Except ε α} {p : α → Bool} (h : x.toOption.any p) :
    ∃ a, x = .ok a ∧ p a := by
  cases x with
  | error e => cases h
  | ok a => exact ⟨a, rfl, h⟩

end ExceptList
