import Mathlib.Data.List.Basic

/-!
# Guarded runs

Steps that can fail with an error of two sorts: errors that are allowed, which end the run, and
the others, which must not happen. A relation between two systems that every guarded step keeps
is kept by every guarded run.
-/

namespace GuardedRun

universe u v

variable {ε : Type v} {α β : Type u} {allowed : ε → Prop} {P Q : α → Prop}

/-- A result satisfies `P`, or the error is an allowed one. -/
def Ensures (allowed : ε → Prop) (P : α → Prop) : Except ε α → Prop
  | .ok a => P a
  | .error e => allowed e

@[simp]
theorem ensures_ok {a : α} : Ensures allowed P (.ok a) ↔ P a := Iff.rfl

@[simp]
theorem ensures_error {e : ε} : Ensures allowed P (.error e : Except ε α) ↔ allowed e := Iff.rfl

theorem Ensures.mono {x : Except ε α} (h : Ensures allowed P x) (hPQ : ∀ a, P a → Q a) :
    Ensures allowed Q x := by
  cases x with
  | ok a => exact hPQ a h
  | error e => exact h

theorem Ensures.bind {x : Except ε α} {f : α → Except ε β} {R : β → Prop}
    (h : Ensures allowed P x) (hf : ∀ a, P a → Ensures allowed R (f a)) :
    Ensures allowed R (x >>= f) := by
  cases x with
  | ok a => exact hf a h
  | error e => exact h

theorem Ensures.map {x : Except ε α} {f : α → β} {R : β → Prop} (h : Ensures allowed P x)
    (hf : ∀ a, P a → R (f a)) : Ensures allowed R (f <$> x) := by
  cases x with
  | ok a => exact hf a h
  | error e => exact h

theorem Ensures.and_eq {x : Except ε α} (h : Ensures allowed P x) :
    Ensures allowed (fun a => P a ∧ x = .ok a) x := by
  cases x with
  | ok a => exact ⟨h, rfl⟩
  | error e => exact h

/-- A fallible step over a list is matched element by element. -/
theorem ensures_mapM {γ : Type u} {f : γ → Except ε β} {R : γ → β → Prop} {xs : List γ}
    (h : ∀ x ∈ xs, Ensures allowed (R x) (f x)) :
    Ensures allowed (List.Forall₂ R xs) (xs.mapM f) := by
  induction xs with
  | nil => exact .nil
  | cons x xs ih =>
    rw [List.mapM_cons]
    apply (h x (List.mem_cons_self ..)).bind
    intro y hy
    apply (ih fun z hz => h z (List.mem_cons_of_mem _ hz)).bind
    intro ys hys
    exact .cons hy hys

section Runs

variable {σ τ : Type u} {ι : Type*} (step : σ → ι → Except ε σ)

/-- Every step of a run is permitted in the state it meets. -/
def Guarded (guard : σ → ι → Prop) : σ → List ι → Prop
  | _, [] => True
  | s, a :: as => guard s a ∧ ∀ s', step s a = .ok s' → Guarded guard s' as

variable {step} {guard : σ → ι → Prop}

theorem Guarded.cons {s s' : σ} {a : ι} {as : List ι} (ha : guard s a) (hs : step s a = .ok s')
    (has : Guarded step guard s' as) : Guarded step guard s (a :: as) := by
  refine ⟨ha, fun t ht => ?_⟩
  rw [hs] at ht
  cases ht
  exact has

variable {astep : τ → ι → Option τ} {R : σ → τ → Prop}

/-- What every guarded step matches, every guarded run matches. -/
theorem run_simulates
    (hstep : ∀ s t a, R s t → guard s a →
      Ensures allowed (fun s' => ∃ t', astep t a = some t' ∧ R s' t') (step s a))
    {s : σ} {t : τ} (h : R s t) {as : List ι} (hguard : Guarded step guard s as) :
    Ensures allowed (fun s' => ∃ t', as.foldlM astep t = some t' ∧ R s' t')
      (as.foldlM step s) := by
  induction as generalizing s t with
  | nil => exact ⟨t, rfl, h⟩
  | cons a as ih =>
    rw [List.foldlM_cons]
    apply (hstep s t a h hguard.1).and_eq.bind
    rintro s' ⟨⟨t', ht', hR⟩, hs'⟩
    apply (ih hR (hguard.2 s' hs')).mono
    rintro s'' ⟨t'', ht'', hR'⟩
    refine ⟨t'', ?_, hR'⟩
    rw [ht']
    exact ht''

end Runs

end GuardedRun
