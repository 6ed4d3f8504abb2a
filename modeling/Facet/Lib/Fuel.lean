/-!
# Running out of fuel

Computations that recurse with a bound fail with a distinguished error when the bound is too
small. A result without that error stays the same under any larger bound; what the steps of a
computation satisfy in this respect, their combinations do.
-/

namespace Fuel

variable {ε α β σ : Type} {out : ε}

/-- Unless the fuel ran out for the first result, the second one is the same. -/
def Stays (out : ε) (x y : Except ε α) : Prop := x ≠ .error out → y = x

theorem Stays.refl (x : Except ε α) : Stays out x x := fun _ => rfl

theorem Stays.exhausted (y : Except ε α) : Stays out (.error out) y := fun h => absurd rfl h

theorem Stays.trans {x y z : Except ε α} (h : Stays out x y) (h' : Stays out y z) :
    Stays out x z := by
  intro hx
  have hy := h hx
  rw [h' (hy ▸ hx), hy]

theorem Stays.bind {x y : Except ε α} {f g : α → Except ε β} (h : Stays out x y)
    (hfg : ∀ a, Stays out (f a) (g a)) : Stays out (x >>= f) (y >>= g) := by
  intro hne
  cases x with
  | error e =>
    have he : (.error e : Except ε α) ≠ .error out := by
      rintro heq
      cases heq
      exact hne rfl
    rw [h he]
    rfl
  | ok a =>
    rw [h fun heq => by cases heq]
    exact hfg a hne

theorem Stays.mapM {xs : List α} {f g : α → Except ε β} (h : ∀ x ∈ xs, Stays out (f x) (g x)) :
    Stays out (xs.mapM f) (xs.mapM g) := by
  induction xs with
  | nil => exact .refl _
  | cons x xs ih =>
    rw [List.mapM_cons, List.mapM_cons]
    apply (h x List.mem_cons_self).bind
    intro y
    apply (ih fun z hz => h z (List.mem_cons_of_mem x hz)).bind
    exact fun ys => .refl _

theorem Stays.foldlM {xs : List α} {f g : σ → α → Except ε σ}
    (h : ∀ x ∈ xs, ∀ s, Stays out (f s x) (g s x)) (s : σ) :
    Stays out (xs.foldlM f s) (xs.foldlM g s) := by
  induction xs generalizing s with
  | nil => exact .refl _
  | cons x xs ih =>
    rw [List.foldlM_cons, List.foldlM_cons]
    apply (h x List.mem_cons_self s).bind
    exact fun s' => ih (fun z hz => h z (List.mem_cons_of_mem x hz)) s'

/-- A computation whose result stays from each bound to the next keeps it from then on. -/
theorem Stays.of_le (run : Nat → Except ε α) (h : ∀ n, Stays out (run n) (run (n + 1))) {n m : Nat}
    (hle : n ≤ m) : Stays out (run n) (run m) := by
  induction hle with
  | refl => exact .refl _
  | step _ ih => exact ih.trans (h _)

/-- The fuel did not run out. -/
def Finished (out : ε) (x : Except ε α) : Prop := x ≠ .error out

theorem Finished.ok (a : α) : Finished out (.ok a : Except ε α) := fun h => by cases h

theorem Finished.bind {x : Except ε α} {f : α → Except ε β} (h : Finished out x)
    (hf : ∀ a, x = .ok a → Finished out (f a)) : Finished out (x >>= f) := by
  cases x with
  | error e =>
    intro heq
    cases heq
    exact h rfl
  | ok a => exact hf a rfl

/-- Of two steps the first is finished if both together are. -/
theorem Finished.of_bind {x : Except ε α} {f : α → Except ε β} (h : Finished out (x >>= f)) :
    Finished out x := by
  rintro rfl
  exact h rfl

theorem Finished.mapM {xs : List α} {f : α → Except ε β} (h : ∀ x ∈ xs, Finished out (f x)) :
    Finished out (xs.mapM f) := by
  induction xs with
  | nil => exact .ok []
  | cons x xs ih =>
    rw [List.mapM_cons]
    apply (h x List.mem_cons_self).bind
    intro y _
    apply (ih fun z hz => h z (List.mem_cons_of_mem x hz)).bind
    exact fun ys _ => .ok _

end Fuel
