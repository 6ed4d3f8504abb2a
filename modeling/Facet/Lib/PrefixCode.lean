import Mathlib.Data.List.Forall2

/-!
# Words that tell where they end

Two words decide a statement when a stream that begins with the one begins with the other only
where the statement holds, and then they are the same word. Words put together from such words
decide the statements of their parts, so that a stream of them can be read in one way only.
-/

namespace PrefixCode

universe u

variable {α β γ : Type u} {u u' v v' w w' : List α} {P Q : Prop}

/-- The words begin a common stream only where `P` holds, and are the same word there. -/
structure Decides (w w' : List α) (P : Prop) : Prop where
  same : P → w = w'
  split : ∀ r s, w ++ r = w' ++ s → P ∧ r = s

namespace Decides

theorem nil : Decides ([] : List α) [] True := ⟨fun _ => rfl, fun _ _ h => ⟨trivial, h⟩⟩

theorem single (a b : α) : Decides [a] [b] (a = b) := by
  constructor
  · exact fun h => by rw [h]
  · intro r s h
    exact List.cons_eq_cons.mp h

theorem congr (h : Decides w w' P) (hPQ : P ↔ Q) : Decides w w' Q := by
  constructor
  · exact fun hQ => h.same (hPQ.mpr hQ)
  · intro r s hrs
    obtain ⟨hP, hr⟩ := h.split r s hrs
    exact ⟨hPQ.mp hP, hr⟩

/-- The second words are read only where the first ones agree. -/
theorem append (h : Decides u u' P) (h' : P → Decides v v' Q) :
    Decides (u ++ v) (u' ++ v') (P ∧ Q) := by
  constructor
  · intro ⟨hP, hQ⟩
    rw [h.same hP, (h' hP).same hQ]
  · intro r s hrs
    rw [List.append_assoc, List.append_assoc] at hrs
    obtain ⟨hP, hvs⟩ := h.split _ _ hrs
    obtain ⟨hQ, hr⟩ := (h' hP).split r s hvs
    exact ⟨⟨hP, hQ⟩, hr⟩

theorem cons {a b : α} (h : a = b → Decides v v' Q) :
    Decides (a :: v) (b :: v') (a = b ∧ Q) :=
  (single a b).append h

theorem of_ne {a b : α} (h : a ≠ b) : Decides (a :: v) (b :: v') False := by
  constructor
  · exact False.elim
  · exact fun r s hrs => absurd (List.cons_eq_cons.mp hrs).1 h

theorem eq_iff (h : Decides w w' P) : w = w' ↔ P := by
  constructor
  · exact fun hw => (h.split [] [] (by rw [hw])).1
  · exact h.same

/-- None of the two words is a proper beginning of the other. -/
theorem begins_iff (h : Decides w w' P) : w <+: w' ↔ P := by
  constructor
  · intro ⟨r, hr⟩
    exact (h.split r [] (by rw [hr, List.append_nil])).1
  · exact fun hP => h.same hP ▸ List.prefix_rfl

theorem symm (h : Decides w w' P) : Decides w' w P := by
  constructor
  · exact fun hP => (h.same hP).symm
  · intro r s hrs
    obtain ⟨hP, hr⟩ := h.split s r hrs.symm
    exact ⟨hP, hr.symm⟩

theorem flatten {C D : β → List α → Prop} {R : β → Prop} {xs : List β} {ws ws' : List (List α)}
    (hws : List.Forall₂ C xs ws) (hws' : List.Forall₂ D xs ws')
    (h : ∀ x w w', C x w → D x w' → Decides w w' (R x)) :
    Decides ws.flatten ws'.flatten (∀ x ∈ xs, R x) := by
  induction hws generalizing ws' with
  | nil =>
    cases hws'
    exact nil.congr (by simp)
  | cons hx _ ih =>
    cases hws' with
    | cons hx' hxs' =>
      rw [List.flatten_cons, List.flatten_cons]
      apply ((h _ _ _ hx hx').append fun _ => ih hxs').congr
      rw [List.forall_mem_cons]

theorem flatten_forall₂ {C : β → List α → Prop} {D : γ → List α → Prop} {R : β → γ → Prop}
    {xs : List β} {ys : List γ} {ws ws' : List (List α)} (hws : List.Forall₂ C xs ws)
    (hws' : List.Forall₂ D ys ws') (hlen : xs.length = ys.length)
    (h : ∀ x y w w', C x w → D y w' → Decides w w' (R x y)) :
    Decides ws.flatten ws'.flatten (List.Forall₂ R xs ys) := by
  induction hws generalizing ys ws' with
  | nil =>
    cases ys with
    | nil =>
      cases hws'
      exact nil.congr (by simp)
    | cons y ys => cases hlen
  | cons hx _ ih =>
    cases hws' with
    | nil => cases hlen
    | cons hy hys' =>
      rw [List.flatten_cons, List.flatten_cons]
      apply ((h _ _ _ _ hx hy).append fun _ => ih hys' (Nat.succ.inj hlen)).congr
      rw [List.forall₂_cons]

theorem counted {count : ℕ → α} (hcount : Function.Injective count)
    {C : β → List α → Prop} {D : γ → List α → Prop} {R : β → γ → Prop}
    {xs : List β} {ys : List γ} {ws ws' : List (List α)} (hws : List.Forall₂ C xs ws)
    (hws' : List.Forall₂ D ys ws') (h : ∀ x y w w', C x w → D y w' → Decides w w' (R x y)) :
    Decides (count xs.length :: ws.flatten) (count ys.length :: ws'.flatten)
      (List.Forall₂ R xs ys) := by
  apply (cons fun hlen => flatten_forall₂ hws hws' (hcount hlen) h).congr
  constructor
  · exact fun hR => hR.2
  · intro hR
    exact ⟨congrArg count hR.length_eq, hR⟩

end Decides

end PrefixCode
