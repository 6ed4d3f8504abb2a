import Mathlib
import Facet.Lib.MeetSystem

/-!
# Variance

Variance forms a lattice with four elements: bivariant on top, covariant and
contravariant below it, invariant at the bottom. `combine` is its meet. The
positions of dependencies form a commutative monoid that acts on it.
-/

namespace Facet

/-- Variance of a type with respect to its lifetime parameters. -/
inductive Variance
  | bivariant
  | covariant
  | contravariant
  | invariant
  deriving DecidableEq, Repr

/-- Position of a type dependency in variance computation. -/
inductive VariancePosition
  | covariant
  | contravariant
  | invariant
  deriving DecidableEq, Repr

structure VarianceDep (ι : Type) where
  position : VariancePosition
  shape : ι

/-- Declarative description of a type's variance. -/
structure VarianceDesc (ι : Type) where
  base : Variance
  deps : List (VarianceDep ι)

/-- No lifetime parameters and no dependencies (the source's `BIVARIANT`). -/
def VarianceDesc.bivariant {ι : Type} : VarianceDesc ι := ⟨.bivariant, []⟩

namespace Variance

def combine : Variance → Variance → Variance
  | bivariant, x => x
  | x, bivariant => x
  | covariant, covariant => covariant
  | contravariant, contravariant => contravariant
  | invariant, _ => invariant
  | _, invariant => invariant
  | covariant, contravariant => invariant
  | contravariant, covariant => invariant

def flip : Variance → Variance
  | bivariant => bivariant
  | covariant => contravariant
  | contravariant => covariant
  | invariant => invariant

/-- Lifetimes can be safely shrunk. -/
def canShrink : Variance → Bool
  | covariant | bivariant => true
  | _ => false

/-- Lifetimes can be safely grown. -/
def canGrow : Variance → Bool
  | contravariant | bivariant => true
  | _ => false

/-- The variance of a dependency as seen from its position. -/
def transform : VariancePosition → Variance → Variance
  | .covariant, v => v
  | .contravariant, v => v.flip
  | .invariant, bivariant => bivariant
  | .invariant, _ => invariant

/-- The least upper bound, used only to state that variances form a lattice. -/
def join : Variance → Variance → Variance
  | invariant, x => x
  | x, invariant => x
  | covariant, covariant => covariant
  | contravariant, contravariant => contravariant
  | _, _ => bivariant

instance : Fintype Variance :=
  ⟨{bivariant, covariant, contravariant, invariant}, by intro v; cases v <;> decide⟩

/-- Smaller is more constraining. -/
instance : LE Variance := ⟨fun v w => v.combine w = v⟩

instance : DecidableLE Variance := fun v w => inferInstanceAs (Decidable (v.combine w = v))

instance : Lattice Variance where
  inf := combine
  sup := join
  le_refl := by decide
  le_trans := by decide
  le_antisymm := by decide
  inf_le_left := by decide
  inf_le_right := by decide
  le_inf := by decide
  le_sup_left := by decide
  le_sup_right := by decide
  sup_le := by decide

instance : BoundedOrder Variance where
  top := bivariant
  le_top := by decide
  bot := invariant
  bot_le := by decide

noncomputable instance : CompleteLattice Variance := Fintype.toCompleteLattice Variance

theorem canShrink_iff (v : Variance) : v.canShrink ↔ covariant ≤ v := by
  revert v; decide

theorem canGrow_iff (v : Variance) : v.canGrow ↔ contravariant ≤ v := by
  revert v; decide

theorem canShrink_mono {v w : Variance} (h : v ≤ w) (hv : v.canShrink) : w.canShrink := by
  rw [canShrink_iff] at hv ⊢
  exact hv.trans h

theorem canGrow_mono {v w : Variance} (h : v ≤ w) (hv : v.canGrow) : w.canGrow := by
  rw [canGrow_iff] at hv ⊢
  exact hv.trans h

theorem eq_bot_iff_not_can (v : Variance) : v = ⊥ ↔ ¬ v.canShrink ∧ ¬ v.canGrow := by
  revert v; decide

end Variance

namespace VariancePosition

instance : Fintype VariancePosition :=
  ⟨{covariant, contravariant, invariant}, by intro p; cases p <;> decide⟩

/-- The position of a dependency inside a dependency. -/
def compose : VariancePosition → VariancePosition → VariancePosition
  | covariant, p => p
  | p, covariant => p
  | contravariant, contravariant => covariant
  | _, _ => invariant

instance : One VariancePosition := ⟨covariant⟩

instance : Mul VariancePosition := ⟨compose⟩

instance : CommMonoid VariancePosition where
  mul_assoc := by decide
  mul_comm := by decide
  one_mul := by decide
  mul_one := by decide

/-- Positions act on variances by the transformation of the source. -/
instance : SMul VariancePosition Variance := ⟨Variance.transform⟩

instance : MulAction VariancePosition Variance where
  one_smul := by decide
  mul_smul := by decide

/-- The lower adjoint of `Variance.transform`. -/
def lower : VariancePosition → Variance → Variance
  | covariant, v => v
  | contravariant, v => v.flip
  | invariant, .invariant => .invariant
  | invariant, _ => .bivariant

theorem lower_le_iff : ∀ (p : VariancePosition) (v w : Variance),
    lower p v ≤ w ↔ v ≤ p • w := by decide

noncomputable instance : MeetAction VariancePosition Variance where
  lower := lower
  gc p v w := lower_le_iff p v w

@[simp] theorem smul_invariant : ∀ p : VariancePosition, p • Variance.invariant = .invariant := by
  decide

/-- A constraint seen from a twisted position and from the plain one leaves nothing. -/
theorem clash : ∀ (m p : VariancePosition) (v : Variance),
    m ≠ 1 → v ≠ ⊤ → p • v ⊓ (m * p) • v = ⊥ := by decide

end VariancePosition

end Facet
