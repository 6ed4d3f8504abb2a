import Mathlib.Algebra.Group.Basic
import Mathlib.Data.Set.Insert
import Mathlib.Tactic

/-!
# Walks and chains in a labelled graph

Edges carry labels from a monoid and a walk carries the product of its labels.
A chain is a walk through pairwise distinct vertices that also stays away from a
given set, which is the shape of the recursion of a depth-first search. The main
result erases the loops of a walk: unless some loop changes the label, every walk
has the label of a chain with the same ends.
-/

namespace LabelledGraph

variable {ι M : Type*} [Monoid M] (E : ι → List (M × ι))

/-- `Walk E i p k`: a walk from `i` to `k` whose labels multiply to `p`. -/
inductive Walk : ι → M → ι → Prop
  | nil (i : ι) : Walk i 1 i
  | cons {i j k : ι} {m p : M} : (m, j) ∈ E i → Walk j p k → Walk i (m * p) k

/-- A walk through `n` distinct vertices, none of which lies in the avoided set. -/
inductive Chain : Set ι → ι → M → ι → ℕ → Prop
  | nil {A : Set ι} {i : ι} : i ∉ A → Chain A i 1 i 1
  | cons {A : Set ι} {i j k : ι} {m p : M} {n : ℕ} :
      i ∉ A → (m, j) ∈ E i → Chain (insert i A) j p k n → Chain A i (m * p) k (n + 1)

variable {E}

theorem Walk.single {i j : ι} {m : M} (h : (m, j) ∈ E i) : Walk E i m j := by
  simpa using Walk.cons h (Walk.nil j)

theorem Walk.trans {i j k : ι} {p q : M} (hp : Walk E i p j) (hq : Walk E j q k) :
    Walk E i (p * q) k := by
  induction hp with
  | nil i => simpa using hq
  | cons he _ ih =>
    rw [mul_assoc]
    exact Walk.cons he (ih hq)

theorem Chain.walk {A : Set ι} {i k : ι} {p : M} {n : ℕ} (h : Chain E A i p k n) :
    Walk E i p k := by
  induction h with
  | nil _ => exact Walk.nil _
  | cons _ he _ ih => exact Walk.cons he ih

theorem Chain.start_notMem {A : Set ι} {i k : ι} {p : M} {n : ℕ}
    (h : Chain E A i p k n) : i ∉ A := by
  cases h with
  | nil hi => exact hi
  | cons hi _ _ => exact hi

theorem Chain.mono {A B : Set ι} {i k : ι} {p : M} {n : ℕ} (h : Chain E A i p k n)
    (hBA : B ⊆ A) : Chain E B i p k n := by
  induction h generalizing B with
  | nil hi => exact Chain.nil (fun hB => hi (hBA hB))
  | cons hi he _ ih =>
    exact Chain.cons (fun hB => hi (hBA hB)) he (ih (Set.insert_subset_insert hBA))

/-- A chain either stays away from `v` altogether or splits at its visit of `v`. -/
theorem Chain.avoid_or_split (v : ι) {A : Set ι} {i k : ι} {p : M} {n : ℕ}
    (h : Chain E A i p k n) :
    Chain E (insert v A) i p k n ∨
      ∃ q r l, Walk E i q v ∧ Chain E A v r k l ∧ p = q * r := by
  induction h with
  | @nil A i hi =>
    by_cases hv : i = v
    · subst hv
      exact .inr ⟨1, 1, 1, Walk.nil _, Chain.nil hi, by simp⟩
    · exact .inl (Chain.nil (by simp [hv, hi]))
  | @cons A i j k m p n hi he hc ih =>
    by_cases hv : i = v
    · subst hv
      exact .inr ⟨1, m * p, n + 1, Walk.nil _, Chain.cons hi he hc, by simp⟩
    · rcases ih with hc' | ⟨q, r, l, hw, hr, rfl⟩
      · refine .inl (Chain.cons (by simp [hv, hi]) he ?_)
        rwa [Set.insert_comm]
      · exact .inr ⟨m * q, r, l, Walk.cons he hw, hr.mono (Set.subset_insert _ _),
          (mul_assoc _ _ _).symm⟩

variable (E) in
/-- Some loop reachable from `i` carries a label other than `1` and leads on to a
vertex in `P`. -/
def Twisted (P : ι → Prop) (i : ι) : Prop :=
  ∃ j k p m q, Walk E i p j ∧ Walk E j m j ∧ m ≠ 1 ∧ Walk E j q k ∧ P k

theorem Twisted.of_edge {P : ι → Prop} {i j : ι} {m : M} (he : (m, j) ∈ E i)
    (h : Twisted E P j) : Twisted E P i := by
  obtain ⟨l, k, p, c, q, hp, hc, hne, hq, hk⟩ := h
  exact ⟨l, k, m * p, c, q, Walk.cons he hp, hc, hne, hq, hk⟩

/-- Loop erasure: without a twisted loop, a walk has the label of a chain. -/
theorem Walk.exists_chain {P : ι → Prop} {i k : ι} {p : M} (h : Walk E i p k) (hk : P k)
    (hi : ¬ Twisted E P i) : ∃ n, Chain E ∅ i p k n := by
  induction h with
  | nil i => exact ⟨1, Chain.nil (Set.notMem_empty i)⟩
  | @cons i j k m p he hw ih =>
    obtain ⟨n, hc⟩ := ih hk (fun ht => hi (ht.of_edge he))
    rcases hc.avoid_or_split i with hc' | ⟨q, r, l, hq, hr, rfl⟩
    · exact ⟨n + 1, Chain.cons (Set.notMem_empty i) he hc'⟩
    · -- the walk comes back to `i`, and that loop must carry the label `1`
      have hloop : m * q = 1 := by
        by_contra hne
        exact hi ⟨i, k, 1, m * q, r, Walk.nil i, Walk.cons he hq, hne, hr.walk, hk⟩
      refine ⟨l, ?_⟩
      rwa [← mul_assoc, hloop, one_mul]

end LabelledGraph
