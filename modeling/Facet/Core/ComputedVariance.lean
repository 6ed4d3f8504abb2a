import Facet.Core.Shape

/-!
# Computed variance

`Shape::computed_variance` walks a type depth first and counts a type that is already
being computed as bivariant. The variance descriptions state a system of meet
equations, and the walk is compared with its greatest solution. Cutting a cycle is
right as long as the path around it is a covariant one; otherwise the type constrains
itself a second time in another position, which the walk does not see.
-/

namespace Facet

open LabelledGraph

variable {ι : Type}

/-- `MAX_VARIANCE_DEPTH`. -/
def maxVarianceDepth : ℕ := 32

/-- The accumulation loop with its early exit: `Invariant` dominates everything. -/
def combineAll : Variance → List Variance → Variance
  | v, [] => v
  | v, w :: ws => if v.combine w = .invariant then .invariant else combineAll (v.combine w) ws

/-- The shapes whose variances the fallback combines; the loops over the variants and
over their fields share one accumulator. -/
def Shape.walkedFields (shape : Shape ι) : List (Field ι) :=
  match shape.ty with
  | .user (.struct s) => s.fields
  | .user (.enum e) => e.variants.flatMap fun v => v.data.fields
  | _ => []

/-- `computed_variance_inner`, given the recursive call `impl`. -/
def computedVarianceInner (impl : ι → Variance) (shape : Shape ι) : Variance :=
  let desc := shape.variance
  if desc.base = .invariant ∧ desc.deps = [] then .invariant
  else if desc.deps ≠ [] then
    combineAll desc.base (desc.deps.map fun dep => (impl dep.shape).transform dep.position)
  else combineAll desc.base (shape.walkedFields.map fun f => impl f.shape)

variable [DecidableEq ι] (shapes : Shapes ι)

/-- `computed_variance_impl`, with `room` free slots left in the visited stack. -/
def computedVarianceImpl : ℕ → List ι → ι → Variance
  | room, visited, s =>
    if s ∈ visited then .bivariant
    else match room with
      | 0 => .invariant
      | room + 1 =>
        computedVarianceInner (computedVarianceImpl room (s :: visited)) (shapes s)

/-- `Shape::computed_variance`. -/
def computedVariance (s : ι) : Variance := computedVarianceImpl shapes maxVarianceDepth [] s

/-- The dependencies a shape's variance is stated in terms of: the declared ones, or
all fields in covariant position when none are declared. -/
def Shape.dependencies (shape : Shape ι) : List (VariancePosition × ι) :=
  if shape.variance.deps ≠ [] then shape.variance.deps.map fun dep => (dep.position, dep.shape)
  else shape.walkedFields.map fun f => (1, f.shape)

/-- The variance equations that the descriptions of a program's shapes state. -/
def varianceSystem : MeetSystem ι VariancePosition Variance where
  base s := (shapes s).variance.base
  edges s := (shapes s).dependencies

theorem combineAll_eq_foldl (v : Variance) (ws : List Variance) :
    combineAll v ws = ws.foldl (· ⊓ ·) v := by
  induction ws generalizing v with
  | nil => rfl
  | cons w ws ih =>
    rw [combineAll, ih, List.foldl_cons]
    split_ifs with h
    · have hbot : v ⊓ w = ⊥ := h
      rw [hbot]
      exact (MeetSystem.foldl_inf_bot ws).symm
    · rfl

omit [DecidableEq ι] in
theorem computedVarianceInner_eq (impl : ι → Variance) (s : ι) :
    computedVarianceInner impl (shapes s) =
      (((varianceSystem shapes).edges s).map fun e => e.1 • impl e.2).foldl (· ⊓ ·)
        ((varianceSystem shapes).base s) := by
  unfold computedVarianceInner
  simp only [combineAll_eq_foldl]
  split_ifs with hinv hdeps
  · have hbase : (varianceSystem shapes).base s = ⊥ := hinv.1
    rw [hbase]
    exact (MeetSystem.foldl_inf_bot _).symm
  · simp only [varianceSystem, Shape.dependencies, if_pos hdeps, List.map_map]
    rfl
  · simp only [varianceSystem, Shape.dependencies, if_neg hdeps, List.map_map]
    rfl

/-- The recursion of the source is the depth-first search of the equation system. -/
theorem computedVarianceImpl_eq_search (room : ℕ) (visited : List ι) (s : ι) :
    computedVarianceImpl shapes room visited s =
      (varianceSystem shapes).search room visited s := by
  induction room generalizing visited s with
  | zero => rw [computedVarianceImpl, MeetSystem.search]; rfl
  | succ room ih =>
    rw [computedVarianceImpl, MeetSystem.search, computedVarianceInner_eq]
    simp only [ih]
    rfl

/-- `s` depends on `k` at position `p`, directly or through other types. -/
def DependsOn (s : ι) (p : VariancePosition) (k : ι) : Prop :=
  Walk (varianceSystem shapes).edges s p k

/-- A dependency chain through `n` distinct types. -/
def DependencyChain (s : ι) (p : VariancePosition) (k : ι) (n : ℕ) : Prop :=
  Chain (varianceSystem shapes).edges ∅ s p k n

/-- What a caller of `computed_variance` relies on. -/
structure VarianceSound (s : ι) : Prop where
  le_solution : computedVariance shapes s ≤ (varianceSystem shapes).solution s
  eq_solution : (∀ p k n, DependencyChain shapes s p k n → n ≤ maxVarianceDepth) →
    computedVariance shapes s = (varianceSystem shapes).solution s
  shrink : (computedVariance shapes s).canShrink → ∀ p k, DependsOn shapes s p k →
    (p • (varianceSystem shapes).solution k).canShrink
  grow : (computedVariance shapes s).canGrow → ∀ p k, DependsOn shapes s p k →
    (p • (varianceSystem shapes).solution k).canGrow

/-- Some type reachable from `s` depends on itself at a position other than the
covariant one and, directly or not, on a type whose base is not bivariant. -/
def TwistedCycle (s : ι) : Prop :=
  Twisted (varianceSystem shapes).edges (fun k => (shapes k).variance.base ≠ .bivariant) s

/-- The chains of distinct types from `s` already leave no freedom: one is longer than
the depth limit, or one ends in a type that must not shrink there and one in a type
that must not grow there. -/
def ChainsForceInvariant (s : ι) : Prop :=
  (∃ p k n, DependencyChain shapes s p k n ∧ maxVarianceDepth < n) ∨
    (∃ p k n, DependencyChain shapes s p k n ∧ ¬ (p • (shapes k).variance.base).canShrink) ∧
      ∃ p k n, DependencyChain shapes s p k n ∧ ¬ (p • (shapes k).variance.base).canGrow

theorem le_computedVariance_iff (s : ι) (v : Variance) :
    v ≤ computedVariance shapes s ↔ ∀ k p n, DependencyChain shapes s p k n →
      v ≤ p • (if n ≤ maxVarianceDepth then (shapes k).variance.base else .invariant) := by
  have h := (varianceSystem shapes).le_search_iff maxVarianceDepth [] s v
  rw [computedVariance, computedVarianceImpl_eq_search, h]
  simp only [List.not_mem_nil]
  rfl

theorem canShrink_computedVariance_iff (s : ι) :
    (computedVariance shapes s).canShrink ↔ ∀ k p n, DependencyChain shapes s p k n →
      n ≤ maxVarianceDepth ∧ (p • (shapes k).variance.base).canShrink := by
  rw [Variance.canShrink_iff, le_computedVariance_iff]
  refine forall₄_congr fun k p n _ => ?_
  split_ifs with hn
  · simp [hn, Variance.canShrink_iff]
  · simp [hn, ← Variance.canShrink_iff, Variance.canShrink]

theorem canGrow_computedVariance_iff (s : ι) :
    (computedVariance shapes s).canGrow ↔ ∀ k p n, DependencyChain shapes s p k n →
      n ≤ maxVarianceDepth ∧ (p • (shapes k).variance.base).canGrow := by
  rw [Variance.canGrow_iff, le_computedVariance_iff]
  refine forall₄_congr fun k p n _ => ?_
  split_ifs with hn
  · simp [hn, Variance.canGrow_iff]
  · simp [hn, ← Variance.canGrow_iff, Variance.canGrow]

theorem computedVariance_eq_invariant_iff (s : ι) :
    computedVariance shapes s = .invariant ↔ ChainsForceInvariant shapes s := by
  have hbot := Variance.eq_bot_iff_not_can (computedVariance shapes s)
  rw [canShrink_computedVariance_iff, canGrow_computedVariance_iff] at hbot
  refine hbot.trans ⟨?_, ?_⟩
  · rintro ⟨hs, hg⟩
    push Not at hs hg
    obtain ⟨k, p, n, hc, hs⟩ := hs
    obtain ⟨l, q, m, hd, hg⟩ := hg
    by_cases hn : n ≤ maxVarianceDepth
    · by_cases hm : m ≤ maxVarianceDepth
      · exact .inr ⟨⟨p, k, n, hc, by simpa using hs hn⟩, q, l, m, hd, by simpa using hg hm⟩
      · exact .inl ⟨q, l, m, hd, not_le.mp hm⟩
    · exact .inl ⟨p, k, n, hc, not_le.mp hn⟩
  · rintro (⟨p, k, n, hc, hn⟩ | ⟨⟨p, k, n, hc, hs⟩, q, l, m, hd, hg⟩)
    · exact ⟨fun h => absurd (h k p n hc).1 (not_le.mpr hn),
        fun h => absurd (h k p n hc).1 (not_le.mpr hn)⟩
    · exact ⟨fun h => hs (h k p n hc).2, fun h => hg (h l q m hd).2⟩

/-- Everything a caller relies on follows from the answer being no less constraining
than the equations. -/
theorem VarianceSound.of_le {s : ι}
    (h : computedVariance shapes s ≤ (varianceSystem shapes).solution s) :
    VarianceSound shapes s := by
  have hdep : ∀ p k, DependsOn shapes s p k →
      computedVariance shapes s ≤ p • (varianceSystem shapes).solution k := by
    intro p k hd
    refine h.trans ?_
    rw [MeetAction.le_smul_iff, MeetSystem.le_solution_iff]
    intro l q hw
    rw [← MeetAction.le_smul_iff, smul_smul]
    exact (varianceSystem shapes).solution_le_walk (hd.trans hw)
  refine ⟨h, fun hdepth => le_antisymm h ?_, fun hs p k hd => ?_, fun hg p k hd => ?_⟩
  · rw [computedVariance, computedVarianceImpl_eq_search]
    exact (varianceSystem shapes).solution_le_search fun k p n hc => hdepth p k n hc
  · exact Variance.canShrink_mono (hdep p k hd) hs
  · exact Variance.canGrow_mono (hdep p k hd) hg

/-- The computed variance can be relied on exactly when no twisted cycle is cut or the
chains that are walked force the answer `Invariant` anyway. -/
theorem varianceSound_iff (s : ι) :
    VarianceSound shapes s ↔ ¬ TwistedCycle shapes s ∨ ChainsForceInvariant shapes s := by
  rw [← computedVariance_eq_invariant_iff]
  constructor
  · intro h
    by_cases ht : TwistedCycle shapes s
    · have hbot : (varianceSystem shapes).solution s = ⊥ :=
        (varianceSystem shapes).solution_eq_bot VariancePosition.clash ht
      exact .inr (le_bot_iff.mp (hbot ▸ h.le_solution))
    · exact .inl ht
  · rintro (ht | hinv)
    · refine VarianceSound.of_le shapes ?_
      rw [computedVariance, computedVarianceImpl_eq_search]
      exact (varianceSystem shapes).search_le_solution ht
    · exact VarianceSound.of_le shapes (hinv ▸ bot_le)

/-- `struct Node<'a> { name: &'a u8, visit: fn(Node<'a>) }` with its field types. -/
def nodeShapes : Shapes (Fin 5) := ![
  { ty := .user (.struct ⟨.struct, [{ name := "name", shape := 1 },
      { name := "visit", shape := 2 }]⟩)
    «def» := .undefined },
  { ty := .pointer (.reference 3)
    «def» := .pointer (some 3)
    variance := ⟨.covariant, [⟨.covariant, 3⟩]⟩ },
  { ty := .pointer .function
    «def» := .undefined
    variance := ⟨.bivariant, [⟨.contravariant, 0⟩, ⟨.covariant, 4⟩]⟩ },
  { ty := .primitive .numeric, «def» := .scalar },
  { ty := .user (.struct ⟨.tuple, []⟩), «def» := .undefined }]

/-- The walk answers that `Node` may shrink, although it occurs in its own function
argument. -/
theorem nodeShapes_not_varianceSound : ¬ VarianceSound nodeShapes 0 := by
  intro h
  have hname : DependsOn nodeShapes 0 1 1 := Walk.single (by decide)
  have hvisit : DependsOn nodeShapes 0 1 2 := Walk.single (by decide)
  have harg : DependsOn nodeShapes 2 .contravariant 0 := Walk.single (by decide)
  have hshrink := h.shrink (by decide) _ _ ((hvisit.trans harg).trans hname)
  have hbase : (varianceSystem nodeShapes).solution 1 ≤ .covariant :=
    (varianceSystem nodeShapes).solution_le_base 1
  exact absurd (Variance.canShrink_mono (MeetAction.smul_mono _ hbase) hshrink) (by decide)

end Facet
