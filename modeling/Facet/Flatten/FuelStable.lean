import Facet.Flatten.Enumeration
import Facet.Lib.Fuel

/-!
# The bound of the analysis

The functions of the analysis run with a bound on the depth of their recursion. A result that is
not `unfinished` does not depend on the bound.
-/

namespace Facet.Flatten

open Fuel

variable {ι : Type} {shapes : Shapes ι} {b : SchemaBuilder ι}

/-- The same result, unless the first is unfinished. -/
abbrev Settles {α : Type} (x y : Analysis α) : Prop := Stays SchemaError.unfinished x y

theorem settles_withPath (n : ℕ) (s : ι) (path : FieldPath) :
    Settles (unwrapTransparentWithPath shapes n s path)
      (unwrapTransparentWithPath shapes (n + 1) s path) := by
  induction n generalizing s path with
  | zero => exact .exhausted _
  | succ n ih =>
    rw [unwrapTransparentWithPath, unwrapTransparentWithPath]
    split
    · exact ih _ _
    · exact .refl _

theorem error_of_withPath {n : ℕ} {s : ι} {path : FieldPath} {e : SchemaError}
    (h : unwrapTransparentWithPath shapes n s path = .error e) : e = .unfinished := by
  induction n generalizing s path with
  | zero =>
    cases h
    rfl
  | succ n ih =>
    rw [unwrapTransparentWithPath] at h
    split at h
    · exact ih h
    · cases h

theorem settles_transparent (n : ℕ) (s : ι) :
    Settles (unwrapTransparent shapes n s) (unwrapTransparent shapes (n + 1) s) := by
  induction n generalizing s with
  | zero => exact .exhausted _
  | succ n ih =>
    rw [unwrapTransparent, unwrapTransparent]
    split
    · exact ih _
    · exact .refl _

theorem settles_effective (n : ℕ) (s : ι) :
    Settles (unwrapToEffectiveShape shapes n s) (unwrapToEffectiveShape shapes (n + 1) s) := by
  induction n generalizing s with
  | zero => exact .exhausted _
  | succ n ih =>
    rw [unwrapToEffectiveShape, unwrapToEffectiveShape]
    apply (settles_transparent n s).bind
    intro t
    split
    · exact ih _
    · exact .refl _

theorem error_of_transparent {n : ℕ} {s : ι} {e : SchemaError}
    (h : unwrapTransparent shapes n s = .error e) : e = .unfinished := by
  induction n generalizing s with
  | zero =>
    cases h
    rfl
  | succ n ih =>
    rw [unwrapTransparent] at h
    split at h
    · exact ih h
    · cases h

theorem error_of_effective {n : ℕ} {s : ι} {e : SchemaError}
    (h : unwrapToEffectiveShape shapes n s = .error e) : e = .unfinished := by
  induction n generalizing s with
  | zero =>
    cases h
    rfl
  | succ n ih =>
    rw [unwrapToEffectiveShape] at h
    cases ht : unwrapTransparent shapes n s with
    | error e' =>
      rw [ht] at h
      cases h
      exact error_of_transparent ht
    | ok t =>
      rw [ht, ok_bind] at h
      split at h
      · exact ih h
      · cases h

variable (shapes) in
/-- The collection below variants, from one bound to the next. -/
structure OnlySettles (n : ℕ) : Prop where
  shape : ∀ s keyPrefix r, Settles (collectShapeKeyPathsOnly shapes n s keyPrefix r)
    (collectShapeKeyPathsOnly shapes (n + 1) s keyPrefix r)
  struct : ∀ st keyPrefix r, Settles (collectStructKeyPathsOnly shapes n st keyPrefix r)
    (collectStructKeyPathsOnly shapes (n + 1) st keyPrefix r)
  variant : ∀ v keyPrefix r, Settles (collectVariantFieldsKeyPathsOnly shapes n v keyPrefix r)
    (collectVariantFieldsKeyPathsOnly shapes (n + 1) v keyPrefix r)

theorem onlySettles (n : ℕ) : OnlySettles shapes n := by
  induction n with
  | zero =>
    constructor <;> intros
    · exact .exhausted _
    · exact .exhausted _
    · exact .exhausted _
  | succ n ih =>
    constructor
    · intro s keyPrefix r
      rw [collectShapeKeyPathsOnly, collectShapeKeyPathsOnly]
      split
      · exact ih.struct _ keyPrefix r
      · exact .foldlM (fun v _ r => ih.variant v keyPrefix r) r
      · exact .refl _
    · intro st keyPrefix r
      rw [collectStructKeyPathsOnly, collectStructKeyPathsOnly]
      apply Stays.foldlM
      intro f _ r
      split_ifs
      · exact ih.shape f.shape keyPrefix r
      · exact ih.shape f.shape _ _
    · intro v keyPrefix r
      rw [collectVariantFieldsKeyPathsOnly, collectVariantFieldsKeyPathsOnly]
      cases newtypeField v with
      | some f => exact ih.shape f.shape keyPrefix r
      | none => exact .foldlM (fun f _ r => ih.shape f.shape _ _) r

variable (shapes) in
/-- The collection below plain fields, from one bound to the next. -/
structure NestedSettles (n : ℕ) : Prop where
  shape : ∀ s keyPrefix rs, Settles (collectNestedKeyPathsForShape shapes n s keyPrefix rs)
    (collectNestedKeyPathsForShape shapes (n + 1) s keyPrefix rs)
  struct : ∀ st keyPrefix rs, Settles (collectNestedKeyPathsForStruct shapes n st keyPrefix rs)
    (collectNestedKeyPathsForStruct shapes (n + 1) st keyPrefix rs)
  flattened : ∀ f keyPrefix rs, Settles (collectNestedKeyPathsForFlattened shapes n f keyPrefix rs)
    (collectNestedKeyPathsForFlattened shapes (n + 1) f keyPrefix rs)
  variant : ∀ v keyPrefix r, Settles (collectVariantKeyPaths shapes n v keyPrefix r)
    (collectVariantKeyPaths shapes (n + 1) v keyPrefix r)

theorem nestedSettles (n : ℕ) : NestedSettles shapes n := by
  induction n with
  | zero =>
    constructor <;> intros
    · exact .exhausted _
    · exact .exhausted _
    · exact .exhausted _
    · exact .exhausted _
  | succ n ih =>
    constructor
    · intro s keyPrefix rs
      rw [collectNestedKeyPathsForShape, collectNestedKeyPathsForShape]
      split
      · exact ih.struct _ keyPrefix rs
      · exact .refl _
    · intro st keyPrefix rs
      rw [collectNestedKeyPathsForStruct, collectNestedKeyPathsForStruct]
      apply Stays.foldlM
      intro f _ rs
      split_ifs
      · exact ih.flattened f keyPrefix rs
      · exact ih.shape f.shape _ _
    · intro f keyPrefix rs
      rw [collectNestedKeyPathsForFlattened, collectNestedKeyPathsForFlattened]
      split
      · exact ih.struct _ keyPrefix rs
      · apply Stays.mapM
        intro r _
        dsimp only
        split
        · exact .refl _
        · split
          · exact .refl _
          · exact ih.variant _ keyPrefix r
      · exact .refl _
    · intro v keyPrefix r
      have hfields : Settles (v.data.fields.foldlM (fun config f =>
          if f.isFlattened then do
            let configs ← collectNestedKeyPathsForFlattened shapes n f keyPrefix [config]
            return configs.head?.getD .new
          else do
            let configs ← collectNestedKeyPathsForShape shapes n f.shape
              (keyPrefix ++ [f.effectiveName]) [config.addKeyPath (keyPrefix ++ [f.effectiveName])]
            return configs.head?.getD .new) r) (v.data.fields.foldlM (fun config f =>
          if f.isFlattened then do
            let configs ← collectNestedKeyPathsForFlattened shapes (n + 1) f keyPrefix [config]
            return configs.head?.getD .new
          else do
            let configs ← collectNestedKeyPathsForShape shapes (n + 1) f.shape
              (keyPrefix ++ [f.effectiveName]) [config.addKeyPath (keyPrefix ++ [f.effectiveName])]
            return configs.head?.getD .new) r) := by
        apply Stays.foldlM
        intro f _ r
        split_ifs
        · exact (ih.flattened f keyPrefix [r]).bind fun rs => .refl _
        · exact (ih.shape f.shape _ _).bind fun rs => .refl _
      rw [collectVariantKeyPaths, collectVariantKeyPaths]
      cases newtypeField v with
      | none => exact hfields
      | some f =>
        dsimp only
        split
        · exact (ih.struct _ keyPrefix [r]).bind fun rs => .refl _
        · exact hfields

variable (shapes b) in
/-- The analysis, from one bound to the next. -/
structure AnalysisSettles (n : ℕ) : Prop where
  struct : ∀ st path keyPrefix, Settles (b.analyzeStruct shapes n st path keyPrefix)
    (b.analyzeStruct shapes (n + 1) st path keyPrefix)
  field : ∀ f path keyPrefix rs, Settles (b.analyzeFieldIntoConfigs shapes n f path keyPrefix rs)
    (b.analyzeFieldIntoConfigs shapes (n + 1) f path keyPrefix rs)
  flattened : ∀ f path keyPrefix rs,
    Settles (b.analyzeFlattenedFieldIntoConfigs shapes n f path keyPrefix rs)
      (b.analyzeFlattenedFieldIntoConfigs shapes (n + 1) f path keyPrefix rs)
  variant : ∀ v path keyPrefix, Settles (b.analyzeVariantContent shapes n v path keyPrefix)
    (b.analyzeVariantContent shapes (n + 1) v path keyPrefix)

theorem settles_flattened {n : ℕ} (ih : AnalysisSettles shapes b n) (f : Field ι)
    (path : FieldPath) (keyPrefix : KeyPath) (rs : List (Resolution ι)) :
    Settles (b.analyzeFlattenedFieldIntoConfigs shapes (n + 1) f path keyPrefix rs)
      (b.analyzeFlattenedFieldIntoConfigs shapes (n + 2) f path keyPrefix rs) := by
  rw [SchemaBuilder.analyzeFlattenedFieldIntoConfigs,
    SchemaBuilder.analyzeFlattenedFieldIntoConfigs]
  dsimp only
  apply (settles_withPath n _ _).bind
  rintro ⟨s, fieldPath⟩
  dsimp only
  split
  · apply (ih.struct _ fieldPath keyPrefix).bind
    exact fun configs => .refl _
  · apply Stays.bind
    · apply Stays.mapM
      intro base _
      apply Stays.bind
      · apply Stays.mapM
        intro v _
        split
        · apply Stays.bind (.refl _)
          intro forked
          exact ((onlySettles n).variant v _ forked).bind fun r => .refl _
        · exact (ih.variant v _ keyPrefix).bind fun configs => .refl _
        · apply Stays.bind (.refl _)
          intro forked
          exact (ih.variant v _ keyPrefix).bind fun configs => .refl _
        · apply Stays.bind (.refl _)
          intro forked
          exact ((onlySettles n).variant v _ _).bind fun r => .refl _
      · exact fun forked => .refl _
    · exact fun forks => .refl _
  · exact .refl _

theorem analysisSettles (n : ℕ) : AnalysisSettles shapes b n := by
  induction n with
  | zero =>
    constructor <;> intros
    · exact .exhausted _
    · exact .exhausted _
    · exact .exhausted _
    · exact .exhausted _
  | succ n ih =>
    constructor
    · intro st path keyPrefix
      rw [SchemaBuilder.analyzeStruct, SchemaBuilder.analyzeStruct]
      exact .foldlM (fun f _ rs => ih.field f path keyPrefix rs) _
    · intro f path keyPrefix rs
      rw [SchemaBuilder.analyzeFieldIntoConfigs, SchemaBuilder.analyzeFieldIntoConfigs]
      split_ifs
      · exact ih.flattened f path keyPrefix rs
      · apply Stays.bind (.refl _)
        exact fun rs' => (nestedSettles n).shape _ _ rs'
    · exact settles_flattened ih
    · intro v path keyPrefix
      have hfields : Settles (v.data.fields.foldlM (fun configs f =>
          b.analyzeFieldIntoConfigs shapes n f path keyPrefix configs) [.new])
          (v.data.fields.foldlM (fun configs f =>
            b.analyzeFieldIntoConfigs shapes (n + 1) f path keyPrefix configs) [.new]) :=
        .foldlM (fun f _ rs => ih.field f path keyPrefix rs) _
      rw [SchemaBuilder.analyzeVariantContent, SchemaBuilder.analyzeVariantContent]
      cases newtypeField v with
      | none => exact hfields
      | some f =>
        apply (settles_effective n f.shape).bind
        intro s
        split
        · exact ih.struct _ _ keyPrefix
        · exact hfields

/-- Once the analysis of a type is finished, a larger bound gives the same result. -/
theorem analyze_settles {n m : ℕ} (hle : n ≤ m) :
    Settles (b.analyze shapes n) (b.analyze shapes m) := by
  apply Stays.of_le _ _ hle
  intro n
  have hstep : AnalysisSettles shapes b n := analysisSettles n
  unfold SchemaBuilder.analyze SchemaBuilder.analyzeShape
  split
  · exact hstep.struct _ [] []
  · unfold SchemaBuilder.analyzeEnum
    apply Stays.bind
    · apply Stays.mapM
      intro v _
      exact (hstep.variant v _ []).bind fun configs => .refl _
    · exact fun result => .refl _
  · exact .refl _

end Facet.Flatten
