import Facet.Flatten.NestedKeyPaths
import Facet.Lib.ExceptList

/-!
# What collecting key paths keeps

Whatever fuel it is given, the collection of nested key paths takes every configuration to
one that comes from it by adding key paths. A relation that contains the addition of a
path therefore holds between the configurations before and after.
-/

namespace Facet.Flatten

variable {ι : Type} {shapes : Shapes ι}

section Relation

variable {R : Resolution ι → Resolution ι → Prop}

/-- Everything that collects the paths below fields that are not flattened. -/
structure NestedKept (R : Resolution ι → Resolution ι → Prop) (shapes : Shapes ι) (n : ℕ) :
    Prop where
  shape : ∀ s keyPrefix rs, KeptAll R True rs (collectNestedKeyPathsForShape shapes n s keyPrefix rs)
  struct : ∀ st keyPrefix rs,
    KeptAll R True rs (collectNestedKeyPathsForStruct shapes n st keyPrefix rs)
  flattened : ∀ f keyPrefix rs,
    KeptAll R True rs (collectNestedKeyPathsForFlattened shapes n f keyPrefix rs)
  variant : ∀ v keyPrefix r, Kept R True r (collectVariantKeyPaths shapes n v keyPrefix r)

theorem NestedKept.namedFields (hR : PathClosed R) {n : ℕ} (h : NestedKept R shapes n)
    (fs : List (Field ι)) (keyPrefix : KeyPath) (r : Resolution ι) :
    Kept R True r (fs.foldlM (fun config f =>
      if f.isFlattened then do
        let configs ← collectNestedKeyPathsForFlattened shapes n f keyPrefix [config]
        return configs.head?.getD .new
      else do
        let configs ← collectNestedKeyPathsForShape shapes n f.shape
          (keyPrefix ++ [f.effectiveName]) [config.addKeyPath (keyPrefix ++ [f.effectiveName])]
        return configs.head?.getD .new) r) := by
  apply hR.foldlM
  intro f _ r
  split_ifs
  · exact (h.flattened f keyPrefix [r]).single
  · apply hR.keptAddKeyPath
    exact (h.shape f.shape _ _).single

theorem nestedKept (hR : PathClosed R) (n : ℕ) : NestedKept R shapes n := by
  induction n with
  | zero =>
    constructor <;> intros
    · trivial
    · trivial
    · trivial
    · trivial
  | succ n ih =>
    constructor
    · intro s keyPrefix rs
      rw [collectNestedKeyPathsForShape]
      split
      · exact ih.struct _ keyPrefix rs
      · exact hR.allOk rs
    · intro st keyPrefix rs
      rw [collectNestedKeyPathsForStruct]
      apply hR.allFoldlM
      intro f _ rs
      split_ifs
      · exact ih.flattened f keyPrefix rs
      · apply hR.allAddKeyPath
        exact ih.shape f.shape _ _
    · intro f keyPrefix rs
      rw [collectNestedKeyPathsForFlattened]
      split
      · exact ih.struct _ keyPrefix rs
      · apply KeptAll.mapM
        intro r
        dsimp only
        split
        · exact hR.ok r
        · split
          · exact hR.ok r
          · exact ih.variant _ keyPrefix r
      · exact hR.allOk rs
    · intro v keyPrefix r
      rw [collectVariantKeyPaths]
      cases newtypeField v with
      | none => exact ih.namedFields hR _ keyPrefix r
      | some f =>
        dsimp only
        split
        · exact (ih.struct _ keyPrefix [r]).single
        · exact ih.namedFields hR _ keyPrefix r

/-- Everything that collects the paths below nested variants. -/
structure OnlyKept (R : Resolution ι → Resolution ι → Prop) (shapes : Shapes ι) (n : ℕ) :
    Prop where
  shape : ∀ s keyPrefix r, Kept R True r (collectShapeKeyPathsOnly shapes n s keyPrefix r)
  struct : ∀ st keyPrefix r, Kept R True r (collectStructKeyPathsOnly shapes n st keyPrefix r)
  variant : ∀ v keyPrefix r, Kept R True r (collectVariantFieldsKeyPathsOnly shapes n v keyPrefix r)

theorem onlyKept (hR : PathClosed R) (n : ℕ) : OnlyKept R shapes n := by
  induction n with
  | zero =>
    constructor <;> intros
    · trivial
    · trivial
    · trivial
  | succ n ih =>
    constructor
    · intro s keyPrefix r
      rw [collectShapeKeyPathsOnly]
      split
      · exact ih.struct _ keyPrefix r
      · apply hR.foldlM
        intro v _ r
        exact ih.variant v keyPrefix r
      · exact hR.ok r
    · intro st keyPrefix r
      rw [collectStructKeyPathsOnly]
      apply hR.foldlM
      intro f _ r
      split_ifs
      · exact ih.shape f.shape keyPrefix r
      · apply hR.keptAddKeyPath
        exact ih.shape f.shape _ _
    · intro v keyPrefix r
      rw [collectVariantFieldsKeyPathsOnly]
      cases newtypeField v with
      | some f => exact ih.shape f.shape keyPrefix r
      | none =>
        apply hR.foldlM
        intro f _ r
        apply hR.keptAddKeyPath
        exact ih.shape f.shape _ _

end Relation

/-- If the step succeeds, its resolutions have the property. -/
def AllOf (Q : Resolution ι → Prop) (result : Analysis (List (Resolution ι))) : Prop :=
  ∀ rs, result = .ok rs → ∀ r ∈ rs, Q r

namespace AllOf

variable {Q Q' : Resolution ι → Prop} {rs : List (Resolution ι)}
  {result : Analysis (List (Resolution ι))}

theorem ok (h : ∀ r ∈ rs, Q r) : AllOf Q (.ok rs) := by
  rintro _ ⟨⟩
  exact h

theorem error (Q : Resolution ι → Prop) (e : SchemaError) :
    AllOf Q (.error e : Analysis (List (Resolution ι))) := by
  rintro _ ⟨⟩

theorem mono (h : AllOf Q result) (hQ : ∀ r, Q r → Q' r) : AllOf Q' result :=
  fun rs hrs r hr => hQ r (h rs hrs r hr)

theorem bind {next : List (Resolution ι) → Analysis (List (Resolution ι))} (h : AllOf Q result)
    (hnext : ∀ rs, (∀ r ∈ rs, Q r) → AllOf Q' (next rs)) : AllOf Q' (result >>= next) := by
  cases hres : result with
  | error e => exact .error Q' e
  | ok rs => exact hnext rs (h rs hres)

theorem mapM {α : Type} {xs : List α} {step : α → Analysis (Resolution ι)}
    (h : ∀ x ∈ xs, ∀ r, step x = .ok r → Q r) : AllOf Q (xs.mapM step) := by
  intro rs hrs r hr
  obtain ⟨x, hx, heq⟩ := (ExceptList.mem_iff_of_mapM_ok hrs r).mp hr
  exact h x hx r heq

theorem flatMapM {α : Type} {xs : List α} {step : α → Analysis (List (Resolution ι))}
    (h : ∀ x ∈ xs, AllOf Q (step x)) :
    AllOf Q (xs.mapM step >>= fun rss => pure rss.flatten) := by
  cases hres : xs.mapM step with
  | error e => exact .error Q e
  | ok rss =>
    apply AllOf.ok
    intro r hr
    obtain ⟨rs, hrs, hr⟩ := List.mem_flatten.mp hr
    obtain ⟨x, hx, heq⟩ := (ExceptList.mem_iff_of_mapM_ok hres rs).mp hrs
    exact h x hx rs heq r hr

theorem keptAll {R : Resolution ι → Resolution ι → Prop} (hkept : KeptAll R True rs result)
    (h : ∀ r ∈ rs, ∀ r', R r r' → Q r') : AllOf Q result := by
  intro rs' hrs' r' hr'
  obtain ⟨r, hr, hrel⟩ := exists_of_forall₂_right (hkept.of_ok hrs') hr'
  exact h r hr r' hrel

/-- Steps for lists, one after another, that keep the property. -/
theorem foldlM {α : Type} {xs : List α}
    {step : List (Resolution ι) → α → Analysis (List (Resolution ι))}
    (h : ∀ x ∈ xs, ∀ rs, (∀ r ∈ rs, Q r) → AllOf Q (step rs x)) (hrs : ∀ r ∈ rs, Q r) :
    AllOf Q (xs.foldlM step rs) := by
  induction xs generalizing rs with
  | nil => exact .ok hrs
  | cons x xs ih =>
    rw [List.foldlM_cons]
    exact AllOf.bind (h x List.mem_cons_self rs hrs) fun rs' hrs' =>
      ih (fun y hy => h y (List.mem_cons_of_mem x hy)) hrs'

theorem markOptionalIf (h : ∀ r ∈ rs, Q r) (hmark : ∀ r, Q r → Q r.markAllOptional)
    (optional : Bool) : ∀ r ∈ SchemaBuilder.markOptionalIf optional rs, Q r := by
  unfold SchemaBuilder.markOptionalIf
  split
  · intro r hr
    obtain ⟨r', hr', rfl⟩ := List.mem_map.mp hr
    exact hmark r' (h r' hr')
  · exact h

end AllOf

end Facet.Flatten
