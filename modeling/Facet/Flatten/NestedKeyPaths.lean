import Facet.Flatten.Choice
import Facet.Lib.OptionState
import Facet.Lib.Outcome
import Mathlib.Order.Filter.AtTopBot.Basic

/-!
# Collecting nested key paths

The paths below a field that is not flattened are collected for probing only. With
enough fuel the collection ends, and it leaves the fields, the required names and the
selections of every configuration alone.
-/

namespace Facet.Flatten

open Filter ExceptList

variable {ι : Type} {shapes : Shapes ι}

/-- The resolutions agree in what a choice determines. -/
structure SameChoice (r r' : Resolution ι) : Prop where
  selections : r'.variantSelections = r.variantSelections
  fields : r'.fields = r.fields
  required : r'.requiredFieldNames = r.requiredFieldNames

namespace SameChoice

theorem refl (r : Resolution ι) : SameChoice r r := ⟨rfl, rfl, rfl⟩

theorem trans {r r' r'' : Resolution ι} (h : SameChoice r r') (h' : SameChoice r' r'') :
    SameChoice r r'' :=
  ⟨h'.selections.trans h.selections, h'.fields.trans h.fields, h'.required.trans h.required⟩

theorem addKeyPath (r : Resolution ι) (path : KeyPath) : SameChoice r (r.addKeyPath path) :=
  ⟨rfl, rfl, rfl⟩

end SameChoice

theorem exists_of_forall₂_right {α β : Type} {R : α → β → Prop} {xs : List α} {ys : List β}
    (h : List.Forall₂ R xs ys) {y : β} (hy : y ∈ ys) : ∃ x ∈ xs, R x y := by
  induction h with
  | nil => exact absurd hy List.not_mem_nil
  | @cons x y' xs ys hx _ ih =>
    rcases List.mem_cons.mp hy with rfl | hy
    · exact ⟨x, List.mem_cons_self, hx⟩
    · obtain ⟨x', hx', hr⟩ := ih hy
      exact ⟨x', List.mem_cons_of_mem x hx', hr⟩

/-- Adding key paths, one after another, stays within the relation. -/
structure PathClosed (R : Resolution ι → Resolution ι → Prop) : Prop where
  refl : ∀ r, R r r
  trans : ∀ r r' r'', R r r' → R r' r'' → R r r''
  addKeyPath : ∀ r path, R r (r.addKeyPath path)

theorem PathClosed.sameChoice : PathClosed (SameChoice : Resolution ι → Resolution ι → Prop) where
  refl := SameChoice.refl
  trans _ _ _ := SameChoice.trans
  addKeyPath := SameChoice.addKeyPath

section Relation

variable (R : Resolution ι → Resolution ι → Prop) (mayFail : Prop)

/-- The step relates the configurations before and after one by one, unless it fails and may. -/
def KeptAll (rs : List (Resolution ι)) : Analysis (List (Resolution ι)) → Prop :=
  Outcome (List.Forall₂ R rs) fun _ => mayFail

def Kept (r : Resolution ι) : Analysis (Resolution ι) → Prop := Outcome (R r) fun _ => mayFail

variable {R mayFail}

theorem KeptAll.of_ok {rs rs' : List (Resolution ι)} {result : Analysis (List (Resolution ι))}
    (h : KeptAll R mayFail rs result) (heq : result = .ok rs') : List.Forall₂ R rs rs' := by
  subst heq
  exact h

theorem Kept.of_ok {r r' : Resolution ι} {result : Analysis (Resolution ι)}
    (h : Kept R mayFail r result) (heq : result = .ok r') : R r r' := by
  subst heq
  exact h

theorem KeptAll.exists_ok {rs : List (Resolution ι)} {result : Analysis (List (Resolution ι))}
    (h : KeptAll R False rs result) : ∃ rs', result = .ok rs' ∧ List.Forall₂ R rs rs' := by
  cases result with
  | error e => exact absurd h not_false
  | ok rs' => exact ⟨rs', rfl, h⟩

theorem Kept.exists_ok {r : Resolution ι} {result : Analysis (Resolution ι)}
    (h : Kept R False r result) : ∃ r', result = .ok r' ∧ R r r' := by
  cases result with
  | error e => exact absurd h not_false
  | ok r' => exact ⟨r', rfl, h⟩

theorem KeptAll.mapM {step : Resolution ι → Analysis (Resolution ι)}
    (h : ∀ r, Kept R mayFail r (step r)) (rs : List (Resolution ι)) :
    KeptAll R mayFail rs (rs.mapM step) := by
  induction rs with
  | nil => exact .nil
  | cons r rs ih =>
    rw [List.mapM_cons]
    apply Outcome.bind (h r) fun _ => id
    intro r' hr
    apply Outcome.bind ih fun _ => id
    intro rs' hrs
    exact List.Forall₂.cons hr hrs

/-- One configuration goes through a step for lists and is taken out again. -/
theorem KeptAll.single {r : Resolution ι} {result : Analysis (List (Resolution ι))}
    (h : KeptAll R mayFail [r] result) :
    Kept R mayFail r (result >>= fun rs => pure (rs.head?.getD .new)) := by
  apply Outcome.bind h fun _ => id
  intro rs hrs
  cases hrs with
  | cons hr hrest =>
    cases hrest
    exact hr

section Preorder

variable (hrefl : ∀ r, R r r) (htrans : ∀ r r' r'', R r r' → R r' r'' → R r r'')

include htrans in
theorem forall₂_trans_of {rs rs' rs'' : List (Resolution ι)} (h : List.Forall₂ R rs rs')
    (h' : List.Forall₂ R rs' rs'') : List.Forall₂ R rs rs'' := by
  induction h generalizing rs'' with
  | nil => exact h'
  | cons hr _ ih =>
    cases h' with
    | cons hr' hrest => exact .cons (htrans _ _ _ hr hr') (ih hrest)

include hrefl

theorem KeptAll.ok (rs : List (Resolution ι)) : KeptAll R mayFail rs (.ok rs) :=
  List.forall₂_same.mpr fun r _ => hrefl r

include htrans

theorem KeptAll.foldlM {α : Type} {step : List (Resolution ι) → α → Analysis (List (Resolution ι))}
    {xs : List α} (h : ∀ x ∈ xs, ∀ rs, KeptAll R mayFail rs (step rs x))
    (rs : List (Resolution ι)) : KeptAll R mayFail rs (xs.foldlM step rs) := by
  induction xs generalizing rs with
  | nil => exact .ok hrefl rs
  | cons x xs ih =>
    rw [List.foldlM_cons]
    apply Outcome.bind (h x List.mem_cons_self rs) fun _ => id
    intro rs₁ hfirst
    have hrest := ih (fun y hy => h y (List.mem_cons_of_mem x hy)) rs₁
    exact Outcome.mono hrest (fun rs' => forall₂_trans_of htrans hfirst) fun _ => id

theorem Kept.foldlM {α : Type} {step : Resolution ι → α → Analysis (Resolution ι)} {xs : List α}
    (h : ∀ x ∈ xs, ∀ r, Kept R mayFail r (step r x)) (r : Resolution ι) :
    Kept R mayFail r (xs.foldlM step r) := by
  induction xs generalizing r with
  | nil => exact hrefl r
  | cons x xs ih =>
    rw [List.foldlM_cons]
    apply Outcome.bind (h x List.mem_cons_self r) fun _ => id
    intro r₁ hfirst
    have hrest := ih (fun y hy => h y (List.mem_cons_of_mem x hy)) r₁
    exact Outcome.mono hrest (fun r' => htrans r r₁ r' hfirst) fun _ => id

end Preorder

namespace PathClosed

variable (hR : PathClosed R)

include hR

theorem allOk (rs : List (Resolution ι)) : KeptAll R mayFail rs (.ok rs) := .ok hR.refl rs

theorem ok (r : Resolution ι) : Kept R mayFail r (.ok r) := hR.refl r

theorem allAddKeyPath {rs : List (Resolution ι)} {path : KeyPath}
    {result : Analysis (List (Resolution ι))}
    (h : KeptAll R mayFail (rs.map fun r => r.addKeyPath path) result) :
    KeptAll R mayFail rs result := by
  have hadded : List.Forall₂ R rs (rs.map fun r => r.addKeyPath path) :=
    List.forall₂_map_right_iff.mpr (List.forall₂_same.mpr fun r _ => hR.addKeyPath r path)
  exact Outcome.mono h (fun rs' => forall₂_trans_of hR.trans hadded) fun _ => id

theorem keptAddKeyPath {r : Resolution ι} {path : KeyPath} {result : Analysis (Resolution ι)}
    (h : Kept R mayFail (r.addKeyPath path) result) : Kept R mayFail r result :=
  Outcome.mono h (fun r' => hR.trans r _ r' (hR.addKeyPath r path)) fun _ => id

theorem allFoldlM {α : Type} {step : List (Resolution ι) → α → Analysis (List (Resolution ι))}
    {xs : List α} (h : ∀ x ∈ xs, ∀ rs, KeptAll R mayFail rs (step rs x))
    (rs : List (Resolution ι)) : KeptAll R mayFail rs (xs.foldlM step rs) :=
  .foldlM hR.refl hR.trans h rs

theorem foldlM {α : Type} {step : Resolution ι → α → Analysis (Resolution ι)} {xs : List α}
    (h : ∀ x ∈ xs, ∀ r, Kept R mayFail r (step r x)) (r : Resolution ι) :
    Kept R mayFail r (xs.foldlM step r) := .foldlM hR.refl hR.trans h r

end PathClosed

end Relation

section Collect

variable (shapes) in
/-- At this fuel the paths below the shape are collected, whether the field that has it
is flattened or not. -/
structure Collects (n : ℕ) (s : ι) : Prop where
  shape : ∀ keyPrefix rs, KeptAll SameChoice False rs (collectNestedKeyPathsForShape shapes n s keyPrefix rs)
  flattened : ∀ f : Field ι, f.shape = s → ∀ keyPrefix rs,
    KeptAll SameChoice False rs (collectNestedKeyPathsForFlattened shapes n f keyPrefix rs)

theorem keptAll_struct {n : ℕ} {st : StructType ι}
    (h : ∀ f ∈ st.fields, Collects shapes n f.shape) (keyPrefix : KeyPath)
    (rs : List (Resolution ι)) :
    KeptAll SameChoice False rs (collectNestedKeyPathsForStruct shapes (n + 1) st keyPrefix rs) := by
  rw [collectNestedKeyPathsForStruct]
  apply PathClosed.sameChoice.allFoldlM
  intro f hf rs
  split_ifs
  · exact (h f hf).flattened f rfl keyPrefix rs
  · apply PathClosed.sameChoice.allAddKeyPath
    exact (h f hf).shape _ _

theorem kept_namedFields {n : ℕ} {fs : List (Field ι)}
    (h : ∀ f ∈ fs, Collects shapes n f.shape) (keyPrefix : KeyPath) (r : Resolution ι) :
    Kept SameChoice False r (fs.foldlM (fun config f =>
      if f.isFlattened then do
        let configs ← collectNestedKeyPathsForFlattened shapes n f keyPrefix [config]
        return configs.head?.getD .new
      else do
        let configs ← collectNestedKeyPathsForShape shapes n f.shape
          (keyPrefix ++ [f.effectiveName]) [config.addKeyPath (keyPrefix ++ [f.effectiveName])]
        return configs.head?.getD .new) r) := by
  apply PathClosed.sameChoice.foldlM
  intro f hf r
  split_ifs
  · exact ((h f hf).flattened f rfl keyPrefix [r]).single
  · apply PathClosed.sameChoice.keptAddKeyPath
    exact ((h f hf).shape _ _).single

theorem newtypeField_mem {v : Variant ι} {f : Field ι} (h : newtypeField v = some f) :
    f ∈ v.data.fields := by
  unfold newtypeField at h
  split at h
  · next g hfields =>
    split_ifs at h
    obtain rfl := Option.some.inj h
    exact hfields ▸ List.mem_cons_self
  · simp at h

theorem kept_variant {n : ℕ} {v : Variant ι}
    (h : ∀ f ∈ v.data.fields, Collects shapes n f.shape)
    (hsucc : ∀ f ∈ v.data.fields, Collects shapes (n + 1) f.shape) (keyPrefix : KeyPath)
    (r : Resolution ι) :
    Kept SameChoice False r (collectVariantKeyPaths shapes (n + 1) v keyPrefix r) := by
  rw [collectVariantKeyPaths]
  cases hnew : newtypeField v with
  | none => exact kept_namedFields h keyPrefix r
  | some f =>
    dsimp only
    split
    · next st hty =>
      have hstruct := ((hsucc f (newtypeField_mem hnew)).shape keyPrefix [r]).single
      rw [collectNestedKeyPathsForShape, hty] at hstruct
      exact hstruct
    · exact kept_namedFields h keyPrefix r

theorem keptAll_flattened {n : ℕ} {f : Field ι}
    (hstruct : ∀ st, (shapes f.shape).ty = .user (.struct st) → ∀ keyPrefix rs,
      KeptAll SameChoice False rs (collectNestedKeyPathsForStruct shapes n st keyPrefix rs))
    (henum : ∀ en, (shapes f.shape).ty = .user (.enum en) → ∀ v ∈ en.variants, ∀ keyPrefix r,
      Kept SameChoice False r (collectVariantKeyPaths shapes n v keyPrefix r))
    (keyPrefix : KeyPath) (rs : List (Resolution ι)) :
    KeptAll SameChoice False rs (collectNestedKeyPathsForFlattened shapes (n + 1) f keyPrefix rs) := by
  rw [collectNestedKeyPathsForFlattened]
  split
  · next st hty => exact hstruct st hty keyPrefix rs
  · next en hty =>
    refine .mapM (fun r => ?_) rs
    dsimp only
    split
    · exact PathClosed.sameChoice.ok r
    · split
      · exact PathClosed.sameChoice.ok r
      · next v hfind => exact henum en hty v (List.mem_of_find?_eq_some hfind) keyPrefix r
  · exact PathClosed.sameChoice.allOk rs

/-- One level of by-value containment costs at most two units of fuel. -/
theorem collects_of_heldFields {n : ℕ} {s : ι}
    (h : ∀ f ∈ heldFields (shapes s), Collects shapes n f.shape)
    (hsucc : ∀ f ∈ heldFields (shapes s), Collects shapes (n + 1) f.shape) :
    Collects shapes (n + 2) s := by
  have hstruct (st) (hty : (shapes s).ty = .user (.struct st)) (keyPrefix : KeyPath)
      (rs : List (Resolution ι)) :
      KeptAll SameChoice False rs (collectNestedKeyPathsForStruct shapes (n + 1) st keyPrefix rs) :=
    keptAll_struct (fun f hf => h f (by simpa [heldFields, hty] using hf)) keyPrefix rs
  constructor
  · intro keyPrefix rs
    rw [collectNestedKeyPathsForShape]
    split
    · next st hty => exact hstruct st hty keyPrefix rs
    · exact PathClosed.sameChoice.allOk rs
  · rintro f rfl keyPrefix rs
    refine keptAll_flattened hstruct (fun en hty v hv keyPrefix r => ?_) keyPrefix rs
    have hmem : ∀ f' ∈ v.data.fields, f' ∈ heldFields (shapes f.shape) := fun f' hf' => by
      rw [heldFields, hty]
      exact List.mem_flatMap.mpr ⟨v, hv, hf'⟩
    exact kept_variant (fun f' hf' => h f' (hmem f' hf')) (fun f' hf' => hsucc f' (hmem f' hf'))
      keyPrefix r

theorem Finite.collects {s : ι} (hs : Finite shapes s) : ∀ᶠ n in atTop, Collects shapes n s := by
  induction hs with
  | intro s _ ih =>
    have hfields : ∀ᶠ n in atTop, ∀ f ∈ heldFields (shapes s), Collects shapes n f.shape :=
      (eventually_all_finite (List.finite_toSet _)).mpr fun f hf => ih f.shape ⟨f, hf, rfl⟩
    obtain ⟨m, hm⟩ := eventually_atTop.mp hfields
    refine eventually_atTop.mpr ⟨m + 2, fun n hn => ?_⟩
    obtain ⟨k, rfl⟩ := Nat.exists_eq_add_of_le hn
    have hk := collects_of_heldFields (hm (m + k) (Nat.le_add_right m k))
      (hm (m + k + 1) (Nat.le_add_right_of_le (Nat.le_add_right m k)))
    rwa [Nat.add_right_comm m k 2] at hk

end Collect

section CollectOnly

variable (shapes) in
/-- At this fuel the paths of everything below the shape are collected. -/
def CollectsOnly (n : ℕ) (s : ι) : Prop :=
  ∀ keyPrefix r, Kept SameChoice False r (collectShapeKeyPathsOnly shapes n s keyPrefix r)

theorem CollectsOnly.addKeyPath {n : ℕ} {s : ι} (h : CollectsOnly shapes n s) (keyPrefix : KeyPath)
    (r : Resolution ι) :
    Kept SameChoice False r (collectShapeKeyPathsOnly shapes n s keyPrefix (r.addKeyPath keyPrefix)) :=
  PathClosed.sameChoice.keptAddKeyPath (h keyPrefix (r.addKeyPath keyPrefix))

theorem kept_structOnly {n : ℕ} {st : StructType ι}
    (h : ∀ f ∈ st.fields, CollectsOnly shapes n f.shape) (keyPrefix : KeyPath)
    (r : Resolution ι) :
    Kept SameChoice False r (collectStructKeyPathsOnly shapes (n + 1) st keyPrefix r) := by
  rw [collectStructKeyPathsOnly]
  apply PathClosed.sameChoice.foldlM
  intro f hf r
  split_ifs
  · exact h f hf keyPrefix r
  · exact (h f hf).addKeyPath (keyPrefix ++ [f.effectiveName]) r

theorem kept_variantOnly {n : ℕ} {v : Variant ι}
    (h : ∀ f ∈ v.data.fields, CollectsOnly shapes n f.shape) (keyPrefix : KeyPath)
    (r : Resolution ι) :
    Kept SameChoice False r (collectVariantFieldsKeyPathsOnly shapes (n + 1) v keyPrefix r) := by
  rw [collectVariantFieldsKeyPathsOnly]
  cases hnew : newtypeField v with
  | some f => exact h f (newtypeField_mem hnew) keyPrefix r
  | none =>
    apply PathClosed.sameChoice.foldlM
    intro f hf r
    exact (h f hf).addKeyPath (keyPrefix ++ [f.effectiveName]) r

theorem collectsOnly_of_heldFields {n : ℕ} {s : ι}
    (h : ∀ f ∈ heldFields (shapes s), CollectsOnly shapes n f.shape) :
    CollectsOnly shapes (n + 2) s := by
  intro keyPrefix r
  rw [collectShapeKeyPathsOnly]
  split
  · next st hty =>
    apply kept_structOnly
    intro f hf
    exact h f (by simpa [heldFields, hty] using hf)
  · next en hty =>
    apply PathClosed.sameChoice.foldlM
    intro v hv r
    apply kept_variantOnly
    intro f hf
    apply h
    rw [heldFields, hty]
    exact List.mem_flatMap.mpr ⟨v, hv, hf⟩
  · exact PathClosed.sameChoice.ok r

theorem Finite.collectsOnly {s : ι} (hs : Finite shapes s) :
    ∀ᶠ n in atTop, CollectsOnly shapes n s := by
  induction hs with
  | intro s _ ih =>
    rw [← eventually_add_iff 2]
    have hfields : ∀ᶠ n in atTop, ∀ f ∈ heldFields (shapes s), CollectsOnly shapes n f.shape :=
      (eventually_all_finite (List.finite_toSet _)).mpr fun f hf => ih f.shape ⟨f, hf, rfl⟩
    exact hfields.mono fun n hn => collectsOnly_of_heldFields hn

/-- The fields of the variants of a shape of finite size are collected. -/
theorem Finite.collectsOnly_variants {s : ι} (hs : Finite shapes s) {en : EnumType ι}
    (hty : (shapes s).ty = .user (.enum en)) :
    ∀ᶠ n in atTop, ∀ v ∈ en.variants, ∀ f ∈ v.data.fields, CollectsOnly shapes n f.shape := by
  apply (eventually_all_finite (List.finite_toSet _)).mpr
  intro v hv
  apply (eventually_all_finite (List.finite_toSet _)).mpr
  intro f hf
  apply Finite.collectsOnly
  apply Acc.inv hs
  refine ⟨f, ?_, rfl⟩
  rw [heldFields, hty]
  exact List.mem_flatMap.mpr ⟨v, hv, hf⟩

end CollectOnly

end Facet.Flatten
