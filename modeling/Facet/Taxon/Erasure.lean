import Facet.Taxon.Bridge
import Mathlib.Data.Fintype.Card
import Mathlib.Logic.Function.Iterate
import Mathlib.Order.Preorder.Finite

/-!
# Shapes with pointers and references erased

A shape stands for the shape its pointers and references lead to, and that shape has a
kind whose references are shapes again. Unfolding the kinds gives the tree that the
schemas of the batch are to give. The walk below a shape is the traversal of its kind.
-/

namespace Facet.Taxon

variable {ι σ : Type}

def PointsTo (shapes : Shapes ι) (s t : ι) : Prop := transparentPointee shapes s = some t

/-- No pointer leads back to itself through pointers and references alone. -/
def PointersEnd (shapes : Shapes ι) : Prop := ∀ s, ¬ Relation.TransGen (PointsTo shapes) s s

/-- One pointer or reference further, if there is one. -/
def hop (shapes : Shapes ι) (s : ι) : ι := (transparentPointee shapes s).getD s

/-- The shape at the end of the pointers and references from a shape. -/
def pointedTo [Fintype ι] (shapes : Shapes ι) (s : ι) : ι := (hop shapes)^[Fintype.card ι] s

def fieldKind (f : Facet.Field ι) : Field ι := ⟨f.effectiveName, f.shape, f.default.isNone⟩

def payloadKind (v : Facet.Variant ι) : VariantPayload ι :=
  if v.data.fields = [] then .unit
  else
    match v.data.kind with
    | .struct => .struct (v.data.fields.map fieldKind)
    | .tuple | .tupleStruct =>
      match v.data.fields with
      | [f] => .newtype f.shape
      | fields => .tuple (fields.map Facet.Field.shape)
    | .unit => .unit

def enumKinds (e : EnumType ι) : List (Variant ι) :=
  e.variants.zipIdx.map fun (v, i) => ⟨v.effectiveName, i % 2 ^ 32, payloadKind v⟩

def typeKind (shape : Shape ι) : Kind ι :=
  match shape.ty with
  | .primitive _ => external shape "rust-primitive-unmapped"
  | .sequence (.array t n) => .array t [n]
  | .sequence (.slice t) => .list t
  | .user (.struct st) =>
    match st.kind with
    | .tuple | .tupleStruct => .tuple (st.fields.map Facet.Field.shape)
    | .unit | .struct => .struct shape.typeIdentifier (st.fields.map fieldKind)
  | .user (.enum e) =>
    .enum shape.typeIdentifier (enumKinds e)
  | .user .union => external shape "rust-union"
  | .user .opaqueTy => external shape "rust-opaque"
  | .pointer _ => external shape "rust-fn-pointer"
  | .undefined => external shape "rust-undefined"

/-- The kind of a shape that is no transparent pointer, referring to shapes. -/
def shapeKind (shape : Shape ι) : Kind ι :=
  match primitiveOf shape with
  | some primitive => .primitive primitive
  | none =>
    match shape.def with
    | .map k v => .map k v
    | .set t => .set t
    | .list t | .slice t => .list t
    | .array t n => .array t [n]
    | .ndArray t => .tensor t none
    | .option t => .option t
    | .result t e =>
      .enum shape.typeIdentifier [⟨"Ok", 0, .newtype t⟩, ⟨"Err", 1, .newtype e⟩]
    | .pointer _ => external shape "rust-pointer-opaque"
    | .dynamicValue => .dynamic
    | .scalar | .undefined => typeKind shape

/-- A tree of kinds cut off below depth `n`. -/
def Unfolding : ℕ → Type
  | 0 => Unit
  | n + 1 => Option (Kind (Unfolding n))

instance : (n : ℕ) → Inhabited (Unfolding n)
  | 0 => ⟨()⟩
  | _ + 1 => ⟨none⟩

def unfoldShape [Fintype ι] (shapes : Shapes ι) : (n : ℕ) → ι → Unfolding n
  | 0, _ => ()
  | n + 1, s => some ((shapeKind (shapes (pointedTo shapes s))).mapRef (unfoldShape shapes n))

def unfoldSchemas [DecidableEq σ] (batch : List (Schema σ)) :
    (n : ℕ) → SchemaRef σ → Unfolding n
  | 0, _ => ()
  | n + 1, .concrete id =>
    (batch.find? fun schema => schema.id = id).map fun schema =>
      schema.kind.mapRef (unfoldSchemas batch n)

section Pointers

variable {shapes : Shapes ι}

theorem hop_of_some {s t : ι} (h : transparentPointee shapes s = some t) : hop shapes s = t := by
  rw [hop, h, Option.getD_some]

theorem iterate_of_none {s : ι} (h : transparentPointee shapes s = none) (k : ℕ) :
    (hop shapes)^[k] s = s :=
  Function.iterate_fixed (by rw [hop, h, Option.getD_none]) k

theorem pointedTo_of_none [Fintype ι] {s : ι} (h : transparentPointee shapes s = none) :
    pointedTo shapes s = s :=
  iterate_of_none h _

/-- Along a chain of pointers every shape leads to the later ones. -/
theorem transGen_iterate {s : ι} {i j : ℕ} (hij : i < j)
    (h : ∀ k < j, (transparentPointee shapes ((hop shapes)^[k] s)).isSome = true) :
    Relation.TransGen (PointsTo shapes) ((hop shapes)^[i] s) ((hop shapes)^[j] s) := by
  induction j, hij using Nat.le_induction with
  | base =>
    apply Relation.TransGen.single
    obtain ⟨t, ht⟩ := Option.isSome_iff_exists.mp (h i (by omega))
    rw [Function.iterate_succ_apply', hop_of_some ht]
    exact ht
  | succ j hj ih =>
    apply (ih fun k hk => h k (by omega)).tail
    obtain ⟨t, ht⟩ := Option.isSome_iff_exists.mp (h j (by omega))
    rw [Function.iterate_succ_apply', hop_of_some ht]
    exact ht

theorem transparentPointee_pointedTo [Fintype ι] (hend : PointersEnd shapes) (s : ι) :
    transparentPointee shapes (pointedTo shapes s) = none := by
  by_contra hsome
  -- a chain that has ended stays where it is, so all of it is pointers
  have hall : ∀ k ≤ Fintype.card ι,
      (transparentPointee shapes ((hop shapes)^[k] s)).isSome = true := by
    intro k hk
    by_contra hnone
    rw [Bool.not_eq_true, Option.isSome_eq_false_iff, Option.isNone_iff_eq_none] at hnone
    apply hsome
    have hstay := iterate_of_none hnone (Fintype.card ι - k)
    rw [← Function.iterate_add_apply, Nat.sub_add_cancel hk] at hstay
    rw [pointedTo, hstay]
    exact hnone
  have hcycle : ∀ {i j : ℕ}, i < j → j ≤ Fintype.card ι →
      (hop shapes)^[i] s ≠ (hop shapes)^[j] s := by
    intro i j hij hj heq
    have hlead := transGen_iterate (s := s) hij fun k hk => hall k (by omega)
    rw [← heq] at hlead
    exact hend _ hlead
  obtain ⟨i, j, hne, heq⟩ := Fintype.exists_ne_map_eq_of_card_lt
    (fun k : Fin (Fintype.card ι + 1) => (hop shapes)^[k.val] s) (by simp)
  have hi := i.isLt
  have hj := j.isLt
  rcases Nat.lt_or_gt_of_ne fun h => hne (Fin.ext h) with h | h
  · exact hcycle h (by omega) heq
  · exact hcycle h (by omega) heq.symm

theorem pointedTo_of_some [Fintype ι] (hend : PointersEnd shapes) {s t : ι}
    (h : transparentPointee shapes s = some t) : pointedTo shapes s = pointedTo shapes t := by
  have hlast := iterate_of_none (transparentPointee_pointedTo hend s) 1
  calc pointedTo shapes s = hop shapes (pointedTo shapes s) := hlast.symm
    _ = (hop shapes)^[Fintype.card ι] (hop shapes s) := by
      rw [pointedTo, ← Function.iterate_succ_apply' (hop shapes), Function.iterate_succ_apply]
    _ = pointedTo shapes t := by rw [hop_of_some h, pointedTo]

end Pointers

section Traversal

variable (refOf : ι → Build ι σ (SchemaRef σ)) (kindOf : ι → Build ι σ (Kind (SchemaRef σ)))

theorem fields_eq_traverse (fields : List (Facet.Field ι)) :
    fields.mapM (field refOf) = (fields.map fieldKind).mapM (Field.traverse refOf) := by
  rw [List.mapM_map]
  rfl

theorem elements_eq_traverse (fields : List (Facet.Field ι)) :
    (fields.mapM fun f => refOf f.shape) = (fields.map Facet.Field.shape).mapM refOf := by
  rw [List.mapM_map]
  rfl

theorem variantPayload_eq_traverse (v : Facet.Variant ι) :
    variantPayload refOf v = (payloadKind v).traverse refOf := by
  rw [variantPayload, payloadKind]
  cases hfields : v.data.fields with
  | nil => rfl
  | cons f fs =>
    rw [if_neg (List.cons_ne_nil f fs)]
    cases hkind : v.data.kind with
    | unit => cases fs <;> rfl
    | struct => cases fs <;> simp only [VariantPayload.traverse, fields_eq_traverse]
    | tuple | tupleStruct =>
      cases fs with
      | nil => rfl
      | cons g gs => simp only [VariantPayload.traverse, elements_eq_traverse]

theorem enumVariants_eq_traverse (e : EnumType ι) :
    enumVariants refOf e = (enumKinds e).mapM (Variant.traverse refOf) := by
  rw [enumVariants, enumKinds, List.mapM_map]
  congr 1
  funext ⟨v, i⟩
  simp only [variantPayload_eq_traverse]
  rfl

theorem kindFromType_eq_traverse {shape : Shape ι}
    (hs : ∀ t, shape.ty ≠ .pointer (.reference t) ∧ shape.ty ≠ .pointer (.raw t)) :
    kindFromType refOf kindOf shape = (typeKind shape).traverse refOf := by
  rw [kindFromType, typeKind]
  cases hty : shape.ty with
  | primitive _ => rfl
  | undefined => rfl
  | sequence seq => cases seq <;> rfl
  | pointer p =>
    cases p with
    | reference target => exact absurd hty (hs target).1
    | raw target => exact absurd hty (hs target).2
    | function => rfl
  | user u =>
    cases u with
    | union => rfl
    | opaqueTy => rfl
    | enum e => simp only [Kind.traverse, enumVariants_eq_traverse]
    | struct st =>
      dsimp only
      rw [structKind.eq_def]
      cases st.kind with
      | tuple | tupleStruct => simp only [Kind.traverse, elements_eq_traverse]
      | unit | struct => simp only [Kind.traverse, fields_eq_traverse]

/-- The kind of a shape that is no transparent pointer never asks for the kind of a pointee. -/
theorem kindOfShape_eq_traverse {shapes : Shapes ι} {s : ι}
    (hs : transparentPointee shapes s = none) :
    kindOfShape refOf kindOf (shapes s) = (shapeKind (shapes s)).traverse refOf := by
  rw [kindOfShape, shapeKind]
  rw [transparentPointee] at hs
  cases primitiveOf (shapes s) with
  | some primitive => rfl
  | none =>
    cases hdef : (shapes s).def with
    | pointer pointee =>
      cases pointee with
      | none => rfl
      | some pointee => simp [hdef] at hs
    | result t e =>
      simp [Kind.traverse, Variant.traverse, VariantPayload.traverse]
    | scalar | undefined =>
      apply kindFromType_eq_traverse
      intro t
      constructor <;>
      · intro hty
        simp [hdef, hty] at hs
    | map k v => rfl
    | dynamicValue => rfl
    | set t | list t | array t n | ndArray t | slice t | option t => rfl

end Traversal

end Facet.Taxon
