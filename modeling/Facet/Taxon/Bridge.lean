import Facet.Core.Shape
import Facet.Taxon.Kind

/-!
# The schema batch of a shape

The bridge walks the shapes reachable from a root and gives every shape it meets a
schema id, pointers and references being transparent. An id is handed out before the
kind of its shape is known: the schema enters the batch with a placeholder kind that is
replaced when the walk below the shape is over. The ids come from a function of the
taxon crate that makes an id from a number.
-/

namespace Facet.Taxon

variable {ι σ : Type}

inductive SchemaRef (σ : Type)
  | concrete (id : σ)
  deriving DecidableEq

structure Schema (σ : Type) where
  id : σ
  kind : Kind (SchemaRef σ)
  deriving DecidableEq

structure ShapeKey (ι : Type) where
  id : ι
  declId : ℕ
  deriving DecidableEq

namespace ShapeKey

def of (shapes : Shapes ι) (shape : ι) : ShapeKey ι := ⟨shape, (shapes shape).declId⟩

end ShapeKey

def transparentPointee (shapes : Shapes ι) (shape : ι) : Option ι :=
  match (shapes shape).def with
  | .pointer pointee => pointee
  | _ =>
    match (shapes shape).ty with
    | .pointer (.reference target) | .pointer (.raw target) => some target
    | _ => none

def primitiveOfScalar : ScalarType → Option Primitive
  | .unit => some .unit
  | .bool => some .bool
  | .char => some .char
  | .str | .string | .cowStr => some .string
  | .f32 => some .f32
  | .f64 => some .f64
  | .u8 => some .u8
  | .u16 => some .u16
  | .u32 => some .u32
  | .u64 | .usize => some .u64
  | .u128 => some .u128
  | .i8 => some .i8
  | .i16 => some .i16
  | .i32 => some .i32
  | .i64 | .isize => some .i64
  | .i128 => some .i128
  | .constTypeId | .socketAddr | .ipAddr | .ipv4Addr | .ipv6Addr => none

def primitiveOf (shape : Shape ι) : Option Primitive := shape.scalarType.bind primitiveOfScalar

def rustName (shape : Shape ι) : String :=
  match shape.modulePath with
  | some modulePath => modulePath ++ "::" ++ shape.typeIdentifier
  | none => shape.typeIdentifier

def external {ρ : Type} (shape : Shape ι) (kind : String) : Kind ρ :=
  .external (kind ++ ":" ++ rustName shape) none

structure Builder (ι σ : Type) where
  schemas : List (Schema σ) := []
  seen : List (ShapeKey ι × σ) := []

abbrev Build (ι σ : Type) := StateT (Builder ι σ) Option

section Walk

/-- The kind below a shape, with `refOf` for the shapes it refers to. -/
def field (refOf : ι → Build ι σ (SchemaRef σ)) (f : Facet.Field ι) :
    Build ι σ (Field (SchemaRef σ)) := do
  let schema ← refOf f.shape
  return ⟨f.effectiveName, schema, f.default.isNone⟩

def variantPayload (refOf : ι → Build ι σ (SchemaRef σ)) (variant : Facet.Variant ι) :
    Build ι σ (VariantPayload (SchemaRef σ)) :=
  match variant.data.fields, variant.data.kind with
  | [], _ => return .unit
  | fields, .struct => return .struct (← fields.mapM (field refOf))
  | [f], .tuple | [f], .tupleStruct => return .newtype (← refOf f.shape)
  | fields, .tuple | fields, .tupleStruct =>
    return .tuple (← fields.mapM fun f => refOf f.shape)
  | _, .unit => return .unit

def enumVariants (refOf : ι → Build ι σ (SchemaRef σ)) (enumType : EnumType ι) :
    Build ι σ (List (Variant (SchemaRef σ))) :=
  enumType.variants.zipIdx.mapM fun (variant, index) => do
    let payload ← variantPayload refOf variant
    return ⟨variant.effectiveName, index % 2 ^ 32, payload⟩

def structKind (refOf : ι → Build ι σ (SchemaRef σ)) (shape : Shape ι)
    (structType : StructType ι) : Build ι σ (Kind (SchemaRef σ)) :=
  match structType.kind with
  | .tuple | .tupleStruct => return .tuple (← structType.fields.mapM fun f => refOf f.shape)
  | .unit | .struct =>
    return .struct shape.typeIdentifier (← structType.fields.mapM (field refOf))

def kindFromType (refOf : ι → Build ι σ (SchemaRef σ)) (kindOf : ι → Build ι σ (Kind (SchemaRef σ)))
    (shape : Shape ι) : Build ι σ (Kind (SchemaRef σ)) :=
  match shape.ty with
  | .primitive _ => return external shape "rust-primitive-unmapped"
  | .sequence (.array t n) => return .array (← refOf t) [n]
  | .sequence (.slice t) => return .list (← refOf t)
  | .user (.struct structType) => structKind refOf shape structType
  | .user (.enum enumType) =>
    return .enum shape.typeIdentifier (← enumVariants refOf enumType)
  | .user .union => return external shape "rust-union"
  | .user .opaqueTy => return external shape "rust-opaque"
  | .pointer (.reference target) | .pointer (.raw target) => kindOf target
  | .pointer .function => return external shape "rust-fn-pointer"
  | .undefined => return external shape "rust-undefined"

/-- `Builder::kind_of`; `kindOf` is the call on the pointee of a pointer. -/
def kindOfShape (refOf : ι → Build ι σ (SchemaRef σ)) (kindOf : ι → Build ι σ (Kind (SchemaRef σ)))
    (shape : Shape ι) : Build ι σ (Kind (SchemaRef σ)) :=
  match primitiveOf shape with
  | some primitive => return .primitive primitive
  | none =>
    match shape.def with
    | .map k v => do
      let key ← refOf k
      let value ← refOf v
      return .map key value
    | .set t => return .set (← refOf t)
    | .list t => return .list (← refOf t)
    | .array t n => return .array (← refOf t) [n]
    | .ndArray t => return .tensor (← refOf t) none
    | .slice t => return .list (← refOf t)
    | .option t => return .option (← refOf t)
    | .result t e => do
      let ok ← refOf t
      let err ← refOf e
      return .enum shape.typeIdentifier [⟨"Ok", 0, .newtype ok⟩, ⟨"Err", 1, .newtype err⟩]
    | .pointer (some pointee) => kindOf pointee
    | .pointer none => return external shape "rust-pointer-opaque"
    | .dynamicValue => return .dynamic
    | .scalar | .undefined => kindFromType refOf kindOf shape

variable [DecidableEq ι] (shapes : Shapes ι) (fromRaw : ℕ → σ)

def intern (kindOf : ι → Build ι σ (Kind (SchemaRef σ))) (shape : ι) : Build ι σ σ := do
  let b ← get
  match b.seen.find? fun e => e.1 = ShapeKey.of shapes shape with
  | some (_, id) => return id
  | none =>
    let index := b.schemas.length
    let id := fromRaw index
    -- the placeholder, so that the walk below finds the id
    set ({
      schemas := b.schemas ++ [⟨id, .dynamic⟩]
      seen := b.seen ++ [(ShapeKey.of shapes shape, id)] } : Builder ι σ)
    let kind ← kindOf shape
    modify fun b => { b with schemas := b.schemas.modify index fun schema => { schema with kind } }
    return id

mutual

/-- With a bound on the depth of the walk. -/
def refOf : ℕ → ι → Build ι σ (SchemaRef σ)
  | 0, _ => fun _ => none
  | depth + 1, shape =>
    match transparentPointee shapes shape with
    | some pointee => refOf depth pointee
    | none => do
      let id ← intern shapes fromRaw (kindOf depth) shape
      return .concrete id

def kindOf : ℕ → ι → Build ι σ (Kind (SchemaRef σ))
  | 0, _ => fun _ => none
  | depth + 1, shape => kindOfShape (refOf depth) (kindOf depth) (shapes shape)

end

/-- The builder after the walk from `shape`. -/
def walked (depth : ℕ) (shape : ι) : Option (Builder ι σ) :=
  (refOf shapes fromRaw depth shape {}).map Prod.snd

def schemasOf (depth : ℕ) (shape : ι) : Option (List (Schema σ)) :=
  (walked shapes fromRaw depth shape).map Builder.schemas

end Walk

end Facet.Taxon
