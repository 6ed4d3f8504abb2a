import Facet.Frames.Frame

/-!
# What the frames call

The functions that a partial value calls through the vtables of its types, the allocator and the
type plan. Their effect on the memory is left open; what they return is what the frames depend
on.
-/

namespace Facet.Frames

open TypePlan

variable (ι P N Mem : Type)

inductive KnownPointer
  | box
  | rc
  | arc
  | cow
  | sharedReference
  | other
  deriving DecidableEq, Repr

structure ListVTable where
  initInPlaceWithCapacity : Option (P → ℕ → Mem → Mem)
  len : P → Mem → ℕ
  push : Option (P → P → Mem → Mem)

structure OptionVTable where
  initSome : P → P → Mem → Mem
  /-- The address of the inner value; `none` is the null pointer. -/
  getValue : P → Mem → Option P

structure ResultVTable where
  initOk : P → P → Mem → Mem
  initErr : P → P → Mem → Mem

structure SliceBuilderVTable where
  newFn : Mem → P × Mem
  pushFn : P → P → Mem → Mem
  convertFn : P → Mem → P × Mem
  freeFn : P → Mem → Mem

structure PointerVTable where
  newIntoFn : Option (P → P → Mem → Mem)
  borrowFromPointeeFn : Option (P → P → Mem → Mem)
  promoteToOwnedFn : Option (P → Mem → Mem)
  hasSliceBuilder : Bool
  sliceBuilderVTable : SliceBuilderVTable P Mem
  known : Option KnownPointer

structure DynamicValueVTable where
  setNull : P → Mem → Mem
  beginArray : P → Mem → Mem
  /-- A value of another type, converted. -/
  setConverted : ι → P → P → Mem → Except (ReflectErrorKind ι) Mem
  pushArrayElement : P → P → Mem → Mem
  insertObjectEntry : P → String → P → Mem → Mem

inductive TryFromOutcome
  | converted
  | unsupported
  | failed (message : String)

/-- The vtables of the types, and the memory they work on. -/
structure Vtables where
  /-- The address of a part, at its offset. -/
  fieldUninit : P → ℕ → P
  alloc : ι → Mem → P × Mem
  dealloc : P → ℕ → Mem → Mem
  copyNonoverlapping : P → P → ℕ → Mem → Mem
  callDropInPlace : ι → P → Mem → Mem
  callDefaultInPlace : ι → P → Mem → Option Mem
  /-- The custom default functions of fields. -/
  defaultFn : ℕ → P → Mem → Mem
  readField : P → Mem → FieldPtr
  validators : ValidatorEnv
  writeDiscriminant : EnumRepr → P → ℤ → Mem → Mem
  list : ι → ListVTable P Mem
  option : ι → OptionVTable P Mem
  result : ι → ResultVTable P Mem
  pointer : ι → PointerVTable P Mem
  dynamicValue : ι → DynamicValueVTable ι P Mem
  mapInsert : ι → P → P → P → Mem → Mem
  setInsert : ι → P → P → Mem → Mem
  /-- A string moved into a `Box<str>`, `Rc<str>`, `Arc<str>` or `Cow<str>`. -/
  writeString : KnownPointer → P → P → Mem → Mem
  tryFrom : ι → P → ι → P → Mem → TryFromOutcome × Mem
  /-- The conversion out of a proxy returns the address that it wrote to. -/
  convertIn : ℕ → P → P → Mem → Except String P × Mem
  /-- The conversion of a field-level proxy. -/
  fieldProxy : Field ι → Option ℕ
  /-- The address of a rope's next slot, in a chunk that may have to be allocated. -/
  nextSlot : ι → ListRope P → Mem → P × Mem
  freeChunks : ListRope P → Mem → Mem
  isStr : ι → Bool
  isString : ι → Bool
  isUnit : ι → Bool
  string : ι
  /-- Parsing a string, for the types that can be parsed. -/
  parse : ι → Option (String → P → Mem → Option Mem)

inductive FieldDefault
  | custom (fn : ℕ)
  | fromTrait (shape : ι)

inductive FillRule
  | defaultable (default : FieldDefault ι)
  | required

structure FieldInitPlan where
  index : ℕ
  offset : ℕ
  name : String
  fillRule : FillRule ι
  validators : List ValidatorKind

inductive TypePlanNodeKind
  | struct (fields : List (FieldInitPlan ι))
  | enum (variants : List (List (FieldInitPlan ι)))
  | other

/-- The plan of the root type, whose nodes the frames refer to. -/
structure TypePlanCore where
  kind : N → TypePlanNodeKind ι
  structFieldNodeId : N → ℕ → Option N
  enumVariantFieldNodeId : N → ℕ → ℕ → Option N
  listItemNodeId : N → Option N
  optionSomeNodeId : N → Option N
  pointerInnerNodeId : N → Option N
  innerNodeId : N → Option N
  /-- The variant of a name in an enum's plan; `none` if the node is not an enum's. -/
  variantLookup : N → Option (String → Option ℕ)

/-- What stays the same while a value is built. -/
structure Env where
  shapes : Shapes ι
  vtables : Vtables ι P Mem
  plan : TypePlanCore ι N

end Facet.Frames
