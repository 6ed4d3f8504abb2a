import Facet.Core.Variance

/-!
# Shapes

A shape is the reflected description of one type. Shapes refer to each other, and
recursive types make the references cyclic, so a program's shapes form a graph: a
type `ι` of shape identities and a shape record for each of them. Two references
are the same shape exactly when their identities are equal, which stands for both
the pointer comparison and the `ConstTypeId` comparison of the source.
-/

namespace Facet

/-- Where a field's default value comes from. -/
inductive DefaultSource
  | fromTrait
  | custom
  deriving DecidableEq, Repr

/-- An attribute set by the derive macro; built-in attributes have no namespace. -/
structure FieldAttribute where
  ns : Option String
  key : String
  deriving DecidableEq, Repr

/-- What an attribute's value is read as. -/
inductive AttributeData
  | none
  | i64 (value : ℤ)
  | usize (value : ℕ)
  | str (value : String)
  | function (id : ℕ)
  deriving DecidableEq, Repr

/-- An attribute of the `validate` namespace. -/
structure ValidateAttribute where
  key : String
  data : AttributeData := .none
  deriving DecidableEq, Repr

structure Field (ι : Type) where
  name : String
  shape : ι
  rename : Option String := none
  flatten : Bool := false
  default : Option DefaultSource := none
  attributes : List FieldAttribute := []
  /-- Redacted in debug output. -/
  sensitive : Bool := false
  /-- The field is never serialized. -/
  skipSerializing : Bool := false
  /-- A predicate on the field's value decides whether it is serialized. -/
  skipSerializingIf : Bool := false
  /-- The shape the field's value is converted through. -/
  proxy : Option ι := none
  doc : List String := []
  /-- Where the field lies in its value, in bytes. -/
  offset : ℕ := 0
  /-- Another name the field is read under. -/
  «alias» : Option String := none
  /-- The field is never deserialized. -/
  skipDeserializing : Bool := false
  /-- The function of a custom default. -/
  defaultFn : ℕ := 0
  /-- Proxies for one format, by its namespace. -/
  formatProxies : List (String × ι) := []
  /-- The attributes of the `validate` namespace; `attributes` holds the others. -/
  validations : List ValidateAttribute := []

namespace Field

variable {ι : Type} (f : Field ι)

def isFlattened : Bool := f.flatten

def hasDefault : Bool := f.default.isSome

def isSensitive : Bool := f.sensitive

def shouldSkipDeserializing : Bool := f.skipDeserializing

/-- The name on the wire. -/
def effectiveName : String := f.rename.getD f.name

def hasBuiltinAttr (key : String) : Bool := f.attributes.contains ⟨none, key⟩

def hasAttr (ns key : String) : Bool := f.attributes.contains ⟨some ns, key⟩

/-- The key as a built-in attribute or under the XML or HTML namespace. -/
def hasDomAttr (key : String) : Bool :=
  f.hasBuiltinAttr key || f.hasAttr "xml" key || f.hasAttr "html" key

def isText : Bool := f.hasDomAttr "text"

def isElements : Bool := f.hasDomAttr "elements"

def isAttribute : Bool := f.hasDomAttr "attribute"

def isTag : Bool := f.hasDomAttr "tag"

end Field

inductive StructKind
  | unit
  | tuple
  | tupleStruct
  | struct
  deriving DecidableEq, Repr

structure StructType (ι : Type) where
  kind : StructKind
  fields : List (Field ι)

structure Variant (ι : Type) where
  name : String
  data : StructType ι
  doc : List String := []
  discriminant : Option ℤ := none
  rename : Option String := none
  attributes : List FieldAttribute := []
  /-- The values of the variant's `alias` attributes. -/
  aliases : List String := []

namespace Variant

variable {ι : Type} (v : Variant ι)

/-- The name on the wire. -/
def effectiveName : String := v.rename.getD v.name

def isOther : Bool := v.attributes.contains ⟨none, "other"⟩

end Variant

/-- How the variant of an enum's value is stored. -/
inductive EnumRepr
  | rust
  | rustNPO
  | u8
  | u16
  | u32
  | u64
  | usize
  | i8
  | i16
  | i32
  | i64
  | isize
  deriving DecidableEq, Repr

structure EnumType (ι : Type) where
  variants : List (Variant ι)
  enumRepr : EnumRepr := .rust

inductive UserType (ι : Type)
  | struct (ty : StructType ι)
  | enum (ty : EnumType ι)
  | union
  | opaqueTy

inductive TextualType
  | char
  | str
  deriving DecidableEq, Repr

inductive PrimitiveType
  | boolean
  | numeric
  | textual (ty : TextualType)
  | never
  deriving DecidableEq, Repr

inductive SequenceType (ι : Type)
  | array (t : ι) (n : ℕ)
  | slice (t : ι)

inductive PointerType (ι : Type)
  | reference (target : ι)
  | raw (target : ι)
  | function

/-- The structural view of a type (the source's `Type`). -/
inductive Ty (ι : Type)
  | undefined
  | primitive (ty : PrimitiveType)
  | sequence (ty : SequenceType ι)
  | user (ty : UserType ι)
  | pointer (ty : PointerType ι)

/-- The semantic view of a type: what it can be built from and read as. -/
inductive Def (ι : Type)
  | undefined
  | scalar
  | map (k v : ι)
  | set (t : ι)
  | list (t : ι)
  | array (t : ι) (n : ℕ)
  | ndArray (t : ι)
  | slice (t : ι)
  | option (t : ι)
  | result (t e : ι)
  | pointer (pointee : Option ι)
  | dynamicValue

/-- The scalar types known by their type identity. -/
inductive ScalarType
  | unit
  | bool
  | char
  | str
  | string
  | cowStr
  | f32
  | f64
  | u8
  | u16
  | u32
  | u64
  | u128
  | usize
  | i8
  | i16
  | i32
  | i64
  | i128
  | isize
  | socketAddr
  | ipAddr
  | ipv4Addr
  | ipv6Addr
  | constTypeId
  deriving DecidableEq, Repr

structure Shape (ι : Type) where
  ty : Ty ι
  «def» : Def ι
  variance : VarianceDesc ι := .bivariant
  typeIdentifier : String := ""
  /-- The type a transparent wrapper or a container wraps. -/
  inner : Option ι := none
  /-- The shape values are converted through. -/
  proxy : Option ι := none
  tag : Option String := none
  content : Option String := none
  untagged : Bool := false
  /-- The vtable has an invariants function. -/
  hasInvariants : Bool := false
  /-- The name with its generic arguments, as `Display` writes it. -/
  typeName : String := ""
  doc : List String := []
  /-- The vtable has a `Display` function. -/
  isDisplay : Bool := false
  /-- The vtable has a `Debug` function. -/
  isDebug : Bool := false
  sized : Bool := true
  /-- The size in bytes of a sized type. -/
  size : ℕ := 0
  /-- The `Debug` text of the shape's two views, for the values no printer knows. -/
  debugViews : String := ""
  attributes : List FieldAttribute := []
  /-- The type deserializers build first and convert from. -/
  builderShape : Option ι := none
  /-- Proxies for one format, by its namespace. -/
  formatProxies : List (String × ι) := []
  /-- Which of the known scalar types this is. -/
  scalarType : Option ScalarType := none
  /-- This is `Vec<u8>`. -/
  isByteVec : Bool := false
  /-- The type operations have a `default_in_place` function. -/
  hasDefaultInPlace : Bool := false
  /-- The vtable has a `try_from` function. -/
  hasTryFrom : Bool := false
  /-- The vtable has a `parse` function. -/
  hasParse : Bool := false
  isMetadataContainer : Bool := false
  /-- The struct has the transparent representation. -/
  transparentRepr : Bool := false
  modulePath : Option String := none
  /-- The type is marked as plain old data. -/
  podFlag : Bool := false
  /-- The identity of the declaration, which the instances of a generic type share. -/
  declId : ℕ := 0

namespace Shape

variable {ι : Type} (shape : Shape ι)

def hasBuiltinAttr (key : String) : Bool := shape.attributes.contains ⟨none, key⟩

def hasDefaultAttr : Bool := shape.hasBuiltinAttr "default"

def hasDenyUnknownFieldsAttr : Bool := shape.hasBuiltinAttr "deny_unknown_fields"

def isPod : Bool :=
  match shape.ty with
  | .primitive _ => true
  | _ => shape.podFlag

def isTransparent : Bool :=
  shape.hasBuiltinAttr "transparent" ||
    match shape.ty with
    | .user (.struct _) => shape.transparentRepr
    | _ => false

end Shape

/-- All shapes of a program, by identity. -/
abbrev Shapes (ι : Type) := ι → Shape ι

end Facet
