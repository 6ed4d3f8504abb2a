import Facet.Core.Shape

/-!
# Values under reflection

A program's memory as the pretty-printer sees it. A value is named by its identity,
the shape and the address it is read at, and a view says what one look at it gives:
its own text where it is a leaf, the identities of its parts otherwise. Converting a
value to a proxy runs user code over the whole value, so it is a read of its own.
-/

namespace Facet.Pretty

inductive DynDateTimeKind
  | offset (offsetMinutes : ℤ)
  | localDateTime
  | localDate
  | localTime

structure DynDateTime where
  year : ℤ
  month : ℕ
  day : ℕ
  hour : ℕ
  minute : ℕ
  second : ℕ
  nanos : ℕ
  kind : DynDateTimeKind

/-- A dynamic number is read as the first of the three it fits. -/
inductive DynNumber
  | i64 (n : ℤ)
  | u64 (n : ℕ)
  | f64 (text : String)

/-- What a dynamic value holds. -/
inductive DynValue (ν : Type)
  | null
  | bool (b : Bool)
  | number (n : DynNumber)
  | string (s : String)
  | bytes (bytes : List UInt8)
  | array (elems : List ν)
  | object (entries : List (String × ν))
  | dateTime (dt : DynDateTime)
  | qName
  | uuid

/-- What one look at a value gives. -/
structure View (ι ν : Type) where
  shape : ι
  /-- The field at an index of a struct or of an enum's active variant. -/
  field : ℕ → ν
  /-- The characters of a `str` or a `String`. -/
  str : String := ""
  /-- The texts that the shape's own `Display` and `Debug` functions write. -/
  display : String := ""
  debug : String := ""
  /-- The address in a raw or function pointer. -/
  address : String := ""
  byte : UInt8 := 0
  /-- The index of an enum's active variant, where it can be determined. -/
  activeVariant : Option ℕ := none
  option : Option ν := none
  result : Option (Except ν ν) := none
  items : List ν := []
  entries : List (ν × ν) := []
  dynamic : DynValue ν := .null
  /-- What a pointer that can be borrowed points to. -/
  pointee : Option ν := none
  /-- What a transparent wrapper lends out. -/
  inner : Option ν := none

structure Memory (ι ν : Type) where
  view : ν → View ι ν
  /-- The proxy of the given shape that the value converts to. -/
  convertOut : ν → ι → Except String ν
  /-- The answer of a field's skip predicate on the field's value. -/
  skipPredicate : ν → Bool := fun _ => false

variable {ι ν : Type}

/-- The fields' description: of the struct, or of the enum's active variant. -/
def View.data (shapes : Shapes ι) (view : View ι ν) : Option (StructType ι) :=
  match (shapes view.shape).ty with
  | .user (.struct ty) => some ty
  | .user (.enum ty) => (view.activeVariant.bind (ty.variants[·]?)).map Variant.data
  | _ => none

end Facet.Pretty
