import Facet.Core.Shape
import Facet.Lib.PlacedTree

/-!
# Values in memory

A value with everything it owns is a tree: each node has the shape the value is viewed
with, what its memory says of it (the active variant, the kind of a dynamic value, or that
it is not initialised), and below it the values it holds. A token marks a value whose
ownership is followed.
-/

namespace Facet.Poke

variable {ι : Type}

/-- What a dynamic value holds itself; elements and entries are below it. -/
inductive DynContent
  | null
  | bool (v : Bool)
  | i64 (v : ℤ)
  | u64 (v : ℕ)
  | f64 (bits : BitVec 64)
  | string (v : String)
  | bytes (v : List (BitVec 8))
  | array
  | object (keys : List String)
  | dateTime
  | qName
  | uuid
  deriving DecidableEq

inductive Head
  | scalar (datum : ℕ)
  | struct
  | variant (index : ℕ)
  | none
  | some
  | ok
  | err
  /-- A list, an array or a slice. -/
  | list
  /-- Keys and values in turn. -/
  | map
  | set
  | ndArray
  | pointer
  | dynamic (content : DynContent)
  | uninit
  deriving DecidableEq

structure Label (ι : Type) where
  shape : ι
  head : Head
  token : Option ℕ := none
  deriving DecidableEq

abbrev Value (ι : Type) := PlacedTree (Label ι)

abbrev Place := List ℕ

namespace Value

def shape (v : Value ι) : ι := v.label.shape

def head (v : Value ι) : Head := v.label.head

/-- Memory for a value of a shape, not initialised. -/
def uninit (shape : ι) : Value ι := .node ⟨shape, .uninit, none⟩ []

/-- The tokens of the values in a tree. -/
def tokens (v : Value ι) : Multiset ℕ := v.labels.filterMap Label.token

def Initialised (v : Value ι) : Prop := v.head ≠ .uninit

instance (v : Value ι) : Decidable v.Initialised := inferInstanceAs (Decidable (_ ≠ _))

/-- Everything in the tree is initialised. -/
def Whole (v : Value ι) : Prop := ∀ l ∈ v.labels, l.head ≠ .uninit

instance (v : Value ι) : Decidable v.Whole :=
  inferInstanceAs (Decidable (∀ l ∈ v.labels, _))

end Value

/-- The tables of functions behind the shapes, as far as they can be missing or refuse. -/
structure Tables (ι : Type) where
  listGetMut : ι → Bool
  listPush : ι → Bool
  listPop : ι → Bool
  listSwap : ι → Bool
  listAsMutPtr : ι → Bool
  ndArrayGetMut : ι → Bool
  dynSetBytes : ι → Bool
  dynEndArray : ι → Bool
  dynEndObject : ι → Bool
  dynObjectGetMut : ι → Bool
  /-- A float that the dynamic value type can hold. -/
  representable : ι → BitVec 64 → Bool
  /-- Equality of the keys of a map and of the elements of a set. -/
  keyEq : ι → Value ι → Value ι → Bool
  /-- Where the compiler puts the value of an option that holds one. -/
  someOffset : ι → ℕ

/-- A shape that only its definition describes. -/
def ByDefOnly (shape : Shape ι) : Prop :=
  match shape.ty with
  | .user (.struct _) | .user (.enum _) => False
  | _ => True

/-- The fields of the variant of an option's enum that has fields, or has none. -/
def optionFields (enumType : EnumType ι) (isSome : Bool) : Option (List (Field ι)) :=
  (enumType.variants.find? fun v => (!v.data.fields.isEmpty) == isSome).map fun v =>
    v.data.fields

/-- The two views of a shape say the same: a container is not a struct or an enum, but for
an option, which may be seen as an enum with one variant that holds its value, and which is
never marked as plain old data. -/
def ViewsAgree (shape : Shape ι) : Prop :=
  match shape.def with
  | .option t =>
    match shape.ty with
    | .user (.struct _) => False
    | .user (.enum enumType) =>
      shape.podFlag = false ∧ optionFields enumType false = some [] ∧
        (optionFields enumType true).map (List.map Field.shape) = some [t]
    | _ => True
  | .list _ | .array _ _ | .slice _ | .map _ _ | .set _ | .ndArray _ | .result _ _
  | .dynamicValue => ByDefOnly shape
  | _ => True

/-- A program's shapes and the functions behind them. -/
structure Runtime (ι : Type) where
  shapes : Shapes ι
  tables : Tables ι
  viewsAgree : ∀ shape, ViewsAgree (shapes shape)

end Facet.Poke
