import Std.Data.TreeMap
import Std.Data.TreeSet
import Mathlib.Tactic
import Facet.Core.Shape

/-!
# Resolutions

A resolution is one shape a flattened type can take once a variant has been chosen
for every enum in its flatten paths: the fields it then has, which of them are
required, and the key paths known for probing.
-/

namespace Facet.Flatten

open Std

variable {ι : Type}

/-- Category of a field for format-aware field lookup. -/
inductive FieldCategory
  | flat
  | attribute
  | element
  | text
  | tag
  | elements
  deriving DecidableEq, Repr

/-- The position of a category in its declaration, which orders the index maps. -/
def FieldCategory.index : FieldCategory → ℕ
  | .flat => 0
  | .attribute => 1
  | .element => 2
  | .text => 3
  | .tag => 4
  | .elements => 5

theorem FieldCategory.index_injective : Function.Injective FieldCategory.index := by
  intro a b h
  cases a <;> cases b <;> first | rfl | exact absurd h (by decide)

instance : Ord FieldCategory := ⟨compareOn FieldCategory.index⟩

instance : TransOrd FieldCategory := inferInstanceAs (TransCmp (compareOn FieldCategory.index))

instance : LawfulEqOrd FieldCategory where
  eq_of_compare {a b} h :=
    FieldCategory.index_injective (Std.compare_eq_iff_eq.mp (show compare a.index b.index = .eq from h))

/-- The debug form of a category, part of how keys are displayed. -/
def FieldCategory.debug : FieldCategory → String
  | .flat => "Flat"
  | .attribute => "Attribute"
  | .element => "Element"
  | .text => "Text"
  | .tag => "Tag"
  | .elements => "Elements"

/-- The category of a field in a DOM format, `none` for flattened fields. -/
def FieldCategory.fromFieldDom (field : Field ι) : Option FieldCategory :=
  if field.isFlattened then none
  else if field.isAttribute then some .attribute
  else if field.isText then some text
  else if field.isTag then some tag
  else if field.isElements then some elements
  else some element

/-- A key for field lookup in schemas and solvers. -/
inductive FieldKey
  | flat (name : String)
  | dom (cat : FieldCategory) (name : String)
  deriving DecidableEq, Repr

namespace FieldKey

def name : FieldKey → String
  | flat name => name
  | dom _ name => name

def display : FieldKey → String
  | flat name => name
  | dom cat name => cat.debug ++ ":" ++ name

/-- Flat keys come before DOM keys, which are ordered by category and then name. -/
def rank : FieldKey → ℕ × String
  | flat name => (0, name)
  | dom cat name => (cat.index + 1, name)

theorem rank_injective : Function.Injective rank := by
  rintro (a | ⟨c, a⟩) (b | ⟨d, b⟩) h
  · simpa [rank] using h
  · simp [rank] at h
  · simp [rank] at h
  · have hcat : c = d :=
      FieldCategory.index_injective (by simpa [rank] using congrArg Prod.fst h)
    have hname : a = b := congrArg Prod.snd h
    rw [hcat, hname]

attribute [local instance] lexOrd in
instance : Ord FieldKey := ⟨compareOn rank⟩

attribute [local instance] lexOrd in
instance : TransOrd FieldKey := inferInstanceAs (TransCmp (compareOn rank))

attribute [local instance] lexOrd in
instance : LawfulEqOrd FieldKey where
  eq_of_compare {a b} h :=
    rank_injective (Std.compare_eq_iff_eq.mp (show compare a.rank b.rank = .eq from h))

end FieldKey

/-- The key of an XML attribute. -/
def FieldKey.ofAttribute (name : String) : FieldKey := .dom .attribute name

/-- The key of a child element. -/
def FieldKey.ofElement (name : String) : FieldKey := .dom .element name

/-- The key of text content, which has no name. -/
def FieldKey.ofText : FieldKey := .dom .text ""

/-- A path of serialized key names for probing. -/
abbrev KeyPath := List String

inductive PathSegment
  | field (name : String)
  | variant (fieldName variantName : String)
  deriving DecidableEq, Repr

/-- A path through the type tree to a field. -/
abbrev FieldPath := List PathSegment

def FieldPath.pushField (path : FieldPath) (name : String) : FieldPath := path ++ [.field name]

def FieldPath.pushVariant (path : FieldPath) (fieldName variantName : String) : FieldPath :=
  path ++ [.variant fieldName variantName]

/-- Records that a specific enum field has a specific variant selected. -/
structure VariantSelection where
  path : FieldPath
  enumName : String
  variantName : String
  deriving DecidableEq, Repr

/-- Information about a single field in a resolution. -/
structure FieldInfo (ι : Type) where
  serializedName : String
  path : FieldPath
  required : Bool
  valueShape : ι
  field : Field ι
  category : FieldCategory

def FieldInfo.key (info : FieldInfo ι) : FieldKey :=
  match info.category with
  | .flat => .flat info.serializedName
  | cat => .dom cat info.serializedName

/-- A field with the same key but another path. -/
structure DuplicateFieldError where
  fieldName : String
  firstPath : FieldPath
  secondPath : FieldPath
  deriving DecidableEq, Repr

/-- One possible shape the flattened type could take. -/
structure Resolution (ι : Type) where
  variantSelections : List VariantSelection := []
  fields : TreeMap FieldKey (FieldInfo ι) := ∅
  requiredFieldNames : TreeSet String := ∅
  knownPaths : TreeSet KeyPath := ∅
  catchAllMaps : TreeMap FieldCategory (FieldInfo ι) := ∅

namespace Resolution

def new : Resolution ι := {}

def setCatchAllMap (r : Resolution ι) (cat : FieldCategory) (info : FieldInfo ι) :
    Resolution ι :=
  { r with catchAllMaps := r.catchAllMaps.insert cat info }

def addKeyPath (r : Resolution ι) (path : KeyPath) : Resolution ι :=
  { r with knownPaths := r.knownPaths.insert path }

/-- The error for a field whose key is taken by a field from another path. -/
def conflict (r : Resolution ι) (key : FieldKey) (info : FieldInfo ι) :
    Option DuplicateFieldError :=
  match r.fields[key]? with
  | some existing =>
    if existing.path ≠ info.path then
      some ⟨info.serializedName, existing.path, info.path⟩
    else none
  | none => none

/-- The field and its name among the required ones, without the duplicate check. -/
def putField (r : Resolution ι) (key : FieldKey) (info : FieldInfo ι) : Resolution ι :=
  { r with
    fields := r.fields.insert key info
    requiredFieldNames :=
      if info.required then r.requiredFieldNames.insert info.serializedName
      else r.requiredFieldNames }

/-- The loop body shared by `add_field` and `merge`. -/
def tryPutField (r : Resolution ι) (key : FieldKey) (info : FieldInfo ι) :
    Except DuplicateFieldError (Resolution ι) :=
  match r.conflict key info with
  | some e => .error e
  | none => .ok (r.putField key info)

def addField (r : Resolution ι) (info : FieldInfo ι) :
    Except DuplicateFieldError (Resolution ι) :=
  r.tryPutField info.key info

def addVariantSelection (r : Resolution ι) (path : FieldPath) (enumName variantName : String) :
    Resolution ι :=
  { r with variantSelections := r.variantSelections ++ [⟨path, enumName, variantName⟩] }

/-- Merge the fields of another resolution, in key order, stopping at the first conflict. -/
def mergeFields (r : Resolution ι) :
    List (FieldKey × FieldInfo ι) → Except DuplicateFieldError (Resolution ι)
  | [] => .ok r
  | (key, info) :: rest =>
    match r.tryPutField key info with
    | .error e => .error e
    | .ok r' => r'.mergeFields rest

def merge (r other : Resolution ι) : Except DuplicateFieldError (Resolution ι) :=
  match r.mergeFields other.fields.toList with
  | .error e => .error e
  | .ok r' => .ok { r' with
      variantSelections := r'.variantSelections ++ other.variantSelections
      knownPaths := other.knownPaths.foldl (·.insert ·) r'.knownPaths
      catchAllMaps := other.catchAllMaps.foldl (·.insert · ·) r'.catchAllMaps }

/-- Used when a flattened field is wrapped in an `Option`. -/
def markAllOptional (r : Resolution ι) : Resolution ι :=
  { r with
    requiredFieldNames := ∅
    fields := r.fields.map fun _ info => { info with required := false } }

/-- The linear search compares keys structurally. -/
def fieldByKey (r : Resolution ι) (key : FieldKey) : Option (FieldInfo ι) :=
  r.fields.toList.findSome? fun (k, v) => if k = key then some v else none

/-- The chosen variants, such as `Auth::Token + Transport::Tcp`. -/
def describe (r : Resolution ι) : String :=
  if r.variantSelections = [] then "(no variants)"
  else " + ".intercalate
    (r.variantSelections.map fun vs => vs.enumName ++ "::" ++ vs.variantName)

def hasKeyPath (r : Resolution ι) (path : KeyPath) : Bool := r.knownPaths.contains path

def fieldByName (r : Resolution ι) (name : String) : Option (FieldInfo ι) :=
  r.fields.values.find? fun f => f.serializedName == name

end Resolution

end Facet.Flatten
