import Mathlib.Data.Int.Notation
import Mathlib.Data.Nat.Notation
import Mathlib.Logic.Function.Basic

/-!
# Dynamic values

A dynamic value decides at run time whether it is a scalar, an array or an object. Its type is
only known through a vtable; what the vtable's functions promise, each under its precondition,
is stated over the JSON-like contents of the values.
-/

namespace Facet.Dynamic

/-- The kinds a dynamic value reports. -/
inductive DynValueKind
  | null | bool | number | string | bytes | array | object | dateTime | qName | uuid
  deriving DecidableEq, Repr

/-- The contents of a dynamic value. An object has no order of entries. -/
inductive Json (S : Type) : Type
  | scalar (s : S)
  | array (elements : List (Json S))
  | object (entries : String → Option (Json S))

namespace Json

variable {S : Type}

def isArray : Json S → Bool
  | array _ => true
  | _ => false

def isObject : Json S → Bool
  | object _ => true
  | _ => false

@[simp]
theorem isArray_array (xs : List (Json S)) : (array xs).isArray = true := rfl

@[simp]
theorem isObject_object (es : String → Option (Json S)) : (object es).isObject = true := rfl

theorem exists_of_isArray {j : Json S} (h : j.isArray = true) : ∃ xs, j = array xs := by
  cases j with
  | array xs => exact ⟨xs, rfl⟩
  | scalar s => cases h
  | object es => cases h

theorem exists_of_isObject {j : Json S} (h : j.isObject = true) : ∃ es, j = object es := by
  cases j with
  | object es => exact ⟨es, rfl⟩
  | scalar s => cases h
  | array xs => cases h

/-- The kind of a value, given those of the scalars. -/
def kind (kindOf : S → DynValueKind) : Json S → DynValueKind
  | scalar s => kindOf s
  | array _ => .array
  | object _ => .object

/-- The value under a key of an object. -/
def entry? (key : String) : Json S → Option (Json S)
  | object es => es key
  | _ => none

/-- Asking for an array: one that is there stays, anything else is replaced by an empty one. -/
def toArray : Option (Json S) → Json S
  | some (array xs) => array xs
  | _ => array []

/-- Asking for an object. -/
def toObject : Option (Json S) → Json S
  | some (object es) => object es
  | _ => object fun _ => none

theorem toObject_of_not_isObject {j : Json S} (h : j.isObject = false) :
    toObject (some j) = object fun _ => none := by
  cases j with
  | object es => cases h
  | scalar s => rfl
  | array xs => rfl

end Json

/-- How the scalars of a type represent what the setters are given. -/
structure Scalars (S F : Type) where
  null : S
  bool : Bool → S
  i64 : ℤ → S
  u64 : ℕ → S
  /-- `none` where the float is not representable. -/
  f64 : F → Option S
  str : String → S
  bytes : List UInt8 → S

/-- The functions a `DynamicValue` type supplies. A setter writes to memory that holds no value,
so it is the value it leaves there; a mutable reference is the value and the way to put another
one in its place. -/
structure DynamicValueVTable (V F : Type) where
  setNull : V
  setBool : Bool → V
  setI64 : ℤ → V
  setU64 : ℕ → V
  /-- `none` where the function returned `false`. -/
  setF64 : F → Option V
  setStr : String → V
  setBytes : Option (List UInt8 → V)
  beginArray : V
  pushArrayElement : V → V → V
  beginObject : V
  insertObjectEntry : V → String → V → V
  getKind : V → DynValueKind
  objectGetMut : Option (V → String → Option (V × (V → V)))

/-- A `DynamicValue` type: its vtable and what its values contain. The laws are the documented
contracts: `push_array_element` promises something of arrays only, `insert_object_entry` of
objects without the key, `object_get_mut` of objects. -/
structure DynamicType (S V F : Type) where
  vtable : DynamicValueVTable V F
  view : V → Json S
  scalars : Scalars S F
  kindOf : S → DynValueKind
  kindOf_ne_array : ∀ s, kindOf s ≠ .array
  kindOf_ne_object : ∀ s, kindOf s ≠ .object
  view_setNull : view vtable.setNull = .scalar scalars.null
  view_setBool : ∀ b, view (vtable.setBool b) = .scalar (scalars.bool b)
  view_setI64 : ∀ n, view (vtable.setI64 n) = .scalar (scalars.i64 n)
  view_setU64 : ∀ n, view (vtable.setU64 n) = .scalar (scalars.u64 n)
  view_setF64 : ∀ x, (vtable.setF64 x).map view = (scalars.f64 x).map .scalar
  view_setStr : ∀ s, view (vtable.setStr s) = .scalar (scalars.str s)
  view_setBytes : ∀ set ∈ vtable.setBytes, ∀ bs, view (set bs) = .scalar (scalars.bytes bs)
  view_beginArray : view vtable.beginArray = .array []
  view_pushArrayElement : ∀ a x xs, view a = .array xs →
    view (vtable.pushArrayElement a x) = .array (xs ++ [view x])
  view_beginObject : view vtable.beginObject = .object fun _ => none
  view_insertObjectEntry : ∀ o key x es, view o = .object es → es key = none →
    view (vtable.insertObjectEntry o key x) = .object (Function.update es key (some (view x)))
  getKind_eq : ∀ v, vtable.getKind v = (view v).kind kindOf
  objectGetMut_none : ∀ get ∈ vtable.objectGetMut, ∀ o key es, view o = .object es →
    (get o key = none ↔ es key = none)
  objectGetMut_some : ∀ get ∈ vtable.objectGetMut, ∀ o key es x put, view o = .object es →
    get o key = some (x, put) → es key = some (view x) ∧
      ∀ y, view (put y) = .object (Function.update es key (some (view y)))

namespace DynamicType

variable {S V F : Type} (D : DynamicType S V F)

theorem getKind_object_iff (v : V) :
    D.vtable.getKind v = .object ↔ (D.view v).isObject = true := by
  rw [D.getKind_eq]
  cases D.view v with
  | scalar s => simp [Json.kind, Json.isObject, D.kindOf_ne_object]
  | array xs => simp [Json.kind, Json.isObject]
  | object es => simp [Json.kind]

end DynamicType

/-- A value handed to `set`, as its shape presents it to the conversion. The float of either
width stands as the 64-bit float it converts to. -/
inductive Source (V F : Type)
  /-- A value of the dynamic type itself. -/
  | same (v : V)
  | boolean (b : Bool)
  | float (sizeBits : ℕ) (x : F)
  | signed (sizeBits : ℕ) (n : ℤ)
  | unsigned (sizeBits : ℕ) (n : ℕ)
  | char (c : Char)
  | text (s : String)
  | bytes (bs : List UInt8)
  | string (s : String)
  | other

namespace Source

variable {S V F : Type}

def IsSame : Source V F → Prop
  | same _ => True
  | _ => False

/-- What the value contains once converted. -/
def json (D : DynamicType S V F) : Source V F → Option (Json S)
  | same v => some (D.view v)
  | boolean b => some (.scalar (D.scalars.bool b))
  | float _ x => (D.scalars.f64 x).map .scalar
  | signed _ n => some (.scalar (D.scalars.i64 n))
  | unsigned _ n => some (.scalar (D.scalars.u64 n))
  | char c => some (.scalar (D.scalars.str (String.singleton c)))
  | text s => some (.scalar (D.scalars.str s))
  | bytes bs => some (.scalar (D.scalars.bytes bs))
  | string s => some (.scalar (D.scalars.str s))
  | other => none

end Source

/-- The scalars of a JSON value; a float stands as its bits. -/
inductive Atom
  | null
  | bool (b : Bool)
  | i64 (n : ℤ)
  | u64 (n : ℕ)
  | f64 (bits : UInt64)
  | str (s : String)
  | bytes (bs : List UInt8)
  deriving DecidableEq, Repr

namespace Atom

def kind : Atom → DynValueKind
  | null => .null
  | bool _ => .bool
  | i64 _ | u64 _ | f64 _ => .number
  | str _ => .string
  | bytes _ => .bytes

/-- Neither infinite nor NaN. -/
def isFinite (bits : UInt64) : Bool := (bits >>> 52) &&& 0x7ff != 0x7ff

end Atom

namespace Json

def push : Json Atom → Json Atom → Json Atom
  | array xs, x => array (xs ++ [x])
  | j, _ => j

def insert : Json Atom → String → Json Atom → Json Atom
  | object es, key, x => object (Function.update es key (some x))
  | j, _, _ => j

def getMut : Json Atom → String → Option (Json Atom × (Json Atom → Json Atom))
  | object es, key => (es key).map fun x => (x, fun y => object (Function.update es key (some y)))
  | _, _ => none

/-- JSON values, with or without access to the entries of an object. -/
def dynamicType (navigates : Bool) : DynamicType Atom (Json Atom) UInt64 where
  vtable :=
    { setNull := scalar .null
      setBool := fun b => scalar (.bool b)
      setI64 := fun n => scalar (.i64 n)
      setU64 := fun n => scalar (.u64 n)
      setF64 := fun x => if Atom.isFinite x then some (scalar (.f64 x)) else none
      setStr := fun s => scalar (.str s)
      setBytes := some fun bs => scalar (.bytes bs)
      beginArray := array []
      pushArrayElement := push
      beginObject := object fun _ => none
      insertObjectEntry := insert
      getKind := kind Atom.kind
      objectGetMut := if navigates then some getMut else none }
  view := id
  scalars :=
    { null := .null
      bool := .bool
      i64 := .i64
      u64 := .u64
      f64 := fun x => if Atom.isFinite x then some (.f64 x) else none
      str := .str
      bytes := .bytes }
  kindOf := Atom.kind
  kindOf_ne_array s := by cases s <;> exact DynValueKind.noConfusion
  kindOf_ne_object s := by cases s <;> exact DynValueKind.noConfusion
  view_setNull := rfl
  view_setBool _ := rfl
  view_setI64 _ := rfl
  view_setU64 _ := rfl
  view_setF64 x := by
    dsimp only
    cases Atom.isFinite x <;> rfl
  view_setStr _ := rfl
  view_setBytes set hset bs := by
    cases hset
    rfl
  view_beginArray := rfl
  view_pushArrayElement a x xs h := by
    obtain rfl : a = array xs := h
    rfl
  view_beginObject := rfl
  view_insertObjectEntry o key x es h _ := by
    obtain rfl : o = object es := h
    rfl
  getKind_eq _ := rfl
  objectGetMut_none get hget o key es h := by
    obtain rfl : o = object es := h
    cases navigates with
    | false => cases hget
    | true =>
      cases hget
      simp [getMut]
  objectGetMut_some get hget o key es x put h hx := by
    obtain rfl : o = object es := h
    cases navigates with
    | false => cases hget
    | true =>
      cases hget
      obtain ⟨y, hy, hput⟩ := Option.map_eq_some_iff.mp hx
      cases hput
      exact ⟨hy, fun _ => rfl⟩

end Json

end Facet.Dynamic
