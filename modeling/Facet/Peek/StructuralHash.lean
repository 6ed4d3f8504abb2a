import Facet.Core.ValueOps
import Facet.Pretty.Value

/-!
# Structural hashing

A value is hashed by what its shape says it is made of, unless its shape has a hash function of
its own. The identity of the shape goes to the hasher first.
-/

namespace Facet.Peek

open Pretty
open ValueOps (Write HashCall)

/-- What is hashed beside bytes and lengths. -/
inductive Token (ι : Type)
  | typeId (id : ι)
  | u32 (n : ℕ)
  | i64 (n : ℤ)
  | u64 (n : ℕ)
  | isize (n : ℤ)
  | str (s : String)
  | bytes (bytes : List UInt8)
  deriving DecidableEq

/-- The calls of a hasher, in order. -/
abbrev Hashed (ι : Type) := List (Write (Token ι))

/-- What hashing reads of a memory beside its views. -/
structure Hashing (ι ν : Type) extends Memory ι ν where
  /-- The hash function of the value's shape. -/
  callHash : ν → HashCall (Token ι)
  isMetadata : Field ι → Bool := fun _ => false
  /-- The bits of a float, also of a dynamic number that is read as one. -/
  toBits : ν → ℕ := fun _ => 0
  /-- The dimensions of an array of the `ndarray` kind. -/
  dims : ν → List ℕ := fun _ => []
  /-- What a dynamic value that is not plain data is read as. -/
  asStr : ν → Option String := fun _ => none

inductive HashStop
  | outOfFuel
  | panicked
  deriving DecidableEq

end Facet.Peek

namespace Facet

def StructKind.discriminant : StructKind → ℕ
  | .unit => 0
  | .tupleStruct => 1
  | .struct => 2
  | .tuple => 3

namespace Pretty

def DynValue.kind {ν : Type} : DynValue ν → ℤ
  | .null => 0
  | .bool _ => 1
  | .number _ => 2
  | .string _ => 3
  | .bytes _ => 4
  | .array _ => 5
  | .object _ => 6
  | .dateTime _ => 7
  | .qName => 8
  | .uuid => 9

end Pretty

namespace Peek

open Pretty
open ValueOps (Write HashCall)

variable {ι ν β : Type}

section Run

variable (shapes : Shapes ι) (m : Hashing ι ν) (hash : ν → Except HashStop (Hashed ι))

/-- One after another. -/
def hashEach (f : β → Except HashStop (Hashed ι)) (xs : List β) : Except HashStop (Hashed ι) :=
  (xs.mapM f).map List.flatten

def hashCounted (f : β → Except HashStop (Hashed ι)) (xs : List β) :
    Except HashStop (Hashed ι) :=
  (hashEach f xs).map (.usize xs.length :: ·)

def hashNamed (entry : String × ν) : Except HashStop (Hashed ι) :=
  (hash entry.2).map (.leaf (.str entry.1) :: ·)

def hashPair (entry : ν × ν) : Except HashStop (Hashed ι) := do
  let key ← hash entry.1
  (hash entry.2).map (key ++ ·)

def hashField (view : View ι ν) (entry : Field ι × ℕ) : Except HashStop (Hashed ι) :=
  hashNamed hash (entry.1.name, view.field entry.2)

def hashPayload (view : View ι ν) (data : StructType ι) : Except HashStop (Hashed ι) :=
  match data.kind with
  | .unit => .ok []
  | .tupleStruct | .tuple => hashEach (fun e => hash (view.field e.2)) data.fields.zipIdx
  | .struct => hashEach (hashField hash view) data.fields.zipIdx

def hashNumber (bits : ℕ) : DynNumber → Hashed ι
  | .i64 n => [.u8 0, .leaf (.i64 n)]
  | .u64 n => [.u8 1, .leaf (.u64 n)]
  | .f64 _ => [.u8 2, .leaf (.u64 bits)]

/-- What follows the kind of a dynamic value. -/
def hashDynamic (v : ν) : DynValue ν → Except HashStop (Hashed ι)
  | .null => .ok []
  | .bool b => .ok [.u8 b.toNat]
  | .number n => .ok (hashNumber (m.toBits v) n)
  | .string s => .ok [.leaf (.str s)]
  | .bytes bytes => .ok [.usize bytes.length, .leaf (.bytes bytes)]
  | .array elems => hashCounted hash elems
  | .object entries => hashCounted (hashNamed hash) entries
  | .dateTime _ | .qName | .uuid => .ok ((m.asStr v).toList.map fun s => .leaf (.str s))

/-- `PeekDynamicValue::structural_hash_inner`. -/
def structuralHashInner (v : ν) : Except HashStop (Hashed ι) :=
  let value := (m.view v).dynamic
  (hashDynamic m hash v value).map (.leaf (.isize value.kind) :: ·)

def hashOption : Option ν → Except HashStop (Hashed ι)
  | some inner => (hash inner).map (.u8 1 :: ·)
  | none => .ok [.u8 0]

def hashResult : Option (Except ν ν) → Except HashStop (Hashed ι)
  | some (.ok inner) => (hash inner).map (.u8 0 :: ·)
  | some (.error inner) => (hash inner).map (.u8 1 :: ·)
  | none => .ok [.u8 1]

/-- A pointer that cannot be borrowed adds nothing. -/
def hashPointee : Option ν → Except HashStop (Hashed ι)
  | some inner => hash inner
  | none => .ok []

/-- The branches on the semantic view of the shape. -/
def hashByDef (v : ν) : Except HashStop (Hashed ι) :=
  let view := m.view v
  match (shapes view.shape).def with
  | .list _ | .array _ _ | .slice _ | .set _ => hashCounted hash view.items
  | .map _ _ => hashCounted (hashPair hash) view.entries
  | .option _ => hashOption hash view.option
  | .result _ _ => hashResult hash view.result
  | .pointer _ => hashPointee hash view.pointee
  | .dynamicValue => structuralHashInner m hash v
  | .ndArray _ =>
    (hashEach hash view.items).map fun elems =>
      .usize (m.dims v).length :: (m.dims v).map .usize ++ elems
  | .scalar | .undefined =>
    match (shapes view.shape).scalarType with
    | some .f32 => .ok [.leaf (.u32 (m.toBits v))]
    | some .f64 => .ok [.leaf (.u64 (m.toBits v))]
    | _ => .error .panicked

/-- The value by its structure, its parts with `hash`. An option is an enum by its type, so its
payload is what is at the declared offset of the field of `Some`. -/
def hashParts (v : ν) : Except HashStop (Hashed ι) :=
  let view := m.view v
  match (shapes view.shape).ty with
  | .user (.struct st) =>
    (hashEach (hashField hash view) (st.fields.zipIdx.filter fun e => !m.isMetadata e.1)).map
      (.u8 st.kind.discriminant :: ·)
  | .user (.enum en) =>
    match view.activeVariant.bind (en.variants[·]?) with
    | none => .error .panicked
    | some variant =>
      (hashPayload hash view variant.data).map (.leaf (.str variant.name) :: ·)
  | _ => hashByDef shapes m hash v

/-- What is hashed before the structure is looked at. -/
def ownHash (v : ν) : Hashed ι := .leaf (.typeId (m.view v).shape) :: (m.callHash v).writes

/-- `Peek::structural_hash`. -/
def structuralHash : ℕ → ν → Except HashStop (Hashed ι)
  | 0, _ => .error .outOfFuel
  | n + 1, v =>
    if (m.callHash v).answered then .ok (ownHash m v)
    else (hashParts shapes m (structuralHash n) v).map (ownHash m v ++ ·)

end Run

end Peek

end Facet
