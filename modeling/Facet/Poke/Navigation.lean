import Facet.Path.Access
import Facet.Poke.Value

/-!
# From a value to one inside it

Each way to get a `Poke` on a part of a value answers the place of the part below the
value, or refuses. Where a function of a table is called that asks for more than the
value gives, its contract is violated.
-/

namespace Facet.Poke

open Facet.Path (PathStep PathAccessError)

variable {ι : Type}

inductive Refusal (ι : Type)
  | wasNotA (expected : String) (actual : ι)
  | wrongShape (expected actual : ι)
  | notPod (shape : ι)
  | indexOutOfBounds (shape : ι) (index bound : ℕ)
  | noSuchField (shape : ι)
  | operationFailed (shape : ι) (operation : String)
  | isUnsized (shape : ι) (operation : String)
  | pathAccess (e : PathAccessError ι)
  /-- `None` or `false`. -/
  | absent
  /-- A panic, before anything is changed. -/
  | panicked
  deriving DecidableEq

/-- What a call does against the contract of the function it calls. -/
inductive Violation
  | notInitialised
  | overwritesLive
  | notAnArray
  | notAnObject
  | outOfBounds
  /-- A `Poke` on memory that does not hold a value of its shape. -/
  | misplaced
  deriving DecidableEq, Repr

abbrev Reply (ι α : Type) := Except (Refusal ι) α

abbrev Checked (α : Type) := Except Violation α

namespace Runtime

variable (R : Runtime ι)

section Views

variable (x : Value ι)

def intoStruct : Reply ι (StructType ι) :=
  match (R.shapes x.shape).ty with
  | .user (.struct structType) => .ok structType
  | _ => .error (.wasNotA "struct" x.shape)

def intoEnum : Reply ι (EnumType ι) :=
  match (R.shapes x.shape).ty with
  | .user (.enum enumType) => .ok enumType
  | _ => .error (.wasNotA "enum" x.shape)

def intoTuple : Reply ι (StructType ι) :=
  match (R.shapes x.shape).ty with
  | .user (.struct structType) =>
    if structType.kind = .tuple then .ok structType else .error (.wasNotA "tuple" x.shape)
  | _ => .error (.wasNotA "tuple" x.shape)

def intoList : Reply ι ι :=
  match Shape.def (R.shapes x.shape) with
  | .list t => .ok t
  | _ => .error (.wasNotA "list" x.shape)

inductive ListLikeDef (ι : Type)
  | list (t : ι)
  | array (t : ι) (n : ℕ)
  | slice (t : ι)

def ListLikeDef.t : ListLikeDef ι → ι
  | .list t | .array t _ | .slice t => t

def intoListLike : Reply ι (ListLikeDef ι) :=
  match Shape.def (R.shapes x.shape) with
  | .list t => .ok (.list t)
  | .array t n => .ok (.array t n)
  | .slice t => .ok (.slice t)
  | _ => .error (.wasNotA "list, array or slice" x.shape)

def intoMap : Reply ι (ι × ι) :=
  match Shape.def (R.shapes x.shape) with
  | .map k v => .ok (k, v)
  | _ => .error (.wasNotA "map" x.shape)

def intoSet : Reply ι ι :=
  match Shape.def (R.shapes x.shape) with
  | .set t => .ok t
  | _ => .error (.wasNotA "set" x.shape)

def intoOption : Reply ι ι :=
  match Shape.def (R.shapes x.shape) with
  | .option t => .ok t
  | _ => .error (.wasNotA "option" x.shape)

def intoResult : Reply ι (ι × ι) :=
  match Shape.def (R.shapes x.shape) with
  | .result t e => .ok (t, e)
  | _ => .error (.wasNotA "result" x.shape)

def intoNdArray : Reply ι ι :=
  match Shape.def (R.shapes x.shape) with
  | .ndArray t => .ok t
  | _ => .error (.wasNotA "ndarray" x.shape)

def intoDynamicValue : Reply ι Unit :=
  match Shape.def (R.shapes x.shape) with
  | .dynamicValue => .ok ()
  | _ => .error (.wasNotA "dynamic value" x.shape)

/-- The length that `PokeListLike::new` caches. -/
def listLikeLen (listDef : ListLikeDef ι) : ℕ :=
  match listDef with
  | .list _ | .slice _ => x.children.length
  | .array _ n => n

/-- The variant that the memory of an enum's value selects. -/
def variantAt (enumType : EnumType ι) : Option ℕ :=
  match Shape.def (R.shapes x.shape) with
  | .option _ =>
    enumType.variants.findIdx? fun v => (!v.data.fields.isEmpty) == decide (x.head = .some)
  | _ =>
    match x.head with
    | .variant index => if index < enumType.variants.length then some index else none
    | _ => none

/-- `PokeEnum::variant_index`, and `variant_index_from_raw`, which replicates it. -/
def variantIndex (enumType : EnumType ι) : Reply ι ℕ :=
  match Shape.def (R.shapes x.shape), enumType.enumRepr with
  | .option _, _ => (R.variantAt x enumType).elim (.error .panicked) .ok
  | _, .rust => .error .panicked
  | _, _ => (R.variantAt x enumType).elim (.error .panicked) .ok

/-- `PokeEnum::active_variant`. -/
def activeVariant (enumType : EnumType ι) : Reply ι (Variant ι) := do
  let index ← R.variantIndex x enumType
  match enumType.variants[index]? with
  | some variant => return variant
  | none => throw .panicked

end Views

section Parts

variable (x : Value ι)

def field (index : ℕ) : Reply ι Place := do
  let structType ← R.intoStruct x
  if index < structType.fields.length then return [index]
  else throw (.indexOutOfBounds x.shape index structType.fields.length)

def fieldByName (name : String) : Reply ι Place := do
  let structType ← R.intoStruct x
  match structType.fields.findIdx? fun f => f.name = name with
  | some index => R.field x index
  | none => throw (.noSuchField x.shape)

/-- `PokeTuple::field_mut`. -/
def fieldMut (index : ℕ) : Reply ι Place := do
  let structType ← R.intoTuple x
  if index < structType.fields.length then return [index]
  else throw (.indexOutOfBounds x.shape index structType.fields.length)

/-- The active variant of a value that is viewed as an enum. -/
def enumVariant : Reply ι (Variant ι) := do
  let enumType ← R.intoEnum x
  R.activeVariant x enumType

/-- The memory at the offset of a variant's field is the field's. The offsets are those of
the compiler, but for an option, whose shape puts the value it holds at the front. -/
def inPlace (f : Field ι) : Bool :=
  match Shape.def (R.shapes x.shape) with
  | .option _ => f.offset == R.tables.someOffset x.shape
  | _ => true

/-- The field of a variant at its offset. -/
def fieldAt (f : Field ι) (index : ℕ) : Checked (Reply ι Place) :=
  if R.inPlace x f then .ok (.ok [index]) else .error .misplaced

/-- `PokeEnum::field`. -/
def enumField (index : ℕ) : Checked (Reply ι Place) :=
  match R.enumVariant x with
  | .error e => .ok (.error e)
  | .ok variant =>
    match variant.data.fields[index]? with
    | some f => R.fieldAt x f index
    | none => .ok (.error .absent)

/-- `PokeEnum::field_by_name`. -/
def enumFieldByName (name : String) : Checked (Reply ι Place) :=
  match R.enumVariant x with
  | .error e => .ok (.error e)
  | .ok variant =>
    match variant.data.fields.findIdx? fun f => f.name = name with
    | some index => R.enumField x index
    | none => .ok (.error .absent)

/-- `PokeList::get_mut`. -/
def listGet (index : ℕ) : Reply ι Place := do
  let _ ← R.intoList x
  if !R.tables.listGetMut x.shape then throw .absent
  else if index < x.children.length then return [index]
  else throw .absent

/-- `PokeListLike::get_mut` with the cached length. -/
def listLikeGet (len index : ℕ) : Reply ι Place := do
  let listDef ← R.intoListLike x
  if len ≤ index then throw .absent
  else
    match listDef with
    | .list _ =>
      if !R.tables.listGetMut x.shape then throw .absent
      else if index < x.children.length then return [index]
      else throw .absent
    | .array t _ | .slice t =>
      if !(R.shapes t).sized then throw .absent else return [index]

/-- `PokeListLike::iter_mut` at an index it reaches. -/
def listLikeIter (len index : ℕ) : Reply ι Place := do
  let listDef ← R.intoListLike x
  if !(R.shapes listDef.t).sized then
    throw (.operationFailed x.shape "iter_mut requires sized element type")
  else
    match listDef with
    | .list _ =>
      if !R.tables.listAsMutPtr x.shape then
        throw (.operationFailed x.shape ("iter_mut requires a contiguous `as_mut_ptr` vtable " ++
          "entry; use `get_mut` per index"))
      else if index < len then return [index]
      else throw .absent
    | .array _ _ | .slice _ => if index < len then return [index] else throw .absent

/-- `PokeList::iter_mut` at an index it reaches. -/
def listIter (index : ℕ) : Reply ι Place := do
  let t ← R.intoList x
  if !(R.shapes t).sized then
    throw (.operationFailed x.shape "iter_mut requires sized element type")
  else if !R.tables.listAsMutPtr x.shape then
    throw (.operationFailed x.shape ("iter_mut requires a contiguous `as_mut_ptr` vtable " ++
      "entry; use `get_mut` per index"))
  else if index < x.children.length then return [index]
  else throw .absent

/-- `PokeOption::value_mut`. -/
def optionValue : Reply ι Place := do
  let _ ← R.intoOption x
  if x.head = .some then return [0] else throw .absent

def okMut : Reply ι Place := do
  let _ ← R.intoResult x
  if x.head = .ok then return [0] else throw .absent

def errMut : Reply ι Place := do
  let _ ← R.intoResult x
  if x.head = .err then return [0] else throw .absent

def ndArrayGet (index : ℕ) : Reply ι Place := do
  let _ ← R.intoNdArray x
  if !R.tables.ndArrayGetMut x.shape then throw .absent
  else if index < x.children.length then return [index]
  else throw .absent

/-- `object_get_mut`, which is for objects only. -/
def objectGetMut (key : String) : Checked (Reply ι Place) :=
  match R.intoDynamicValue x with
  | .error e => .ok (.error e)
  | .ok () =>
    if !R.tables.dynObjectGetMut x.shape then .ok (.error .absent)
    else
      match x.head with
      | .dynamic (.object keys) =>
        match keys.findIdx? fun k => k = key with
        | some index => .ok (.ok [index])
        | none => .ok (.error .absent)
      | _ => .error .notAnObject

/-- `apply_step_mut`. -/
def applyStepMut (step : PathStep) (i : ℕ) : Checked (Reply ι Place) :=
  let wrongStepKind : Reply ι Place := .error (.pathAccess (.wrongStepKind step i x.shape))
  let missingTarget : Reply ι Place := .error (.pathAccess (.missingTarget step i x.shape))
  let outOfBounds (idx bound : ℕ) : Reply ι Place :=
    .error (.pathAccess (.indexOutOfBounds step i x.shape idx bound))
  let within (idx bound : ℕ) : Reply ι Place :=
    if idx < bound then .ok [idx] else outOfBounds idx bound
  match step with
  | .field idx =>
    match (R.shapes x.shape).ty with
    | .user (.struct sd) => .ok (within idx sd.fields.length)
    | .user (.enum enumType) =>
      match R.activeVariant x enumType with
      | .error e => .ok (.error e)
      | .ok variant =>
        match variant.data.fields[idx]? with
        | some f => R.fieldAt x f idx
        | none => .ok (outOfBounds idx variant.data.fields.length)
    | _ => .ok wrongStepKind
  | .variant expected =>
    match (R.shapes x.shape).ty with
    | .user (.enum enumType) =>
      if enumType.variants.length ≤ expected then
        .ok (outOfBounds expected enumType.variants.length)
      else .ok do
        let actual ← R.variantIndex x enumType
        if actual ≠ expected then
          throw (.pathAccess (.variantMismatch i x.shape expected actual))
        else return []
    | _ => .ok wrongStepKind
  | .index idx =>
    match Shape.def (R.shapes x.shape) with
    | .list _ =>
      .ok (if R.tables.listGetMut x.shape then within idx x.children.length else wrongStepKind)
    | .array t n => .ok (if (R.shapes t).sized then within idx n else wrongStepKind)
    | _ => .ok wrongStepKind
  | .optionSome =>
    match Shape.def (R.shapes x.shape) with
    | .option _ =>
      .ok (if x.head = .some then .ok [0] else .error (.pathAccess (.optionIsNone i x.shape)))
    | _ => .ok wrongStepKind
  | .mapKey _ | .mapValue _ =>
    match Shape.def (R.shapes x.shape) with
    | .map _ _ => .ok missingTarget
    | _ => .ok wrongStepKind
  | .deref =>
    match Shape.def (R.shapes x.shape) with
    | .pointer _ => .ok missingTarget
    | _ => .ok wrongStepKind
  | .inner | .proxy => .ok missingTarget

end Parts

/-- The loop of `at_path_mut`. -/
def applyStepsMut (x : Value ι) : List PathStep → ℕ → Checked (Reply ι Place)
  | [], _ => .ok (.ok [])
  | step :: steps, i =>
    match R.applyStepMut x step i with
    | .error violation => .error violation
    | .ok (.error e) => .ok (.error e)
    | .ok (.ok p) =>
      match PlacedTree.get? p x with
      | none => .error .outOfBounds
      | some y => do
        let rest ← applyStepsMut y steps (i + 1)
        return rest.map (p ++ ·)

def atPathMut (x : Value ι) (shape : ι) (steps : List PathStep) [DecidableEq ι] :
    Checked (Reply ι Place) :=
  if x.shape ≠ shape then
    .ok (.error (.pathAccess (.rootShapeMismatch shape x.shape)))
  else R.applyStepsMut x steps 0

end Runtime

/-- The calls that make a `Poke` on a part of the value another one is on. -/
inductive Access (ι : Type)
  | field (index : ℕ)
  | fieldByName (name : String)
  | fieldMut (index : ℕ)
  | enumField (index : ℕ)
  | enumFieldByName (name : String)
  | listGet (index : ℕ)
  | listIter (index : ℕ)
  | optionValue
  | okMut
  | errMut
  | ndArrayGet (index : ℕ)
  | objectGetMut (key : String)
  | atPathMut (shape : ι) (steps : List PathStep)

/-- The calls that make one on an item of a list-like. -/
inductive ItemAccess
  | get (index : ℕ)
  | iter (index : ℕ)

namespace Runtime

variable (R : Runtime ι) (x : Value ι)

def access [DecidableEq ι] : Access ι → Checked (Reply ι Place)
  | .field index => .ok (R.field x index)
  | .fieldByName name => .ok (R.fieldByName x name)
  | .fieldMut index => .ok (R.fieldMut x index)
  | .enumField index => R.enumField x index
  | .enumFieldByName name => R.enumFieldByName x name
  | .listGet index => .ok (R.listGet x index)
  | .listIter index => .ok (R.listIter x index)
  | .optionValue => .ok (R.optionValue x)
  | .okMut => .ok (R.okMut x)
  | .errMut => .ok (R.errMut x)
  | .ndArrayGet index => .ok (R.ndArrayGet x index)
  | .objectGetMut key => R.objectGetMut x key
  | .atPathMut shape steps => R.atPathMut x shape steps

def itemAccess (len : ℕ) : ItemAccess → Reply ι Place
  | .get index => R.listLikeGet x len index
  | .iter index => R.listLikeIter x len index

end Runtime

end Facet.Poke
