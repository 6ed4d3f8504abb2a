import Facet.Core.Shape

/-!
# Values in memory

Reflection reaches a value through its address and its shape. Containers are opened by
the functions of their vtables, enums by reading a discriminant. Following a path writes
nothing, so the memory and the answers of the vtables are fixed.
-/

namespace Facet.Path

variable {ι : Type}

abbrev Address := BitVec 64

/-- `PtrConst::field` and `PtrMut::field`. -/
def Address.field (data : Address) (offset : ℕ) : Address := data + BitVec.ofNat 64 offset

/-- An address and the shape of the value there: a `Peek` or a `Poke`. -/
structure Location (ι : Type) where
  data : Address
  shape : ι
  deriving DecidableEq

/-- How an operation fails: it panics or returns an error. -/
inductive Failure (ε : Type)
  | panic
  | error (e : ε)
  deriving DecidableEq

def Failure.map {ε ε' : Type} (f : ε → ε') : Failure ε → Failure ε'
  | .panic => .panic
  | .error e => .error (f e)

abbrev Attempt (ε α : Type) := Except (Failure ε) α

/-- The shapes of a program, its memory, and its vtables, which are found through the shape
they belong to. -/
structure Runtime (ι : Type) where
  shapes : Shapes ι
  byte : Address → BitVec 8
  listLen : ι → Address → ℕ
  listGet : ι → Address → ℕ → Option Address
  /-- Only available for mutable lists. -/
  listGetMut : ι → Option (Address → ℕ → Option Address)
  arrayAsPtr : ι → Address → Address
  mapLen : ι → Address → ℕ
  /-- The addresses of the keys and values, in the order of iteration. -/
  mapIter : ι → Address → List (Address × Address)
  optionIsSome : ι → Address → Bool
  /-- Null is `none`. -/
  optionGetValue : ι → Address → Option Address
  borrowFn : ι → Option (Address → Address)
  tryBorrowInner : ι → Address → Option Address
  getMut_eq : ∀ s getMut, listGetMut s = some getMut → getMut = listGet s
  asPtr_eq : ∀ s data, arrayAsPtr s data = data
  isSome_eq : ∀ s data, optionIsSome s data = (optionGetValue s data).isSome
  enum_sized : ∀ s ed, (shapes s).ty = .user (.enum ed) → (shapes s).sized = true
  element_sized : ∀ s, match (shapes s).def with
    | .array t _ => (shapes t).sized = true
    | _ => True

namespace Runtime

variable (R : Runtime ι)

def sizedLayout (s : ι) : Option ℕ := if (R.shapes s).sized then some (R.shapes s).size else none

/-- A little-endian load of a number of bytes. -/
def read : ℕ → Address → ℕ
  | 0, _ => 0
  | n + 1, data => (R.byte data).toNat + 256 * read n (data + 1)

/-- The load of an unsigned discriminant, cast `as i64`. -/
def readUnsigned (bytes : ℕ) (data : Address) : ℤ := (BitVec.ofNat 64 (R.read bytes data)).toInt

def readSigned (bytes : ℕ) (data : Address) : ℤ :=
  (BitVec.ofNat (8 * bytes) (R.read bytes data)).toInt

def allZero (size : ℕ) (data : Address) : Bool :=
  (List.range size).all fun i => R.byte (data.field i) == 0

/-- `PeekEnum::discriminant`; the layout of a plain Rust enum cannot be read. -/
def discriminant {ε : Type} (data : Address) : EnumRepr → Attempt ε ℤ
  | .rust => .error .panic
  | .rustNPO => .ok 0
  | .u8 => .ok (R.readUnsigned 1 data)
  | .u16 => .ok (R.readUnsigned 2 data)
  | .u32 => .ok (R.readUnsigned 4 data)
  | .u64 | .usize => .ok (R.readUnsigned 8 data)
  | .i8 => .ok (R.readSigned 1 data)
  | .i16 => .ok (R.readSigned 2 data)
  | .i32 => .ok (R.readSigned 4 data)
  | .i64 | .isize => .ok (R.readSigned 8 data)

/-- `position` followed by `expect`. -/
def expectPosition {ε : Type} (variants : List (Variant ι)) (test : Variant ι → Bool) :
    Attempt ε ℕ :=
  match variants.findIdx? test with
  | some i => .ok i
  | none => .error .panic

/-- Where the last of a variant's fields ends. -/
def maxOffset (variant : Variant ι) : ℕ :=
  variant.data.fields.foldl
    (fun m f => max m (f.offset + (R.sizedLayout f.shape).getD 0)) 0

/-- The variant of an option is the one that has fields exactly if the option is `Some`. -/
def optionVariant {ε : Type} (ed : EnumType ι) (isSome : Bool) : Attempt ε ℕ :=
  expectPosition ed.variants fun v => !v.data.fields.isEmpty == isSome

/-- All bytes zero stand for the variant without content. -/
def npoVariant {ε : Type} (ed : EnumType ι) (allZero : Bool) : Attempt ε ℕ :=
  expectPosition ed.variants fun v =>
    if allZero then R.maxOffset v == 0 else R.maxOffset v != 0

def discriminantVariant {ε : Type} (ed : EnumType ι) (data : Address) : Attempt ε ℕ := do
  let d ← R.discriminant data ed.enumRepr
  expectPosition ed.variants fun v => v.discriminant == some d

inductive VariantError
  | opaqueInternals
  | unsized
  deriving DecidableEq, Repr

/-- `PeekEnum::variant_index`. -/
def variantIndex (loc : Location ι) (ed : EnumType ι) : Attempt VariantError ℕ :=
  match (R.shapes loc.shape).def with
  | .option _ => optionVariant ed (R.optionIsSome loc.shape loc.data)
  | _ =>
    if ed.enumRepr = .rustNPO then
      match R.sizedLayout loc.shape with
      | some size => R.npoVariant ed (R.allZero size loc.data)
      | none => .error .panic
    else R.discriminantVariant ed loc.data

/-- `variant_index_from_raw`, which answers `Unsized` where `variant_index` panics. -/
def variantIndexFromRaw (loc : Location ι) (ed : EnumType ι) : Attempt VariantError ℕ :=
  match (R.shapes loc.shape).def with
  | .option _ => optionVariant ed (R.optionIsSome loc.shape loc.data)
  | _ =>
    if ed.enumRepr = .rustNPO then
      match R.sizedLayout loc.shape with
      | some size => R.npoVariant ed (R.allZero size loc.data)
      | none => .error (.error .unsized)
    else R.discriminantVariant ed loc.data

theorem variantIndexFromRaw_eq {loc : Location ι} {ed : EnumType ι}
    (hty : (R.shapes loc.shape).ty = .user (.enum ed)) :
    R.variantIndexFromRaw loc ed = R.variantIndex loc ed := by
  have hsized : R.sizedLayout loc.shape = some (R.shapes loc.shape).size :=
    if_pos (R.enum_sized loc.shape ed hty)
  unfold variantIndexFromRaw variantIndex
  rw [hsized]

end Runtime

end Facet.Path
