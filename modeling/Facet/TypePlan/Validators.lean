import Facet.Core.Shape
import Mathlib.Data.Rat.Cast.Order
import Mathlib.Tactic.NormNum

/-!
# Validators of a field

The plan of a field reads its `validate` attributes once and keeps a validator for each; a
validator reads the field's value as the field's scalar type says.
-/

namespace Facet.TypePlan

/-- What a number stands for; the floats also have values that are no rational numbers. -/
inductive Number
  | nan
  | negInfinity
  | posInfinity
  | finite (value : ℚ)
  deriving DecidableEq

/-- What is read from memory at a scalar type; of the other types nothing is read here. -/
def ValueOf : ScalarType → Type
  | .i8 => Int8
  | .i16 => Int16
  | .i32 => Int32
  | .i64 => Int64
  | .isize => ISize
  | .i128 => BitVec 128
  | .u8 => UInt8
  | .u16 => UInt16
  | .u32 => UInt32
  | .u64 => UInt64
  | .usize => USize
  | .u128 => BitVec 128
  | .f32 | .f64 => Number
  | .str | .string | .cowStr => String
  | _ => Unit

variable {ι : Type}

/-- A pointer to a field: what reading it at each type gives. -/
structure FieldPtr where
  get : ∀ ty : ScalarType, ValueOf ty

inductive ValidatorKind
  | custom (validator : ℕ)
  | min (limit : Int64) (scalarType : ScalarType)
  | max (limit : Int64) (scalarType : ScalarType)
  | minLength (limit : ℕ) (scalarType : ScalarType)
  | maxLength (limit : ℕ) (scalarType : ScalarType)
  | email (scalarType : ScalarType)
  | url (scalarType : ScalarType)
  | regex (pattern : String) (scalarType : ScalarType)
  | contains (needle : String) (scalarType : ScalarType)
  deriving DecidableEq

/-- The functions that validators call outside the library. -/
structure ValidatorEnv where
  custom : ℕ → FieldPtr → Except String Unit
  matchesPattern : String → String → Except String Bool

/-- The text of a failed `expect` is the error. -/
def expect {α : Type} (value : Option α) (message : String) : Except String α :=
  match value with
  | some a => .ok a
  | none => .error message

def getI64 : AttributeData → Option Int64
  | .i64 value => some (Int64.ofInt value)
  | _ => none

def getUsize : AttributeData → Option ℕ
  | .usize value => some value
  | _ => none

def getStr : AttributeData → Option String
  | .str value => some value
  | _ => none

/-- The function of a custom validator, read without a check. -/
def getFunction : AttributeData → ℕ
  | .function id => id
  | _ => 0

/-- The validator of one attribute; unknown ones are skipped. -/
def validatorKind (scalarType : Option ScalarType) (attr : ValidateAttribute) :
    Except String (Option ValidatorKind) :=
  if attr.key = "custom" then .ok (some (.custom (getFunction attr.data)))
  else if attr.key = "min" then do
    let limit ← expect (getI64 attr.data) "validate::min attribute must contain i64"
    let ty ← expect scalarType "validate::min requires numeric field type"
    .ok (some (.min limit ty))
  else if attr.key = "max" then do
    let limit ← expect (getI64 attr.data) "validate::max attribute must contain i64"
    let ty ← expect scalarType "validate::max requires numeric field type"
    .ok (some (.max limit ty))
  else if attr.key = "min_length" then do
    let limit ← expect (getUsize attr.data) "validate::min_length attribute must contain usize"
    let ty ← expect scalarType "validate::min_length requires string field type"
    .ok (some (.minLength limit ty))
  else if attr.key = "max_length" then do
    let limit ← expect (getUsize attr.data) "validate::max_length attribute must contain usize"
    let ty ← expect scalarType "validate::max_length requires string field type"
    .ok (some (.maxLength limit ty))
  else if attr.key = "email" then do
    let ty ← expect scalarType "validate::email requires string field type"
    .ok (some (.email ty))
  else if attr.key = "url" then do
    let ty ← expect scalarType "validate::url requires string field type"
    .ok (some (.url ty))
  else if attr.key = "regex" then do
    let pattern ← expect (getStr attr.data) "validate::regex attribute must contain &'static str"
    let ty ← expect scalarType "validate::regex requires string field type"
    .ok (some (.regex pattern ty))
  else if attr.key = "contains" then do
    let needle ← expect (getStr attr.data)
      "validate::contains attribute must contain &'static str"
    let ty ← expect scalarType "validate::contains requires string field type"
    .ok (some (.contains needle ty))
  else .ok none

def extractValidators (S : Shapes ι) (field : Field ι) : Except String (List ValidatorKind) := do
  let kinds ← field.validations.mapM (validatorKind (S field.shape).scalarType)
  .ok (kinds.filterMap id)

def checkMin (v limit : Int64) : Except String Unit :=
  if v < limit then .error s!"must be >= {limit}, got {v}" else .ok ()

def checkMax (v limit : Int64) : Except String Unit :=
  if v > limit then .error s!"must be <= {limit}, got {v}" else .ok ()

/-- The largest `i64` as a `u64`. -/
def i64Max : UInt64 := 9223372036854775807

def validateMin (ptr : FieldPtr) (limit : Int64) : ScalarType → Except String Unit
  | .i8 => let v : Int8 := ptr.get .i8; checkMin v.toInt64 limit
  | .i16 => let v : Int16 := ptr.get .i16; checkMin v.toInt64 limit
  | .i32 => let v : Int32 := ptr.get .i32; checkMin v.toInt64 limit
  | .i64 => let v : Int64 := ptr.get .i64; checkMin v limit
  | .u8 => let v : UInt8 := ptr.get .u8; checkMin v.toUInt64.toInt64 limit
  | .u16 => let v : UInt16 := ptr.get .u16; checkMin v.toUInt64.toInt64 limit
  | .u32 => let v : UInt32 := ptr.get .u32; checkMin v.toUInt64.toInt64 limit
  | .u64 =>
    let v : UInt64 := ptr.get .u64
    -- no limit is as large as such a value
    if v > i64Max then .ok () else checkMin v.toInt64 limit
  | _ => .ok ()

def validateMax (ptr : FieldPtr) (limit : Int64) : ScalarType → Except String Unit
  | .i8 => let v : Int8 := ptr.get .i8; checkMax v.toInt64 limit
  | .i16 => let v : Int16 := ptr.get .i16; checkMax v.toInt64 limit
  | .i32 => let v : Int32 := ptr.get .i32; checkMax v.toInt64 limit
  | .i64 => let v : Int64 := ptr.get .i64; checkMax v limit
  | .u8 => let v : UInt8 := ptr.get .u8; checkMax v.toUInt64.toInt64 limit
  | .u16 => let v : UInt16 := ptr.get .u16; checkMax v.toUInt64.toInt64 limit
  | .u32 => let v : UInt32 := ptr.get .u32; checkMax v.toUInt64.toInt64 limit
  | .u64 =>
    let v : UInt64 := ptr.get .u64
    if v > i64Max ∨ v.toInt64 > limit then .error s!"must be <= {limit}, got {v}" else .ok ()
  | _ => .ok ()

/-- The text of the string types that are read; the others count as empty. -/
def getString (ptr : FieldPtr) : ScalarType → String
  | .string => ptr.get .string
  | .cowStr => ptr.get .cowStr
  | _ => ""

def getStringLength (ptr : FieldPtr) (ty : ScalarType) : ℕ := (getString ptr ty).utf8ByteSize

/-- One `@` with text on both sides, and a dot in the second text. -/
def isValidEmail (s : String) : Bool :=
  match s.toList.splitOn '@' with
  | [user, host] => !user.isEmpty && !host.isEmpty && host.contains '.'
  | _ => false

def isValidUrl (s : String) : Bool :=
  "http://".toList.isPrefixOf s.toList || "https://".toList.isPrefixOf s.toList

def checked (valid : Bool) (message : String) : Except String Unit :=
  if valid then .ok () else .error message

def runKind (env : ValidatorEnv) (ptr : FieldPtr) : ValidatorKind → Except String Unit
  | .custom validator => env.custom validator ptr
  | .min limit ty => validateMin ptr limit ty
  | .max limit ty => validateMax ptr limit ty
  | .minLength limit ty =>
    let len := getStringLength ptr ty
    if len < limit then .error s!"length must be >= {limit}, got {len}" else .ok ()
  | .maxLength limit ty =>
    let len := getStringLength ptr ty
    if len > limit then .error s!"length must be <= {limit}, got {len}" else .ok ()
  | .email ty =>
    let s := getString ptr ty
    checked (isValidEmail s) s!"'{s}' is not a valid email address"
  | .url ty =>
    let s := getString ptr ty
    checked (isValidUrl s) s!"'{s}' is not a valid URL"
  | .regex pattern ty => do
    let s := getString ptr ty
    let found ← env.matchesPattern s pattern
    checked found s!"'{s}' does not match pattern '{pattern}'"
  | .contains needle ty =>
    let s := getString ptr ty
    checked (decide (needle.toList <:+: s.toList)) s!"'{s}' does not contain '{needle}'"

/-- A validator's error, with the container and the field it is about. -/
structure ValidationFailed (ι : Type) where
  shape : ι
  fieldName : String
  message : String
  deriving DecidableEq

def run (env : ValidatorEnv) (ptr : FieldPtr) (fieldName : String) (container : ι)
    (kind : ValidatorKind) : Except (ValidationFailed ι) Unit :=
  (runKind env ptr kind).mapError fun message => ⟨container, fieldName, message⟩

/-- The validators of a field in turn. -/
def runValidators (env : ValidatorEnv) (ptr : FieldPtr) (fieldName : String) (container : ι)
    (kinds : List ValidatorKind) : Except (ValidationFailed ι) Unit :=
  kinds.forM (run env ptr fieldName container)

/-- The number that a value of a numeric type stands for. -/
def number : (ty : ScalarType) → ValueOf ty → Option Number
  | .i8 => fun v : Int8 => some (.finite v.toInt)
  | .i16 => fun v : Int16 => some (.finite v.toInt)
  | .i32 => fun v : Int32 => some (.finite v.toInt)
  | .i64 => fun v : Int64 => some (.finite v.toInt)
  | .isize => fun v : ISize => some (.finite v.toInt)
  | .i128 => fun v : BitVec 128 => some (.finite v.toInt)
  | .u8 => fun v : UInt8 => some (.finite (v.toNat : ℤ))
  | .u16 => fun v : UInt16 => some (.finite (v.toNat : ℤ))
  | .u32 => fun v : UInt32 => some (.finite (v.toNat : ℤ))
  | .u64 => fun v : UInt64 => some (.finite (v.toNat : ℤ))
  | .usize => fun v : USize => some (.finite (v.toNat : ℤ))
  | .u128 => fun v : BitVec 128 => some (.finite (v.toNat : ℤ))
  | .f32 => fun v : Number => some v
  | .f64 => fun v : Number => some v
  | _ => fun _ => none

namespace Number

def AtLeast (limit : ℤ) : Number → Prop
  | nan | negInfinity => False
  | posInfinity => True
  | finite value => (limit : ℚ) ≤ value

def AtMost (limit : ℤ) : Number → Prop
  | nan | posInfinity => False
  | negInfinity => True
  | finite value => value ≤ (limit : ℚ)

end Number

/-- The types whose values are compared with a bound. -/
def Compared : ScalarType → Prop
  | .i8 | .i16 | .i32 | .i64 | .u8 | .u16 | .u32 | .u64 => True
  | _ => False

theorem checkMin_iff {v : Int64} {x : ℤ} (hv : v.toInt = x) (limit : Int64) :
    checkMin v limit = .ok () ↔ (Number.finite x).AtLeast limit.toInt := by
  subst hv
  unfold checkMin Number.AtLeast
  by_cases h : v < limit
  · have hlt := Int64.lt_iff_toInt_lt.mp h
    simp [h, hlt]
  · have hle : limit.toInt ≤ v.toInt := by
      rwa [Int64.lt_iff_toInt_lt, not_lt] at h
    simp [h, hle]

theorem checkMax_iff {v : Int64} {x : ℤ} (hv : v.toInt = x) (limit : Int64) :
    checkMax v limit = .ok () ↔ (Number.finite x).AtMost limit.toInt := by
  subst hv
  unfold checkMax Number.AtMost
  by_cases h : v > limit
  · have hlt := Int64.lt_iff_toInt_lt.mp h
    simp [h, hlt]
  · have hle : v.toInt ≤ limit.toInt := by
      rwa [gt_iff_lt, Int64.lt_iff_toInt_lt, not_lt] at h
    simp [h, hle]

/-- Values up to the largest `i64` keep their value in the cast. -/
theorem UInt64.toInt_toInt64 {v : UInt64} (h : v.toNat < 2 ^ 63) : v.toInt64.toInt = v.toNat := by
  have hbits : v.toInt64.toInt = v.toBitVec.toInt := rfl
  rw [hbits, BitVec.toInt_eq_toNat_of_lt]
  · rfl
  · simp
    omega

theorem UInt8.toInt_cast (v : UInt8) : v.toUInt64.toInt64.toInt = v.toNat := by
  have hlt := v.toNat_lt
  rw [UInt64.toInt_toInt64, UInt8.toNat_toUInt64]
  rw [UInt8.toNat_toUInt64]
  omega

theorem UInt16.toInt_cast (v : UInt16) : v.toUInt64.toInt64.toInt = v.toNat := by
  have hlt := v.toNat_lt
  rw [UInt64.toInt_toInt64, UInt16.toNat_toUInt64]
  rw [UInt16.toNat_toUInt64]
  omega

theorem UInt32.toInt_cast (v : UInt32) : v.toUInt64.toInt64.toInt = v.toNat := by
  have hlt := v.toNat_lt
  rw [UInt64.toInt_toInt64, UInt32.toNat_toUInt64]
  rw [UInt32.toNat_toUInt64]
  omega

theorem gt_i64Max_iff (v : UInt64) : v > i64Max ↔ 2 ^ 63 ≤ v.toNat := by
  rw [gt_iff_lt, UInt64.lt_iff_toNat_lt]
  have : i64Max.toNat = 2 ^ 63 - 1 := rfl
  omega

/-- No limit reaches the values that the cast would change. -/
theorem limit_lt_of_large {v : UInt64} (h : 2 ^ 63 ≤ v.toNat) (limit : Int64) :
    (limit.toInt : ℚ) < (v.toNat : ℤ) := by
  have := limit.toInt_lt
  have hlt : limit.toInt < (v.toNat : ℤ) := by omega
  exact_mod_cast hlt

theorem checkMin_u64_iff (v : UInt64) (limit : Int64) :
    (if v > i64Max then .ok () else checkMin v.toInt64 limit) = .ok () ↔
      (Number.finite (v.toNat : ℤ)).AtLeast limit.toInt := by
  by_cases hlarge : 2 ^ 63 ≤ v.toNat
  · rw [if_pos ((gt_i64Max_iff v).mpr hlarge)]
    simp only [Number.AtLeast, true_iff]
    exact (limit_lt_of_large hlarge limit).le
  · rw [if_neg (by rwa [gt_i64Max_iff])]
    exact checkMin_iff (UInt64.toInt_toInt64 (by omega)) limit

theorem checkMax_u64_iff (v : UInt64) (limit : Int64) :
    (if v > i64Max ∨ v.toInt64 > limit then .error s!"must be <= {limit}, got {v}"
      else .ok () : Except String Unit) = .ok () ↔
      (Number.finite (v.toNat : ℤ)).AtMost limit.toInt := by
  by_cases hlarge : 2 ^ 63 ≤ v.toNat
  · rw [if_pos (.inl ((gt_i64Max_iff v).mpr hlarge))]
    simp only [Number.AtMost, reduceCtorEq, false_iff, not_le]
    exact limit_lt_of_large hlarge limit
  · rw [← checkMax_iff (UInt64.toInt_toInt64 (by omega)) limit]
    unfold checkMax
    by_cases hgt : v.toInt64 > limit
    · simp [hgt]
    · have hsmall : ¬ v > i64Max := by rwa [gt_i64Max_iff]
      simp [hgt, hsmall]

theorem validateMin_iff (ptr : FieldPtr) (limit : Int64) {ty : ScalarType} (hty : Compared ty)
    {x : Number} (hx : number ty (ptr.get ty) = some x) :
    validateMin ptr limit ty = .ok () ↔ x.AtLeast limit.toInt := by
  cases ty with
  | i8 => cases hx; exact checkMin_iff (Int8.toInt_toInt64 _) limit
  | i16 => cases hx; exact checkMin_iff (Int16.toInt_toInt64 _) limit
  | i32 => cases hx; exact checkMin_iff (Int32.toInt_toInt64 _) limit
  | i64 => cases hx; exact checkMin_iff rfl limit
  | u8 => cases hx; exact checkMin_iff (UInt8.toInt_cast _) limit
  | u16 => cases hx; exact checkMin_iff (UInt16.toInt_cast _) limit
  | u32 => cases hx; exact checkMin_iff (UInt32.toInt_cast _) limit
  | u64 => cases hx; exact checkMin_u64_iff _ limit
  | _ => exact hty.elim

theorem validateMax_iff (ptr : FieldPtr) (limit : Int64) {ty : ScalarType} (hty : Compared ty)
    {x : Number} (hx : number ty (ptr.get ty) = some x) :
    validateMax ptr limit ty = .ok () ↔ x.AtMost limit.toInt := by
  cases ty with
  | i8 => cases hx; exact checkMax_iff (Int8.toInt_toInt64 _) limit
  | i16 => cases hx; exact checkMax_iff (Int16.toInt_toInt64 _) limit
  | i32 => cases hx; exact checkMax_iff (Int32.toInt_toInt64 _) limit
  | i64 => cases hx; exact checkMax_iff rfl limit
  | u8 => cases hx; exact checkMax_iff (UInt8.toInt_cast _) limit
  | u16 => cases hx; exact checkMax_iff (UInt16.toInt_cast _) limit
  | u32 => cases hx; exact checkMax_iff (UInt32.toInt_cast _) limit
  | u64 => cases hx; exact checkMax_u64_iff _ limit
  | _ => exact hty.elim

theorem validateMin_of_not_compared (ptr : FieldPtr) (limit : Int64) {ty : ScalarType}
    (hty : ¬ Compared ty) : validateMin ptr limit ty = .ok () := by
  cases ty <;> first | rfl | exact absurd trivial hty

theorem validateMax_of_not_compared (ptr : FieldPtr) (limit : Int64) {ty : ScalarType}
    (hty : ¬ Compared ty) : validateMax ptr limit ty = .ok () := by
  cases ty <;> first | rfl | exact absurd trivial hty

/-- The plan accepts the field's attributes, and the field's value passes its validators. -/
def Passes (S : Shapes ι) (env : ValidatorEnv) (container : ι) (field : Field ι)
    (ptr : FieldPtr) : Prop :=
  ∃ kinds, extractValidators S field = .ok kinds ∧
    runValidators env ptr field.name container kinds = .ok ()

theorem runValidators_single (env : ValidatorEnv) (ptr : FieldPtr) (name : String)
    (container : ι) (kind : ValidatorKind) :
    runValidators env ptr name container [kind] = .ok () ↔ runKind env ptr kind = .ok () := by
  cases h : runKind env ptr kind <;>
    simp [runValidators, run, h, Except.mapError, bind, Except.bind, pure, Except.pure]

theorem passes_min_iff (S : Shapes ι) (env : ValidatorEnv) (container : ι) (field : Field ι)
    (limit : Int64) {ty : ScalarType} (hty : (S field.shape).scalarType = some ty)
    (ptr : FieldPtr) :
    Passes S env container { field with validations := [⟨"min", .i64 limit.toInt⟩] } ptr ↔
      validateMin ptr limit ty = .ok () := by
  have hkinds : extractValidators S
      { field with validations := [⟨"min", .i64 limit.toInt⟩] } = .ok [.min limit ty] := by
    simp [extractValidators, validatorKind, expect, getI64, hty, bind, Except.bind, pure,
      Except.pure]
  unfold Passes
  rw [hkinds]
  simpa [runKind] using runValidators_single env ptr field.name container (.min limit ty)

theorem passes_max_iff (S : Shapes ι) (env : ValidatorEnv) (container : ι) (field : Field ι)
    (limit : Int64) {ty : ScalarType} (hty : (S field.shape).scalarType = some ty)
    (ptr : FieldPtr) :
    Passes S env container { field with validations := [⟨"max", .i64 limit.toInt⟩] } ptr ↔
      validateMax ptr limit ty = .ok () := by
  have hkinds : extractValidators S
      { field with validations := [⟨"max", .i64 limit.toInt⟩] } = .ok [.max limit ty] := by
    simp [extractValidators, validatorKind, expect, getI64, hty, bind, Except.bind, pure,
      Except.pure]
  unfold Passes
  rw [hkinds]
  simpa [runKind] using runValidators_single env ptr field.name container (.max limit ty)

/-- A bound decides over a number exactly when the number's type is one that is compared or the
number lies within the bound anyway. -/
theorem bound_decides_iff (S : Shapes ι) (env : ValidatorEnv) (container : ι) (field : Field ι)
    (limit : Int64) (ty : ScalarType) (hty : (S field.shape).scalarType = some ty)
    (ptr : FieldPtr) (x : Number) (hx : number ty (ptr.get ty) = some x) :
    ((Passes S env container { field with validations := [⟨"min", .i64 limit.toInt⟩] } ptr ↔
        x.AtLeast limit.toInt) ↔ Compared ty ∨ x.AtLeast limit.toInt) ∧
    ((Passes S env container { field with validations := [⟨"max", .i64 limit.toInt⟩] } ptr ↔
        x.AtMost limit.toInt) ↔ Compared ty ∨ x.AtMost limit.toInt) := by
  rw [passes_min_iff S env container field limit hty, passes_max_iff S env container field limit hty]
  by_cases hcompared : Compared ty
  · simp [validateMin_iff ptr limit hcompared hx, validateMax_iff ptr limit hcompared hx, hcompared]
  · simp [validateMin_of_not_compared ptr limit hcompared,
      validateMax_of_not_compared ptr limit hcompared, hcompared]

/-- A single shape, of the type `f64`. -/
def floatShapes : Shapes Unit := fun _ =>
  { ty := .primitive .numeric, «def» := .scalar, scalarType := some .f64 }

/-- A pointer to the float -1; nothing else is read through it. -/
def minusOne : FieldPtr where
  get
    | .f32 | .f64 => Number.finite (-1)
    | .i8 => (0 : Int8)
    | .i16 => (0 : Int16)
    | .i32 => (0 : Int32)
    | .i64 => (0 : Int64)
    | .isize => (0 : ISize)
    | .i128 | .u128 => (0 : BitVec 128)
    | .u8 => (0 : UInt8)
    | .u16 => (0 : UInt16)
    | .u32 => (0 : UInt32)
    | .u64 => (0 : UInt64)
    | .usize => (0 : USize)
    | .str | .string | .cowStr => ""
    | .unit | .bool | .char | .socketAddr | .ipAddr | .ipv4Addr | .ipv6Addr | .constTypeId => ()

def silentEnv : ValidatorEnv where
  custom _ _ := .ok ()
  matchesPattern _ _ := .ok true

def weight : Field Unit := { name := "weight", shape := () }

/-- A weight of -1 passes the minimum of 0. -/
theorem negative_weight_passes :
    Passes floatShapes silentEnv () { weight with validations := [⟨"min", .i64 0⟩] } minusOne ∧
      ¬ (Number.finite (-1)).AtLeast 0 := by
  constructor
  · exact ⟨[.min 0 .f64], rfl, rfl⟩
  · simp [Number.AtLeast]

/-- The bounds of the weight decide over it only from above. -/
theorem bound_decides_weight :
    ¬ (Passes floatShapes silentEnv () { weight with validations := [⟨"min", .i64 0⟩] } minusOne ↔
      (Number.finite (-1)).AtLeast 0) := by
  have h := (bound_decides_iff floatShapes silentEnv () weight 0 .f64 rfl minusOne
    (.finite (-1)) rfl).1
  have hzero : (0 : Int64).toInt = 0 := rfl
  rw [hzero] at h
  rw [h]
  simp [Compared, Number.AtLeast]

end Facet.TypePlan
