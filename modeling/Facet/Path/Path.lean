import Facet.Core.Shape

/-!
# Paths and their replay

A path stores indices only. Field names and shapes are recovered by replaying its steps
from the root shape, and the source does so twice: leniently when it formats a path, where
a step that cannot be followed leaves the shape as it is, and strictly when it looks for
the field at the end of a path.
-/

namespace Facet.Path

variable {ι : Type}

inductive PathStep
  | field (idx : ℕ)
  | index (idx : ℕ)
  | variant (idx : ℕ)
  | mapKey (idx : ℕ)
  | mapValue (idx : ℕ)
  | optionSome
  | deref
  | inner
  | proxy
  deriving DecidableEq, Repr

section Lookups

variable (shape : Shape ι)

/-- The field at an index of a struct, or of the variant selected before. -/
def getFieldWithVariant (idx : ℕ) (variantIdx : Option ℕ) : Option (Field ι) :=
  match shape.ty with
  | .user (.struct sd) => sd.fields[idx]?
  | .user (.enum ed) => do
    let vi ← variantIdx
    let variant ← ed.variants[vi]?
    variant.data.fields[idx]?
  | _ => none

def getFieldShapeWithVariant (idx : ℕ) (variantIdx : Option ℕ) : Option ι :=
  (getFieldWithVariant shape idx variantIdx).map Field.shape

def getFieldNameWithVariant (idx : ℕ) (variantIdx : Option ℕ) : Option String :=
  (getFieldWithVariant shape idx variantIdx).map Field.name

def getElementShape : Option ι :=
  match shape.def with
  | .list t | .array t _ | .slice t => some t
  | _ => none

def getVariantName (idx : ℕ) : Option String :=
  match shape.ty with
  | .user (.enum ed) => ed.variants[idx]?.map Variant.name
  | _ => none

def getMapKeyShape : Option ι :=
  match shape.def with
  | .map k _ => some k
  | _ => none

def getMapValueShape : Option ι :=
  match shape.def with
  | .map _ v => some v
  | _ => none

def getOptionInnerShape : Option ι :=
  match shape.def with
  | .option t => some t
  | _ => none

def getPointerInnerShape : Option ι :=
  match shape.def with
  | .pointer pointee => pointee
  | _ => none

end Lookups

/-- Where a replay stands: a shape, and the variant the next field is looked up in. -/
structure Cursor (ι : Type) where
  shape : ι
  variant : Option ℕ := none
  deriving DecidableEq

section Replay

variable (S : Shapes ι)

/-- One step of `resolve_leaf_field`; `none` where it gives up. -/
def advance (c : Cursor ι) : PathStep → Option (Cursor ι)
  | .field idx => (getFieldShapeWithVariant (S c.shape) idx c.variant).map fun s => ⟨s, none⟩
  | .index _ => (getElementShape (S c.shape)).map fun s => ⟨s, none⟩
  -- the shape stays; the next field step looks the variant up
  | .variant idx => some ⟨c.shape, some idx⟩
  | .mapKey _ => (getMapKeyShape (S c.shape)).map fun s => ⟨s, none⟩
  | .mapValue _ => (getMapValueShape (S c.shape)).map fun s => ⟨s, none⟩
  | .optionSome => (getOptionInnerShape (S c.shape)).map fun s => ⟨s, none⟩
  | .deref => (getPointerInnerShape (S c.shape)).map fun s => ⟨s, none⟩
  | .inner => (S c.shape).inner.map fun s => ⟨s, none⟩
  | .proxy => (S c.shape).proxy.map fun s => ⟨s, none⟩

def navigate (c : Cursor ι) (steps : List PathStep) : Option (Cursor ι) :=
  steps.foldlM (advance S) c

/-- The field a path ends at, if its last step is a field step and it can be followed. -/
def resolveLeafField (shape : ι) (steps : List PathStep) : Option (Field ι) := do
  let last ← steps.getLast?
  let c ← navigate S ⟨shape, none⟩ steps.dropLast
  match last with
  | .field idx => getFieldWithVariant (S c.shape) idx c.variant
  | _ => none

structure Formatting (ι : Type) where
  result : String
  cursor : Cursor ι

def pushFieldName (result : String) : Option String → String
  | some name => (if result.isEmpty then result else result ++ ".") ++ name
  | none => result

def pushVariantName (result : String) : Option String → String
  | some name => result ++ "::" ++ name
  | none => result

/-- One step of `format_with_shape`: text is added, and the shape moves if it can. -/
def formatStep (f : Formatting ι) : PathStep → Formatting ι
  | .field idx =>
    ⟨pushFieldName f.result (getFieldNameWithVariant (S f.cursor.shape) idx f.cursor.variant),
      (getFieldShapeWithVariant (S f.cursor.shape) idx f.cursor.variant).getD f.cursor.shape,
      none⟩
  | .index idx =>
    ⟨f.result ++ s!"[{idx}]", (getElementShape (S f.cursor.shape)).getD f.cursor.shape, none⟩
  | .variant idx =>
    ⟨pushVariantName f.result (getVariantName (S f.cursor.shape) idx), f.cursor.shape, some idx⟩
  | .mapKey idx =>
    ⟨f.result ++ s!"[key#{idx}]", (getMapKeyShape (S f.cursor.shape)).getD f.cursor.shape, none⟩
  | .mapValue idx =>
    ⟨f.result ++ s!"[value#{idx}]",
      (getMapValueShape (S f.cursor.shape)).getD f.cursor.shape, none⟩
  | .optionSome =>
    ⟨f.result ++ "::Some", (getOptionInnerShape (S f.cursor.shape)).getD f.cursor.shape, none⟩
  | .deref => ⟨f.result, (getPointerInnerShape (S f.cursor.shape)).getD f.cursor.shape, none⟩
  | .inner => ⟨f.result, (S f.cursor.shape).inner.getD f.cursor.shape, none⟩
  | .proxy => ⟨f.result, (S f.cursor.shape).proxy.getD f.cursor.shape, none⟩

def formatSteps (f : Formatting ι) (steps : List PathStep) : Formatting ι :=
  steps.foldl (formatStep S) f

def formatWithShape (shape : ι) (steps : List PathStep) : String :=
  let result := (formatSteps S ⟨"", ⟨shape, none⟩⟩ steps).result
  if result.isEmpty then "<root>" else result

end Replay

section ReplayLemmas

variable {S : Shapes ι}

@[simp] theorem navigate_nil (c : Cursor ι) : navigate S c [] = some c := rfl

@[simp] theorem navigate_cons (c : Cursor ι) (step : PathStep) (steps : List PathStep) :
    navigate S c (step :: steps) = (advance S c step).bind (navigate S · steps) := rfl

theorem navigate_append (c : Cursor ι) (pre post : List PathStep) :
    navigate S c (pre ++ post) = (navigate S c pre).bind (navigate S · post) :=
  List.foldlM_append

theorem resolveLeafField_concat_field (shape : ι) (steps : List PathStep) (idx : ℕ) :
    resolveLeafField S shape (steps ++ [.field idx])
      = (navigate S ⟨shape, none⟩ steps).bind
          fun c => getFieldWithVariant (S c.shape) idx c.variant := by
  simp [resolveLeafField, bind]

/-- Where the strict replay takes a step, the lenient one takes the same step. -/
theorem formatStep_cursor {f : Formatting ι} {step : PathStep} {c : Cursor ι}
    (h : advance S f.cursor step = some c) : (formatStep S f step).cursor = c := by
  cases step with
  | variant idx => simpa [advance, formatStep] using h
  | _ =>
    simp only [advance, Option.map_eq_some_iff] at h
    obtain ⟨s, hs, rfl⟩ := h
    simp [formatStep, hs]

theorem formatSteps_cursor {f : Formatting ι} {steps : List PathStep} {c : Cursor ι}
    (h : navigate S f.cursor steps = some c) : (formatSteps S f steps).cursor = c := by
  induction steps generalizing f with
  | nil => simpa [formatSteps] using h
  | cons step steps ih =>
    rw [navigate_cons, Option.bind_eq_some_iff] at h
    obtain ⟨d, hd, hc⟩ := h
    apply ih
    rwa [formatStep_cursor hd]

theorem variant_of_advance {c d : Cursor ι} {step : PathStep} (h : advance S c step = some d)
    (hstep : ∀ idx, step ≠ .variant idx) : d.variant = none := by
  cases step with
  | variant idx => exact absurd rfl (hstep idx)
  | _ =>
    simp only [advance, Option.map_eq_some_iff] at h
    obtain ⟨s, -, rfl⟩ := h
    rfl

end ReplayLemmas

end Facet.Path
