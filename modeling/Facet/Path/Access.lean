import Facet.Path.Memory
import Facet.Path.Path

/-!
# Following a path through a value

A path is applied to a value step by step, by one case analysis for reading and by another
for writing. Both answer with the location at the end of the path or with the first step
that cannot be taken.
-/

namespace Facet.Path

variable {ι : Type}

inductive PathAccessError (ι : Type)
  | rootShapeMismatch (expected actual : ι)
  | wrongStepKind (step : PathStep) (stepIndex : ℕ) (shape : ι)
  | indexOutOfBounds (step : PathStep) (stepIndex : ℕ) (shape : ι) (index bound : ℕ)
  | variantMismatch (stepIndex : ℕ) (shape : ι) (expectedVariant actualVariant : ℕ)
  | missingTarget (step : PathStep) (stepIndex : ℕ) (shape : ι)
  | optionIsNone (stepIndex : ℕ) (shape : ι)
  deriving DecidableEq

abbrev Access (ι : Type) := Attempt (PathAccessError ι)

/-- `ok_or`. -/
def okOr (found : Option (Location ι)) (e : PathAccessError ι) : Access ι (Location ι) :=
  match found with
  | some loc => .ok loc
  | none => .error (.error e)

namespace Runtime

variable (R : Runtime ι)

section Peek

def PeekEnum.field (loc : Location ι) (ed : EnumType ι) (index : ℕ) :
    Attempt VariantError (Option (Location ι)) := do
  let active ← R.variantIndex loc ed
  match ed.variants[active]? with
  | some variant =>
    .ok (variant.data.fields[index]?.map fun f => ⟨loc.data.field f.offset, f.shape⟩)
  | none => .error .panic

/-- `PeekListLike::get` of an array. -/
def PeekListLike.get (loc : Location ι) (t : ι) (n index : ℕ) : Option (Location ι) :=
  if n ≤ index then none
  else
    (R.sizedLayout t).map fun size =>
      ⟨(R.arrayAsPtr loc.shape loc.data).field (index * size), t⟩

/-- `Peek::apply_step`. -/
def applyStep (loc : Location ι) (step : PathStep) (i : ℕ) : Access ι (Location ι) :=
  let wrongStepKind : Access ι (Location ι) := .error (.error (.wrongStepKind step i loc.shape))
  let missingTarget := PathAccessError.missingTarget step i loc.shape
  let outOfBounds := PathAccessError.indexOutOfBounds step i loc.shape
  let notReadable : Failure VariantError → Failure (PathAccessError ι) :=
    Failure.map fun _ => .wrongStepKind step i loc.shape
  match step with
  | .field idx =>
    match (R.shapes loc.shape).ty with
    | .user (.struct sd) =>
      okOr (sd.fields[idx]?.map fun f => ⟨loc.data.field f.offset, f.shape⟩)
        (outOfBounds idx sd.fields.length)
    -- a variant step has been checked before; the active variant is read again
    | .user (.enum ed) => do
      let active ← (R.variantIndex loc ed).mapError notReadable
      match ed.variants[active]? with
      | some variant =>
        if variant.data.fields.length ≤ idx then
          .error (.error (outOfBounds idx variant.data.fields.length))
        else
          let found ← (PeekEnum.field R loc ed idx).mapError notReadable
          okOr found (outOfBounds idx variant.data.fields.length)
      | none => .error .panic
    | _ => wrongStepKind
  | .variant expected =>
    match (R.shapes loc.shape).ty with
    | .user (.enum ed) =>
      if ed.variants.length ≤ expected then
        .error (.error (outOfBounds expected ed.variants.length))
      else do
        let actual ← (R.variantIndex loc ed).mapError notReadable
        if actual ≠ expected then
          .error (.error (.variantMismatch i loc.shape expected actual))
        else .ok loc
    | _ => wrongStepKind
  | .index idx =>
    match (R.shapes loc.shape).def with
    | .list t =>
      okOr ((R.listGet loc.shape loc.data idx).map fun item => ⟨item, t⟩)
        (outOfBounds idx (R.listLen loc.shape loc.data))
    | .array t n => okOr (PeekListLike.get R loc t n idx) (outOfBounds idx n)
    | _ => wrongStepKind
  | .mapKey idx =>
    match (R.shapes loc.shape).def with
    | .map k _ =>
      if R.mapLen loc.shape loc.data ≤ idx then
        .error (.error (outOfBounds idx (R.mapLen loc.shape loc.data)))
      else
        okOr ((R.mapIter loc.shape loc.data)[idx]?.map fun entry => ⟨entry.1, k⟩)
          (outOfBounds idx (R.mapLen loc.shape loc.data))
    | _ => wrongStepKind
  | .mapValue idx =>
    match (R.shapes loc.shape).def with
    | .map _ v =>
      if R.mapLen loc.shape loc.data ≤ idx then
        .error (.error (outOfBounds idx (R.mapLen loc.shape loc.data)))
      else
        okOr ((R.mapIter loc.shape loc.data)[idx]?.map fun entry => ⟨entry.2, v⟩)
          (outOfBounds idx (R.mapLen loc.shape loc.data))
    | _ => wrongStepKind
  | .optionSome =>
    match (R.shapes loc.shape).def with
    | .option t =>
      okOr ((R.optionGetValue loc.shape loc.data).map fun inner => ⟨inner, t⟩)
        (.optionIsNone i loc.shape)
    | _ => wrongStepKind
  | .deref =>
    match (R.shapes loc.shape).def with
    | .pointer pointee =>
      okOr (do
          let borrow ← R.borrowFn loc.shape
          let t ← pointee
          pure ⟨borrow loc.data, t⟩)
        missingTarget
    | _ => wrongStepKind
  | .inner =>
    okOr (do
        let t ← (R.shapes loc.shape).inner
        let inner ← R.tryBorrowInner loc.shape loc.data
        pure ⟨inner, t⟩)
      missingTarget
  -- a conversion allocates, so reading never goes through a proxy
  | .proxy =>
    match (R.shapes loc.shape).proxy with
    | some proxy => .error (.error (.missingTarget step i proxy))
    | none => .error (.error missingTarget)

end Peek

section Poke

/-- `apply_step_mut`. -/
def applyStepMut (loc : Location ι) (step : PathStep) (i : ℕ) : Access ι (Location ι) :=
  let wrongStepKind : Access ι (Location ι) := .error (.error (.wrongStepKind step i loc.shape))
  let missingTarget : Access ι (Location ι) := .error (.error (.missingTarget step i loc.shape))
  let outOfBounds := PathAccessError.indexOutOfBounds step i loc.shape
  let notReadable : Failure VariantError → Failure (PathAccessError ι) :=
    Failure.map fun _ => .wrongStepKind step i loc.shape
  match step with
  | .field idx =>
    match (R.shapes loc.shape).ty with
    | .user (.struct sd) =>
      okOr (sd.fields[idx]?.map fun f => ⟨loc.data.field f.offset, f.shape⟩)
        (outOfBounds idx sd.fields.length)
    | .user (.enum ed) => do
      let active ← (R.variantIndexFromRaw loc ed).mapError notReadable
      match ed.variants[active]? with
      | some variant =>
        okOr (variant.data.fields[idx]?.map fun f => ⟨loc.data.field f.offset, f.shape⟩)
          (outOfBounds idx variant.data.fields.length)
      | none => .error .panic
    | _ => wrongStepKind
  | .variant expected =>
    match (R.shapes loc.shape).ty with
    | .user (.enum ed) =>
      if ed.variants.length ≤ expected then
        .error (.error (outOfBounds expected ed.variants.length))
      else do
        let actual ← (R.variantIndexFromRaw loc ed).mapError notReadable
        if actual ≠ expected then
          .error (.error (.variantMismatch i loc.shape expected actual))
        else .ok loc
    | _ => wrongStepKind
  | .index idx =>
    match (R.shapes loc.shape).def with
    | .list t =>
      match R.listGetMut loc.shape with
      | some getMut =>
        okOr ((getMut loc.data idx).map fun item => ⟨item, t⟩)
          (outOfBounds idx (R.listLen loc.shape loc.data))
      | none => wrongStepKind
    | .array t n =>
      match R.sizedLayout t with
      | some size =>
        if n ≤ idx then .error (.error (outOfBounds idx n))
        else .ok ⟨loc.data.field (size * idx), t⟩
      | none => wrongStepKind
    | _ => wrongStepKind
  | .optionSome =>
    match (R.shapes loc.shape).def with
    | .option t =>
      if !R.optionIsSome loc.shape loc.data then .error (.error (.optionIsNone i loc.shape))
      else
        match R.optionGetValue loc.shape loc.data with
        -- the payload is addressed by its offset from the option
        | some inner => .ok ⟨loc.data.field (inner - loc.data).toNat, t⟩
        | none => .error .panic
    | _ => wrongStepKind
  | .mapKey _ | .mapValue _ =>
    match (R.shapes loc.shape).def with
    | .map _ _ => missingTarget
    | _ => wrongStepKind
  | .deref =>
    match (R.shapes loc.shape).def with
    | .pointer _ => missingTarget
    | _ => wrongStepKind
  | .inner | .proxy => missingTarget

end Poke

/-- Steps in order, numbered from `i` on. -/
def applySteps (apply : Location ι → PathStep → ℕ → Access ι (Location ι)) (loc : Location ι)
    (i : ℕ) : List PathStep → Access ι (Location ι)
  | [] => .ok loc
  | step :: steps => do
    let next ← apply loc step i
    applySteps apply next (i + 1) steps

section Walks

variable [DecidableEq ι]

def atPath (loc : Location ι) (root : ι) (steps : List PathStep) : Access ι (Location ι) :=
  if loc.shape ≠ root then
    .error (.error (.rootShapeMismatch root loc.shape))
  else applySteps R.applyStep loc 0 steps

def atPathMut (loc : Location ι) (root : ι) (steps : List PathStep) : Access ι (Location ι) :=
  if loc.shape ≠ root then
    .error (.error (.rootShapeMismatch root loc.shape))
  else applySteps R.applyStepMut loc 0 steps

end Walks

end Runtime

end Facet.Path
