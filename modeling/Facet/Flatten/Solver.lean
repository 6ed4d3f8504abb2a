import Facet.Flatten.Schema

/-!
# The solver

The solver narrows the resolutions of a schema as the keys of an input are reported.
Each operation returns its answer together with the next state.
-/

namespace Facet.Flatten

open Std

variable {ι : Type}

/-- Lower is more specific; `shape` is recognized by its type identifier. -/
def specificityScore (shape : Shape ι) : ℕ :=
  match shape.typeIdentifier with
  | "u8" | "i8" => 8
  | "u16" | "i16" => 16
  | "u32" | "i32" | "f32" => 32
  | "u64" | "i64" | "f64" => 64
  | "u128" | "i128" => 128
  | "usize" | "isize" => 64
  | _ => 1000

/-- Result of reporting a key; a solved handle is given by its index. -/
inductive KeyResult (ι : Type)
  | unambiguous (shape : ι)
  | ambiguous (fields : List (FieldInfo ι × ℕ))
  | solved (idx : ℕ)
  | unknown

inductive SatisfyResult
  | continue
  | solved (idx : ℕ)
  | noMatch
  deriving DecidableEq, Repr

inductive SolverError
  | noMatch (inputFields unknownFields : List String)
  | ambiguous (candidates disambiguatingFields : List String)
  deriving DecidableEq, Repr

/-- State machine for lazy value-based disambiguation. -/
structure Solver (ι : Type) where
  schema : Schema ι
  candidates : ResolutionSet
  seenKeys : TreeSet FieldKey

/-- Fields that exist in some but not all of the given resolutions. -/
def findDisambiguatingFields (configs : List (Resolution ι)) : List String :=
  if configs.length < 2 then []
  else
    let allFields : TreeSet String := configs.foldl (fun names config =>
      config.fields.values.foldl (fun names info => names.insert info.serializedName) names) ∅
    allFields.toList.filter fun field =>
      let count := configs.countP fun c => (c.fieldByName field).isSome
      0 < count && count < configs.length

/-- The entry of the inverted indexes that a key selects. -/
def Schema.resolutionsWithKey (schema : Schema ι) (key : FieldKey) : Option ResolutionSet :=
  match key, schema.format with
  | .flat name, .flat => schema.fieldToResolutions[name]?
  -- a flat key on a DOM schema is tried as an element
  | .flat name, .dom => schema.domFieldToResolutions[((.element, name) : DomKey)]?
  | .dom cat name, .dom =>
    if (cat = .text ∨ cat = .tag ∨ cat = .elements) ∧ name = "" then
      (schema.domFieldToResolutions.toList.find? fun e => e.1.1 = cat).map Prod.snd
    else schema.domFieldToResolutions[((cat, name) : DomKey)]?
  | .dom _ name, .flat => schema.fieldToResolutions[name]?

namespace Solver

def new (schema : Schema ι) : Solver ι where
  schema := schema
  candidates := .full schema.resolutions.length
  seenKeys := ∅

/-- The remaining candidates with their resolutions. -/
def configs (s : Solver ι) : List (Resolution ι) :=
  s.candidates.iter.filterMap fun idx => s.schema.resolutions[idx]?

/-- Keep a candidate whose resolution passes a test. -/
def keepIf (s : Solver ι) (p : Resolution ι → Bool) (kept : ResolutionSet) (idx : ℕ) :
    ResolutionSet :=
  match s.schema.resolutions[idx]? with
  | some config => if p config then kept.insert idx else kept
  | none => kept

/-- The loop over the candidates that five operations share. -/
def filterCandidates (s : Solver ι) (p : Resolution ι → Bool) : ResolutionSet :=
  s.candidates.iter.foldl (s.keepIf p) (.empty s.schema.resolutions.length)

section Keys

variable [DecidableEq ι] (shapes : Shapes ι)

/-- Keep the first field of each value shape. -/
def pushUnique (fields : List (FieldInfo ι)) (info : FieldInfo ι) : List (FieldInfo ι) :=
  if fields.any fun f => f.valueShape = info.valueShape then fields else fields ++ [info]

/-- Collect the unique fields, by value shape, that the candidates have for a key. -/
def uniqueFields (s : Solver ι) (key : FieldKey) : List (FieldInfo ι) :=
  (s.configs.filterMap fun config => config.fieldByKey key).foldl pushUnique []

/-- The answer once the candidates have been narrowed. -/
def classify (s : Solver ι) (key : FieldKey) : KeyResult ι :=
  match s.candidates.len, s.candidates.first with
  | 1, some idx => .solved idx
  | _, _ =>
    match s.uniqueFields key with
    | [] => .unknown
    | [info] => .unambiguous info.valueShape
    | infos => .ambiguous (infos.map fun f => (f, specificityScore (shapes f.valueShape)))

def seeKeyInternal (s : Solver ι) (key : FieldKey) : KeyResult ι × Solver ι :=
  let s := { s with seenKeys := s.seenKeys.insert key }
  match s.schema.resolutionsWithKey key with
  | none => (.unknown, s)
  | some set =>
    if s.candidates.intersects set then
      let s := { s with candidates := s.candidates.intersectWith set }
      (s.classify shapes key, s)
    -- an unknown key does not eliminate candidates
    else (.unknown, s)

def seeKey (s : Solver ι) (name : String) := s.seeKeyInternal shapes (.flat name)

def seeAttribute (s : Solver ι) (name : String) := s.seeKeyInternal shapes (.ofAttribute name)

def seeElement (s : Solver ι) (name : String) := s.seeKeyInternal shapes (.ofElement name)

def seeText (s : Solver ι) := s.seeKeyInternal shapes .ofText

/-- The answer of the two `satisfy` operations for the remaining candidates. -/
def satisfyResult (s : Solver ι) : SatisfyResult :=
  match s.candidates.len, s.candidates.first with
  | 0, _ => .noMatch
  | 1, some idx => .solved idx
  | _, _ => .continue

def satisfyShapes (s : Solver ι) (satisfied : List ι) : SatisfyResult × Solver ι :=
  if satisfied = [] then
    (.noMatch, { s with candidates := .empty s.schema.resolutions.length })
  else
    let s := { s with candidates := s.filterCandidates fun config =>
      config.fields.values.any fun field => field.valueShape ∈ satisfied }
    (s.satisfyResult, s)

def satisfy (s : Solver ι) (satisfied : List (FieldInfo ι)) : SatisfyResult × Solver ι :=
  s.satisfyShapes (satisfied.map FieldInfo.valueShape)

/-- The shape of a field within a struct shape. -/
def getFieldShape (shape : ι) (fieldName : String) : Option ι :=
  match (shapes shape).ty with
  | .user (.struct st) =>
    (st.fields.find? fun f => f.effectiveName == fieldName).map Field.shape
  | _ => none

/-- The shape at a nested path within a configuration. -/
def getShapeAtPath (config : Resolution ι) (path : KeyPath) : Option ι :=
  match path with
  | [] => none
  | top :: rest => do
    let field ← config.fieldByName top
    rest.foldlM (fun shape key => getFieldShape shapes shape key) field.valueShape

/-- The shapes at a nested path across all remaining candidates. -/
def getShapesAtPath (s : Solver ι) (path : KeyPath) : List ι :=
  (s.configs.filterMap fun config => getShapeAtPath shapes config path).foldl
    (fun found shape => if shape ∈ found then found else found ++ [shape]) []

def satisfyAtPath (s : Solver ι) (path : KeyPath) (satisfied : List ι) :
    SatisfyResult × Solver ι :=
  if satisfied = [] then
    (.noMatch, { s with candidates := .empty s.schema.resolutions.length })
  else
    let s := { s with candidates := s.filterCandidates fun config =>
      match getShapeAtPath shapes config path with
      | some shape => shape ∈ satisfied
      | none => false }
    (s.satisfyResult, s)

def hintVariant (s : Solver ι) (variantName : String) : Bool × Solver ι :=
  let hinted := s.filterCandidates fun config =>
    config.variantSelections.any fun vs => vs.variantName == variantName
  if hinted.isEmpty then (false, s) else (true, { s with candidates := hinted })

def hintVariantForTag (s : Solver ι) (tagFieldName variantName : String) : Bool × Solver ι :=
  let isTagField := s.configs.any fun config => config.fields.values.any fun field =>
    field.serializedName == tagFieldName &&
      (shapes field.valueShape).tag == some tagFieldName &&
      (shapes field.valueShape).content == none
  if isTagField then s.hintVariant variantName else (false, s)

def markSeen (s : Solver ι) (key : FieldKey) : Solver ι :=
  { s with seenKeys := s.seenKeys.insert key }

/-- Keep the first candidate of each shape. -/
def pushUniqueShape (found : List (ι × Resolution ι)) (entry : ι × Resolution ι) :
    List (ι × Resolution ι) :=
  if found.any fun e => e.1 = entry.1 then found else found ++ [entry]

/-- The depth-aware version of `seeKey`. -/
def probeKey (s : Solver ι) (path : KeyPath) (key : String) : KeyResult ι × Solver ι :=
  let fullPath := path ++ [key]
  let s := { s with candidates := s.filterCandidates fun config => config.hasKeyPath fullPath }
  if s.candidates.isEmpty then (.unknown, s)
  else
    match s.candidates.len, s.candidates.first with
    | 1, some idx => (.solved idx, s)
    | _, _ =>
      let found := (s.configs.filterMap fun config =>
        (getShapeAtPath shapes config fullPath).map (·, config)).foldl pushUniqueShape []
      match found with
      | [] => (.unknown, s)
      | [(shape, _)] => (.unambiguous shape, s)
      | found =>
        (.ambiguous (found.filterMap fun (shape, config) =>
          (config.fieldByName (path.head?.getD key)).map
            (·, specificityScore (shapes shape))), s)

end Keys

/-- All required fields of the resolution were reported. -/
def requiredSeen (s : Solver ι) (config : Resolution ι) : Bool :=
  config.requiredFieldNames.toList.all fun f => s.seenKeys.toList.any fun k => k.name == f

/-- The candidates with all required fields satisfied. -/
def viable (s : Solver ι) : List ℕ :=
  s.candidates.iter.filter fun idx =>
    match s.schema.resolutions[idx]? with
    | some config => s.requiredSeen config
    | none => false

/-- Call after all keys have been processed. -/
def finish (s : Solver ι) : Except SolverError ℕ :=
  let allKnownFields := s.schema.resolutions.flatMap fun r =>
    r.fields.values.map FieldInfo.serializedName
  let unknownFields := (s.seenKeys.toList.filter fun k => k.name ∉ allKnownFields).map
    FieldKey.name
  if s.candidates.isEmpty then
    .error (.noMatch (s.seenKeys.toList.map FieldKey.name) unknownFields)
  else
    match s.viable with
    | [] => .error (.noMatch (s.seenKeys.toList.map FieldKey.display) unknownFields)
    | [idx] => .ok idx
    | idxs =>
      let configs := idxs.filterMap fun idx => s.schema.resolutions[idx]?
      .error (.ambiguous (configs.map Resolution.describe) (findDisambiguatingFields configs))

end Solver

end Facet.Flatten
