import Facet.Flatten.Resolution
import Facet.Flatten.ResolutionSet

/-!
# Building schemas

The builder computes all resolutions of a type and indexes them by field. The
recursive analysis follows the shapes it meets, and the shapes of a program form a
graph, so it runs with a bound on the depth of the recursion; an analysis that needs
more is `unfinished`.
-/

namespace Facet.Flatten

open Std

variable {ι : Type}

/-- Determines how fields are categorized and indexed in the schema. -/
inductive Format
  | flat
  | dom
  deriving DecidableEq, Repr

/-- How enum variants are represented in the serialized format. -/
inductive EnumRepr
  | flattened
  | externallyTagged
  | internallyTagged (tag : String)
  | adjacentlyTagged (tag content : String)
  deriving DecidableEq, Repr

/-- Detect the enum representation from a shape's attributes. -/
def EnumRepr.fromShape (shape : Shape ι) : EnumRepr :=
  match shape.tag, shape.content, shape.untagged with
  | _, _, true => .flattened
  | some t, some c, false => .adjacentlyTagged t c
  | some t, none, false => .internallyTagged t
  | none, none, false => .externallyTagged
  | none, some _, false => .externallyTagged

inductive SchemaError
  | duplicateField (err : DuplicateFieldError)
  | unfinished
  deriving DecidableEq, Repr

abbrev Analysis (α : Type) := Except SchemaError α

/-- Conflicts between fields are schema errors. -/
def orDuplicateField {α : Type} (r : Except DuplicateFieldError α) : Analysis α :=
  r.mapError .duplicateField

structure SchemaBuilder (ι : Type) where
  shape : ι
  enumRepr : EnumRepr
  autoDetectEnumRepr : Bool := false
  format : Format := .flat

def isOptionType (shape : Shape ι) : Bool :=
  match shape.def with
  | .option _ => true
  | _ => false

def unwrapOptionType (shape : Shape ι) : Option ι :=
  match shape.def with
  | .option t => some t
  | _ => none

/-- The shape behind an outer `Option` of a flattened field, and whether there is one. -/
def unwrapOptionalFlatten (shapes : Shapes ι) (field : Field ι) : ι × Bool :=
  match unwrapOptionType (shapes field.shape) with
  | some inner => (inner, true)
  | none => (field.shape, false)

/-- A variant with a single unnamed field. -/
def newtypeField (variant : Variant ι) : Option (Field ι) :=
  match variant.data.fields with
  | [f] => if f.name = "0" then some f else none
  | _ => none

section

variable (shapes : Shapes ι)

/-- Unwrap transparent wrappers, extending the path with `"0"` for each layer. -/
def unwrapTransparentWithPath : ℕ → ι → FieldPath → Analysis (ι × FieldPath)
  | 0, _, _ => .error .unfinished
  | n + 1, s, path =>
    match (shapes s).inner with
    | some inner => unwrapTransparentWithPath n inner (path.pushField "0")
    | none => .ok (s, path)

def unwrapTransparent : ℕ → ι → Analysis ι
  | 0, _ => .error .unfinished
  | n + 1, s =>
    match (shapes s).inner with
    | some inner => unwrapTransparent n inner
    | none => .ok s

/-- Unwrap transparent wrappers and proxies down to the shape whose fields are on the
wire. -/
def unwrapToEffectiveShape : ℕ → ι → Analysis ι
  | 0, _ => .error .unfinished
  | n + 1, s => do
    let s ← unwrapTransparent shapes n s
    match (shapes s).proxy with
    | some proxy => unwrapToEffectiveShape n proxy
    | none => .ok s

mutual

/-- Key paths below a shape, without adding fields. -/
def collectShapeKeyPathsOnly : ℕ → ι → KeyPath → Resolution ι → Analysis (Resolution ι)
  | 0, _, _, _ => .error .unfinished
  | n + 1, s, keyPrefix, config =>
    match (shapes s).ty with
    | .user (.struct st) => collectStructKeyPathsOnly n st keyPrefix config
    | .user (.enum en) =>
      -- all variants, since the selected one is not known
      en.variants.foldlM
        (fun config variant => collectVariantFieldsKeyPathsOnly n variant keyPrefix config) config
    | _ => .ok config

def collectStructKeyPathsOnly :
    ℕ → StructType ι → KeyPath → Resolution ι → Analysis (Resolution ι)
  | 0, _, _, _ => .error .unfinished
  | n + 1, st, keyPrefix, config =>
    st.fields.foldlM (fun config field =>
      if field.isFlattened then collectShapeKeyPathsOnly n field.shape keyPrefix config
      else
        let fieldKeyPath := keyPrefix ++ [field.effectiveName]
        collectShapeKeyPathsOnly n field.shape fieldKeyPath (config.addKeyPath fieldKeyPath))
      config

def collectVariantFieldsKeyPathsOnly :
    ℕ → Variant ι → KeyPath → Resolution ι → Analysis (Resolution ι)
  | 0, _, _, _ => .error .unfinished
  | n + 1, variant, keyPrefix, config =>
    match newtypeField variant with
    | some inner => collectShapeKeyPathsOnly n inner.shape keyPrefix config
    | none =>
      variant.data.fields.foldlM (fun config field =>
        let fieldKeyPath := keyPrefix ++ [field.effectiveName]
        collectShapeKeyPathsOnly n field.shape fieldKeyPath (config.addKeyPath fieldKeyPath))
        config

end

mutual

/-- Key paths below a field that is not flattened. -/
def collectNestedKeyPathsForShape :
    ℕ → ι → KeyPath → List (Resolution ι) → Analysis (List (Resolution ι))
  | 0, _, _, _ => .error .unfinished
  | n + 1, s, keyPrefix, configs =>
    match (shapes s).ty with
    | .user (.struct st) => collectNestedKeyPathsForStruct n st keyPrefix configs
    | _ => .ok configs

def collectNestedKeyPathsForStruct :
    ℕ → StructType ι → KeyPath → List (Resolution ι) → Analysis (List (Resolution ι))
  | 0, _, _, _ => .error .unfinished
  | n + 1, st, keyPrefix, configs =>
    st.fields.foldlM (fun configs field =>
      if field.isFlattened then collectNestedKeyPathsForFlattened n field keyPrefix configs
      else
        let fieldKeyPath := keyPrefix ++ [field.effectiveName]
        collectNestedKeyPathsForShape n field.shape fieldKeyPath
          (configs.map fun config => config.addKeyPath fieldKeyPath)) configs

/-- A flattened enum contributes the paths of the variant a config has selected for a
field of that name. -/
def collectNestedKeyPathsForFlattened :
    ℕ → Field ι → KeyPath → List (Resolution ι) → Analysis (List (Resolution ι))
  | 0, _, _, _ => .error .unfinished
  | n + 1, field, keyPrefix, configs =>
    match (shapes field.shape).ty with
    | .user (.struct st) => collectNestedKeyPathsForStruct n st keyPrefix configs
    | .user (.enum en) =>
      configs.mapM fun config =>
        let selected := config.variantSelections.find? fun vs =>
          vs.path.getLast? == some (.field field.name)
        match selected with
        | none => .ok config
        | some vs =>
          match en.variants.find? fun v => v.name == vs.variantName with
          | none => .ok config
          | some variant => collectVariantKeyPaths n variant keyPrefix config
    | _ => .ok configs

def collectVariantKeyPaths :
    ℕ → Variant ι → KeyPath → Resolution ι → Analysis (Resolution ι)
  | 0, _, _, _ => .error .unfinished
  | n + 1, variant, keyPrefix, config =>
    let firstConfig (configs : List (Resolution ι)) := configs.head?.getD .new
    let namedFields :=
      variant.data.fields.foldlM (fun config field =>
        if field.isFlattened then do
          let configs ← collectNestedKeyPathsForFlattened n field keyPrefix [config]
          return firstConfig configs
        else do
          let fieldKeyPath := keyPrefix ++ [field.effectiveName]
          let configs ← collectNestedKeyPathsForShape n field.shape fieldKeyPath
            [config.addKeyPath fieldKeyPath]
          return firstConfig configs) config
    match newtypeField variant with
    | some inner =>
      match (shapes inner.shape).ty with
      | .user (.struct st) => do
        let configs ← collectNestedKeyPathsForStruct n st keyPrefix [config]
        return firstConfig configs
      | _ => namedFields
    | none => namedFields

end

end

section

variable (shapes : Shapes ι) (b : SchemaBuilder ι)

namespace SchemaBuilder

/-- The category of a field that is a key of its own. -/
def category (field : Field ι) : FieldCategory :=
  if b.format = .dom then (FieldCategory.fromFieldDom field).getD .element else .flat

/-- The category of a catch-all map. -/
def catchAllCategory (field : Field ι) : FieldCategory :=
  if b.format = .dom then if field.isAttribute then .attribute else .element else .flat

/-- Merge each variant or struct resolution into a copy of the base. -/
def mergeEach (base : Resolution ι) (configs : List (Resolution ι)) :
    Analysis (List (Resolution ι)) :=
  configs.mapM fun config => orDuplicateField (base.merge config)

/-- The synthetic field of a tag or of an externally tagged variant's name. -/
def selectorField (serializedName : String) (variantPath : FieldPath) (isOptionalFlatten : Bool)
    (shape : ι) (field : Field ι) : FieldInfo ι where
  serializedName := serializedName
  path := variantPath
  required := !isOptionalFlatten
  valueShape := shape
  field := field
  category := .element

def markOptionalIf (isOptionalFlatten : Bool) (configs : List (Resolution ι)) :
    List (Resolution ι) :=
  if isOptionalFlatten then configs.map Resolution.markAllOptional else configs

mutual

def analyzeStruct : ℕ → StructType ι → FieldPath → KeyPath → Analysis (List (Resolution ι))
  | 0, _, _, _ => .error .unfinished
  | n + 1, st, currentPath, keyPrefix =>
    st.fields.foldlM (fun configs field =>
      analyzeFieldIntoConfigs n field currentPath keyPrefix configs) [.new]

def analyzeFieldIntoConfigs : ℕ → Field ι → FieldPath → KeyPath → List (Resolution ι) →
    Analysis (List (Resolution ι))
  | 0, _, _, _, _ => .error .unfinished
  | n + 1, field, parentPath, keyPrefix, configs =>
    if field.isFlattened then
      analyzeFlattenedFieldIntoConfigs n field parentPath keyPrefix configs
    else do
      let fieldKeyPath := keyPrefix ++ [field.effectiveName]
      let fieldInfo : FieldInfo ι :=
        { serializedName := field.effectiveName
          path := parentPath.pushField field.name
          required := !field.hasDefault && !isOptionType (shapes field.shape)
          valueShape := field.shape
          field := field
          category := b.category field }
      let configs ← configs.mapM fun config => do
        let config ← orDuplicateField (config.addField fieldInfo)
        return config.addKeyPath fieldKeyPath
      collectNestedKeyPathsForShape shapes n field.shape fieldKeyPath configs

def analyzeFlattenedFieldIntoConfigs : ℕ → Field ι → FieldPath → KeyPath →
    List (Resolution ι) → Analysis (List (Resolution ι))
  | 0, _, _, _, _ => .error .unfinished
  | n + 1, field, parentPath, keyPrefix, configs => do
    let (unwrapped, isOptionalFlatten) := unwrapOptionalFlatten shapes field
    let (shape, fieldPath) ←
      unwrapTransparentWithPath shapes n unwrapped (parentPath.pushField field.name)
    match (shapes shape).ty with
    | .user (.struct st) =>
      let structConfigs ← analyzeStruct n st fieldPath keyPrefix
      let merged ← configs.mapM fun base =>
        mergeEach base (markOptionalIf isOptionalFlatten structConfigs)
      return merged.flatten
    | .user (.enum en) =>
      let enumName := (shapes shape).typeIdentifier
      let enumRepr :=
        if b.autoDetectEnumRepr then EnumRepr.fromShape (shapes shape) else b.enumRepr
      let forks ← configs.mapM fun base => do
        let forked ← en.variants.mapM fun variant => do
          let forked := base.addVariantSelection fieldPath enumName variant.name
          let variantPath := fieldPath.pushVariant field.name variant.name
          match enumRepr with
          | .externallyTagged =>
            let variantKeyPrefix := keyPrefix ++ [variant.name]
            let forked ← orDuplicateField ((forked.addKeyPath variantKeyPrefix).addField
              (selectorField variant.name variantPath isOptionalFlatten shape field))
            let forked ←
              collectVariantFieldsKeyPathsOnly shapes n variant variantKeyPrefix forked
            return [forked]
          | .flattened =>
            let variantConfigs ← analyzeVariantContent n variant variantPath keyPrefix
            mergeEach forked (markOptionalIf isOptionalFlatten variantConfigs)
          | .internallyTagged tag =>
            let forked ← orDuplicateField ((forked.addKeyPath (keyPrefix ++ [tag])).addField
              (selectorField tag variantPath isOptionalFlatten shape field))
            let variantConfigs ← analyzeVariantContent n variant variantPath keyPrefix
            mergeEach forked (markOptionalIf isOptionalFlatten variantConfigs)
          | .adjacentlyTagged tag content =>
            let forked ← orDuplicateField ((forked.addKeyPath (keyPrefix ++ [tag])).addField
              (selectorField tag variantPath isOptionalFlatten shape field))
            let contentKeyPrefix := keyPrefix ++ [content]
            let forked ← collectVariantFieldsKeyPathsOnly shapes n variant contentKeyPrefix
              (forked.addKeyPath contentKeyPrefix)
            return [forked]
        return forked.flatten
      return forks.flatten
    | _ =>
      let catchAll : FieldInfo ι :=
        { serializedName := field.effectiveName
          path := fieldPath
          required := false
          valueShape := shape
          field := field
          category := b.catchAllCategory field }
      match (shapes shape).def with
      | .map _ _ | .dynamicValue =>
        return configs.map fun config => config.setCatchAllMap catchAll.category catchAll
      | _ =>
        -- other types cannot be flattened and are regular fields
        let fieldInfo : FieldInfo ι :=
          { catchAll with
            required :=
              !field.hasDefault && !isOptionType (shapes shape) && !isOptionalFlatten
            category := b.category field }
        configs.mapM fun config => do
          let config ← orDuplicateField (config.addField fieldInfo)
          return config.addKeyPath (keyPrefix ++ [field.effectiveName])

def analyzeVariantContent : ℕ → Variant ι → FieldPath → KeyPath →
    Analysis (List (Resolution ι))
  | 0, _, _, _ => .error .unfinished
  | n + 1, variant, variantPath, keyPrefix =>
    let namedFields :=
      variant.data.fields.foldlM (fun configs field =>
        analyzeFieldIntoConfigs n field variantPath keyPrefix configs) [.new]
    match newtypeField variant with
    | some inner => do
      let effective ← unwrapToEffectiveShape shapes n inner.shape
      match (shapes effective).ty with
      | .user (.struct st) => analyzeStruct n st (variantPath.pushField "0") keyPrefix
      | _ => namedFields
    | none => namedFields

end

/-- One configuration per variant. -/
def analyzeEnum (n : ℕ) (s : ι) (en : EnumType ι) (currentPath : FieldPath)
    (keyPrefix : KeyPath) : Analysis (List (Resolution ι)) := do
  let result ← en.variants.mapM fun variant => do
    let config := Resolution.new.addVariantSelection currentPath (shapes s).typeIdentifier
      variant.name
    let variantConfigs ← analyzeVariantContent shapes b n variant
      (currentPath.pushVariant "" variant.name) keyPrefix
    mergeEach config variantConfigs
  return result.flatten

def analyzeShape (n : ℕ) (s : ι) (currentPath : FieldPath) (keyPrefix : KeyPath) :
    Analysis (List (Resolution ι)) :=
  match (shapes s).ty with
  | .user (.struct st) => analyzeStruct shapes b n st currentPath keyPrefix
  | .user (.enum en) => analyzeEnum shapes b n s en currentPath keyPrefix
  | _ => .ok [.new]

def analyze (n : ℕ) : Analysis (List (Resolution ι)) := analyzeShape shapes b n b.shape [] []

end SchemaBuilder

end

end Facet.Flatten
