import Facet.Frames.FillRules
import Facet.Lib.StatePass
import Facet.TypePlan.VariantLookup

/-!
# Building a type plan

The plan of a type is a graph of nodes, one for each type that is reached, in arenas that grow
while it is built. A type that is met again while its node is being built gets a node that refers
back to it by its identity; a field with proxies of its own always gets a node of its own.
-/

namespace Facet.Plan

open BinarySearch Frames TypePlan

variable {ι : Type}

abbrev NodeId := ℕ

structure ProxyNodes where
  generic : Option NodeId := none
  formatSpecific : List (String × NodeId) := []

def ProxyNodes.hasAny (proxies : ProxyNodes) : Bool :=
  proxies.generic.isSome || !proxies.formatSpecific.isEmpty

/-- The shapes of a field's own proxies. -/
structure FieldProxies (ι : Type) where
  generic : Option ι
  formatSpecific : List (String × ι)

def FieldProxies.fromField (field : Field ι) : Option (FieldProxies ι) :=
  if field.proxy.isNone && field.formatProxies.isEmpty then none
  else some { generic := field.proxy, formatSpecific := field.formatProxies }

inductive DeserStrategy (ι : Type)
  | containerProxy
  | fieldProxy
  | pointer (pointeeNode : NodeId)
  | opaquePointer
  | opaqueTy
  | transparentConvert (innerNode : NodeId)
  | scalar (scalarType : Option ScalarType) (isFromStr : Bool)
  | struct
  | tuple (fieldCount : ℕ) (isSingleFieldTransparent : Bool)
  | enum
  | option (someNode : NodeId)
  | result (okNode errNode : NodeId)
  | list (itemNode : NodeId) (isByteVec : Bool)
  | map (keyNode valueNode : NodeId)
  | set (itemNode : NodeId)
  | array (len : ℕ) (itemNode : NodeId)
  | dynamicValue
  | metadataContainer
  | backRef (targetTypeId : ι)

structure FieldPlan (ι : Type) where
  field : Field ι
  name : String
  effectiveName : String
  «alias» : Option String
  isFlattened : Bool
  typeNode : NodeId
  index : ℕ
  offset : ℕ
  fieldShape : ι
  fillRule : FillRule ι
  validators : SliceRange

structure StructPlan (ι : Type) where
  structDef : StructType ι
  fields : SliceRange
  fieldLookup : FieldLookup
  hasFlatten : Bool
  denyUnknownFields : Bool

structure VariantPlanMeta (ι : Type) extends TypePlan.VariantPlanMeta ι where
  fields : SliceRange
  fieldLookup : FieldLookup
  hasFlatten : Bool

structure EnumPlan (ι : Type) where
  enumDef : EnumType ι
  variants : SliceRange
  variantLookup : VariantLookup
  numVariants : ℕ
  otherVariantIdx : Option ℕ

inductive TypePlanNodeKind (ι : Type)
  | scalar
  | struct (plan : StructPlan ι)
  | enum (plan : EnumPlan ι)
  | option
  | result
  | list
  | slice
  | map
  | set
  | array (len : ℕ)
  | pointer
  | opaquePointer
  | opaqueTy
  | dynamicValue
  | transparent
  | backRef (typeId : ι)

structure TypePlanNode (ι : Type) where
  shape : ι
  kind : TypePlanNodeKind ι
  strategy : DeserStrategy ι
  hasDefault : Bool
  proxies : ProxyNodes

structure TypePlanCore (ι : Type) where
  nodes : Arena (TypePlanNode ι)
  fields : Arena (FieldPlan ι)
  variants : Arena (VariantPlanMeta ι)
  validators : Arena ValidatorKind
  lookups : TypePlan.TypePlanCore
  nodeLookup : List (ι × NodeId)
  root : NodeId

structure TypePlanBuilder (ι : Type) where
  nodes : Arena (TypePlanNode ι) := {}
  fields : Arena (FieldPlan ι) := {}
  variants : Arena (VariantPlanMeta ι) := {}
  validators : Arena ValidatorKind := {}
  /-- The entries and buckets of the field lookups. -/
  lookups : TypePlan.TypePlanCore := {}
  /-- The types whose nodes are being built. -/
  building : Finset ι := ∅
  /-- The types whose nodes are finished, with these nodes. -/
  finished : List (ι × NodeId) := []

/-- How building ends without a node; the recursion has a bound, which can turn out too small. -/
inductive BuildStop (ι : Type)
  | allocError (shape : ι) (operation : String)
  | panic (message : String)
  | outOfFuel

namespace TypePlanBuilder

variable (b : TypePlanBuilder ι)

def findFinished [DecidableEq ι] (typeId : ι) : Option NodeId :=
  (b.finished.find? fun entry => entry.1 = typeId).map (·.2)

/-- The largest `u32` is not an index. -/
def allocNode (node : TypePlanNode ι) : Except (BuildStop ι) (TypePlanBuilder ι × NodeId) :=
  let idx := b.nodes.data.length
  if idx < 2 ^ 32 - 1 then .ok ({ b with nodes := ⟨b.nodes.data ++ [node]⟩ }, idx)
  else .error (.panic "arena overflow")

def allocFields (plans : List (FieldPlan ι)) : TypePlanBuilder ι × SliceRange :=
  let (fields, range) := b.fields.allocExtend plans
  ({ b with fields }, range)

def allocVariants (metas : List (VariantPlanMeta ι)) : TypePlanBuilder ι × SliceRange :=
  let (variants, range) := b.variants.allocExtend metas
  ({ b with variants }, range)

def allocValidators (kinds : List ValidatorKind) : TypePlanBuilder ι × SliceRange :=
  let (validators, range) := b.validators.allocExtend kinds
  ({ b with validators }, range)

def allocFieldLookup (order : IterationOrder) (fields : List (Field ι)) :
    TypePlanBuilder ι × FieldLookup :=
  let (lookups, lookup) := buildFieldLookup b.lookups order fields
  ({ b with lookups }, lookup)

def startBuilding [DecidableEq ι] (typeId : ι) : TypePlanBuilder ι :=
  { b with building := insert typeId b.building }

def finishBuilding [DecidableEq ι] (typeId : ι) (idx : NodeId) : TypePlanBuilder ι :=
  { b with
    building := b.building.erase typeId
    finished := (typeId, idx) :: b.finished.filter fun entry => entry.1 ≠ typeId }

def finish [LinearOrder ι] (root : NodeId) : TypePlanCore ι :=
  { nodes := b.nodes
    fields := b.fields
    variants := b.variants
    validators := b.validators
    lookups := b.lookups
    nodeLookup := sortByKey (·.1) b.finished
    root }

end TypePlanBuilder

/-- What a builder does, and a result. -/
abbrev Build (ι α : Type) := TypePlanBuilder ι → Except (BuildStop ι) (TypePlanBuilder ι × α)

/-- A child's node, by an index without a check. -/
def nthChild (children : List NodeId) (n : ℕ) : Except (BuildStop ι) NodeId :=
  match children[n]? with
  | some child => .ok child
  | none => .error (.panic "index out of bounds")

/-- The strategy of a node, by the kind alone. -/
def kindStrategy (shape : Shape ι) (shapeId : ι) (kind : TypePlanNodeKind ι)
    (children : List NodeId) : Except (BuildStop ι) (DeserStrategy ι) :=
  let tuple := fun (st : StructType ι) =>
    let fieldCount := st.fields.length
    DeserStrategy.tuple fieldCount (fieldCount == 1 && shape.isTransparent)
  match kind with
  | .scalar =>
    -- the empty tuple is a scalar by its definition and a struct by its type
    match shape.ty with
    | .user (.struct ⟨.tuple, fields⟩) => .ok (tuple ⟨.tuple, fields⟩)
    | .user (.struct ⟨.tupleStruct, fields⟩) => .ok (tuple ⟨.tupleStruct, fields⟩)
    | _ => .ok (.scalar shape.scalarType shape.hasParse)
  | .struct plan =>
    match plan.structDef.kind with
    | .tuple | .tupleStruct => .ok (tuple plan.structDef)
    | .struct | .unit => .ok .struct
  | .enum _ => .ok .enum
  | .option => do return .option (← nthChild children 0)
  | .result => do return .result (← nthChild children 0) (← nthChild children 1)
  | .list | .slice => do return .list (← nthChild children 0) shape.isByteVec
  | .map => do return .map (← nthChild children 0) (← nthChild children 1)
  | .set => do return .set (← nthChild children 0)
  | .array len => do return .array len (← nthChild children 0)
  | .dynamicValue => .ok .dynamicValue
  | .pointer => do return .pointer (← nthChild children 0)
  | .opaquePointer => .ok .opaquePointer
  | .opaqueTy => .ok .opaqueTy
  | .transparent =>
    .error (.allocError shapeId "transparent wrapper requires try_from for deserialization")
  | .backRef typeId => .ok (.backRef typeId)

def TypePlanNodeKind.isPointer : TypePlanNodeKind ι → Bool
  | .pointer => true
  | _ => false

def TypePlanNodeKind.isTransparent : TypePlanNodeKind ι → Bool
  | .transparent => true
  | _ => false

/-- The containers whose `inner` is their element. -/
def isContainer (shape : Shape ι) : Bool :=
  match shape.def with
  | .list _ | .map _ _ | .set _ | .array _ _ => true
  | _ => false

def isScalarDef (shape : Shape ι) : Bool :=
  match shape.def with
  | .scalar => true
  | _ => false

def computeStrategy (shape : Shape ι) (shapeId : ι) (kind : TypePlanNodeKind ι)
    (hasContainerProxy hasFieldProxy : Bool) (children : List NodeId) :
    Except (BuildStop ι) (DeserStrategy ι) :=
  if hasFieldProxy then .ok .fieldProxy
  else if hasContainerProxy then .ok .containerProxy
  else if kind.isPointer then do return .pointer (← nthChild children 0)
  else if shape.isMetadataContainer then .ok .metadataContainer
  else if shape.inner.isSome && shape.hasTryFrom && !isContainer shape then do
    return .transparentConvert (← nthChild children 0)
  else if kind.isTransparent && shape.hasTryFrom then do
    return .transparentConvert (← nthChild children 0)
  else if isScalarDef shape && shape.hasParse then .ok (.scalar shape.scalarType shape.hasParse)
  else kindStrategy shape shapeId kind children

section Recursion

variable (S : Shapes ι) (order : IterationOrder)
  (buildNodeWithProxy : ι → Option (FieldProxies ι) → Build ι NodeId)

/-- A node of the type alone, with its own proxies if it has some. -/
def buildNode (shape : ι) : Build ι NodeId := buildNodeWithProxy shape none

def buildGenericProxy (generic : Option ι) : Build ι (Option NodeId) := fun b =>
  match generic with
  | none => .ok (b, none)
  | some shape => do
    let (b, node) ← buildNode buildNodeWithProxy shape b
    return (b, some node)

def buildFormatProxy (proxy : String × ι) : Build ι (String × NodeId) := fun b => do
  let (b, node) ← buildNode buildNodeWithProxy proxy.2 b
  return (b, (proxy.1, node))

def buildFormatProxies (proxies : List (String × ι)) : Build ι (List (String × NodeId)) :=
  StatePass.mapAccumM (fun b proxy => buildFormatProxy buildNodeWithProxy proxy b) proxies

def buildProxies (generic : Option ι) (formatSpecific : List (String × ι)) :
    Build ι ProxyNodes := fun b => do
  let (b, generic) ← buildGenericProxy buildNodeWithProxy generic b
  let (b, formatSpecific) ← buildFormatProxies buildNodeWithProxy formatSpecific b
  return (b, { generic, formatSpecific })

/-- The nodes of a field's proxies, which go before those of the type; and whether there are some of
the type or of the field. -/
def buildAllProxyNodes (shape : ι) (fieldProxies : Option (FieldProxies ι)) :
    Build ι (ProxyNodes × Bool × Bool) := fun b => do
  match fieldProxies with
  | some fp =>
    let (b, proxies) ← buildProxies buildNodeWithProxy fp.generic fp.formatSpecific b
    return (b, proxies, false, proxies.hasAny)
  | none =>
    let (b, proxies) ←
      buildProxies buildNodeWithProxy (S shape).proxy (S shape).formatProxies b
    return (b, proxies, proxies.hasAny, false)

def buildFieldPlan (containerHasDefault : Bool) (field : Field ι × ℕ) : Build ι (FieldPlan ι) :=
  fun b => do
  let (b, childNode) ← buildNodeWithProxy field.1.shape (FieldProxies.fromField field.1) b
  match extractValidators S field.1 with
  | .error message => .error (.panic message)
  | .ok kinds =>
    let (b, validators) := b.allocValidators kinds
    return (b, {
      field := field.1
      name := field.1.name
      effectiveName := field.1.effectiveName
      «alias» := field.1.alias
      isFlattened := field.1.isFlattened
      typeNode := childNode
      index := field.2
      offset := field.1.offset
      fieldShape := field.1.shape
      fillRule := determineFillRule S field.1 containerHasDefault
      validators })

def buildFieldPlans (containerHasDefault : Bool) (fields : List (Field ι)) :
    Build ι (List (FieldPlan ι)) :=
  StatePass.mapAccumM
    (fun b field => buildFieldPlan S buildNodeWithProxy containerHasDefault field b) fields.zipIdx

def buildStructPlan (shape : ι) (structDef : StructType ι) : Build ι (StructPlan ι) := fun b => do
  let (b, fieldPlans) ←
    buildFieldPlans S buildNodeWithProxy (S shape).hasDefaultInPlace structDef.fields b
  let hasFlatten := fieldPlans.any (·.isFlattened)
  let (b, fields) := b.allocFields fieldPlans
  let (b, fieldLookup) := b.allocFieldLookup order structDef.fields
  return (b, {
    structDef, fields, fieldLookup, hasFlatten
    denyUnknownFields := (S shape).hasDenyUnknownFieldsAttr })

def buildVariant (variant : Variant ι) : Build ι (VariantPlanMeta ι) := fun b => do
  let (b, fieldPlans) ← buildFieldPlans S buildNodeWithProxy false variant.data.fields b
  let hasFlatten := fieldPlans.any (·.isFlattened)
  let (b, fields) := b.allocFields fieldPlans
  let (b, fieldLookup) := b.allocFieldLookup order variant.data.fields
  return (b, { variant, name := variant.effectiveName, fields, fieldLookup, hasFlatten })

def buildEnumPlan (enumDef : EnumType ι) : Build ι (EnumPlan ι) := fun b => do
  let (b, variantMetas) ←
    StatePass.mapAccumM (fun b variant => buildVariant S order buildNodeWithProxy variant b)
      enumDef.variants b
  let (b, variants) := b.allocVariants variantMetas
  let variantLookup := buildVariantLookup (variantMetas.map (·.toVariantPlanMeta))
  return (b, {
    enumDef, variants, variantLookup
    numVariants := variantMetas.length
    otherVariantIdx := variantMetas.findIdx? (·.variant.isOther) })

/-- The nodes of the types that the kind refers to. -/
def buildChildren (shapes : List ι) : Build ι (List NodeId) :=
  StatePass.mapAccumM (fun b shape => buildNode buildNodeWithProxy shape b) shapes

/-- A kind, with the nodes of its children. -/
def buildWith (kind : TypePlanNodeKind ι) (children : List ι) :
    Build ι (TypePlanNodeKind ι × List NodeId) := fun b => do
  let (b, children) ← buildChildren buildNodeWithProxy children b
  return (b, kind, children)

/-- A type that is deserialized through a builder is transparent; any other is opaque. -/
def buildFromBuilder (shape : ι) : Build ι (TypePlanNodeKind ι × List NodeId) := fun b =>
  match (S shape).builderShape, (S shape).hasTryFrom with
  | some builderShape, true => buildWith buildNodeWithProxy .transparent [builderShape] b
  | _, _ => .ok (b, .opaqueTy, [])

/-- By the type, where the definition says nothing. -/
def buildTypeKind (shape : ι) : Build ι (TypePlanNodeKind ι × List NodeId) := fun b =>
  match (S shape).ty with
  | .user (.struct structType) => do
    let (b, plan) ← buildStructPlan S order buildNodeWithProxy shape structType b
    return (b, .struct plan, [])
  | .user (.enum enumType) => do
    let (b, plan) ← buildEnumPlan S order buildNodeWithProxy enumType b
    return (b, .enum plan, [])
  | .sequence (.slice t) => buildWith buildNodeWithProxy .slice [t] b
  | .user .opaqueTy | .undefined => buildFromBuilder S buildNodeWithProxy shape b
  | _ =>
    match (S shape).inner with
    | some inner => buildWith buildNodeWithProxy .transparent [inner] b
    | none => .error (.allocError shape "unsupported type for deserialization")

def buildKind (shape : ι) : Build ι (TypePlanNodeKind ι × List NodeId) :=
  match (S shape).def with
  | .scalar => buildWith buildNodeWithProxy .scalar (S shape).inner.toList
  | .option t => buildWith buildNodeWithProxy .option [t]
  | .result t e => buildWith buildNodeWithProxy .result [t, e]
  | .list t => buildWith buildNodeWithProxy .list [t]
  | .map k v => buildWith buildNodeWithProxy .map [k, v]
  | .set t => buildWith buildNodeWithProxy .set [t]
  | .array t n => buildWith buildNodeWithProxy (.array n) [t]
  | .pointer (some pointee) => buildWith buildNodeWithProxy .pointer [pointee]
  | .pointer none => buildWith buildNodeWithProxy .opaquePointer []
  | .dynamicValue => buildWith buildNodeWithProxy .dynamicValue []
  | _ => buildTypeKind S order buildNodeWithProxy shape

/-- A node with the data that all the steps above have found out. -/
def buildFullNode (shape : ι) (fieldProxies : Option (FieldProxies ι)) : Build ι NodeId :=
  fun b => do
  let (b, proxies, hasContainerProxy, hasFieldProxy) ←
    buildAllProxyNodes S buildNodeWithProxy shape fieldProxies b
  let (b, kind, children) ← buildKind S order buildNodeWithProxy shape b
  let strategy ←
    computeStrategy (S shape) shape kind hasContainerProxy hasFieldProxy children
  b.allocNode {
    shape, kind, strategy, proxies
    hasDefault := (S shape).hasDefaultInPlace }

/-- One level of the recursion: only without proxies of the field a node that is finished, or being
built, is used again. -/
def buildNodeStep [DecidableEq ι] (shape : ι) (fieldProxies : Option (FieldProxies ι)) :
    Build ι NodeId := fun b =>
  match fieldProxies with
  | some fp => buildFullNode S order buildNodeWithProxy shape (some fp) b
  | none =>
    match b.findFinished shape with
    | some idx => .ok (b, idx)
    | none =>
      if shape ∈ b.building then
        b.allocNode {
          shape, kind := .backRef shape, strategy := .backRef shape, proxies := {}
          hasDefault := (S shape).hasDefaultInPlace }
      else do
        let (b, idx) ←
          buildFullNode S order buildNodeWithProxy shape none (b.startBuilding shape)
        return (b.finishBuilding shape idx, idx)

end Recursion

/-- The recursion, with a bound on its depth. -/
def buildNodeWithProxy [DecidableEq ι] (S : Shapes ι) (order : IterationOrder) :
    ℕ → ι → Option (FieldProxies ι) → Build ι NodeId
  | 0, _, _ => fun _ => .error .outOfFuel
  | fuel + 1, shape, fieldProxies =>
    buildNodeStep S order (buildNodeWithProxy S order fuel) shape fieldProxies

/-- The plan of a type. -/
def build [LinearOrder ι] (S : Shapes ι) (order : IterationOrder) (fuel : ℕ) (shape : ι) :
    Except (BuildStop ι) (TypePlanCore ι) := do
  let (b, root) ← buildNode (buildNodeWithProxy S order fuel) shape {}
  return b.finish root

namespace TypePlanCore

variable [LinearOrder ι] (core : TypePlanCore ι)

def node (idx : NodeId) : Option (TypePlanNode ι) := core.nodes.data[idx]?

/-- The node of a type, by a search that halves the sorted table. -/
def lookupNode (typeId : ι) : Option NodeId :=
  ((binarySearchByKey typeId (·.1) core.nodeLookup).toOption.bind fun i =>
    core.nodeLookup[i]?).map (·.2)

end TypePlanCore

end Facet.Plan
