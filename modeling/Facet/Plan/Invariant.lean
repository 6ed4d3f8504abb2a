import Facet.Plan.Builder

/-!
# What a builder has stored

Every node id and every range that a builder has stored lies inside the arena it belongs to, and
leads to nodes of the types that the definitions name. A reference back names a type that is being
built or finished, and every type has at most one node of its own. The allocations keep this, and
only let the arenas grow.
-/

namespace Facet.Plan

open BinarySearch Frames TypePlan

variable {ι : Type}

/-- The definition says nothing of how to build a value. -/
def saysNothing : Def ι → Bool
  | .undefined | .ndArray _ | .slice _ => true
  | _ => false

/-- The definition says nothing, so that the type decides. -/
def decidedByType (shape : Shape ι) : Bool := saysNothing (Shape.def shape)

/-- The types of the children that a type itself asks for; its fields are not among them. -/
def childTypesOfTy (shape : Shape ι) : List ι :=
  match shape.ty with
  | .user (.struct _) | .user (.enum _) => []
  | .sequence (.slice t) => [t]
  | .user .opaqueTy | .undefined => if shape.hasTryFrom then shape.builderShape.toList else []
  | _ => shape.inner.toList

/-- The types of a node's children that are not fields. -/
def childTypes (shape : Shape ι) : List ι :=
  match shape.def with
  | .scalar => shape.inner.toList
  | .option t | .list t | .set t | .array t _ => [t]
  | .result t e => [t, e]
  | .map k v => [k, v]
  | .pointer pointee => pointee.toList
  | .dynamicValue => []
  | .undefined | .ndArray _ | .slice _ => childTypesOfTy shape

theorem childTypes_of_decidedByType {shape : Shape ι} (h : decidedByType shape = true) :
    childTypes shape = childTypesOfTy shape := by
  unfold decidedByType saysNothing at h
  unfold childTypes
  cases hdef : shape.def <;> simp_all

/-- How a plan is navigated from a node to a child. -/
inductive Step
  | structField (idx : ℕ)
  | variantField (variantIdx fieldIdx : ℕ)
  | listItem
  | setItem
  | mapKey
  | mapValue
  | optionSome
  | resultOk
  | resultErr
  | pointerInner
  | inner

/-- The type that the definitions have at a step. -/
def typeChild (shape : Shape ι) : Step → Option ι
  | .structField idx =>
    match decidedByType shape, shape.ty with
    | true, .user (.struct structType) => structType.fields[idx]?.map (·.shape)
    | _, _ => none
  | .variantField variantIdx fieldIdx =>
    match decidedByType shape, shape.ty with
    | true, .user (.enum enumType) =>
      enumType.variants[variantIdx]?.bind fun variant =>
        variant.data.fields[fieldIdx]?.map (·.shape)
    | _, _ => none
  | .listItem =>
    match shape.def, shape.ty with
    | .list t, _ | .array t _, _ => some t
    | .undefined, .sequence (.slice t) | .ndArray _, .sequence (.slice t)
    | .slice _, .sequence (.slice t) => some t
    | _, _ => none
  | .setItem =>
    match shape.def with
    | .set t => some t
    | _ => none
  | .mapKey =>
    match shape.def with
    | .map k _ => some k
    | _ => none
  | .mapValue =>
    match shape.def with
    | .map _ v => some v
    | _ => none
  | .optionSome =>
    match shape.def with
    | .option t => some t
    | _ => none
  | .resultOk =>
    match shape.def with
    | .result t _ => some t
    | _ => none
  | .resultErr =>
    match shape.def with
    | .result _ e => some e
    | _ => none
  | .pointerInner =>
    match shape.def with
    | .pointer pointee => pointee
    | _ => none
  | .inner => (childTypes shape).head?

/-- The children that a strategy has stored, with the steps to them. -/
def DeserStrategy.children : DeserStrategy ι → List (Step × NodeId)
  | .list itemNode _ | .array _ itemNode => [(.listItem, itemNode)]
  | .set itemNode => [(.setItem, itemNode)]
  | .map keyNode valueNode => [(.mapKey, keyNode), (.mapValue, valueNode)]
  | .option someNode => [(.optionSome, someNode)]
  | .result okNode errNode => [(.resultOk, okNode), (.resultErr, errNode)]
  | .pointer pointeeNode => [(.pointerInner, pointeeNode)]
  | .transparentConvert innerNode => [(.inner, innerNode)]
  | _ => []

def ProxyNodes.nodeIds (proxies : ProxyNodes) : List NodeId :=
  proxies.generic.toList ++ proxies.formatSpecific.map (·.2)

/-- What the arenas hold; of some of them only how much. -/
structure Arenas (ι : Type) where
  nodes : List (TypePlanNode ι)
  fields : List (FieldPlan ι)
  variants : List (VariantPlanMeta ι)
  validators : ℕ
  entries : ℕ
  buckets : ℕ

/-- The arenas grow. -/
structure Arenas.Le (A B : Arenas ι) : Prop where
  nodes : A.nodes <+: B.nodes
  fields : A.fields <+: B.fields
  variants : A.variants <+: B.variants
  validators : A.validators ≤ B.validators
  entries : A.entries ≤ B.entries
  buckets : A.buckets ≤ B.buckets

theorem Arenas.Le.refl (A : Arenas ι) : A.Le A :=
  ⟨List.prefix_rfl, List.prefix_rfl, List.prefix_rfl, le_rfl, le_rfl, le_rfl⟩

theorem Arenas.Le.trans {A B C : Arenas ι} (h : A.Le B) (h' : B.Le C) : A.Le C :=
  ⟨h.nodes.trans h'.nodes, h.fields.trans h'.fields, h.variants.trans h'.variants,
    h.validators.trans h'.validators, h.entries.trans h'.entries, h.buckets.trans h'.buckets⟩

def RangeInside (len : ℕ) (range : SliceRange) : Prop := range.start.toNat + range.len.toNat ≤ len

/-- The range lies inside, and what it holds is right as long as the length fits into 32 bits. -/
structure Holds {α : Type} (stored : List α) (range : SliceRange) (P : List α → Prop) : Prop where
  inside : RangeInside stored.length range
  values : stored.length < 2 ^ 32 → ∃ values, (Arena.mk stored).getSlice range = .ok values ∧
    P values

def LookupInside (A : Arenas ι) : FieldLookup → Prop
  | .small _ => True
  | .prefixBuckets _ entries buckets =>
    RangeInside A.entries entries ∧ RangeInside A.buckets buckets

/-- There is a node of the type. -/
def HasShape (A : Arenas ι) (id : NodeId) (shape : ι) : Prop :=
  ∃ node, A.nodes[id]? = some node ∧ node.shape = shape

/-- These are the plans of the fields, in order. -/
def PlansOf (fields : List (Field ι)) (plans : List (FieldPlan ι)) : Prop :=
  plans.map (fun plan => (plan.field, plan.index)) = fields.zipIdx

/-- The kind is the one that the definition, or else the type, asks for, and the plans of a struct
or an enum are those of the type. -/
def KindRight (A : Arenas ι) (shape : Shape ι) : TypePlanNodeKind ι → Prop
  | .scalar => shape.def = .scalar
  | .option => ∃ t, shape.def = .option t
  | .result => ∃ t e, shape.def = .result t e
  | .list => ∃ t, shape.def = .list t
  | .map => ∃ k v, shape.def = .map k v
  | .set => ∃ t, shape.def = .set t
  | .array n => ∃ t, shape.def = .array t n
  | .pointer => ∃ t, shape.def = .pointer (some t)
  | .opaquePointer => shape.def = .pointer none
  | .dynamicValue => shape.def = .dynamicValue
  | .slice => decidedByType shape = true ∧ ∃ t, shape.ty = .sequence (.slice t)
  | .struct plan =>
    decidedByType shape = true ∧ shape.ty = .user (.struct plan.structDef) ∧
      Holds A.fields plan.fields (PlansOf plan.structDef.fields) ∧ LookupInside A plan.fieldLookup
  | .enum plan =>
    decidedByType shape = true ∧ shape.ty = .user (.enum plan.enumDef) ∧
      Holds A.variants plan.variants fun metas => metas.map (·.variant) = plan.enumDef.variants
  | .opaqueTy | .transparent =>
    (∀ structType, shape.ty ≠ .user (.struct structType)) ∧
      ∀ enumType, shape.ty ≠ .user (.enum enumType)
  | .backRef _ => True

structure NodeRight (S : Shapes ι) (A : Arenas ι) (node : TypePlanNode ι) : Prop where
  kind : KindRight A (S node.shape) node.kind
  strategy : ∀ child ∈ node.strategy.children,
    ∃ t, typeChild (S node.shape) child.1 = some t ∧ HasShape A child.2 t
  proxies : ∀ id ∈ node.proxies.nodeIds, id < A.nodes.length

structure FieldRight (A : Arenas ι) (plan : FieldPlan ι) : Prop where
  typeNode : HasShape A plan.typeNode plan.field.shape
  validators : RangeInside A.validators plan.validators

structure VariantRight (A : Arenas ι) (variant : VariantPlanMeta ι) : Prop where
  fields : Holds A.fields variant.fields (PlansOf variant.variant.data.fields)
  fieldLookup : LookupInside A variant.fieldLookup

variable {A B : Arenas ι}

theorem RangeInside.mono {len len' : ℕ} {range : SliceRange} (h : RangeInside len range)
    (hle : len ≤ len') : RangeInside len' range := Nat.le_trans h hle

theorem Holds.mono {α : Type} {stored stored' : List α} {range : SliceRange}
    {P : List α → Prop} (h : Holds stored range P) (hle : stored <+: stored') :
    Holds stored' range P := by
  obtain ⟨more, rfl⟩ := hle
  refine ⟨h.inside.mono (by simp), ?_⟩
  intro hlen
  rw [List.length_append] at hlen
  obtain ⟨values, hvalues, hP⟩ := h.values (by omega)
  refine ⟨values, ?_, hP⟩
  have hinside : range.start.toNat + range.len.toNat ≤ stored.length := h.inside
  unfold Arena.getSlice at hvalues ⊢
  simp only [List.length_append] at hvalues ⊢
  rw [if_pos hinside] at hvalues
  rw [if_pos (by omega), ← hvalues, List.drop_append_of_le_length (by omega),
    List.take_append_of_le_length (by rw [List.length_drop]; omega)]

theorem LookupInside.mono {lookup : FieldLookup} (h : LookupInside A lookup) (hle : A.Le B) :
    LookupInside B lookup := by
  cases lookup with
  | small entries => trivial
  | prefixBuckets prefixLen entries buckets =>
    exact ⟨h.1.mono hle.entries, h.2.mono hle.buckets⟩

theorem HasShape.mono {id : NodeId} {shape : ι} (h : HasShape A id shape) (hle : A.Le B) :
    HasShape B id shape := by
  obtain ⟨node, hnode, hshape⟩ := h
  obtain ⟨more, hmore⟩ := hle.nodes
  refine ⟨node, ?_, hshape⟩
  rw [← hmore, List.getElem?_append_left (List.getElem?_eq_some_iff.mp hnode).1]
  exact hnode

theorem HasShape.lt {id : NodeId} {shape : ι} (h : HasShape A id shape) : id < A.nodes.length := by
  obtain ⟨node, hnode, -⟩ := h
  exact (List.getElem?_eq_some_iff.mp hnode).1

theorem KindRight.mono {shape : Shape ι} {kind : TypePlanNodeKind ι} (h : KindRight A shape kind)
    (hle : A.Le B) : KindRight B shape kind := by
  cases kind with
  | struct plan => exact ⟨h.1, h.2.1, h.2.2.1.mono hle.fields, h.2.2.2.mono hle⟩
  | enum plan => exact ⟨h.1, h.2.1, h.2.2.mono hle.variants⟩
  | _ => exact h

theorem NodeRight.mono {S : Shapes ι} {node : TypePlanNode ι} (h : NodeRight S A node)
    (hle : A.Le B) : NodeRight S B node := by
  refine ⟨h.kind.mono hle, ?_, ?_⟩
  · intro child hchild
    obtain ⟨t, ht, hshape⟩ := h.strategy child hchild
    exact ⟨t, ht, hshape.mono hle⟩
  · intro id hid
    exact (h.proxies id hid).trans_le hle.nodes.length_le

theorem FieldRight.mono {plan : FieldPlan ι} (h : FieldRight A plan) (hle : A.Le B) :
    FieldRight B plan :=
  ⟨h.typeNode.mono hle, h.validators.mono hle.validators⟩

theorem VariantRight.mono {variant : VariantPlanMeta ι} (h : VariantRight A variant)
    (hle : A.Le B) : VariantRight B variant :=
  ⟨h.fields.mono hle.fields, h.fieldLookup.mono hle⟩

/-- The lengths are cut to 32 bits, which makes them no larger. -/
theorem rangeInside_allocExtend {α : Type} (arena : Arena α) (values : List α) :
    RangeInside (arena.allocExtend values).1.data.length (arena.allocExtend values).2 := by
  have hlen : UInt32.ofNat (arena.data.length + values.length) - UInt32.ofNat arena.data.length =
      UInt32.ofNat values.length := by
    rw [UInt32.ofNat_add, UInt32.add_comm, UInt32.add_sub_cancel]
  unfold RangeInside Arena.allocExtend
  simp only [List.length_append, hlen, UInt32.toNat_ofNat']
  have hstart := Nat.mod_le arena.data.length (2 ^ 32)
  have hvalues := Nat.mod_le values.length (2 ^ 32)
  omega

theorem holds_allocExtend {α : Type} (arena : Arena α) {values : List α} {P : List α → Prop}
    (hP : P values) :
    Holds (arena.allocExtend values).1.data (arena.allocExtend values).2 P := by
  refine ⟨rangeInside_allocExtend arena values, ?_⟩
  intro hlen
  unfold Arena.allocExtend at hlen
  simp only [List.length_append] at hlen
  have hslice := Arena.getSlice_allocExtend arena values [] hlen
  unfold Arena.extendedBy at hslice
  rw [List.append_nil] at hslice
  exact ⟨values, hslice, hP⟩

/-- The type that a node refers back to. -/
def TypePlanNodeKind.target : TypePlanNodeKind ι → Option ι
  | .backRef typeId => some typeId
  | _ => none

def DeserStrategy.target : DeserStrategy ι → Option ι
  | .backRef typeId => some typeId
  | _ => none

def DeserStrategy.isFieldProxy : DeserStrategy ι → Bool
  | .fieldProxy => true
  | _ => false

/-- The node refers back to the type, in its kind or in its strategy. -/
def TypePlanNode.RefersBack (node : TypePlanNode ι) (typeId : ι) : Prop :=
  node.kind.target = some typeId ∨ node.strategy.target = some typeId

/-- The node is its type's own: it does not refer back, and is not made for a field's proxies. -/
def TypePlanNode.IsOwn (node : TypePlanNode ι) : Prop :=
  node.kind.target = none ∧ node.strategy.isFieldProxy = false

namespace TypePlanBuilder

def arenas (b : TypePlanBuilder ι) : Arenas ι :=
  { nodes := b.nodes.data
    fields := b.fields.data
    variants := b.variants.data
    validators := b.validators.data.length
    entries := b.lookups.fieldEntries.data.length
    buckets := b.lookups.buckets.data.length }

/-- The types whose nodes are there. -/
def finishedTypes (b : TypePlanBuilder ι) : List ι := b.finished.map (·.1)

theorem not_mem_finishedTypes [DecidableEq ι] {b : TypePlanBuilder ι} {t : ι}
    (h : b.findFinished t = none) : t ∉ b.finishedTypes := by
  intro hmem
  obtain ⟨entry, hentry, rfl⟩ := List.mem_map.mp hmem
  have hnone := List.find?_eq_none.mp (Option.map_eq_none_iff.mp h) entry hentry
  simp at hnone

structure Inside (S : Shapes ι) (b : TypePlanBuilder ι) : Prop where
  nodes : ∀ node ∈ b.nodes.data, NodeRight S b.arenas node
  fields : ∀ plan ∈ b.fields.data, FieldRight b.arenas plan
  variants : ∀ variant ∈ b.variants.data, VariantRight b.arenas variant
  finished : ∀ entry ∈ b.finished, ∃ node, b.nodes.data[entry.2]? = some node ∧
    node.shape = entry.1 ∧ node.IsOwn ∧ node.strategy.target = none
  nodup : b.finishedTypes.Nodup
  unfinished : ∀ t ∈ b.building, t ∉ b.finishedTypes
  own : ∀ id node, b.nodes.data[id]? = some node → node.IsOwn → (node.shape, id) ∈ b.finished
  backRefs : ∀ node ∈ b.nodes.data, ∀ t, node.RefersBack t →
    node.shape = t ∧ node.kind.target = some t ∧ (t ∈ b.building ∨ t ∈ b.finishedTypes)

/-- A builder that keeps the invariant, while the given types are being built. -/
structure Good (S : Shapes ι) (building : Finset ι) (b : TypePlanBuilder ι) : Prop where
  inside : b.Inside S
  building : b.building = building

/-- The arenas grow. -/
def Grows (b b' : TypePlanBuilder ι) : Prop := b.arenas.Le b'.arenas

theorem Grows.refl (b : TypePlanBuilder ι) : b.Grows b := Arenas.Le.refl _

theorem Grows.trans {b b' b'' : TypePlanBuilder ι} (h : b.Grows b') (h' : b'.Grows b'') :
    b.Grows b'' := Arenas.Le.trans h h'

variable {S : Shapes ι} {b b' : TypePlanBuilder ι} {building : Finset ι}

theorem good_empty : ({} : TypePlanBuilder ι).Good S ∅ where
  inside := by constructor <;> simp [finishedTypes]
  building := rfl

theorem of_allocNode {node : TypePlanNode ι} {idx : NodeId}
    (h : b.allocNode node = .ok (b', idx)) :
    b' = { b with nodes := ⟨b.nodes.data ++ [node]⟩ } ∧ idx = b.nodes.data.length := by
  unfold allocNode at h
  simp only at h
  split at h
  · cases h
    exact ⟨rfl, rfl⟩
  · cases h

theorem grows_allocNode {node : TypePlanNode ι} {idx : NodeId}
    (h : b.allocNode node = .ok (b', idx)) : b.Grows b' := by
  obtain ⟨rfl, -⟩ := of_allocNode h
  constructor <;> simp [arenas]

theorem getElem?_allocNode {node : TypePlanNode ι} {idx : NodeId}
    (h : b.allocNode node = .ok (b', idx)) : b'.nodes.data[idx]? = some node := by
  obtain ⟨rfl, rfl⟩ := of_allocNode h
  simp

theorem of_getElem?_allocNode {node other : TypePlanNode ι} {idx id : ℕ}
    (h : b.allocNode node = .ok (b', idx)) (hother : b'.nodes.data[id]? = some other) :
    b.nodes.data[id]? = some other ∨ id = idx ∧ other = node := by
  obtain ⟨rfl, rfl⟩ := of_allocNode h
  rcases Nat.lt_or_ge id b.nodes.data.length with hlt | hge
  · left
    rwa [List.getElem?_append_left hlt] at hother
  · right
    rw [List.getElem?_append_right hge] at hother
    have hzero : id - b.nodes.data.length = 0 := by
      have := (List.getElem?_eq_some_iff.mp hother).1
      simp only [List.length_singleton] at this
      omega
    rw [hzero] at hother
    cases hother
    exact ⟨by omega, rfl⟩

/-- A node whose parts are right can be stored, if it is not the own node of its type; one that
refers back has to name a type that is known. -/
theorem Good.allocNode (h : b.Good S building) {node : TypePlanNode ι} {idx : NodeId}
    (hnode : NodeRight S b.arenas node) (hown : ¬ node.IsOwn)
    (htarget : ∀ t, node.RefersBack t →
      node.shape = t ∧ node.kind.target = some t ∧ (t ∈ building ∨ t ∈ b.finishedTypes))
    (hrun : b.allocNode node = .ok (b', idx)) : b'.Good S building := by
  have hgrows := grows_allocNode hrun
  have hold {id : ℕ} {other : TypePlanNode ι} (hother : b'.nodes.data[id]? = some other) :=
    of_getElem?_allocNode hrun hother
  obtain ⟨rfl, rfl⟩ := of_allocNode hrun
  refine ⟨⟨?_, ?_, ?_, ?_, h.inside.nodup, h.inside.unfinished, ?_, ?_⟩, h.building⟩
  · intro other hother
    rcases List.mem_append.mp hother with hother | hother
    · exact (h.inside.nodes other hother).mono hgrows
    · rw [List.mem_singleton.mp hother]
      exact hnode.mono hgrows
  · intro plan hplan
    exact (h.inside.fields plan hplan).mono hgrows
  · intro variant hvariant
    exact (h.inside.variants variant hvariant).mono hgrows
  · intro entry hentry
    obtain ⟨other, hother, hrest⟩ := h.inside.finished entry hentry
    refine ⟨other, ?_, hrest⟩
    rw [List.getElem?_append_left (List.getElem?_eq_some_iff.mp hother).1]
    exact hother
  · intro id other hother hisOwn
    rcases hold hother with hother | ⟨-, rfl⟩
    · exact h.inside.own id other hother hisOwn
    · exact absurd hisOwn hown
  · intro other hother t ht
    rcases List.mem_append.mp hother with hother | hother
    · exact h.inside.backRefs other hother t ht
    · rw [List.mem_singleton.mp hother] at ht ⊢
      simp only [h.building]
      exact htarget t ht

theorem Good.allocFields (h : b.Good S building) {plans : List (FieldPlan ι)}
    (hplans : ∀ plan ∈ plans, FieldRight b.arenas plan) :
    (b.allocFields plans).1.Good S building ∧ b.Grows (b.allocFields plans).1 := by
  have hgrows : b.Grows (b.allocFields plans).1 := by
    constructor <;> simp [arenas, TypePlanBuilder.allocFields, Arena.allocExtend]
  refine ⟨⟨⟨?_, ?_, ?_, h.inside.finished, h.inside.nodup, h.inside.unfinished, h.inside.own,
    h.inside.backRefs⟩, h.building⟩, hgrows⟩
  · intro node hnode
    exact (h.inside.nodes node hnode).mono hgrows
  · intro plan hplan
    rcases List.mem_append.mp hplan with hplan | hplan
    · exact (h.inside.fields plan hplan).mono hgrows
    · exact (hplans plan hplan).mono hgrows
  · intro variant hvariant
    exact (h.inside.variants variant hvariant).mono hgrows

theorem Good.allocVariants (h : b.Good S building) {metas : List (VariantPlanMeta ι)}
    (hmetas : ∀ variant ∈ metas, VariantRight b.arenas variant) :
    (b.allocVariants metas).1.Good S building ∧ b.Grows (b.allocVariants metas).1 := by
  have hgrows : b.Grows (b.allocVariants metas).1 := by
    constructor <;> simp [arenas, TypePlanBuilder.allocVariants, Arena.allocExtend]
  refine ⟨⟨⟨?_, ?_, ?_, h.inside.finished, h.inside.nodup, h.inside.unfinished, h.inside.own,
    h.inside.backRefs⟩, h.building⟩, hgrows⟩
  · intro node hnode
    exact (h.inside.nodes node hnode).mono hgrows
  · intro plan hplan
    exact (h.inside.fields plan hplan).mono hgrows
  · intro variant hvariant
    rcases List.mem_append.mp hvariant with hvariant | hvariant
    · exact (h.inside.variants variant hvariant).mono hgrows
    · exact (hmetas variant hvariant).mono hgrows

theorem Good.of_grows (h : b.Good S building) (hgrows : b.Grows b')
    (hnodes : b'.nodes = b.nodes) (hfields : b'.fields = b.fields)
    (hvariants : b'.variants = b.variants) (hfinished : b'.finished = b.finished)
    (hbuilding : b'.building = b.building) : b'.Good S building := by
  have htypes : b'.finishedTypes = b.finishedTypes := by rw [finishedTypes, hfinished]; rfl
  refine ⟨⟨?_, ?_, ?_, ?_, ?_, ?_, ?_, ?_⟩, hbuilding.trans h.building⟩
  · rw [hnodes]
    intro node hnode
    exact (h.inside.nodes node hnode).mono hgrows
  · rw [hfields]
    intro plan hplan
    exact (h.inside.fields plan hplan).mono hgrows
  · rw [hvariants]
    intro variant hvariant
    exact (h.inside.variants variant hvariant).mono hgrows
  · rw [hnodes, hfinished]
    exact h.inside.finished
  · rw [htypes]
    exact h.inside.nodup
  · rw [hbuilding, htypes]
    exact h.inside.unfinished
  · rw [hnodes, hfinished]
    exact h.inside.own
  · rw [hnodes, hbuilding, htypes]
    exact h.inside.backRefs

theorem Good.allocValidators (h : b.Good S building) (kinds : List ValidatorKind) :
    (b.allocValidators kinds).1.Good S building ∧ b.Grows (b.allocValidators kinds).1 ∧
      RangeInside (b.allocValidators kinds).1.arenas.validators (b.allocValidators kinds).2 := by
  have hgrows : b.Grows (b.allocValidators kinds).1 := by
    constructor <;> simp [arenas, TypePlanBuilder.allocValidators, Arena.allocExtend]
  exact ⟨h.of_grows hgrows rfl rfl rfl rfl rfl, hgrows, rangeInside_allocExtend b.validators kinds⟩

theorem Good.allocFieldLookup (h : b.Good S building) (order : IterationOrder)
    (fields : List (Field ι)) :
    (b.allocFieldLookup order fields).1.Good S building ∧
      b.Grows (b.allocFieldLookup order fields).1 ∧
      LookupInside (b.allocFieldLookup order fields).1.arenas
        (b.allocFieldLookup order fields).2 := by
  unfold TypePlanBuilder.allocFieldLookup buildFieldLookup buildFieldLookupFromEntries
  by_cases hsmall : (fieldEntries fields).length ≤ lookupThreshold
  · rw [if_pos hsmall]
    have hgrows : b.Grows { b with lookups := b.lookups } := Grows.refl b
    exact ⟨h.of_grows hgrows rfl rfl rfl rfl rfl, hgrows, trivial⟩
  · rw [if_neg hsmall]
    unfold allocPrefixBuckets
    generalize (bucketList order (choosePrefixLen (fieldEntries fields))
      (fieldEntries fields)).foldl layOutGroup ([], []) = laidOut
    have hgrows : b.Grows { b with lookups :=
        ⟨(b.lookups.fieldEntries.allocExtend laidOut.1).1,
          (b.lookups.buckets.allocExtend laidOut.2).1⟩ } := by
      constructor <;> simp [arenas, Arena.allocExtend]
    exact ⟨h.of_grows hgrows rfl rfl rfl rfl rfl, hgrows,
      rangeInside_allocExtend b.lookups.fieldEntries laidOut.1,
      rangeInside_allocExtend b.lookups.buckets laidOut.2⟩

/-- The plans of fields, stored with a lookup of their names. -/
theorem Good.storeFields (h : b.Good S building) (order : IterationOrder)
    (fields : List (Field ι)) {plans : List (FieldPlan ι)}
    (hplans : ∀ plan ∈ plans, FieldRight b.arenas plan) (hall : PlansOf fields plans) :
    let stored := b.allocFields plans
    let looked := stored.1.allocFieldLookup order fields
    looked.1.Good S building ∧ b.Grows looked.1 ∧
      Holds looked.1.arenas.fields stored.2 (PlansOf fields) ∧
      LookupInside looked.1.arenas looked.2 := by
  obtain ⟨hgood₁, hgrows₁⟩ := h.allocFields hplans
  obtain ⟨hgood₂, hgrows₂, hlookup⟩ := hgood₁.allocFieldLookup order fields
  exact ⟨hgood₂, hgrows₁.trans hgrows₂, (holds_allocExtend b.fields hall).mono hgrows₂.fields,
    hlookup⟩

theorem Good.startBuilding [DecidableEq ι] (h : b.Good S building) {typeId : ι}
    (hnew : typeId ∉ b.finishedTypes) :
    (b.startBuilding typeId).Good S (insert typeId building) := by
  refine ⟨⟨h.inside.nodes, h.inside.fields, h.inside.variants, h.inside.finished, h.inside.nodup,
    ?_, h.inside.own, ?_⟩, ?_⟩
  · intro t ht
    rcases Finset.mem_insert.mp ht with rfl | ht
    · exact hnew
    · exact h.inside.unfinished t ht
  · intro node hnode t ht
    obtain ⟨hshape, hkind, hknown⟩ := h.inside.backRefs node hnode t ht
    exact ⟨hshape, hkind, hknown.imp_left fun hmem => Finset.mem_insert_of_mem hmem⟩
  · unfold TypePlanBuilder.startBuilding
    rw [h.building]

/-- The own node of a type is stored, and the type is finished. -/
theorem Good.finishBuilding [DecidableEq ι] {typeId : ι} (h : b.Good S (insert typeId building))
    (hnew : typeId ∉ building) {node : TypePlanNode ι} {idx : NodeId}
    (hnode : NodeRight S b.arenas node) (hshape : node.shape = typeId) (hown : node.IsOwn)
    (htarget : node.strategy.target = none) (hrun : b.allocNode node = .ok (b', idx)) :
    (b'.finishBuilding typeId idx).Good S building := by
  have hgrows := grows_allocNode hrun
  have hstored := getElem?_allocNode hrun
  have hold {id : ℕ} {other : TypePlanNode ι} (hother : b'.nodes.data[id]? = some other) :=
    of_getElem?_allocNode hrun hother
  obtain ⟨rfl, rfl⟩ := of_allocNode hrun
  have hunfinished : typeId ∉ b.finishedTypes :=
    h.inside.unfinished typeId (by rw [h.building]; exact Finset.mem_insert_self typeId building)
  have hfilter : (b.finished.filter fun entry => entry.1 ≠ typeId) = b.finished := by
    apply List.filter_eq_self.mpr
    intro entry hentry
    have hne : entry.1 ≠ typeId := fun heq => hunfinished (heq ▸ List.mem_map_of_mem hentry)
    simpa using hne
  unfold TypePlanBuilder.finishBuilding
  rw [hfilter]
  refine ⟨⟨?_, ?_, ?_, ?_, ?_, ?_, ?_, ?_⟩, ?_⟩
  · intro other hother
    rcases List.mem_append.mp hother with hother | hother
    · exact (h.inside.nodes other hother).mono hgrows
    · rw [List.mem_singleton.mp hother]
      exact hnode.mono hgrows
  · intro plan hplan
    exact (h.inside.fields plan hplan).mono hgrows
  · intro variant hvariant
    exact (h.inside.variants variant hvariant).mono hgrows
  · intro entry hentry
    rcases List.mem_cons.mp hentry with rfl | hentry
    · exact ⟨node, hstored, hshape, hown, htarget⟩
    · obtain ⟨other, hother, hrest⟩ := h.inside.finished entry hentry
      refine ⟨other, ?_, hrest⟩
      rw [List.getElem?_append_left (List.getElem?_eq_some_iff.mp hother).1]
      exact hother
  · exact List.nodup_cons.mpr ⟨hunfinished, h.inside.nodup⟩
  · intro t ht hfinished
    obtain ⟨hne, ht⟩ := Finset.mem_erase.mp ht
    rcases List.mem_cons.mp hfinished with heq | hfinished
    · exact hne heq
    · exact h.inside.unfinished t ht hfinished
  · intro id other hother hisOwn
    rcases hold hother with hother | ⟨rfl, rfl⟩
    · exact List.mem_cons_of_mem _ (h.inside.own id other hother hisOwn)
    · rw [hshape]
      exact List.mem_cons_self
  · intro other hother t ht
    rcases List.mem_append.mp hother with hother | hother
    · obtain ⟨hshape, hkind, hknown⟩ := h.inside.backRefs other hother t ht
      refine ⟨hshape, hkind, ?_⟩
      rcases hknown with hbuilding | hfinished
      · by_cases heq : t = typeId
        · right
          rw [heq]
          exact List.mem_cons_self
        · exact Or.inl (Finset.mem_erase.mpr ⟨heq, hbuilding⟩)
      · exact Or.inr (List.mem_cons_of_mem _ hfinished)
    · rw [List.mem_singleton.mp hother] at ht
      rcases ht with ht | ht
      · rw [hown.1] at ht
        cases ht
      · rw [htarget] at ht
        cases ht
  · simp only [h.building]
    exact Finset.erase_insert hnew

end TypePlanBuilder

end Facet.Plan
