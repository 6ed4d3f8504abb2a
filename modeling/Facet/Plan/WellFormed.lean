import Facet.Plan.Invariant

/-!
# A plan that is built is well formed

Every step of the recursion keeps what the builder has stored right; so does a whole run, and the
finished plan can be navigated without checks.
-/

namespace Facet.Plan

open BinarySearch Frames TypePlan StatePass TypePlanBuilder

variable {ι : Type}

/-- There are some proxies. -/
def FieldProxies.NonEmpty (proxies : FieldProxies ι) : Prop :=
  proxies.generic.isSome = true ∨ proxies.formatSpecific ≠ []

theorem FieldProxies.nonEmpty_of_fromField {field : Field ι} {proxies : FieldProxies ι}
    (h : FieldProxies.fromField field = some proxies) : proxies.NonEmpty := by
  unfold FieldProxies.fromField at h
  split at h
  · cases h
  · next hsome =>
    cases h
    unfold FieldProxies.NonEmpty
    simp only
    cases hproxy : field.proxy with
    | some t => exact Or.inl rfl
    | none =>
      right
      intro hempty
      rw [hproxy, hempty] at hsome
      exact hsome rfl

section Steps

variable {S : Shapes ι} {order : IterationOrder} {building : Finset ι}
  {rec : ι → Option (FieldProxies ι) → Build ι NodeId}

/-- A step that keeps the invariant and lets the arenas grow. -/
abbrev KeepsGood (S : Shapes ι) (building : Finset ι) {α : Type}
    (Right : TypePlanBuilder ι → α → Prop) (step : Build ι α) : Prop :=
  Keeps (Good S building) Grows Right step

/-- The nodes of the recursion are there. -/
def BuildsNodes (S : Shapes ι) (building : Finset ι)
    (rec : ι → Option (FieldProxies ι) → Build ι NodeId) : Prop :=
  ∀ shape fieldProxies, (∀ proxies, fieldProxies = some proxies → proxies.NonEmpty) →
    KeepsGood S building (fun b id => HasShape b.arenas id shape) (rec shape fieldProxies)

theorem BuildsNodes.plain (h : BuildsNodes S building rec) (shape : ι) :
    KeepsGood S building (fun b id => HasShape b.arenas id shape) (rec shape none) :=
  h shape none (by simp)

theorem BuildsNodes.field (h : BuildsNodes S building rec) (field : Field ι) :
    KeepsGood S building (fun b id => HasShape b.arenas id field.shape)
      (rec field.shape (FieldProxies.fromField field)) :=
  h field.shape (FieldProxies.fromField field) fun _ => FieldProxies.nonEmpty_of_fromField

variable (hrec : BuildsNodes S building rec)

include hrec

theorem buildFormatProxy_keeps (proxy : String × ι) :
    KeepsGood S building (fun b node => node.2 < b.arenas.nodes.length)
      (buildFormatProxy rec proxy) := by
  intro b b' result hgood hrun
  obtain ⟨⟨b₁, node⟩, hnode, hrun⟩ := ExceptList.exists_of_bind_ok hrun
  cases hrun
  obtain ⟨hgood₁, hgrows₁, hshape⟩ := hrec.plain proxy.2 hgood hnode
  exact ⟨hgood₁, hgrows₁, hshape.lt⟩

theorem buildFormatProxies_keeps (proxies : List (String × ι)) :
    KeepsGood S building (fun b nodes => ∀ entry ∈ nodes, entry.2 < b.arenas.nodes.length)
      (buildFormatProxies rec proxies) := by
  apply Keeps.mapAccumM Grows.refl Grows.trans
  · intro b b' entry hgrows hentry
    exact hentry.trans_le hgrows.nodes.length_le
  · intro proxy _
    exact buildFormatProxy_keeps hrec proxy

theorem buildGenericProxy_keeps (generic : Option ι) :
    KeepsGood S building
      (fun b node => (∀ id ∈ node.toList, id < b.arenas.nodes.length) ∧
        node.isSome = generic.isSome)
      (buildGenericProxy rec generic) := by
  intro b b' result hgood hrun
  cases generic with
  | none =>
    cases hrun
    exact ⟨hgood, Grows.refl b, by simp, rfl⟩
  | some shape =>
    obtain ⟨⟨b₁, node⟩, hnode, hrun⟩ := ExceptList.exists_of_bind_ok hrun
    cases hrun
    obtain ⟨hgood₁, hgrows₁, hshape⟩ := hrec.plain shape hgood hnode
    exact ⟨hgood₁, hgrows₁, by simpa using hshape.lt, rfl⟩

theorem buildProxies_keeps (generic : Option ι) (formatSpecific : List (String × ι)) :
    KeepsGood S building
      (fun b proxies => (∀ id ∈ proxies.nodeIds, id < b.arenas.nodes.length) ∧
        proxies.hasAny = (generic.isSome || !formatSpecific.isEmpty))
      (buildProxies rec generic formatSpecific) := by
  intro b b' proxies hgood hrun
  unfold buildProxies at hrun
  obtain ⟨⟨b₁, genericNode⟩, hgeneric, hrun⟩ := ExceptList.exists_of_bind_ok hrun
  obtain ⟨⟨b₂, formatNodes⟩, hformats, hrun⟩ := ExceptList.exists_of_bind_ok hrun
  cases hrun
  obtain ⟨hgood₁, hgrows₁, hgenericNode, hsome⟩ :=
    buildGenericProxy_keeps hrec generic hgood hgeneric
  obtain ⟨hgood₂, hgrows₂, hformatNodes⟩ := buildFormatProxies_keeps hrec _ hgood₁ hformats
  refine ⟨hgood₂, hgrows₁.trans hgrows₂, ?_, ?_⟩
  · intro id hid
    rcases List.mem_append.mp hid with hid | hid
    · exact (hgenericNode id hid).trans_le hgrows₂.nodes.length_le
    · obtain ⟨entry, hentry, rfl⟩ := List.mem_map.mp hid
      exact hformatNodes entry hentry
  · have hlength := StatePass.mapAccumM_length hformats
    unfold ProxyNodes.hasAny
    simp only
    rw [hsome, Bool.eq_iff_iff]
    simp [← List.length_eq_zero_iff, hlength]

/-- What is right of the proxies' nodes: where the field has some, they are the field's, and
otherwise the type's. -/
structure ProxiesRight (fieldProxies : Option (FieldProxies ι)) (b : TypePlanBuilder ι)
    (result : ProxyNodes × Bool × Bool) : Prop where
  nodes : ∀ id ∈ result.1.nodeIds, id < b.arenas.nodes.length
  hasFieldProxy : result.2.2 = fieldProxies.isSome

theorem buildAllProxyNodes_keeps (shape : ι) {fieldProxies : Option (FieldProxies ι)}
    (hnonEmpty : ∀ proxies, fieldProxies = some proxies → proxies.NonEmpty) :
    KeepsGood S building (ProxiesRight fieldProxies)
      (buildAllProxyNodes S rec shape fieldProxies) := by
  intro b b' result hgood hrun
  unfold buildAllProxyNodes at hrun
  cases fieldProxies with
  | none =>
    obtain ⟨⟨b₁, proxies⟩, hproxies, hrun⟩ := ExceptList.exists_of_bind_ok hrun
    cases hrun
    obtain ⟨hgood₁, hgrows₁, hnodes, -⟩ := buildProxies_keeps hrec _ _ hgood hproxies
    exact ⟨hgood₁, hgrows₁, hnodes, rfl⟩
  | some fp =>
    obtain ⟨⟨b₁, proxies⟩, hproxies, hrun⟩ := ExceptList.exists_of_bind_ok hrun
    cases hrun
    obtain ⟨hgood₁, hgrows₁, hnodes, hany⟩ := buildProxies_keeps hrec _ _ hgood hproxies
    refine ⟨hgood₁, hgrows₁, hnodes, ?_⟩
    rcases hnonEmpty fp rfl with hgeneric | hformats
    · simp [hany, hgeneric]
    · simp [hany, hformats]

theorem buildFieldPlan_keeps (containerHasDefault : Bool) (field : Field ι × ℕ) :
    KeepsGood S building
      (fun b plan => FieldRight b.arenas plan ∧ (plan.field, plan.index) = field)
      (buildFieldPlan S rec containerHasDefault field) := by
  intro b b' plan hgood hrun
  obtain ⟨⟨b₁, node⟩, hnode, hrun⟩ := ExceptList.exists_of_bind_ok hrun
  obtain ⟨hgood₁, hgrows₁, hshape⟩ := hrec.field field.1 hgood hnode
  simp only at hrun
  split at hrun
  · cases hrun
  · next kinds hkinds =>
    cases hrun
    obtain ⟨hgood₂, hgrows₂, hrange⟩ := hgood₁.allocValidators kinds
    exact ⟨hgood₂, hgrows₁.trans hgrows₂, ⟨hshape.mono hgrows₂, hrange⟩, rfl⟩

theorem buildFieldPlans_keeps (containerHasDefault : Bool) (fields : List (Field ι)) :
    KeepsGood S building
      (fun b plans => (∀ plan ∈ plans, FieldRight b.arenas plan) ∧ PlansOf fields plans)
      (buildFieldPlans S rec containerHasDefault fields) := by
  apply Keeps.mapAccumM_map Grows.refl Grows.trans
  · intro b b' plan hgrows hplan
    exact hplan.mono hgrows
  · intro field _
    exact buildFieldPlan_keeps hrec containerHasDefault field

theorem buildStructPlan_keeps {shape : ι} {structDef : StructType ι}
    (hdecided : decidedByType (S shape) = true) (hty : (S shape).ty = .user (.struct structDef)) :
    KeepsGood S building (fun b plan => KindRight b.arenas (S shape) (.struct plan))
      (buildStructPlan S order rec shape structDef) := by
  intro b b' plan hgood hrun
  obtain ⟨⟨b₁, plans⟩, hplans, hrun⟩ := ExceptList.exists_of_bind_ok hrun
  obtain ⟨hgood₁, hgrows₁, hright, hall⟩ := buildFieldPlans_keeps hrec _ _ hgood hplans
  cases hrun
  obtain ⟨hgood₂, hgrows₂, hrest⟩ := hgood₁.storeFields order structDef.fields hright hall
  exact ⟨hgood₂, hgrows₁.trans hgrows₂, hdecided, hty, hrest⟩

theorem buildVariant_keeps (variant : Variant ι) :
    KeepsGood S building (fun b plan => VariantRight b.arenas plan ∧ plan.variant = variant)
      (buildVariant S order rec variant) := by
  intro b b' plan hgood hrun
  obtain ⟨⟨b₁, plans⟩, hplans, hrun⟩ := ExceptList.exists_of_bind_ok hrun
  obtain ⟨hgood₁, hgrows₁, hright, hall⟩ := buildFieldPlans_keeps hrec _ _ hgood hplans
  cases hrun
  obtain ⟨hgood₂, hgrows₂, hholds, hlookup⟩ :=
    hgood₁.storeFields order variant.data.fields hright hall
  exact ⟨hgood₂, hgrows₁.trans hgrows₂, ⟨hholds, hlookup⟩, rfl⟩

theorem buildEnumPlan_keeps {shape : ι} {enumDef : EnumType ι}
    (hdecided : decidedByType (S shape) = true) (hty : (S shape).ty = .user (.enum enumDef)) :
    KeepsGood S building (fun b plan => KindRight b.arenas (S shape) (.enum plan))
      (buildEnumPlan S order rec enumDef) := by
  intro b b' plan hgood hrun
  obtain ⟨⟨b₁, metas⟩, hmetas, hrun⟩ := ExceptList.exists_of_bind_ok hrun
  have hkeeps : KeepsGood S building
      (fun b metas => (∀ variant ∈ metas, VariantRight b.arenas variant) ∧
        metas.map (·.variant) = enumDef.variants)
      (StatePass.mapAccumM (fun b variant => buildVariant S order rec variant b)
        enumDef.variants) := by
    apply Keeps.mapAccumM_map Grows.refl Grows.trans
    · intro b b' plan hgrows hplan
      exact hplan.mono hgrows
    · intro variant _
      exact buildVariant_keeps hrec variant
  obtain ⟨hgood₁, hgrows₁, hright, hall⟩ := hkeeps hgood hmetas
  cases hrun
  obtain ⟨hgood₂, hgrows₂⟩ := hgood₁.allocVariants hright
  exact ⟨hgood₂, hgrows₁.trans hgrows₂, hdecided, hty, holds_allocExtend b₁.variants hall⟩

/-- What is right of a kind and the nodes of its children. -/
structure KindBuilt (S : Shapes ι) (shape : ι) (b : TypePlanBuilder ι)
    (result : TypePlanNodeKind ι × List NodeId) : Prop where
  kind : KindRight b.arenas (S shape) result.1
  target : result.1.target = none
  children : List.Forall₂ (fun t id => HasShape b.arenas id t) (childTypes (S shape)) result.2

theorem buildWith_keeps {shape : ι} {kind : TypePlanNodeKind ι} {children : List ι}
    (hkind : ∀ A, KindRight A (S shape) kind) (htarget : kind.target = none)
    (hchildren : childTypes (S shape) = children) :
    KeepsGood S building (KindBuilt S shape) (buildWith rec kind children) := by
  intro b b' result hgood hrun
  obtain ⟨⟨b₁, nodes⟩, hnodes, hrun⟩ := ExceptList.exists_of_bind_ok hrun
  cases hrun
  have hkeeps : KeepsGood S building
      (fun b nodes => List.Forall₂ (fun t id => HasShape b.arenas id t) children nodes)
      (buildChildren rec children) := by
    apply Keeps.mapAccumM_forall₂ (fun b t id => HasShape b.arenas id t) Grows.refl Grows.trans
    · intro b b' t id hgrows hshape
      exact hshape.mono hgrows
    · intro t _
      exact hrec.plain t
  obtain ⟨hgood₁, hgrows₁, hshapes⟩ := hkeeps hgood hnodes
  exact ⟨hgood₁, hgrows₁, hkind _, htarget, hchildren.symm ▸ hshapes⟩

theorem buildTypeKind_keeps {shape : ι} (hdecided : decidedByType (S shape) = true) :
    KeepsGood S building (KindBuilt S shape) (buildTypeKind S order rec shape) := by
  have htypes := childTypes_of_decidedByType hdecided
  unfold childTypesOfTy at htypes
  intro b b' result hgood hrun
  have hwith {kind : TypePlanNodeKind ι} {children : List ι}
      (hrun : buildWith rec kind children b = .ok (b', result))
      (hkind : ∀ A, KindRight A (S shape) kind) (htarget : kind.target = none)
      (hchildren : childTypes (S shape) = children) :=
    buildWith_keeps hrec hkind htarget hchildren hgood hrun
  have hbuilder (hplain : ∀ A, KindRight A (S shape) .transparent) (htypes : childTypes (S shape) =
        if (S shape).hasTryFrom then (S shape).builderShape.toList else [])
      (hrun : buildFromBuilder S rec shape b = .ok (b', result)) :
      b'.Good S building ∧ b.Grows b' ∧ KindBuilt S shape b' result := by
    unfold buildFromBuilder at hrun
    split at hrun
    · next builderShape hbuilder htry =>
      apply hwith hrun hplain rfl
      rw [htypes, hbuilder, htry]
      rfl
    · next hnone =>
      cases hrun
      refine ⟨hgood, Grows.refl b, hplain b.arenas, rfl, ?_⟩
      have hnil : childTypes (S shape) = [] := by
        rw [htypes]
        cases htry : (S shape).hasTryFrom with
        | false => rfl
        | true =>
          cases hshape : (S shape).builderShape with
          | none => rfl
          | some builderShape => exact absurd htry (hnone builderShape hshape)
      rw [hnil]
      exact .nil
  unfold buildTypeKind at hrun
  split at hrun
  · next structType hty =>
    obtain ⟨⟨b₁, plan⟩, hplan, hrun⟩ := ExceptList.exists_of_bind_ok hrun
    cases hrun
    obtain ⟨hgood₁, hgrows₁, hright⟩ := buildStructPlan_keeps hrec hdecided hty hgood hplan
    rw [hty] at htypes
    exact ⟨hgood₁, hgrows₁, hright, rfl, htypes.symm ▸ .nil⟩
  · next enumType hty =>
    obtain ⟨⟨b₁, plan⟩, hplan, hrun⟩ := ExceptList.exists_of_bind_ok hrun
    cases hrun
    obtain ⟨hgood₁, hgrows₁, hright⟩ := buildEnumPlan_keeps hrec hdecided hty hgood hplan
    rw [hty] at htypes
    exact ⟨hgood₁, hgrows₁, hright, rfl, htypes.symm ▸ .nil⟩
  · next t hty =>
    rw [hty] at htypes
    exact hwith hrun (fun _ => ⟨hdecided, t, hty⟩) rfl htypes
  · next hty =>
    rw [hty] at htypes
    exact hbuilder (fun _ => by simp [KindRight, hty]) htypes hrun
  · next hty =>
    rw [hty] at htypes
    exact hbuilder (fun _ => by simp [KindRight, hty]) htypes hrun
  · next hstruct henum _ _ _ =>
    split at hrun
    · next inner hinner =>
      apply hwith hrun (fun _ => ⟨hstruct, henum⟩) rfl
      rw [htypes, hinner]
      split <;> simp_all
    · cases hrun

theorem buildKind_keeps (shape : ι) :
    KeepsGood S building (KindBuilt S shape) (buildKind S order rec shape) := by
  unfold buildKind
  cases hdef : (S shape).def with
  | undefined => exact buildTypeKind_keeps hrec (by rw [decidedByType, hdef]; rfl)
  | ndArray t => exact buildTypeKind_keeps hrec (by rw [decidedByType, hdef]; rfl)
  | slice t => exact buildTypeKind_keeps hrec (by rw [decidedByType, hdef]; rfl)
  | scalar => exact buildWith_keeps hrec (fun _ => hdef) rfl (by rw [childTypes, hdef])
  | dynamicValue => exact buildWith_keeps hrec (fun _ => hdef) rfl (by rw [childTypes, hdef])
  | option t =>
    exact buildWith_keeps hrec (fun _ => ⟨t, hdef⟩) rfl (by rw [childTypes, hdef])
  | result t e =>
    exact buildWith_keeps hrec (fun _ => ⟨t, e, hdef⟩) rfl (by rw [childTypes, hdef])
  | list t =>
    exact buildWith_keeps hrec (fun _ => ⟨t, hdef⟩) rfl (by rw [childTypes, hdef])
  | map k v =>
    exact buildWith_keeps hrec (fun _ => ⟨k, v, hdef⟩) rfl (by rw [childTypes, hdef])
  | set t =>
    exact buildWith_keeps hrec (fun _ => ⟨t, hdef⟩) rfl (by rw [childTypes, hdef])
  | array t n =>
    exact buildWith_keeps hrec (fun _ => ⟨t, hdef⟩) rfl (by rw [childTypes, hdef])
  | pointer pointee =>
    cases pointee with
    | none => exact buildWith_keeps hrec (fun _ => hdef) rfl (by rw [childTypes, hdef]; rfl)
    | some t =>
      exact buildWith_keeps hrec (fun _ => ⟨t, hdef⟩) rfl (by rw [childTypes, hdef]; rfl)

end Steps

/-- What is right of a strategy: the children it has stored are of the types that the definitions
have there, it refers back to nothing, and only a field's proxies make it one for them. -/
structure StrategyRight (A : Arenas ι) (shape : Shape ι) (fieldProxy : Bool)
    (strategy : DeserStrategy ι) : Prop where
  child : ∀ child ∈ strategy.children,
    ∃ t, typeChild shape child.1 = some t ∧ HasShape A child.2 t
  target : strategy.target = none
  isFieldProxy : strategy.isFieldProxy = fieldProxy

section Strategy

variable {A : Arenas ι} {shape : Shape ι} {children : List NodeId}

theorem hasShape_of_nthChild {n : ℕ} {id : NodeId}
    (hchildren : List.Forall₂ (fun t id => HasShape A id t) (childTypes shape) children)
    (h : nthChild children n = (.ok id : Except (BuildStop ι) NodeId)) :
    ∃ t, (childTypes shape)[n]? = some t ∧ HasShape A id t := by
  unfold nthChild at h
  split at h
  · next child hchild =>
    cases h
    obtain ⟨hlt, rfl⟩ := List.getElem?_eq_some_iff.mp hchild
    have hlt' : n < (childTypes shape).length := by rw [hchildren.length_eq]; exact hlt
    exact ⟨(childTypes shape)[n], List.getElem?_eq_getElem hlt', hchildren.get hlt' hlt⟩
  · cases h

theorem StrategyRight.of_nil {strategy : DeserStrategy ι} (hnil : strategy.children = [])
    (htarget : strategy.target = none) (hproxy : strategy.isFieldProxy = false) :
    StrategyRight A shape false strategy :=
  ⟨by simp [hnil], htarget, hproxy⟩

theorem StrategyRight.of_child (step : Step)
    (hchildren : List.Forall₂ (fun t id => HasShape A id t) (childTypes shape) children)
    {f : NodeId → DeserStrategy ι} {strategy : DeserStrategy ι}
    (hf : ∀ id, (f id).children = [(step, id)] ∧ (f id).target = none ∧
      (f id).isFieldProxy = false) (htype : typeChild shape step = (childTypes shape)[0]?)
    (h : (do return f (← nthChild children 0)) = (.ok strategy : Except (BuildStop ι) _)) :
    StrategyRight A shape false strategy := by
  obtain ⟨id, hid, h⟩ := ExceptList.exists_of_bind_ok h
  cases h
  obtain ⟨hstored, htarget, hproxy⟩ := hf id
  refine ⟨?_, htarget, hproxy⟩
  rw [hstored]
  intro child hchild
  rw [List.mem_singleton.mp hchild, htype]
  exact hasShape_of_nthChild hchildren hid

theorem StrategyRight.of_children (first second : Step)
    (hchildren : List.Forall₂ (fun t id => HasShape A id t) (childTypes shape) children)
    {f : NodeId → NodeId → DeserStrategy ι} {strategy : DeserStrategy ι}
    (hf : ∀ id id', (f id id').children = [(first, id), (second, id')] ∧
      (f id id').target = none ∧ (f id id').isFieldProxy = false)
    (hfirst : typeChild shape first = (childTypes shape)[0]?)
    (hsecond : typeChild shape second = (childTypes shape)[1]?)
    (h : (do return f (← nthChild children 0) (← nthChild children 1)) =
      (.ok strategy : Except (BuildStop ι) _)) :
    StrategyRight A shape false strategy := by
  obtain ⟨id, hid, h⟩ := ExceptList.exists_of_bind_ok h
  obtain ⟨id', hid', h⟩ := ExceptList.exists_of_bind_ok h
  cases h
  obtain ⟨hstored, htarget, hproxy⟩ := hf id id'
  refine ⟨?_, htarget, hproxy⟩
  rw [hstored]
  intro child hchild
  rcases List.mem_cons.mp hchild with rfl | hchild
  · rw [hfirst]
    exact hasShape_of_nthChild hchildren hid
  · rw [List.mem_singleton.mp hchild, hsecond]
    exact hasShape_of_nthChild hchildren hid'

theorem StrategyRight.of_convert {strategy : DeserStrategy ι}
    (hchildren : List.Forall₂ (fun t id => HasShape A id t) (childTypes shape) children)
    (h : (do return .transparentConvert (← nthChild children 0)) =
      (.ok strategy : Except (BuildStop ι) _)) :
    StrategyRight A shape false strategy :=
  .of_child .inner hchildren (fun _ => ⟨rfl, rfl, rfl⟩) List.head?_eq_getElem? h

theorem kindStrategy_right {shapeId : ι} {kind : TypePlanNodeKind ι} {strategy : DeserStrategy ι}
    (hchildren : List.Forall₂ (fun t id => HasShape A id t) (childTypes shape) children)
    (hkind : KindRight A shape kind) (htarget : kind.target = none)
    (h : kindStrategy shape shapeId kind children = .ok strategy) :
    StrategyRight A shape false strategy := by
  cases kind with
  | scalar =>
    simp only [kindStrategy] at h
    split at h <;> cases h <;> exact .of_nil rfl rfl rfl
  | struct plan =>
    simp only [kindStrategy] at h
    split at h <;> cases h <;> exact .of_nil rfl rfl rfl
  | option =>
    obtain ⟨t, ht⟩ := hkind
    exact .of_child .optionSome hchildren (fun _ => ⟨rfl, rfl, rfl⟩)
      (by simp [typeChild, childTypes, ht]) h
  | result =>
    obtain ⟨t, e, ht⟩ := hkind
    exact .of_children .resultOk .resultErr hchildren (fun _ _ => ⟨rfl, rfl, rfl⟩)
      (by simp [typeChild, childTypes, ht]) (by simp [typeChild, childTypes, ht]) h
  | list =>
    obtain ⟨t, ht⟩ := hkind
    exact .of_child .listItem hchildren (f := fun id => .list id shape.isByteVec)
      (fun _ => ⟨rfl, rfl, rfl⟩) (by simp [typeChild, childTypes, ht]) h
  | slice =>
    obtain ⟨hdecided, t, ht⟩ := hkind
    have htype : typeChild shape .listItem = (childTypes shape)[0]? := by
      rw [childTypes_of_decidedByType hdecided]
      unfold decidedByType saysNothing at hdecided
      simp only [typeChild, childTypesOfTy, ht]
      cases hdef : shape.def <;> simp_all
    exact .of_child .listItem hchildren (f := fun id => .list id shape.isByteVec)
      (fun _ => ⟨rfl, rfl, rfl⟩) htype h
  | map =>
    obtain ⟨k, v, ht⟩ := hkind
    exact .of_children .mapKey .mapValue hchildren (fun _ _ => ⟨rfl, rfl, rfl⟩)
      (by simp [typeChild, childTypes, ht]) (by simp [typeChild, childTypes, ht]) h
  | set =>
    obtain ⟨t, ht⟩ := hkind
    exact .of_child .setItem hchildren (fun _ => ⟨rfl, rfl, rfl⟩)
      (by simp [typeChild, childTypes, ht]) h
  | array n =>
    obtain ⟨t, ht⟩ := hkind
    exact .of_child .listItem hchildren (fun _ => ⟨rfl, rfl, rfl⟩)
      (by simp [typeChild, childTypes, ht]) h
  | pointer =>
    obtain ⟨t, ht⟩ := hkind
    exact .of_child .pointerInner hchildren (fun _ => ⟨rfl, rfl, rfl⟩)
      (by simp [typeChild, childTypes, ht]) h
  | backRef typeId => cases htarget
  | transparent => cases h
  | _ =>
    cases h
    exact .of_nil rfl rfl rfl

theorem computeStrategy_right {shapeId : ι} {kind : TypePlanNodeKind ι}
    {hasContainerProxy hasFieldProxy : Bool} {strategy : DeserStrategy ι}
    (hchildren : List.Forall₂ (fun t id => HasShape A id t) (childTypes shape) children)
    (hkind : KindRight A shape kind) (htarget : kind.target = none)
    (h : computeStrategy shape shapeId kind hasContainerProxy hasFieldProxy children =
      .ok strategy) : StrategyRight A shape hasFieldProxy strategy := by
  unfold computeStrategy at h
  cases hasFieldProxy with
  | true =>
    cases h
    exact ⟨by simp [DeserStrategy.children], rfl, rfl⟩
  | false =>
    simp only [Bool.false_eq_true, if_false] at h
    split at h
    · cases h
      exact .of_nil rfl rfl rfl
    · split at h
      · next hpointer =>
        cases kind with
        | pointer =>
          obtain ⟨t, ht⟩ := hkind
          exact .of_child .pointerInner hchildren (fun _ => ⟨rfl, rfl, rfl⟩)
            (by simp [typeChild, childTypes, ht]) h
        | _ => cases hpointer
      · split at h
        · cases h
          exact .of_nil rfl rfl rfl
        · split at h
          · exact .of_convert hchildren h
          · split at h
            · exact .of_convert hchildren h
            · split at h
              · cases h
                exact .of_nil rfl rfl rfl
              · exact kindStrategy_right hchildren hkind htarget h

end Strategy

section Recursion

variable {S : Shapes ι} {order : IterationOrder} {building : Finset ι}
  {rec : ι → Option (FieldProxies ι) → Build ι NodeId}

/-- A full node is stored last: what was built before is right, and the node too. -/
theorem of_buildFullNode_ok (hrec : BuildsNodes S building rec) {shape : ι}
    {fieldProxies : Option (FieldProxies ι)}
    (hnonEmpty : ∀ proxies, fieldProxies = some proxies → proxies.NonEmpty)
    {b b' : TypePlanBuilder ι} {idx : NodeId} (hgood : b.Good S building)
    (hrun : buildFullNode S order rec shape fieldProxies b = .ok (b', idx)) :
    ∃ b₁ node, b₁.Good S building ∧ b.Grows b₁ ∧ b₁.allocNode node = .ok (b', idx) ∧
      NodeRight S b₁.arenas node ∧ node.shape = shape ∧ node.kind.target = none ∧
      node.strategy.target = none ∧ node.strategy.isFieldProxy = fieldProxies.isSome := by
  obtain ⟨⟨b₁, proxies, hasContainerProxy, hasFieldProxy⟩, hproxies, hrun⟩ :=
    ExceptList.exists_of_bind_ok hrun
  obtain ⟨⟨b₂, kind, children⟩, hkind, hrun⟩ := ExceptList.exists_of_bind_ok hrun
  obtain ⟨strategy, hstrategy, hrun⟩ := ExceptList.exists_of_bind_ok hrun
  obtain ⟨hgood₁, hgrows₁, hproxiesRight⟩ := buildAllProxyNodes_keeps hrec _ hnonEmpty hgood hproxies
  obtain ⟨hgood₂, hgrows₂, hbuilt⟩ := buildKind_keeps hrec _ hgood₁ hkind
  have hright := computeStrategy_right hbuilt.children hbuilt.kind hbuilt.target hstrategy
  refine ⟨b₂, _, hgood₂, hgrows₁.trans hgrows₂, hrun, ?_, rfl, hbuilt.target, hright.target,
    hright.isFieldProxy.trans hproxiesRight.hasFieldProxy⟩
  exact ⟨hbuilt.kind, hright.child, fun id hid =>
    (hproxiesRight.nodes id hid).trans_le hgrows₂.nodes.length_le⟩

theorem hasShape_allocNode {b b' : TypePlanBuilder ι} {node : TypePlanNode ι} {idx : NodeId}
    (h : b.allocNode node = .ok (b', idx)) : HasShape b'.arenas idx node.shape :=
  ⟨node, getElem?_allocNode h, rfl⟩

theorem buildNodeStep_keeps [DecidableEq ι]
    (hrec : ∀ building, BuildsNodes S building rec) (building : Finset ι) :
    BuildsNodes S building (buildNodeStep S order rec) := by
  intro shape fieldProxies hnonEmpty b b' idx hgood hrun
  unfold buildNodeStep at hrun
  cases fieldProxies with
  | some fp =>
    obtain ⟨b₁, node, hgood₁, hgrows₁, halloc, hright, rfl, hkind, hstrategy, hproxy⟩ :=
      of_buildFullNode_ok (hrec building) hnonEmpty hgood hrun
    refine ⟨hgood₁.allocNode hright ?_ ?_ halloc, hgrows₁.trans (grows_allocNode halloc),
      hasShape_allocNode halloc⟩
    · intro hown
      rw [hown.2] at hproxy
      cases hproxy
    · intro t ht
      rcases ht with ht | ht
      · rw [hkind] at ht
        cases ht
      · rw [hstrategy] at ht
        cases ht
  | none =>
    simp only at hrun
    split at hrun
    · next found hfound =>
      cases hrun
      obtain ⟨entry, hentry, rfl⟩ := Option.map_eq_some_iff.mp hfound
      have hkey : entry.1 = shape := by simpa using List.find?_some hentry
      obtain ⟨node, hnode, hshape, -⟩ :=
        hgood.inside.finished entry (List.mem_of_find?_eq_some hentry)
      exact ⟨hgood, Grows.refl b, node, hnode, hshape.trans hkey⟩
    · next hfound =>
      split at hrun
      · next hbuilding =>
        have hnode : NodeRight S b.arenas {
            shape, kind := .backRef shape, strategy := .backRef shape, proxies := {}
            hasDefault := (S shape).hasDefaultInPlace } :=
          ⟨trivial, by simp [DeserStrategy.children], by simp [ProxyNodes.nodeIds]⟩
        refine ⟨hgood.allocNode hnode ?_ ?_ hrun, grows_allocNode hrun, hasShape_allocNode hrun⟩
        · intro hown
          cases hown.1
        · intro t ht
          rcases ht with ht | ht <;> cases ht <;>
            exact ⟨rfl, rfl, Or.inl (hgood.building ▸ hbuilding)⟩
      · next hbuilding =>
        obtain ⟨⟨b₁, idx₁⟩, hfull, hrun⟩ := ExceptList.exists_of_bind_ok hrun
        cases hrun
        rw [hgood.building] at hbuilding
        obtain ⟨b₂, node, hgood₂, hgrows₂, halloc, hright, hshape, hkind, hstrategy, hproxy⟩ :=
          of_buildFullNode_ok (hrec (insert shape building)) hnonEmpty
            (hgood.startBuilding (not_mem_finishedTypes hfound)) hfull
        have hgrows₁ : b.Grows b₁ := Grows.trans hgrows₂ (grows_allocNode halloc)
        have hthere := hasShape_allocNode halloc
        rw [hshape] at hthere
        exact ⟨hgood₂.finishBuilding hbuilding hright hshape ⟨hkind, hproxy⟩ hstrategy halloc,
          hgrows₁, hthere⟩

theorem buildNodeWithProxy_keeps [DecidableEq ι] (S : Shapes ι) (order : IterationOrder)
    (fuel : ℕ) (building : Finset ι) :
    BuildsNodes S building (buildNodeWithProxy S order fuel) := by
  induction fuel generalizing building with
  | zero =>
    intro shape fieldProxies _ b b' idx _ hrun
    cases hrun
  | succ fuel ih => exact buildNodeStep_keeps ih building

end Recursion

namespace TypePlanCore

def arenas (core : TypePlanCore ι) : Arenas ι :=
  { nodes := core.nodes.data
    fields := core.fields.data
    variants := core.variants.data
    validators := core.validators.data.length
    entries := core.lookups.fieldEntries.data.length
    buckets := core.lookups.buckets.data.length }

variable [LinearOrder ι]

/-- Everything that is stored is right; the lookup finds exactly the own nodes of the types, and
what refers back names a type that is found. -/
structure WellFormed (S : Shapes ι) (core : TypePlanCore ι) : Prop where
  nodes : ∀ node ∈ core.nodes.data, NodeRight S core.arenas node
  fields : ∀ plan ∈ core.fields.data, FieldRight core.arenas plan
  variants : ∀ variant ∈ core.variants.data, VariantRight core.arenas variant
  lookupNode_eq_some : ∀ t id, core.lookupNode t = some id ↔
    ∃ node, core.node id = some node ∧ node.shape = t ∧ node.IsOwn
  own : ∀ node ∈ core.nodes.data, node.IsOwn → node.strategy.target = none
  backRefs : ∀ node ∈ core.nodes.data, ∀ t, node.RefersBack t →
    node.shape = t ∧ node.kind.target = some t ∧ ∃ id, core.lookupNode t = some id

end TypePlanCore

theorem lookupNode_finish [LinearOrder ι] {b : TypePlanBuilder ι} (hnodup : b.finishedTypes.Nodup)
    (root : NodeId) (t : ι) (id : NodeId) :
    (b.finish root).lookupNode t = some id ↔ (t, id) ∈ b.finished := by
  have hfound := found_iff t (strictlySorted_sortByKey hnodup)
  have hmem : ∀ entry, entry ∈ sortByKey (·.1) b.finished ↔ entry ∈ b.finished :=
    fun entry => (sortByKey_perm b.finished).mem_iff
  unfold TypePlanCore.lookupNode TypePlanBuilder.finish
  constructor
  · intro h
    obtain ⟨entry, hentry, rfl⟩ := Option.map_eq_some_iff.mp h
    obtain ⟨hstored, rfl⟩ := (hfound entry).mp hentry
    exact (hmem entry).mp hstored
  · intro h
    rw [(hfound (t, id)).mpr ⟨(hmem (t, id)).mpr h, rfl⟩]
    rfl

theorem wellFormed_finish [LinearOrder ι] {S : Shapes ι} {b : TypePlanBuilder ι} (h : b.Good S ∅)
    (root : NodeId) : (b.finish root).WellFormed S := by
  have hlookup := lookupNode_finish h.inside.nodup root
  refine ⟨h.inside.nodes, h.inside.fields, h.inside.variants, ?_, ?_, ?_⟩
  · intro t id
    rw [hlookup]
    constructor
    · intro hmem
      obtain ⟨node, hnode, hshape, hown, -⟩ := h.inside.finished (t, id) hmem
      exact ⟨node, hnode, hshape, hown⟩
    · rintro ⟨node, hnode, rfl, hown⟩
      exact h.inside.own id node hnode hown
  · intro node hnode hown
    obtain ⟨id, hid⟩ := List.mem_iff_getElem?.mp hnode
    obtain ⟨other, hother, -, -, htarget⟩ := h.inside.finished _ (h.inside.own id node hid hown)
    cases hid.symm.trans hother
    exact htarget
  · intro node hnode t ht
    obtain ⟨hshape, hkind, hknown⟩ := h.inside.backRefs node hnode t ht
    refine ⟨hshape, hkind, ?_⟩
    rw [h.building] at hknown
    rcases hknown with hbuilding | hfinished
    · cases hbuilding
    · obtain ⟨entry, hentry, rfl⟩ := List.mem_map.mp hfinished
      exact ⟨entry.2, (hlookup entry.1 entry.2).mpr hentry⟩

/-- A plan that is built is well formed, and its root is a node of the type. -/
theorem wellFormed_of_build [LinearOrder ι] {S : Shapes ι} {order : IterationOrder} {fuel : ℕ}
    {shape : ι} {core : TypePlanCore ι} (h : build S order fuel shape = .ok core) :
    core.WellFormed S ∧ HasShape core.arenas core.root shape := by
  obtain ⟨⟨b, root⟩, hroot, h⟩ := ExceptList.exists_of_bind_ok h
  cases h
  obtain ⟨hgood, -, hshape⟩ :=
    (buildNodeWithProxy_keeps S order fuel ∅).plain shape good_empty hroot
  exact ⟨wellFormed_finish hgood root, hshape⟩

local instance neZero_five : NeZero 5 := ⟨by decide⟩

/-- A struct with a label, which has a proxy of its own, and a box with the next one, which can be
missing. -/
def chainShapes : Shapes (Fin 5)
  | 0 =>
    { ty := .user (.struct ⟨.struct,
        [{ name := "label", shape := 3, proxy := some 4 }, { name := "next", shape := 1 }]⟩)
      «def» := .undefined }
  | 1 => { ty := .user (.enum ⟨[], .rustNPO⟩), «def» := .option 2 }
  | 2 => { ty := .user .opaqueTy, «def» := .pointer (some 0) }
  | 3 => { ty := .primitive .numeric, «def» := .scalar, scalarType := some .u32 }
  | 4 => { ty := .user .opaqueTy, «def» := .scalar, scalarType := some .string }

def chainOrder : IterationOrder := ⟨id, fun _ => .refl _⟩

theorem exists_build_chain : ∃ core, build chainShapes chainOrder 5 0 = .ok core ∧
    core.fields.data.length = 2 ∧ core.variants.data.length = 0 :=
  ⟨_, rfl, rfl, rfl⟩

theorem wellFormed_of_build_chain :
    ∃ core, build chainShapes chainOrder 5 0 = .ok core ∧ core.WellFormed chainShapes ∧
      HasShape core.arenas core.root (0 : Fin 5) := by
  obtain ⟨core, hcore, -⟩ := exists_build_chain
  exact ⟨core, hcore, wellFormed_of_build hcore⟩

end Facet.Plan
