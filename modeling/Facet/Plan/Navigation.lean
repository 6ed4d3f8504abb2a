import Facet.Plan.WellFormed

/-!
# Navigating a plan

A deserializer walks through the plan of a type from child to child, without checks: the builder has
to have stored every node it asks for. The walk follows the types: where it leads, the types lead as
well, and to the same type.
-/

namespace Facet.Plan

open BinarySearch Frames TypePlan

variable {ι : Type}

/-- What must not happen on the way; the recursion has a bound, which can turn out too small. -/
inductive NavigationStop
  | outOfBounds
  | missingTarget
  | outOfFuel

abbrev Navigation (α : Type) := Except NavigationStop α

namespace TypePlanCore

def nodeRef (core : TypePlanCore ι) (idx : NodeId) : Navigation (TypePlanNode ι) :=
  match core.node idx with
  | some node => .ok node
  | none => .error .outOfBounds

def fieldSlice (core : TypePlanCore ι) (range : SliceRange) : Navigation (List (FieldPlan ι)) :=
  match core.fields.getSlice range with
  | .ok fields => .ok fields
  | .error _ => .error .outOfBounds

def variantSlice (core : TypePlanCore ι) (range : SliceRange) :
    Navigation (List (VariantPlanMeta ι)) :=
  match core.variants.getSlice range with
  | .ok variants => .ok variants
  | .error _ => .error .outOfBounds

variable [LinearOrder ι] (core : TypePlanCore ι)

/-- The node that a node refers back to has to be there. -/
def resolveBackref (node : TypePlanNode ι) : Navigation (TypePlanNode ι) :=
  match node.kind with
  | .backRef typeId =>
    match core.lookupNode typeId with
    | some idx => core.nodeRef idx
    | none => .error .missingTarget
  | _ => .ok node

def structFieldNodeId (parentId : NodeId) (idx : ℕ) : Navigation (Option NodeId) := do
  let parent ← core.nodeRef parentId
  let resolved ← core.resolveBackref parent
  match resolved.kind with
  | .struct structPlan =>
    let fields ← core.fieldSlice structPlan.fields
    return fields[idx]?.map (·.typeNode)
  | _ => return none

def enumVariantFieldNodeId (parentId : NodeId) (variantIdx fieldIdx : ℕ) :
    Navigation (Option NodeId) := do
  let parent ← core.nodeRef parentId
  let resolved ← core.resolveBackref parent
  match resolved.kind with
  | .enum enumPlan =>
    let variants ← core.variantSlice enumPlan.variants
    match variants[variantIdx]? with
    | some variant =>
      let fields ← core.fieldSlice variant.fields
      return fields[fieldIdx]?.map (·.typeNode)
    | none => return none
  | _ => return none

/-- What a strategy has stored; a node that refers back has the strategy of the one it refers to. -/
def strategyNodeId {α : Type} (pick : DeserStrategy ι → Option α) :
    ℕ → NodeId → Navigation (Option α)
  | 0, _ => .error .outOfFuel
  | fuel + 1, parentId => do
    let parent ← core.nodeRef parentId
    match parent.strategy with
    | .backRef targetTypeId =>
      match core.lookupNode targetTypeId with
      | some target => strategyNodeId pick fuel target
      | none => return none
    | strategy => return pick strategy

def listItemNodeId (fuel : ℕ) (parentId : NodeId) : Navigation (Option NodeId) :=
  core.strategyNodeId (fun
    | .list itemNode _ | .array _ itemNode => some itemNode
    | _ => none) fuel parentId

def setItemNodeId (fuel : ℕ) (parentId : NodeId) : Navigation (Option NodeId) :=
  core.strategyNodeId (fun
    | .set itemNode => some itemNode
    | _ => none) fuel parentId

def mapKeyNodeId (fuel : ℕ) (parentId : NodeId) : Navigation (Option NodeId) :=
  core.strategyNodeId (fun
    | .map keyNode _ => some keyNode
    | _ => none) fuel parentId

def mapValueNodeId (fuel : ℕ) (parentId : NodeId) : Navigation (Option NodeId) :=
  core.strategyNodeId (fun
    | .map _ valueNode => some valueNode
    | _ => none) fuel parentId

def optionSomeNodeId (fuel : ℕ) (parentId : NodeId) : Navigation (Option NodeId) :=
  core.strategyNodeId (fun
    | .option someNode => some someNode
    | _ => none) fuel parentId

def resultNodesId (fuel : ℕ) (parentId : NodeId) : Navigation (Option (NodeId × NodeId)) :=
  core.strategyNodeId (fun
    | .result okNode errNode => some (okNode, errNode)
    | _ => none) fuel parentId

def pointerInnerNodeId (fuel : ℕ) (parentId : NodeId) : Navigation (Option NodeId) :=
  core.strategyNodeId (fun
    | .pointer pointeeNode => some pointeeNode
    | _ => none) fuel parentId

/-- This one does not follow a node that refers back. -/
def innerNodeId (S : Shapes ι) (parentId : NodeId) : Navigation (Option NodeId) := do
  let parent ← core.nodeRef parentId
  if (S parent.shape).inner.isSome then
    match parent.strategy with
    | .transparentConvert innerNode => return some innerNode
    | _ => return none
  else return none

/-- The child at a step. -/
def childNodeId (S : Shapes ι) (fuel : ℕ) (parentId : NodeId) : Step → Navigation (Option NodeId)
  | .structField idx => core.structFieldNodeId parentId idx
  | .variantField variantIdx fieldIdx => core.enumVariantFieldNodeId parentId variantIdx fieldIdx
  | .listItem => core.listItemNodeId fuel parentId
  | .setItem => core.setItemNodeId fuel parentId
  | .mapKey => core.mapKeyNodeId fuel parentId
  | .mapValue => core.mapValueNodeId fuel parentId
  | .optionSome => core.optionSomeNodeId fuel parentId
  | .resultOk => return (← core.resultNodesId fuel parentId).map (·.1)
  | .resultErr => return (← core.resultNodesId fuel parentId).map (·.2)
  | .pointerInner => core.pointerInnerNodeId fuel parentId
  | .inner => core.innerNodeId S parentId

/-- A walk from a node; it ends early where there is no child. -/
def navigate (S : Shapes ι) (fuel : ℕ) : List Step → NodeId → Navigation (Option NodeId)
  | [], id => return some id
  | step :: path, id => do
    match ← core.childNodeId S fuel id step with
    | some child => navigate S fuel path child
    | none => return none

end TypePlanCore

/-- The same walk over the types alone. -/
def follow (S : Shapes ι) : List Step → ι → Option ι
  | [], t => some t
  | step :: path, t => (typeChild (S t) step).bind (follow S path)

def Step.isField : Step → Bool
  | .structField _ | .variantField _ _ => true
  | _ => false

theorem mem_of_getSlice {α : Type} {arena : Arena α} {range : SliceRange} {values : List α}
    (h : arena.getSlice range = .ok values) {a : α} (ha : a ∈ values) : a ∈ arena.data := by
  unfold Arena.getSlice at h
  simp only at h
  split at h
  · cases h
    exact List.mem_of_mem_drop (List.mem_of_mem_take ha)
  · cases h

/-- The plans of fields lead to nodes of the fields' types. -/
theorem rel_plansOf {A : Arenas ι} {fields : List (Field ι)} {plans : List (FieldPlan ι)}
    (hall : PlansOf fields plans) (hright : ∀ plan ∈ plans, FieldRight A plan) (idx : ℕ) :
    Option.Rel (HasShape A) (plans[idx]?.map (·.typeNode)) (fields[idx]?.map (·.shape)) := by
  have hfields : fields = plans.map (·.field) := by
    have hfirst := congrArg (List.map Prod.fst) hall
    rw [List.map_map, List.zipIdx_map_fst] at hfirst
    exact hfirst.symm
  rw [hfields, List.getElem?_map, Option.map_map]
  cases hplan : plans[idx]? with
  | none => exact .none
  | some plan => exact .some (hright plan (List.mem_of_getElem? hplan)).typeNode

/-- The kinds of the types that the definition says nothing of. -/
theorem KindRight.of_decidedByType {A : Arenas ι} {shape : Shape ι} {kind : TypePlanNodeKind ι}
    (h : KindRight A shape kind) (htarget : kind.target = none)
    (hdecided : decidedByType shape = true) :
    (∃ plan, kind = .struct plan) ∨ (∃ plan, kind = .enum plan) ∨
      (∃ t, shape.ty = .sequence (.slice t)) ∨
      (∀ structType, shape.ty ≠ .user (.struct structType)) ∧
        ∀ enumType, shape.ty ≠ .user (.enum enumType) := by
  have hnot {d : Def ι} (hd : shape.def = d) (hfalse : saysNothing d = false) : False := by
    unfold decidedByType at hdecided
    rw [hd, hfalse] at hdecided
    cases hdecided
  cases kind with
  | struct plan => exact Or.inl ⟨plan, rfl⟩
  | enum plan => exact Or.inr (Or.inl ⟨plan, rfl⟩)
  | slice => exact Or.inr (Or.inr (Or.inl h.2))
  | opaqueTy => exact Or.inr (Or.inr (Or.inr h))
  | transparent => exact Or.inr (Or.inr (Or.inr h))
  | backRef t => cases htarget
  | scalar => exact (hnot h rfl).elim
  | opaquePointer => exact (hnot h rfl).elim
  | dynamicValue => exact (hnot h rfl).elim
  | result =>
    obtain ⟨t, e, ht⟩ := h
    exact (hnot ht rfl).elim
  | map =>
    obtain ⟨k, v, ht⟩ := h
    exact (hnot ht rfl).elim
  | _ =>
    obtain ⟨t, ht⟩ := h
    exact (hnot ht rfl).elim

theorem KindRight.eq_struct {A : Arenas ι} {shape : Shape ι} {kind : TypePlanNodeKind ι}
    (h : KindRight A shape kind) (htarget : kind.target = none)
    (hdecided : decidedByType shape = true) {structType : StructType ι}
    (hty : shape.ty = .user (.struct structType)) : ∃ plan, kind = .struct plan := by
  rcases h.of_decidedByType htarget hdecided with hplan | ⟨plan, rfl⟩ | ⟨t, ht⟩ | hneither
  · exact hplan
  · cases h.2.1.symm.trans hty
  · cases ht.symm.trans hty
  · exact absurd hty (hneither.1 structType)

theorem KindRight.eq_enum {A : Arenas ι} {shape : Shape ι} {kind : TypePlanNodeKind ι}
    (h : KindRight A shape kind) (htarget : kind.target = none)
    (hdecided : decidedByType shape = true) {enumType : EnumType ι}
    (hty : shape.ty = .user (.enum enumType)) : ∃ plan, kind = .enum plan := by
  rcases h.of_decidedByType htarget hdecided with ⟨plan, rfl⟩ | hplan | ⟨t, ht⟩ | hneither
  · cases h.2.1.symm.trans hty
  · exact hplan
  · cases ht.symm.trans hty
  · exact absurd hty (hneither.2 enumType)

namespace TypePlanCore

variable {S : Shapes ι} {core : TypePlanCore ι}

theorem nodeRef_of_hasShape {id : NodeId} {t : ι} (h : HasShape core.arenas id t) :
    ∃ node ∈ core.nodes.data, core.nodeRef id = .ok node ∧ node.shape = t := by
  obtain ⟨node, hnode, hshape⟩ := h
  refine ⟨node, List.mem_of_getElem? hnode, ?_, hshape⟩
  unfold nodeRef TypePlanCore.node
  rw [show core.nodes.data[id]? = some node from hnode]

theorem fieldSlice_ok (hlen : core.fields.data.length < 2 ^ 32) {range : SliceRange}
    {P : List (FieldPlan ι) → Prop} (h : Holds core.arenas.fields range P) :
    ∃ plans, core.fieldSlice range = .ok plans ∧ (∀ plan ∈ plans, plan ∈ core.fields.data) ∧
      P plans := by
  obtain ⟨plans, hplans, hP⟩ := h.values hlen
  refine ⟨plans, ?_, fun plan => mem_of_getSlice hplans, hP⟩
  unfold fieldSlice
  rw [show core.fields.getSlice range = .ok plans from hplans]

theorem variantSlice_ok (hlen : core.variants.data.length < 2 ^ 32) {range : SliceRange}
    {P : List (VariantPlanMeta ι) → Prop} (h : Holds core.arenas.variants range P) :
    ∃ metas, core.variantSlice range = .ok metas ∧
      (∀ variant ∈ metas, variant ∈ core.variants.data) ∧ P metas := by
  obtain ⟨metas, hmetas, hP⟩ := h.values hlen
  refine ⟨metas, ?_, fun variant => mem_of_getSlice hmetas, hP⟩
  unfold variantSlice
  rw [show core.variants.getSlice range = .ok metas from hmetas]

variable [LinearOrder ι]

theorem of_lookupNode (h : core.WellFormed S) {t : ι} {id : NodeId}
    (hid : core.lookupNode t = some id) :
    ∃ node ∈ core.nodes.data, core.nodeRef id = .ok node ∧ node.shape = t ∧ node.IsOwn := by
  obtain ⟨node, hnode, hshape, hown⟩ := (h.lookupNode_eq_some t id).mp hid
  refine ⟨node, List.mem_of_getElem? hnode, ?_, hshape, hown⟩
  unfold nodeRef
  rw [hnode]

/-- What refers back leads to a node of the same type that does not. -/
theorem resolveBackref_ok (h : core.WellFormed S) {node : TypePlanNode ι}
    (hnode : node ∈ core.nodes.data) :
    ∃ target ∈ core.nodes.data, core.resolveBackref node = .ok target ∧
      target.shape = node.shape ∧ target.kind.target = none := by
  unfold resolveBackref
  cases hkind : node.kind with
  | backRef t =>
    obtain ⟨hshape, -, id, hid⟩ := h.backRefs node hnode t (Or.inl (by rw [hkind]; rfl))
    obtain ⟨target, htarget, hrun, htargetShape, hown⟩ := of_lookupNode h hid
    refine ⟨target, htarget, ?_, htargetShape.trans hshape.symm, hown.1⟩
    simp only [hid]
    exact hrun
  | _ => exact ⟨node, hnode, rfl, rfl, by rw [hkind]; rfl⟩

theorem structFieldNodeId_ok (h : core.WellFormed S) (hlen : core.fields.data.length < 2 ^ 32)
    {id : NodeId} {t : ι} (hid : HasShape core.arenas id t) (idx : ℕ) :
    ∃ r, core.structFieldNodeId id idx = .ok r ∧
      Option.Rel (HasShape core.arenas) r (typeChild (S t) (.structField idx)) := by
  obtain ⟨node, hnode, hrun, rfl⟩ := nodeRef_of_hasShape hid
  obtain ⟨target, htarget, hresolve, hshape, hplain⟩ := resolveBackref_ok h hnode
  have hright := (h.nodes target htarget).kind
  rw [hshape] at hright
  have hstart (r : Option NodeId) (hcase : (match target.kind with
      | .struct structPlan => do
        let fields ← core.fieldSlice structPlan.fields
        return fields[idx]?.map (·.typeNode)
      | _ => return none) = (.ok r : Navigation (Option NodeId))) :
      core.structFieldNodeId id idx = .ok r := by
    unfold structFieldNodeId
    rw [hrun]
    simp only [hresolve, bind, Except.bind]
    exact hcase
  cases hkind : target.kind with
  | struct plan =>
    rw [hkind] at hright
    obtain ⟨hdecided, hty, hholds, -⟩ := hright
    obtain ⟨plans, hplans, hmem, hall⟩ := fieldSlice_ok hlen hholds
    refine ⟨plans[idx]?.map (·.typeNode), hstart _ ?_, ?_⟩
    · simp only [hkind, hplans]
      rfl
    · have hrel := rel_plansOf hall (fun plan hplan => h.fields plan (hmem plan hplan)) idx
      simpa only [typeChild, hdecided, hty] using hrel
  | _ =>
    refine ⟨none, hstart none (by simp only [hkind]; rfl), ?_⟩
    simp only [typeChild]
    split
    · next structType hdecided hty =>
      obtain ⟨plan, hplan⟩ := hright.eq_struct hplain hdecided hty
      cases hkind.symm.trans hplan
    · exact .none

theorem enumVariantFieldNodeId_ok (h : core.WellFormed S)
    (hfields : core.fields.data.length < 2 ^ 32) (hvariants : core.variants.data.length < 2 ^ 32)
    {id : NodeId} {t : ι} (hid : HasShape core.arenas id t) (variantIdx fieldIdx : ℕ) :
    ∃ r, core.enumVariantFieldNodeId id variantIdx fieldIdx = .ok r ∧
      Option.Rel (HasShape core.arenas) r (typeChild (S t) (.variantField variantIdx fieldIdx)) := by
  obtain ⟨node, hnode, hrun, rfl⟩ := nodeRef_of_hasShape hid
  obtain ⟨target, htarget, hresolve, hshape, hplain⟩ := resolveBackref_ok h hnode
  have hright := (h.nodes target htarget).kind
  rw [hshape] at hright
  have hstart (r : Option NodeId) (hcase : (match target.kind with
      | .enum enumPlan => do
        let variants ← core.variantSlice enumPlan.variants
        match variants[variantIdx]? with
        | some variant =>
          let fields ← core.fieldSlice variant.fields
          return fields[fieldIdx]?.map (·.typeNode)
        | none => return none
      | _ => return none) = (.ok r : Navigation (Option NodeId))) :
      core.enumVariantFieldNodeId id variantIdx fieldIdx = .ok r := by
    unfold enumVariantFieldNodeId
    rw [hrun]
    simp only [hresolve, bind, Except.bind]
    exact hcase
  cases hkind : target.kind with
  | enum plan =>
    rw [hkind] at hright
    obtain ⟨hdecided, hty, hholds⟩ := hright
    obtain ⟨metas, hmetas, hmem, hall⟩ := variantSlice_ok hvariants hholds
    have htype : typeChild (S node.shape) (.variantField variantIdx fieldIdx) =
        metas[variantIdx]?.bind fun variant =>
          variant.variant.data.fields[fieldIdx]?.map (·.shape) := by
      simp only [typeChild, hdecided, hty]
      rw [← hall, List.getElem?_map]
      cases metas[variantIdx]? <;> rfl
    rw [htype]
    cases hvariant : metas[variantIdx]? with
    | none =>
      refine ⟨none, hstart none ?_, .none⟩
      simp only [hkind, hmetas, bind, Except.bind, hvariant]
      rfl
    | some variant =>
      have hvariantRight := h.variants variant (hmem variant (List.mem_of_getElem? hvariant))
      obtain ⟨plans, hplans, hplanMem, hplansOf⟩ := fieldSlice_ok hfields hvariantRight.fields
      refine ⟨plans[fieldIdx]?.map (·.typeNode), hstart _ ?_, ?_⟩
      · simp only [hkind, hmetas, bind, Except.bind, hvariant, hplans]
        rfl
      · exact rel_plansOf hplansOf (fun plan hplan => h.fields plan (hplanMem plan hplan)) fieldIdx
  | _ =>
    refine ⟨none, hstart none (by simp only [hkind]; rfl), ?_⟩
    simp only [typeChild]
    split
    · next enumType hdecided hty =>
      obtain ⟨plan, hplan⟩ := hright.eq_enum hplain hdecided hty
      cases hkind.symm.trans hplan
    · exact .none

/-- The strategy of a node that does not refer back, and has what is picked; one that refers back
leads to the own node of its type, which does not. -/
theorem strategyNodeId_ok (h : core.WellFormed S) {α : Type} (pick : DeserStrategy ι → Option α)
    {fuel : ℕ} (hfuel : 2 ≤ fuel) {id : NodeId} {t : ι} (hid : HasShape core.arenas id t) :
    ∃ r, core.strategyNodeId pick fuel id = .ok r ∧ ∀ a, r = some a →
      ∃ node ∈ core.nodes.data, node.shape = t ∧ pick node.strategy = some a := by
  obtain ⟨fuel, rfl⟩ : ∃ n, fuel = n + 2 := ⟨fuel - 2, by omega⟩
  have hplain {n : ℕ} {id : NodeId} {node : TypePlanNode ι} (hrun : core.nodeRef id = .ok node)
      (htarget : node.strategy.target = none) :
      core.strategyNodeId pick (n + 1) id = .ok (pick node.strategy) := by
    rw [strategyNodeId, hrun]
    simp only [bind, Except.bind]
    split
    · next hstrategy =>
      rw [hstrategy] at htarget
      cases htarget
    · rfl
  obtain ⟨node, hnode, hrun, rfl⟩ := nodeRef_of_hasShape hid
  cases hstrategy : node.strategy.target with
  | none =>
    exact ⟨pick node.strategy, hplain hrun hstrategy, fun a ha => ⟨node, hnode, rfl, ha⟩⟩
  | some t =>
    obtain ⟨hshape, -, target, htarget⟩ := h.backRefs node hnode t (Or.inr hstrategy)
    obtain ⟨own, hown, hownRun, hownShape, hisOwn⟩ := of_lookupNode h htarget
    refine ⟨pick own.strategy, ?_, fun a ha => ⟨own, hown, hownShape.trans hshape.symm, ha⟩⟩
    have hback : node.strategy = .backRef t := by
      unfold DeserStrategy.target at hstrategy
      split at hstrategy
      · next t' ht' =>
        cases hstrategy
        exact ht'
      · cases hstrategy
    rw [strategyNodeId, hrun]
    simp only [bind, Except.bind, hback, htarget]
    exact hplain hownRun (h.own own hown hisOwn)

/-- A child that is picked from the strategy, for the step it is stored under. -/
theorem pickedNodeId_ok (h : core.WellFormed S) {step : Step}
    {pick : DeserStrategy ι → Option NodeId}
    (hpick : ∀ strategy c, pick strategy = some c → (step, c) ∈ strategy.children)
    {fuel : ℕ} (hfuel : 2 ≤ fuel) {id : NodeId} {t : ι} (hid : HasShape core.arenas id t) :
    ∃ r, core.strategyNodeId pick fuel id = .ok r ∧ ∀ c, r = some c →
      ∃ u, typeChild (S t) step = some u ∧ HasShape core.arenas c u := by
  obtain ⟨r, hr, hpicked⟩ := strategyNodeId_ok h pick hfuel hid
  refine ⟨r, hr, ?_⟩
  intro c hc
  obtain ⟨node, hnode, rfl, hstrategy⟩ := hpicked c hc
  exact (h.nodes node hnode).strategy (step, c) (hpick node.strategy c hstrategy)

theorem resultNodesId_ok (h : core.WellFormed S) {fuel : ℕ} (hfuel : 2 ≤ fuel) {id : NodeId}
    {t : ι} (hid : HasShape core.arenas id t) :
    ∃ r, core.resultNodesId fuel id = .ok r ∧ ∀ c, r = some c →
      (∃ u, typeChild (S t) .resultOk = some u ∧ HasShape core.arenas c.1 u) ∧
        ∃ u, typeChild (S t) .resultErr = some u ∧ HasShape core.arenas c.2 u := by
  unfold resultNodesId
  obtain ⟨r, hr, hpicked⟩ := strategyNodeId_ok h _ hfuel hid
  refine ⟨r, hr, ?_⟩
  intro c hc
  obtain ⟨node, hnode, rfl, hstrategy⟩ := hpicked c hc
  have hright := (h.nodes node hnode).strategy
  cases hresult : node.strategy with
  | result okNode errNode =>
    rw [hresult] at hright hstrategy
    cases hstrategy
    exact ⟨hright (.resultOk, okNode) (by simp [DeserStrategy.children]),
      hright (.resultErr, errNode) (by simp [DeserStrategy.children])⟩
  | _ =>
    rw [hresult] at hstrategy
    cases hstrategy

theorem innerNodeId_ok (h : core.WellFormed S) {id : NodeId} {t : ι}
    (hid : HasShape core.arenas id t) :
    ∃ r, core.innerNodeId S id = .ok r ∧ ∀ c, r = some c →
      ∃ u, typeChild (S t) .inner = some u ∧ HasShape core.arenas c u := by
  obtain ⟨node, hnode, hrun, rfl⟩ := nodeRef_of_hasShape hid
  have hright := (h.nodes node hnode).strategy
  unfold innerNodeId
  rw [hrun]
  simp only [bind, Except.bind]
  split
  · split
    · next innerNode hstrategy =>
      refine ⟨some innerNode, rfl, ?_⟩
      rintro c ⟨⟩
      exact hright (.inner, innerNode) (by simp [hstrategy, DeserStrategy.children])
    · exact ⟨none, rfl, by simp⟩
  · exact ⟨none, rfl, by simp⟩

/-- One step: nothing goes wrong; a child is of the type that the types have there; and no field is
missing. -/
theorem childNodeId_ok (h : core.WellFormed S) (hfields : core.fields.data.length < 2 ^ 32)
    (hvariants : core.variants.data.length < 2 ^ 32) {fuel : ℕ} (hfuel : 2 ≤ fuel) {id : NodeId}
    {t : ι} (hid : HasShape core.arenas id t) (step : Step) :
    ∃ r, core.childNodeId S fuel id step = .ok r ∧
      (∀ c, r = some c → ∃ u, typeChild (S t) step = some u ∧ HasShape core.arenas c u) ∧
      (step.isField = true → r = none → typeChild (S t) step = none) := by
  have hrel {step : Step} {r : Option NodeId}
      (hrun : core.childNodeId S fuel id step = .ok r)
      (hr : Option.Rel (HasShape core.arenas) r (typeChild (S t) step)) :
      ∃ r, core.childNodeId S fuel id step = .ok r ∧
        (∀ c, r = some c → ∃ u, typeChild (S t) step = some u ∧ HasShape core.arenas c u) ∧
        (step.isField = true → r = none → typeChild (S t) step = none) := by
    refine ⟨r, hrun, ?_, ?_⟩
    · rintro c rfl
      generalize typeChild (S t) step = u at hr
      cases hr with
      | some hcu => exact ⟨_, rfl, hcu⟩
    · rintro - rfl
      generalize typeChild (S t) step = u at hr
      cases hr
      rfl
  have hsound {step : Step} (hstep : step.isField = false)
      (hr : ∃ r, core.childNodeId S fuel id step = .ok r ∧ ∀ c, r = some c →
        ∃ u, typeChild (S t) step = some u ∧ HasShape core.arenas c u) :
      ∃ r, core.childNodeId S fuel id step = .ok r ∧
        (∀ c, r = some c → ∃ u, typeChild (S t) step = some u ∧ HasShape core.arenas c u) ∧
        (step.isField = true → r = none → typeChild (S t) step = none) := by
    obtain ⟨r, hrun, hright⟩ := hr
    exact ⟨r, hrun, hright, by simp [hstep]⟩
  cases step with
  | structField idx =>
    obtain ⟨r, hrun, hr⟩ := structFieldNodeId_ok h hfields hid idx
    exact hrel hrun hr
  | variantField variantIdx fieldIdx =>
    obtain ⟨r, hrun, hr⟩ := enumVariantFieldNodeId_ok h hfields hvariants hid variantIdx fieldIdx
    exact hrel hrun hr
  | inner => exact hsound rfl (innerNodeId_ok h hid)
  | resultOk =>
    obtain ⟨r, hrun, hr⟩ := resultNodesId_ok h hfuel hid
    refine hsound rfl ⟨r.map (·.1), ?_, ?_⟩
    · simp only [childNodeId, hrun]
      rfl
    · intro c hc
      obtain ⟨nodes, hnodes, rfl⟩ := Option.map_eq_some_iff.mp hc
      exact (hr nodes hnodes).1
  | resultErr =>
    obtain ⟨r, hrun, hr⟩ := resultNodesId_ok h hfuel hid
    refine hsound rfl ⟨r.map (·.2), ?_, ?_⟩
    · simp only [childNodeId, hrun]
      rfl
    · intro c hc
      obtain ⟨nodes, hnodes, rfl⟩ := Option.map_eq_some_iff.mp hc
      exact (hr nodes hnodes).2
  | _ =>
    apply hsound rfl
    apply pickedNodeId_ok h _ hfuel hid
    intro strategy c hc
    cases strategy <;> cases hc <;> simp [DeserStrategy.children]

/-- A walk that keeps to the types, by induction on its path. -/
theorem navigate_ok (h : core.WellFormed S) (hfields : core.fields.data.length < 2 ^ 32)
    (hvariants : core.variants.data.length < 2 ^ 32) {fuel : ℕ} (hfuel : 2 ≤ fuel)
    (path : List Step) {id : NodeId} {t : ι} (hid : HasShape core.arenas id t) :
    ∃ r, core.navigate S fuel path id = .ok r ∧
      (∀ c, r = some c → ∃ u, follow S path t = some u ∧ HasShape core.arenas c u) ∧
      ((∀ step ∈ path, step.isField = true) → r = none → follow S path t = none) := by
  induction path generalizing id t with
  | nil =>
    refine ⟨some id, rfl, ?_, by simp⟩
    rintro c ⟨⟩
    exact ⟨t, rfl, hid⟩
  | cons step path ih =>
    obtain ⟨r, hrun, hsound, hcomplete⟩ := childNodeId_ok h hfields hvariants hfuel hid step
    cases r with
    | none =>
      refine ⟨none, ?_, by simp, ?_⟩
      · rw [navigate, hrun]
        rfl
      · intro hall _
        rw [follow, hcomplete (hall step List.mem_cons_self) rfl]
        rfl
    | some child =>
      obtain ⟨u, hu, hchild⟩ := hsound child rfl
      obtain ⟨r, hrest, hsound, hcomplete⟩ := ih hchild
      refine ⟨r, ?_, ?_, ?_⟩
      · rw [navigate, hrun]
        exact hrest
      · intro c hc
        rw [follow, hu]
        exact hsound c hc
      · intro hall hr
        rw [follow, hu]
        exact hcomplete (fun s hs => hall s (List.mem_cons_of_mem step hs)) hr

end TypePlanCore

/-- In the plan of a type every walk from the root goes without a stop. Where it arrives at a node,
the same walk over the types arrives at that node's type; and a walk along fields alone arrives
wherever the types have the fields. -/
theorem navigate_follows [LinearOrder ι] {S : Shapes ι} {order : IterationOrder} {fuel : ℕ}
    {shape : ι} {core : TypePlanCore ι} (hbuild : build S order fuel shape = .ok core)
    (hfields : core.fields.data.length < 2 ^ 32) (hvariants : core.variants.data.length < 2 ^ 32)
    (n : ℕ) (path : List Step) :
    ∃ r, core.navigate S (n + 2) path core.root = .ok r ∧
      (∀ id, r = some id → ∃ node, core.node id = some node ∧
        follow S path shape = some node.shape) ∧
      ((∀ step ∈ path, step.isField = true) → r = none → follow S path shape = none) := by
  obtain ⟨hwell, hroot⟩ := wellFormed_of_build hbuild
  obtain ⟨r, hrun, hsound, hcomplete⟩ :=
    TypePlanCore.navigate_ok hwell hfields hvariants (Nat.le_add_left 2 n) path hroot
  refine ⟨r, hrun, ?_, hcomplete⟩
  intro id hid
  obtain ⟨t, ht, node, hnode, rfl⟩ := hsound id hid
  exact ⟨node, hnode, ht⟩

/-- From a chain's next one through the box back to its label. -/
theorem navigate_follows_chain :
    ∃ core, build chainShapes chainOrder 5 0 = .ok core ∧
      ∃ r, core.navigate chainShapes 2
          [.structField 1, .optionSome, .pointerInner, .structField 0] core.root = .ok r ∧
        (∀ id, r = some id → ∃ node, core.node id = some node ∧
          follow chainShapes [.structField 1, .optionSome, .pointerInner, .structField 0] 0 =
            some node.shape) ∧
        ((∀ step ∈ [Step.structField 1, .optionSome, .pointerInner, .structField 0],
          step.isField = true) → r = none →
          follow chainShapes [.structField 1, .optionSome, .pointerInner, .structField 0] 0 =
            none) := by
  obtain ⟨core, hcore, hfields, hvariants⟩ := exists_build_chain
  exact ⟨core, hcore, navigate_follows hcore (by rw [hfields]; decide)
    (by rw [hvariants]; decide) 0 _⟩

end Facet.Plan
