import Facet.Lib.Descent
import Facet.Plan.WellFormed

/-!
# Building ends

Types that are being built are not entered again, except through fields with proxies of their own.
A struct or enum contains the types of its fields, so that in a program no chain of such fields
leads back to where it began; then the builder ends on every type of a finite graph, recursive or
not.
-/

namespace Facet.Plan

open Descent Frames Relation StatePass TypePlan TypePlanBuilder

variable {ι : Type}

/-- The fields of a struct or of all variants of an enum. -/
def typeFields (shape : Shape ι) : List (Field ι) :=
  match shape.ty with
  | .user (.struct structType) => structType.fields
  | .user (.enum enumType) => enumType.variants.flatMap (·.data.fields)
  | _ => []

/-- The fields whose nodes are built for a type: those of its type, where its definition says
nothing. -/
def ownFields (shape : Shape ι) : List (Field ι) :=
  match shape.def with
  | .undefined | .ndArray _ | .slice _ => typeFields shape
  | _ => []

/-- The types of the fields that have proxies of their own. -/
def proxiedParts (S : Shapes ι) (shape : ι) : List ι :=
  ((ownFields (S shape)).filter fun field => (FieldProxies.fromField field).isSome).map (·.shape)

section Steps

variable {S : Shapes ι} {order : IterationOrder} {building : Finset ι}
  {rec rec' : ι → Option (FieldProxies ι) → Build ι NodeId}

/-- The two computations do the same on good builders, and do not run out of fuel. -/
abbrev SettlesGood (S : Shapes ι) (building : Finset ι) {α : Type} (step step' : Build ι α) :
    Prop :=
  Settles BuildStop.outOfFuel (Good S building) step step'

/-- They do the same for all types without proxies of a field. -/
def SettlesPlain (S : Shapes ι) (building : Finset ι)
    (rec rec' : ι → Option (FieldProxies ι) → Build ι NodeId) : Prop :=
  ∀ shape, SettlesGood S building (rec shape none) (rec' shape none)

/-- They do the same for the types of the fields, with the proxies of these. -/
def SettlesFields (S : Shapes ι) (building : Finset ι)
    (rec rec' : ι → Option (FieldProxies ι) → Build ι NodeId) (fields : List (Field ι)) : Prop :=
  ∀ field ∈ fields, SettlesGood S building (rec field.shape (FieldProxies.fromField field))
    (rec' field.shape (FieldProxies.fromField field))

variable (hrec : BuildsNodes S building rec) (hplain : SettlesPlain S building rec rec')

include hrec hplain

theorem buildFormatProxies_settles (proxies : List (String × ι)) :
    SettlesGood S building (buildFormatProxies rec proxies) (buildFormatProxies rec' proxies) := by
  apply Settles.mapAccumM fun proxy _ _ _ _ hb hrun => (buildFormatProxy_keeps hrec proxy hb hrun).1
  intro proxy _ b hb
  apply (hplain proxy.2).bind hb
  exact fun r _ => ⟨.ok _, rfl⟩

theorem buildProxies_settles (generic : Option ι) (formatSpecific : List (String × ι)) :
    SettlesGood S building (buildProxies rec generic formatSpecific)
      (buildProxies rec' generic formatSpecific) := by
  intro b hb
  have hgeneric : SettlesGood S building (buildGenericProxy rec generic)
      (buildGenericProxy rec' generic) := by
    intro b hb
    cases generic with
    | none => exact ⟨.ok _, rfl⟩
    | some shape =>
      apply (hplain shape).bind hb
      exact fun r _ => ⟨.ok _, rfl⟩
  apply hgeneric.bind hb
  rintro ⟨b₁, genericNode⟩ hrun
  have hb₁ := (buildGenericProxy_keeps hrec generic hb hrun).1
  apply (buildFormatProxies_settles hrec hplain formatSpecific).bind hb₁
  exact fun r _ => ⟨.ok _, rfl⟩

theorem buildAllProxyNodes_settles (shape : ι) (fieldProxies : Option (FieldProxies ι)) :
    SettlesGood S building (buildAllProxyNodes S rec shape fieldProxies)
      (buildAllProxyNodes S rec' shape fieldProxies) := by
  intro b hb
  unfold buildAllProxyNodes
  cases fieldProxies with
  | none =>
    apply (buildProxies_settles hrec hplain _ _).bind hb
    exact fun r _ => ⟨.ok _, rfl⟩
  | some fp =>
    apply (buildProxies_settles hrec hplain _ _).bind hb
    exact fun r _ => ⟨.ok _, rfl⟩

omit hplain in
theorem buildFieldPlans_settles (containerHasDefault : Bool) {fields : List (Field ι)}
    (hfields : SettlesFields S building rec rec' fields) :
    SettlesGood S building (buildFieldPlans S rec containerHasDefault fields)
      (buildFieldPlans S rec' containerHasDefault fields) := by
  apply Settles.mapAccumM fun field _ _ _ _ hb hrun =>
    (buildFieldPlan_keeps hrec containerHasDefault field hb hrun).1
  intro field hfield b hb
  have hmem := List.mem_of_getElem? (List.mem_zipIdx_iff_getElem?.mp hfield)
  apply (hfields field.1 hmem).bind hb
  rintro ⟨b₁, node⟩ _
  cases hvalidators : extractValidators S field.1 with
  | error message =>
    simp only
    exact ⟨by rintro ⟨⟩, trivial⟩
  | ok kinds =>
    simp only
    exact ⟨.ok _, trivial⟩

omit hplain in
theorem buildStructPlan_settles (shape : ι) {structDef : StructType ι}
    (hfields : SettlesFields S building rec rec' structDef.fields) :
    SettlesGood S building (buildStructPlan S order rec shape structDef)
      (buildStructPlan S order rec' shape structDef) := by
  intro b hb
  apply (buildFieldPlans_settles hrec _ hfields).bind hb
  exact fun r _ => ⟨.ok _, rfl⟩

omit hplain in
theorem buildEnumPlan_settles {enumDef : EnumType ι}
    (hfields : SettlesFields S building rec rec' (enumDef.variants.flatMap (·.data.fields))) :
    SettlesGood S building (buildEnumPlan S order rec enumDef)
      (buildEnumPlan S order rec' enumDef) := by
  intro b hb
  have hvariants : SettlesGood S building
      (StatePass.mapAccumM (fun b variant => buildVariant S order rec variant b) enumDef.variants)
      (StatePass.mapAccumM (fun b variant => buildVariant S order rec' variant b)
        enumDef.variants) := by
    apply Settles.mapAccumM fun variant _ _ _ _ hb hrun =>
      (buildVariant_keeps hrec variant hb hrun).1
    intro variant hvariant b hb
    have hown : SettlesFields S building rec rec' variant.data.fields := by
      intro field hfield
      exact hfields field (List.mem_flatMap.mpr ⟨variant, hvariant, hfield⟩)
    apply (buildFieldPlans_settles hrec _ hown).bind hb
    exact fun r _ => ⟨.ok _, rfl⟩
  apply hvariants.bind hb
  exact fun r _ => ⟨.ok _, rfl⟩

theorem buildWith_settles (kind : TypePlanNodeKind ι) (children : List ι) :
    SettlesGood S building (buildWith rec kind children) (buildWith rec' kind children) := by
  intro b hb
  have hchildren : SettlesGood S building (buildChildren rec children)
      (buildChildren rec' children) := by
    apply Settles.mapAccumM fun shape _ _ _ _ hb hrun => (hrec.plain shape hb hrun).1
    intro shape _
    exact hplain shape
  apply hchildren.bind hb
  exact fun r _ => ⟨.ok _, rfl⟩

theorem buildFromBuilder_settles (shape : ι) :
    SettlesGood S building (buildFromBuilder S rec shape) (buildFromBuilder S rec' shape) := by
  intro b hb
  unfold buildFromBuilder
  split
  · exact buildWith_settles hrec hplain _ _ hb
  · exact ⟨.ok _, rfl⟩

theorem buildTypeKind_settles (shape : ι)
    (hstruct : ∀ structType, (S shape).ty = .user (.struct structType) →
      SettlesFields S building rec rec' structType.fields)
    (henum : ∀ enumType, (S shape).ty = .user (.enum enumType) →
      SettlesFields S building rec rec' (enumType.variants.flatMap (·.data.fields))) :
    SettlesGood S building (buildTypeKind S order rec shape)
      (buildTypeKind S order rec' shape) := by
  intro b hb
  have hwith := fun kind children => buildWith_settles hrec hplain kind children hb
  have hbuilder := buildFromBuilder_settles hrec hplain shape hb
  unfold buildTypeKind
  split
  · next structType hty =>
    apply (buildStructPlan_settles hrec shape (hstruct structType hty)).bind hb
    exact fun r _ => ⟨.ok _, rfl⟩
  · next enumType hty =>
    apply (buildEnumPlan_settles hrec (henum enumType hty)).bind hb
    exact fun r _ => ⟨.ok _, rfl⟩
  · exact hwith _ _
  · exact hbuilder
  · exact hbuilder
  · split
    · exact hwith _ _
    · exact ⟨by rintro ⟨⟩, rfl⟩

theorem buildKind_settles (shape : ι)
    (hfields : SettlesFields S building rec rec' (ownFields (S shape))) :
    SettlesGood S building (buildKind S order rec shape) (buildKind S order rec' shape) := by
  have htype (hown : ownFields (S shape) = typeFields (S shape)) :
      SettlesGood S building (buildTypeKind S order rec shape)
        (buildTypeKind S order rec' shape) := by
    rw [hown] at hfields
    unfold typeFields at hfields
    apply buildTypeKind_settles hrec hplain
    · intro structType hty
      simpa only [hty] using hfields
    · intro enumType hty
      simpa only [hty] using hfields
  have hwith := buildWith_settles hrec hplain
  unfold buildKind
  cases hdef : (S shape).def with
  | undefined => exact htype (by simp only [ownFields, hdef])
  | ndArray t => exact htype (by simp only [ownFields, hdef])
  | slice t => exact htype (by simp only [ownFields, hdef])
  | pointer pointee => cases pointee <;> exact hwith _ _
  | _ => exact hwith _ _

omit hrec hplain in
theorem nthChild_finished (children : List NodeId) (n : ℕ) :
    Fuel.Finished BuildStop.outOfFuel (nthChild (ι := ι) children n) := by
  unfold nthChild
  split
  · exact .ok _
  · rintro ⟨⟩

omit hrec hplain in
theorem withChild_finished (children : List NodeId) (n : ℕ) (f : NodeId → DeserStrategy ι) :
    Fuel.Finished (.outOfFuel : BuildStop ι) (do return f (← nthChild children n)) :=
  (nthChild_finished children n).bind fun id _ => .ok (f id)

omit hrec hplain in
theorem withChildren_finished (children : List NodeId) (f : NodeId → NodeId → DeserStrategy ι) :
    Fuel.Finished (.outOfFuel : BuildStop ι)
      (do return f (← nthChild children 0) (← nthChild children 1)) :=
  (nthChild_finished children 0).bind fun first _ => withChild_finished children 1 (f first)

omit hrec hplain in
theorem kindStrategy_finished (shape : Shape ι) (shapeId : ι) (kind : TypePlanNodeKind ι)
    (children : List NodeId) :
    Fuel.Finished BuildStop.outOfFuel (kindStrategy shape shapeId kind children) := by
  have hchild := withChild_finished (ι := ι) children 0
  have hchildren := withChildren_finished (ι := ι) children
  cases kind with
  | scalar =>
    simp only [kindStrategy]
    split <;> exact .ok _
  | struct plan =>
    simp only [kindStrategy]
    split <;> exact .ok _
  | option => exact hchild .option
  | result => exact hchildren .result
  | list => exact hchild fun id => .list id shape.isByteVec
  | slice => exact hchild fun id => .list id shape.isByteVec
  | map => exact hchildren .map
  | set => exact hchild .set
  | array len => exact hchild (.array len)
  | pointer => exact hchild .pointer
  | transparent => rintro ⟨⟩
  | _ => exact .ok _

omit hrec hplain in
theorem computeStrategy_finished (shape : Shape ι) (shapeId : ι) (kind : TypePlanNodeKind ι)
    (hasContainerProxy hasFieldProxy : Bool) (children : List NodeId) :
    Fuel.Finished BuildStop.outOfFuel
      (computeStrategy shape shapeId kind hasContainerProxy hasFieldProxy children) := by
  have hchild := withChild_finished (ι := ι) children 0
  unfold computeStrategy
  split
  · exact .ok _
  · split
    · exact .ok _
    · split
      · exact hchild .pointer
      · split
        · exact .ok _
        · split
          · exact hchild .transparentConvert
          · split
            · exact hchild .transparentConvert
            · split
              · exact .ok _
              · exact kindStrategy_finished shape shapeId kind children

/-- A full node, from the nodes of other types, and those of the type's own fields. -/
theorem buildFullNode_settles (shape : ι) {fieldProxies : Option (FieldProxies ι)}
    (hnonEmpty : ∀ proxies, fieldProxies = some proxies → proxies.NonEmpty)
    (hfields : SettlesFields S building rec rec' (ownFields (S shape))) :
    SettlesGood S building (buildFullNode S order rec shape fieldProxies)
      (buildFullNode S order rec' shape fieldProxies) := by
  intro b hb
  apply (buildAllProxyNodes_settles hrec hplain shape fieldProxies).bind hb
  rintro ⟨b₁, proxies, hasContainerProxy, hasFieldProxy⟩ hproxies
  have hb₁ := (buildAllProxyNodes_keeps hrec shape hnonEmpty hb hproxies).1
  apply (buildKind_settles hrec hplain shape hfields).bind hb₁
  rintro ⟨b₂, kind, children⟩ _
  refine ⟨?_, rfl⟩
  apply (computeStrategy_finished _ _ _ _ _ _).bind
  intro strategy _
  unfold TypePlanBuilder.allocNode
  simp only
  split
  · exact .ok _
  · rintro ⟨⟩

omit hrec hplain in
theorem buildNodeStep_settles_of_mem [DecidableEq ι] {shape : ι} (hshape : shape ∈ building)
    (rec rec' : ι → Option (FieldProxies ι) → Build ι NodeId) :
    SettlesGood S building (buildNodeStep S order rec shape none)
      (buildNodeStep S order rec' shape none) := by
  intro b hb
  unfold buildNodeStep
  simp only
  split
  · exact ⟨.ok _, rfl⟩
  · rw [if_pos (hb.building.symm ▸ hshape), if_pos (hb.building.symm ▸ hshape)]
    refine ⟨?_, rfl⟩
    unfold TypePlanBuilder.allocNode
    simp only
    split
    · exact .ok _
    · rintro ⟨⟩

end Steps

section Enough

variable [LinearOrder ι] (S : Shapes ι) (order : IterationOrder)

/-- With this fuel, or more, building the node ends, always in the same way. -/
def SettledAt (building : Finset ι) (fuel : ℕ) (shape : ι)
    (fieldProxies : Option (FieldProxies ι)) : Prop :=
  ∀ m, fuel ≤ m → SettlesGood S building (buildNodeWithProxy S order fuel shape fieldProxies)
    (buildNodeWithProxy S order m shape fieldProxies)

variable {S order} {building : Finset ι}

theorem SettledAt.mono {n m : ℕ} {shape : ι} {fieldProxies : Option (FieldProxies ι)}
    (h : SettledAt S order building n shape fieldProxies) (hle : n ≤ m) :
    SettledAt S order building m shape fieldProxies := by
  intro k hk b hb
  obtain ⟨hfinished, hm⟩ := h m hle hb
  obtain ⟨-, hk⟩ := h k (hle.trans hk) hb
  exact ⟨hm ▸ hfinished, hk.trans hm.symm⟩

/-- One level more than the nodes of the other types and the proxied parts need. -/
theorem settledAt_fullNode {n : ℕ} {shape : ι} {fieldProxies : Option (FieldProxies ι)}
    (hnonEmpty : ∀ proxies, fieldProxies = some proxies → proxies.NonEmpty)
    (hplain : ∀ other, SettledAt S order building n other none)
    (hproxied : ∀ part ∈ proxiedParts S shape, ∀ fp : FieldProxies ι, fp.NonEmpty →
      SettledAt S order building n part (some fp)) {m : ℕ} (hm : n ≤ m) :
    SettlesGood S building (buildFullNode S order (buildNodeWithProxy S order n) shape fieldProxies)
      (buildFullNode S order (buildNodeWithProxy S order m) shape fieldProxies) := by
  apply buildFullNode_settles (buildNodeWithProxy_keeps S order n building) _ _ hnonEmpty
  · intro field hfield
    cases hproxies : FieldProxies.fromField field with
    | none => exact hplain field.shape m hm
    | some fp =>
      have hpart : field.shape ∈ proxiedParts S shape :=
        List.mem_map.mpr ⟨field, List.mem_filter.mpr ⟨hfield, by rw [hproxies]; rfl⟩, rfl⟩
      exact hproxied field.shape hpart fp (FieldProxies.nonEmpty_of_fromField hproxies) m hm
  · intro other
    exact hplain other m hm

/-- Along fields with proxies of their own: the induction is on the chains of such fields. -/
theorem exists_settledAt_proxied {n : ℕ} (hplain : ∀ other, SettledAt S order building n other none)
    {shape : ι} (hacc : Acc (flip (Refers (proxiedParts S))) shape) :
    ∃ k, ∀ fp : FieldProxies ι, fp.NonEmpty → SettledAt S order building k shape (some fp) := by
  induction hacc with
  | intro shape _ ih =>
    obtain ⟨k, hnk, hk⟩ := exists_common_bound
      (P := fun k part => ∀ fp : FieldProxies ι, fp.NonEmpty →
        SettledAt S order building k part (some fp))
      (fun h hle fp hfp => (h fp hfp).mono hle) n fun part hpart => ih part hpart
    refine ⟨k + 1, ?_⟩
    intro fp hfp m hm
    obtain ⟨m, rfl⟩ : ∃ j, m = j + 1 := ⟨m - 1, by omega⟩
    exact settledAt_fullNode (by simpa using hfp) (fun other => (hplain other).mono hnk) hk
      (by omega)

/-- A type that is not being built: what its node needs is built while it is. -/
theorem settledAt_of_not_mem {n : ℕ} {shape : ι} (hshape : shape ∉ building)
    (hfull : ∀ m, n ≤ m → SettlesGood S (insert shape building)
      (buildFullNode S order (buildNodeWithProxy S order n) shape none)
      (buildFullNode S order (buildNodeWithProxy S order m) shape none)) :
    SettledAt S order building (n + 1) shape none := by
  intro m hm b hb
  obtain ⟨m, rfl⟩ : ∃ j, m = j + 1 := ⟨m - 1, by omega⟩
  rw [buildNodeWithProxy, buildNodeWithProxy]
  unfold buildNodeStep
  simp only
  split
  · exact ⟨.ok _, rfl⟩
  · next hfound =>
    rw [if_neg (hb.building.symm ▸ hshape), if_neg (hb.building.symm ▸ hshape)]
    apply (hfull m (by omega)).bind (hb.startBuilding (not_mem_finishedTypes hfound))
    exact fun r _ => ⟨.ok _, rfl⟩

/-- On a finite graph: the induction adds the type whose node is built to those being built. -/
theorem exists_settledAt [Finite ι] (order : IterationOrder)
    (hproxied : ∀ a, ¬ TransGen (Refers (proxiedParts S)) a a)
    (building : Finset ι) : ∃ n, ∀ shape, SettledAt S order building n shape none := by
  induction building using WellFoundedGT.induction with
  | _ building ih =>
    have hone (shape : ι) : ∃ n, SettledAt S order building n shape none := by
      by_cases hshape : shape ∈ building
      · refine ⟨1, ?_⟩
        intro m hm
        obtain ⟨m, rfl⟩ : ∃ j, m = j + 1 := ⟨m - 1, by omega⟩
        exact buildNodeStep_settles_of_mem hshape _ _
      · obtain ⟨n, hplain⟩ := ih (insert shape building) (Finset.ssubset_insert hshape)
        obtain ⟨k, hnk, hk⟩ := exists_common_bound
          (P := fun k part => ∀ fp : FieldProxies ι, fp.NonEmpty →
            SettledAt S order (insert shape building) k part (some fp))
          (fun h hle fp hfp => (h fp hfp).mono hle) n fun part _ =>
            exists_settledAt_proxied hplain ((acc_iff_no_cycle part).mpr fun b _ => hproxied b)
        exact ⟨k + 1, settledAt_of_not_mem hshape fun m hm =>
          settledAt_fullNode (by simp) (fun other => (hplain other).mono hnk) hk hm⟩
    choose fuel hfuel using hone
    obtain ⟨n, hn⟩ := Finite.exists_le fuel
    exact ⟨n, fun shape => (hfuel shape).mono (hn shape)⟩

/-- On a finite graph where no chain of fields with proxies of their own leads back, there is an
amount of fuel with which building ends for every type, and more does not change the result. -/
theorem exists_fuel_build [Finite ι]
    (hproxied : ∀ a, ¬ TransGen (Refers (proxiedParts S)) a a) :
    ∃ fuel, ∀ shape, Fuel.Finished .outOfFuel (build S order fuel shape) ∧
      ∀ m, fuel ≤ m → build S order m shape = build S order fuel shape := by
  obtain ⟨fuel, hfuel⟩ := exists_settledAt order hproxied ∅
  refine ⟨fuel, ?_⟩
  intro shape
  have hbuild (m : ℕ) (hm : fuel ≤ m) : Fuel.Finished .outOfFuel (build S order fuel shape) ∧
      build S order m shape = build S order fuel shape := by
    apply (hfuel shape m hm).bind good_empty
    exact fun r _ => ⟨.ok _, rfl⟩
  exact ⟨(hbuild fuel le_rfl).1, fun m hm => (hbuild m hm).2⟩

end Enough

/-- The label of a chain is not a chain itself. -/
theorem exists_fuel_build_chain :
    ∃ fuel, ∀ shape, Fuel.Finished .outOfFuel (build chainShapes chainOrder fuel shape) ∧
      ∀ m, fuel ≤ m → build chainShapes chainOrder m shape =
        build chainShapes chainOrder fuel shape := by
  apply exists_fuel_build
  have hparts : ∀ a b : Fin 5, b ∈ proxiedParts chainShapes a → a = 0 ∧ b = 3 := by decide
  intro a h
  obtain ⟨b, hab, -⟩ := TransGen.head'_iff.mp h
  obtain ⟨c, -, hca⟩ := TransGen.tail'_iff.mp h
  have hfirst := (hparts a b hab).1
  have hlast := (hparts c a hca).2
  omega

end Facet.Plan
