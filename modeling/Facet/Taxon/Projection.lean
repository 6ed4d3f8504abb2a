import Facet.Taxon.Termination

/-!
# The projection is closed and faithful

With the walk over, no schema is in progress. What the batch says of a schema is then
what its shape says, and following references in the batch is following them in the shapes
with pointers and references erased.
-/

namespace Facet.Taxon

open Filter OptionState

variable {ι σ : Type}

def IsDynamicValue (shape : Shape ι) : Prop :=
  match shape.def with
  | .dynamicValue => True
  | _ => False

/-- The shapes the walk from a root asks an id for. -/
inductive Met (shapes : Shapes ι) (root : ι) : ι → Prop
  | root : Met shapes root root
  | pointee {s t : ι} : Met shapes root s → transparentPointee shapes s = some t →
      Met shapes root t
  | reference {s t : ι} : Met shapes root s → transparentPointee shapes s = none →
      t ∈ (shapeKind (shapes s)).refs → Met shapes root t

/-- Asked for the id of `s`, the walk answers `id` and leaves the batch as it is. -/
def Gets [DecidableEq ι] (shapes : Shapes ι) (fromRaw : ℕ → σ) (b : Builder ι σ) (s : ι)
    (id : σ) : Prop :=
  ∀ᶠ depth in atTop, refOf shapes fromRaw depth s b = some (.concrete id, b)

/-- The batch is closed and gives the shapes with pointers and references erased. -/
structure Projection [Fintype ι] [DecidableEq ι] [DecidableEq σ] (shapes : Shapes ι)
    (fromRaw : ℕ → σ) (root : ι) (b : Builder ι σ) : Prop where
  ids : ∀ (i : ℕ) (schema : Schema σ), b.schemas[i]? = some schema → schema.id = fromRaw i
  closed : ∀ schema ∈ b.schemas, ∀ id, .concrete id ∈ schema.kind.refs →
    ∃ target ∈ b.schemas, target.id = id
  dynamic : ∀ (i : ℕ) (schema : Schema σ), b.schemas[i]? = some schema → ∃ s,
    b.seen[i]? = some (ShapeKey.of shapes s, schema.id) ∧
      (schema.kind = .dynamic → IsDynamicValue (shapes s))
  same_id : ∀ s t, Met shapes root s → Met shapes root t → ∃ i j,
    Gets shapes fromRaw b s i ∧ Gets shapes fromRaw b t j ∧
      (i = j ↔ ShapeKey.of shapes (pointedTo shapes s) = ShapeKey.of shapes (pointedTo shapes t))
  unfolding : ∀ n,
    unfoldSchemas b.schemas n (.concrete (fromRaw 0)) = unfoldShape shapes n root

theorem typeKind_ne_dynamic (shape : Shape ι) : typeKind shape ≠ .dynamic := by
  rw [typeKind]
  cases shape.ty with
  | primitive _ => simp [external]
  | undefined => simp [external]
  | sequence seq => cases seq <;> simp
  | pointer _ => simp [external]
  | user u =>
    cases u with
    | union => simp [external]
    | opaqueTy => simp [external]
    | enum e => simp
    | struct st =>
      dsimp only
      cases st.kind <;> simp

theorem isDynamicValue_of_shapeKind {shape : Shape ι} (h : shapeKind shape = .dynamic) :
    IsDynamicValue shape := by
  rw [shapeKind] at h
  rw [IsDynamicValue]
  cases hprimitive : primitiveOf shape with
  | some primitive => simp [hprimitive] at h
  | none =>
    cases hdef : shape.def with
    | dynamicValue => trivial
    | scalar | undefined =>
      simp only [hprimitive, hdef] at h
      exact absurd h (typeKind_ne_dynamic shape)
    | map k v | result k v => simp [hprimitive, hdef] at h
    | pointer pointee => simp [hprimitive, hdef, external] at h
    | set t | list t | array t n | ndArray t | slice t | option t =>
      simp [hprimitive, hdef] at h

section Finished

variable [Fintype ι] [DecidableEq ι] {shapes : Shapes ι} {fromRaw : ℕ → σ} {b : Builder ι σ}

namespace Valid

theorem entry (h : Valid shapes fromRaw ∅ b) {i : ℕ} {schema : Schema σ}
    (hi : b.schemas[i]? = some schema) :
    ∃ s, b.seen[i]? = some (ShapeKey.of shapes s, schema.id) ∧
      transparentPointee shapes s = none ∧
      (shapeKind (shapes s)).Resolves (refTo shapes b) schema.kind := by
  have hid : (b.seen.map Prod.snd)[i]? = some schema.id := by
    rw [h.seen_ids, List.getElem?_map, hi, Option.map_some]
  rw [List.getElem?_map] at hid
  obtain ⟨e, he, hsnd⟩ := Option.map_eq_some_iff.mp hid
  obtain ⟨hkey, hnone, hpending | ⟨schema', hschema', hkind⟩⟩ := h.settled i e he
  · exact absurd hpending (Set.notMem_empty i)
  · obtain rfl : schema = schema' := Option.some.inj (hi.symm.trans hschema')
    refine ⟨e.1.id, ?_, hnone, hkind⟩
    rw [he, ← hkey, ← hsnd]

/-- A shape with an id stands for the shape of some entry. -/
theorem entry_of_refTo (h : Valid shapes fromRaw ∅ b) {s : ι} {r : SchemaRef σ}
    (hr : refTo shapes b s = some r) :
    ∃ (i : ℕ) (schema : Schema σ), b.schemas[i]? = some schema ∧ r = .concrete schema.id ∧
      b.seen[i]? = some (ShapeKey.of shapes (pointedTo shapes s), schema.id) ∧
      (shapeKind (shapes (pointedTo shapes s))).Resolves (refTo shapes b) schema.kind := by
  obtain ⟨e, he, rfl⟩ := Option.map_eq_some_iff.mp hr
  have hkey : e.1 = ShapeKey.of shapes (pointedTo shapes s) := by
    simpa using List.find?_some he
  obtain ⟨i, hi⟩ := List.mem_iff_getElem?.mp (List.mem_of_find?_eq_some he)
  obtain ⟨schema, hschema⟩ : ∃ schema, b.schemas[i]? = some schema := by
    have hlt := (List.getElem?_eq_some_iff.mp hi).1
    rw [h.length_seen] at hlt
    exact ⟨_, List.getElem?_eq_getElem hlt⟩
  obtain ⟨t, ht, -, hkind⟩ := h.entry hschema
  obtain rfl : e = (ShapeKey.of shapes t, schema.id) := Option.some.inj (hi.symm.trans ht)
  obtain rfl : t = pointedTo shapes s := congrArg ShapeKey.id hkey
  exact ⟨i, schema, hschema, rfl, hi, hkind⟩

theorem find?_schema [DecidableEq σ] (h : Valid shapes fromRaw ∅ b)
    (hinj : Function.Injective fromRaw) {i : ℕ} {schema : Schema σ}
    (hi : b.schemas[i]? = some schema) :
    (b.schemas.find? fun x => x.id = schema.id) = some schema := by
  obtain ⟨x, hx⟩ : ∃ x, (b.schemas.find? fun x => x.id = schema.id) = some x := by
    apply Option.isSome_iff_exists.mp
    exact List.find?_isSome.mpr ⟨schema, List.mem_of_getElem? hi, by simp⟩
  have hid : x.id = schema.id := by simpa using List.find?_some hx
  obtain ⟨j, hj⟩ := List.mem_iff_getElem?.mp (List.mem_of_find?_eq_some hx)
  have hij : i = j := by
    apply hinj
    rw [← h.ids i schema hi, ← h.ids j x hj, hid]
  subst hij
  rw [hx, ← hj, hi]

theorem unfold_eq [DecidableEq σ] (h : Valid shapes fromRaw ∅ b)
    (hinj : Function.Injective fromRaw) (n : ℕ) {s : ι} {r : SchemaRef σ}
    (hr : refTo shapes b s = some r) : unfoldSchemas b.schemas n r = unfoldShape shapes n s := by
  induction n generalizing s r with
  | zero => rfl
  | succ n ih =>
    obtain ⟨i, schema, hi, rfl, -, hkind⟩ := h.entry_of_refTo hr
    rw [unfoldSchemas, h.find?_schema hinj hi, Option.map_some, unfoldShape]
    exact congrArg some (hkind.mapRef_eq fun t r' hr' => (ih hr').symm).symm

theorem refTo_of_met (h : Valid shapes fromRaw ∅ b) (hend : PointersEnd shapes) {root s : ι}
    (hroot : (refTo shapes b root).isSome = true) (hs : Met shapes root s) :
    (refTo shapes b s).isSome = true := by
  induction hs with
  | root => exact hroot
  | pointee _ hst ih =>
    rw [refTo, pointedTo_of_some hend hst] at ih
    exact ih
  | reference _ hnone ht ih =>
    obtain ⟨r, hr⟩ := Option.isSome_iff_exists.mp ih
    obtain ⟨i, schema, -, -, -, hkind⟩ := h.entry_of_refTo hr
    rw [pointedTo_of_none hnone] at hkind
    obtain ⟨r', -, hr'⟩ := hkind.exists_ref ht
    exact Option.isSome_iff_exists.mpr ⟨r', hr'⟩

end Valid

theorem gets_of_none {s : ι} {id : σ} (hs : transparentPointee shapes s = none)
    (h : refTo shapes b s = some (.concrete id)) : Gets shapes fromRaw b s id := by
  obtain ⟨e, he, heq⟩ := Option.map_eq_some_iff.mp h
  obtain rfl : e.2 = id := SchemaRef.concrete.inj heq
  rw [pointedTo_of_none hs] at he
  apply (Filter.eventually_add_iff 1).mp
  filter_upwards with depth
  rw [refOf, hs]
  exact bind_some.2 ⟨e.2, b, intern_of_some he, rfl⟩

/-- A shape with an id gets it again, from every depth that reaches its end of pointers. -/
theorem gets_of_refTo (hend : PointersEnd shapes) {s : ι} {id : σ}
    (h : refTo shapes b s = some (.concrete id)) : Gets shapes fromRaw b s id := by
  have hchain : ∀ n s, transparentPointee shapes ((hop shapes)^[n] s) = none →
      refTo shapes b s = some (.concrete id) → Gets shapes fromRaw b s id := by
    intro n
    induction n with
    | zero => exact fun s hs hr => gets_of_none hs hr
    | succ n ih =>
      intro s hs hr
      cases hnext : transparentPointee shapes s with
      | none => exact gets_of_none hnext hr
      | some t =>
        rw [Function.iterate_succ_apply, hop_of_some hnext] at hs
        rw [refTo, pointedTo_of_some hend hnext] at hr
        apply (Filter.eventually_add_iff 1).mp
        filter_upwards [ih t hs hr] with depth hdepth
        rw [refOf, hnext]
        exact hdepth
  exact hchain _ s (transparentPointee_pointedTo hend s) h

omit [Fintype ι] in
theorem root_id {depth : ℕ} {s : ι} {r : SchemaRef σ}
    (h : refOf shapes fromRaw depth s {} = some (r, b)) : r = .concrete (fromRaw 0) := by
  induction depth generalizing s with
  | zero => cases h
  | succ depth ih =>
    rw [refOf] at h
    cases hs : transparentPointee shapes s with
    | some t =>
      rw [hs] at h
      exact ih h
    | none =>
      rw [hs] at h
      obtain ⟨id, hid, rfl⟩ := map_some.1 h
      obtain ⟨key, hfind, -⟩ | ⟨-, rfl, -⟩ := intern_some hid
      · cases hfind
      · rfl

namespace Valid

theorem projection [DecidableEq σ] (h : Valid shapes fromRaw ∅ b)
    (hinj : Function.Injective fromRaw) (hend : PointersEnd shapes) {root : ι}
    (hroot : refTo shapes b root = some (.concrete (fromRaw 0))) :
    Projection shapes fromRaw root b where
  ids := h.ids
  closed := by
    intro schema hschema id hid
    obtain ⟨i, hi⟩ := List.mem_iff_getElem?.mp hschema
    obtain ⟨s, -, -, hkind⟩ := h.entry hi
    obtain ⟨t, -, ht⟩ := hkind.exists_ref_of_mem hid
    obtain ⟨j, target, hj, heq, -⟩ := h.entry_of_refTo ht
    exact ⟨target, List.mem_of_getElem? hj, (SchemaRef.concrete.inj heq).symm⟩
  dynamic := by
    intro i schema hi
    obtain ⟨s, hseen, -, hkind⟩ := h.entry hi
    refine ⟨s, hseen, fun hdynamic => ?_⟩
    rw [hdynamic] at hkind
    exact isDynamicValue_of_shapeKind (Kind.mapRef_eq_dynamic.mp hkind)
  same_id := by
    intro s t hs ht
    have hsome : (refTo shapes b root).isSome = true := by rw [hroot, Option.isSome_some]
    obtain ⟨r, hr⟩ := Option.isSome_iff_exists.mp (h.refTo_of_met hend hsome hs)
    obtain ⟨r', hr'⟩ := Option.isSome_iff_exists.mp (h.refTo_of_met hend hsome ht)
    obtain ⟨i, schema, hi, rfl, hseen, -⟩ := h.entry_of_refTo hr
    obtain ⟨j, schema', hj, rfl, hseen', -⟩ := h.entry_of_refTo hr'
    refine ⟨schema.id, schema'.id, gets_of_refTo hend hr, gets_of_refTo hend hr', ?_⟩
    constructor
    · intro hid
      have hij : i = j := by
        apply hinj
        rw [← h.ids i schema hi, ← h.ids j schema' hj, hid]
      subst hij
      exact congrArg Prod.fst (Option.some.inj (hseen.symm.trans hseen'))
    · intro hkey
      rw [refTo, hkey] at hr
      exact SchemaRef.concrete.inj (Option.some.inj (hr.symm.trans hr'))
  unfolding n := h.unfold_eq hinj n hroot

end Valid

end Finished

/-- When no pointer leads back to itself the walk ends, and its batch is closed and faithful. -/
theorem schemasOf_projection [Fintype ι] [DecidableEq ι] [DecidableEq σ] (shapes : Shapes ι)
    (fromRaw : ℕ → σ) (hinj : Function.Injective fromRaw) (hend : PointersEnd shapes)
    (root : ι) :
    ∃ b : Builder ι σ,
      (∀ᶠ depth in atTop, schemasOf shapes fromRaw depth root = some b.schemas) ∧
        Projection shapes fromRaw root b := by
  obtain ⟨r, b, hwalk⟩ := eventually_walked fromRaw hend root
  obtain ⟨depth, hrun⟩ := hwalk.exists
  obtain ⟨hvalid, hgrows, hroot⟩ :=
    (refers_refOf hend depth).1 ∅ root {} r b (valid_empty shapes fromRaw) hrun
  refine ⟨b, ?_, ?_⟩
  · filter_upwards [hwalk] with depth hdepth
    rw [schemasOf, walked, hdepth]
    rfl
  · obtain rfl := root_id hrun
    exact hvalid.projection hinj hend hroot

/-- The types of `struct Node { value: u32, next: Option<Box<Node>> }`. -/
inductive NodeType
  | node
  | next
  | box
  | value
  deriving DecidableEq

instance : Fintype NodeType :=
  ⟨{.node, .next, .box, .value}, by intro t; cases t <;> decide⟩

def nodeTypes : Shapes NodeType
  | .node =>
    { ty := .user (.struct ⟨.struct, [{ name := "value", shape := .value },
        { name := "next", shape := .next }]⟩)
      «def» := .undefined
      typeIdentifier := "Node" }
  | .next => { ty := .undefined, «def» := .option .box }
  | .box => { ty := .undefined, «def» := .pointer (some .node) }
  | .value => { ty := .primitive .numeric, «def» := .scalar, scalarType := some .u32 }

theorem pointersEnd_nodeTypes : PointersEnd nodeTypes := by
  have hstep : ∀ {s t}, PointsTo nodeTypes s t → s = .box ∧ t = .node := by
    intro s t h
    cases s <;> cases h
    exact ⟨rfl, rfl⟩
  intro s h
  obtain ⟨t, hst, -⟩ := Relation.TransGen.head'_iff.mp h
  obtain ⟨t', -, ht's⟩ := Relation.TransGen.tail'_iff.mp h
  have hbox := (hstep hst).1
  have hnode := (hstep ht's).2
  simp [hbox] at hnode

theorem nodeTypes_projection :
    ∃ b : Builder NodeType ℕ,
      (∀ᶠ depth in atTop, schemasOf nodeTypes (· + 7) depth .node = some b.schemas) ∧
        Projection nodeTypes (· + 7) .node b :=
  schemasOf_projection nodeTypes (· + 7) (fun _ _ h => Nat.add_right_cancel h)
    pointersEnd_nodeTypes .node

/-- A pointer whose target is the pointer itself. -/
def selfPointer : Shapes Unit := fun _ => { ty := .undefined, «def» := .pointer (some ()) }

theorem selfPointer_endless (depth : ℕ) :
    refOf selfPointer (fun n : ℕ => n) depth () {} = none := by
  induction depth with
  | zero => rfl
  | succ depth ih => exact ih

theorem selfPointer_not_schemasOf :
    ¬ ∃ depth batch, schemasOf selfPointer (fun n : ℕ => n) depth () = some batch := by
  rintro ⟨depth, batch, h⟩
  simp [schemasOf, walked, selfPointer_endless] at h

end Facet.Taxon
