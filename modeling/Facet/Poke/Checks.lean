import Facet.Poke.Fitness

/-!
# What the checks establish

A view is only made of a value whose shape allows it. A field setter that passes its checks
answers a field of a type marked as plain old data, of the shape of the new value.
-/

namespace Facet.Poke

variable {ι : Type}

namespace Runtime

variable {R : Runtime ι}

section Views

variable {v : Value ι}

theorem intoStruct_ok {structType : StructType ι} (h : R.intoStruct v = .ok structType) :
    (R.shapes v.shape).ty = .user (.struct structType) := by
  rw [intoStruct] at h
  cases hty : (R.shapes v.shape).ty with
  | user userType => cases userType <;> simp_all
  | _ => simp [hty] at h

theorem intoEnum_ok {enumType : EnumType ι} (h : R.intoEnum v = .ok enumType) :
    (R.shapes v.shape).ty = .user (.enum enumType) := by
  rw [intoEnum] at h
  cases hty : (R.shapes v.shape).ty with
  | user userType => cases userType <;> simp_all
  | _ => simp [hty] at h

theorem intoTuple_ok {tupleType : StructType ι} (h : R.intoTuple v = .ok tupleType) :
    (R.shapes v.shape).ty = .user (.struct tupleType) := by
  rw [intoTuple] at h
  cases hty : (R.shapes v.shape).ty with
  | user userType =>
    cases userType with
    | struct structType =>
      by_cases hkind : structType.kind = .tuple
      · simpa [hty, hkind] using h
      · simp [hty, hkind] at h
    | _ => simp [hty] at h
  | _ => simp [hty] at h

theorem intoList_ok {t : ι} (h : R.intoList v = .ok t) : Shape.def (R.shapes v.shape) = .list t := by
  rw [intoList] at h
  cases hdef : Shape.def (R.shapes v.shape) <;> simp_all

theorem intoListLike_ok {listDef : ListLikeDef ι} (h : R.intoListLike v = .ok listDef) :
    Shape.def (R.shapes v.shape) = match listDef with
      | .list t => .list t
      | .array t n => .array t n
      | .slice t => .slice t := by
  rw [intoListLike] at h
  cases hdef : Shape.def (R.shapes v.shape) with
  | list t =>
    rw [hdef] at h
    obtain rfl := Except.ok.inj h
    rfl
  | array t n =>
    rw [hdef] at h
    obtain rfl := Except.ok.inj h
    rfl
  | slice t =>
    rw [hdef] at h
    obtain rfl := Except.ok.inj h
    rfl
  | _ => simp [hdef] at h

theorem intoMap_ok {kv : ι × ι} (h : R.intoMap v = .ok kv) :
    Shape.def (R.shapes v.shape) = .map kv.1 kv.2 := by
  rw [intoMap] at h
  cases hdef : Shape.def (R.shapes v.shape) with
  | map k v =>
    rw [hdef] at h
    obtain rfl := Except.ok.inj h
    rfl
  | _ => simp [hdef] at h

theorem intoSet_ok {t : ι} (h : R.intoSet v = .ok t) : Shape.def (R.shapes v.shape) = .set t := by
  rw [intoSet] at h
  cases hdef : Shape.def (R.shapes v.shape) <;> simp_all

theorem intoOption_ok {t : ι} (h : R.intoOption v = .ok t) :
    Shape.def (R.shapes v.shape) = .option t := by
  rw [intoOption] at h
  cases hdef : Shape.def (R.shapes v.shape) <;> simp_all

theorem intoResult_ok {te : ι × ι} (h : R.intoResult v = .ok te) :
    Shape.def (R.shapes v.shape) = .result te.1 te.2 := by
  rw [intoResult] at h
  cases hdef : Shape.def (R.shapes v.shape) with
  | result t e =>
    rw [hdef] at h
    obtain rfl := Except.ok.inj h
    rfl
  | _ => simp [hdef] at h

theorem intoDynamicValue_ok {u : Unit} (h : R.intoDynamicValue v = .ok u) :
    Shape.def (R.shapes v.shape) = .dynamicValue := by
  rw [intoDynamicValue] at h
  cases hdef : Shape.def (R.shapes v.shape) <;> simp_all

end Views

section Checks

variable {v x : Value ι}

theorem TyFits.struct (hv : R.Fits v) {structType : StructType ι}
    (hty : (R.shapes v.shape).ty = .user (.struct structType)) :
    v.childShapes = structType.fields.map Field.shape := by
  have h := hv.byTy
  rw [TyFits, hty] at h
  exact h

/-- The fields of the active variant are below an enum's value. -/
theorem TyFits.variant (hv : R.Fits v) {enumType : EnumType ι} {variant : Variant ι}
    (hty : (R.shapes v.shape).ty = .user (.enum enumType))
    (hactive : R.activeVariant v enumType = .ok variant) :
    v.childShapes = variant.data.fields.map Field.shape := by
  have h := hv.byTy
  rw [TyFits, hty] at h
  obtain ⟨index, found, hindex, hfound, hchildren⟩ := h
  obtain ⟨actual, hactual, hget⟩ := ExceptList.exists_of_bind_ok hactive
  have hsame : actual = index := by
    rw [variantIndex, hindex] at hactual
    cases hdef : Shape.def (R.shapes v.shape) <;> cases hrepr : enumType.enumRepr <;>
      simp_all
  rw [hsame, hfound] at hget
  obtain rfl : found = variant := Except.ok.inj hget
  exact hchildren

variable [DecidableEq ι]

theorem expectShape_ok {t : ι} {u : Unit} (h : expectShape t x = .ok u) : x.shape = t := by
  rw [expectShape] at h
  by_cases hne : t = x.shape
  · exact hne.symm
  · simp [hne] at h

theorem expectField_ok {fields : List (Field ι)} {index : ℕ} {q : Place}
    (h : expectField v fields index x = .ok q) :
    q = [index] ∧ (fields.map Field.shape)[index]? = some x.shape := by
  rw [expectField] at h
  cases hf : fields[index]? with
  | none => simp [hf] at h
  | some f =>
    rw [hf] at h
    obtain ⟨_, hshape, hq⟩ := ExceptList.exists_of_bind_ok h
    obtain rfl : [index] = q := Except.ok.inj hq
    exact ⟨rfl, by simp [hf, expectShape_ok hshape]⟩

/-- A place that a field setter may answer: a field of a value of a type marked as plain
old data, whose shape is that of the new value. -/
def FieldTarget (R : Runtime ι) (v x : Value ι) (q : Place) : Prop :=
  (R.shapes v.shape).isPod = true ∧ ∃ i, q = [i] ∧ (R.Fits v → v.childShapes[i]? = some x.shape)

omit [DecidableEq ι] in
theorem FieldTarget.place {q : Place} (h : FieldTarget R v x q) :
    (R.shapes v.shape).isPod = true ∧ ∃ i, q = [i] := by
  obtain ⟨hpod, i, hq, -⟩ := h
  exact ⟨hpod, i, hq⟩

omit [DecidableEq ι] in
theorem expectPod_ok {u : Unit} (h : R.expectPod v = .ok u) :
    (R.shapes v.shape).isPod = true := by
  rw [expectPod] at h
  cases hpod : (R.shapes v.shape).isPod with
  | true => rfl
  | false => simp [hpod] at h

theorem structSetFieldCheck_ok {structType : StructType ι} {index : ℕ} {q : Place}
    (hty : (R.shapes v.shape).ty = .user (.struct structType))
    (h : R.structSetFieldCheck structType index x v = .ok q) : FieldTarget R v x q := by
  obtain ⟨_, hpod, h⟩ := ExceptList.exists_of_bind_ok h
  obtain ⟨hq, hshape⟩ := expectField_ok h
  refine ⟨expectPod_ok hpod, index, hq, fun hv => ?_⟩
  rw [TyFits.struct hv hty]
  exact hshape

theorem enumSetFieldCheck_ok {enumType : EnumType ι} {index : ℕ} {q : Place}
    (hty : (R.shapes v.shape).ty = .user (.enum enumType))
    (h : R.enumSetFieldCheck enumType index x v = .ok q) : FieldTarget R v x q := by
  obtain ⟨_, hpod, h⟩ := ExceptList.exists_of_bind_ok h
  obtain ⟨variant, hactive, h⟩ := ExceptList.exists_of_bind_ok h
  obtain ⟨hq, hshape⟩ := expectField_ok h
  refine ⟨expectPod_ok hpod, index, hq, fun hv => ?_⟩
  rw [TyFits.variant hv hty hactive]
  exact hshape

theorem enumSetFieldFromHeapCheck_ok {enumType : EnumType ι} {index : ℕ} {q : Place}
    (hty : (R.shapes v.shape).ty = .user (.enum enumType))
    (h : R.enumSetFieldFromHeapCheck enumType index x v = .ok q) : FieldTarget R v x q := by
  obtain ⟨place, hplace, h⟩ := ExceptList.exists_of_bind_ok h
  have htarget := enumSetFieldCheck_ok hty hplace
  cases hsized : (R.shapes x.shape).sized with
  | true =>
    obtain rfl : place = q := by simpa [hsized, pure, Except.pure] using h
    exact htarget
  | false => simp [hsized, throw, throwThe, MonadExceptOf.throw] at h

theorem structSetField_ok {index : ℕ} {q : Place}
    (h : (R.structSetField index x).check v = .ok q) : FieldTarget R v x q := by
  obtain ⟨structType, hinto, h⟩ := ExceptList.exists_of_bind_ok h
  exact structSetFieldCheck_ok (intoStruct_ok hinto) h

theorem structSetFieldByName_ok {name : String} {q : Place}
    (h : (R.structSetFieldByName name x).check v = .ok q) : FieldTarget R v x q := by
  obtain ⟨structType, hinto, h⟩ := ExceptList.exists_of_bind_ok h
  cases hfind : structType.fields.findIdx? fun f => decide (f.name = name) with
  | none =>
    rw [hfind] at h
    cases h
  | some index =>
    rw [hfind] at h
    exact structSetFieldCheck_ok (intoStruct_ok hinto) h

theorem tupleSetField_ok {index : ℕ} {q : Place}
    (h : (R.tupleSetField index x).check v = .ok q) : FieldTarget R v x q := by
  obtain ⟨tupleType, hinto, h⟩ := ExceptList.exists_of_bind_ok h
  exact structSetFieldCheck_ok (intoTuple_ok hinto) h

theorem enumSetField_ok {index : ℕ} {y : Arg ι} {q : Place}
    (h : (R.enumSetField index y).check v = .ok q) : FieldTarget R v y.value q := by
  obtain ⟨enumType, hinto, h⟩ := ExceptList.exists_of_bind_ok h
  by_cases hheap : y.heap = true
  · rw [if_pos hheap] at h
    exact enumSetFieldFromHeapCheck_ok (intoEnum_ok hinto) h
  · rw [if_neg hheap] at h
    exact enumSetFieldCheck_ok (intoEnum_ok hinto) h

theorem enumSetFieldByName_ok {name : String} {y : Arg ι} {q : Place}
    (h : (R.enumSetFieldByName name y).check v = .ok q) : FieldTarget R v y.value q := by
  obtain ⟨enumType, hinto, h⟩ := ExceptList.exists_of_bind_ok h
  obtain ⟨index, hindex, h⟩ := ExceptList.exists_of_bind_ok h
  by_cases hheap : y.heap = true
  · rw [if_pos hheap] at h
    exact enumSetFieldFromHeapCheck_ok (intoEnum_ok hinto) h
  · rw [if_neg hheap] at h
    exact enumSetFieldCheck_ok (intoEnum_ok hinto) h

omit [DecidableEq ι] in
theorem FieldTarget.exists_get? {q : Place} (h : FieldTarget R v x q) (hv : R.Fits v) :
    ∃ old : Value ι, PlacedTree.get? q v = some old ∧ x.shape = old.shape := by
  obtain ⟨-, i, rfl, hshape⟩ := h
  have hshape := hshape hv
  rw [Value.childShapes, List.getElem?_map] at hshape
  obtain ⟨old, hold, hx⟩ := Option.map_eq_some_iff.mp hshape
  refine ⟨old, ?_, hx.symm⟩
  rw [PlacedTree.get?, hold]
  rfl

section Self

variable {q : Place}

omit [DecidableEq ι] in
theorem eq_nil_of_pure (h : (pure [] : Reply ι Place) = .ok q) : q = [] :=
  (Except.ok.inj h).symm

theorem set_ok (h : (set x).check v = .ok q) : q = [] ∧ x.shape = v.shape := by
  obtain ⟨_, hshape, hq⟩ := ExceptList.exists_of_bind_ok h
  exact ⟨eq_nil_of_pure hq, expectShape_ok hshape⟩

variable {y k : Arg ι}

theorem setSome_ok (h : (R.setSome y).check v = .ok q) :
    q = [] ∧ Shape.def (R.shapes v.shape) = .option y.value.shape := by
  obtain ⟨t, hinto, h⟩ := ExceptList.exists_of_bind_ok h
  obtain ⟨_, hshape, hq⟩ := ExceptList.exists_of_bind_ok h
  rw [expectShape_ok hshape]
  exact ⟨eq_nil_of_pure hq, intoOption_ok hinto⟩

omit [DecidableEq ι] in
theorem setNone_ok (h : R.setNone.check v = .ok q) :
    q = [] ∧ ∃ t, Shape.def (R.shapes v.shape) = .option t := by
  obtain ⟨t, hinto, hq⟩ := ExceptList.exists_of_bind_ok h
  exact ⟨eq_nil_of_pure hq, t, intoOption_ok hinto⟩

theorem setOk_ok (h : (R.setOk y).check v = .ok q) :
    q = [] ∧ ∃ e, Shape.def (R.shapes v.shape) = .result y.value.shape e := by
  obtain ⟨te, hinto, h⟩ := ExceptList.exists_of_bind_ok h
  obtain ⟨_, hshape, hq⟩ := ExceptList.exists_of_bind_ok h
  rw [expectShape_ok hshape]
  exact ⟨eq_nil_of_pure hq, te.2, intoResult_ok hinto⟩

theorem setErr_ok (h : (R.setErr y).check v = .ok q) :
    q = [] ∧ ∃ t, Shape.def (R.shapes v.shape) = .result t y.value.shape := by
  obtain ⟨te, hinto, h⟩ := ExceptList.exists_of_bind_ok h
  obtain ⟨_, hshape, hq⟩ := ExceptList.exists_of_bind_ok h
  rw [expectShape_ok hshape]
  exact ⟨eq_nil_of_pure hq, te.1, intoResult_ok hinto⟩

theorem listPush_ok (h : (R.listPush y).check v = .ok q) :
    q = [] ∧ Shape.def (R.shapes v.shape) = .list y.value.shape := by
  obtain ⟨t, hinto, h⟩ := ExceptList.exists_of_bind_ok h
  obtain ⟨_, hshape, h⟩ := ExceptList.exists_of_bind_ok h
  obtain ⟨_, -, hq⟩ := ExceptList.exists_of_bind_ok h
  rw [expectShape_ok hshape]
  exact ⟨eq_nil_of_pure hq, intoList_ok hinto⟩

omit [DecidableEq ι] in
theorem listPop_ok (h : R.listPop.check v = .ok q) :
    q = [] ∧ ∃ t, Shape.def (R.shapes v.shape) = .list t := by
  obtain ⟨t, hinto, h⟩ := ExceptList.exists_of_bind_ok h
  obtain ⟨_, -, h⟩ := ExceptList.exists_of_bind_ok h
  obtain ⟨_, -, hq⟩ := ExceptList.exists_of_bind_ok h
  exact ⟨eq_nil_of_pure hq, t, intoList_ok hinto⟩

omit [DecidableEq ι] in
theorem listSwap_ok {a b : ℕ} (h : (R.listSwap a b).check v = .ok q) :
    q = [] ∧ ∃ t, Shape.def (R.shapes v.shape) = .list t := by
  obtain ⟨t, hinto, h⟩ := ExceptList.exists_of_bind_ok h
  obtain ⟨_, -, hq⟩ := ExceptList.exists_of_bind_ok h
  exact ⟨eq_nil_of_pure hq, t, intoList_ok hinto⟩

theorem listLikePush_ok (h : (R.listLikePush y).check v = .ok q) :
    q = [] ∧ Shape.def (R.shapes v.shape) = .list y.value.shape := by
  obtain ⟨listDef, hinto, h⟩ := ExceptList.exists_of_bind_ok h
  obtain ⟨_, hshape, h⟩ := ExceptList.exists_of_bind_ok h
  have hdef := intoListLike_ok hinto
  cases listDef with
  | list t =>
    obtain ⟨_, -, hq⟩ := ExceptList.exists_of_bind_ok h
    rw [expectShape_ok hshape]
    exact ⟨eq_nil_of_pure hq, hdef⟩
  | array t n => cases h
  | slice t => cases h

omit [DecidableEq ι] in
theorem listLikePop_ok (h : R.listLikePop.check v = .ok q) :
    q = [] ∧ ∃ t, Shape.def (R.shapes v.shape) = .list t := by
  obtain ⟨listDef, hinto, h⟩ := ExceptList.exists_of_bind_ok h
  have hdef := intoListLike_ok hinto
  cases listDef with
  | list t =>
    obtain ⟨_, -, h⟩ := ExceptList.exists_of_bind_ok h
    obtain ⟨_, -, hq⟩ := ExceptList.exists_of_bind_ok h
    exact ⟨eq_nil_of_pure hq, t, hdef⟩
  | array t n => cases h
  | slice t => cases h

omit [DecidableEq ι] in
/-- The indices that `swap` lets through are below the cached length. -/
theorem listLikeSwap_ok {len a b : ℕ} (h : (R.listLikeSwap len a b).check v = .ok q) :
    q = [] ∧ (a < len ∧ b < len) ∧ ∃ listDef, R.intoListLike v = .ok listDef := by
  obtain ⟨listDef, hinto, h⟩ := ExceptList.exists_of_bind_ok h
  by_cases hbounds : len ≤ a ∨ len ≤ b
  · rw [if_pos hbounds] at h
    cases h
  · rw [if_neg hbounds] at h
    push Not at hbounds
    refine ⟨?_, hbounds, listDef, hinto⟩
    by_cases hab : a = b
    · rw [if_pos hab] at h
      exact eq_nil_of_pure h
    · rw [if_neg hab] at h
      cases listDef with
      | list t =>
        obtain ⟨_, -, hq⟩ := ExceptList.exists_of_bind_ok h
        exact eq_nil_of_pure hq
      | array t n =>
        obtain ⟨_, -, hq⟩ := ExceptList.exists_of_bind_ok h
        exact eq_nil_of_pure hq
      | slice t =>
        obtain ⟨_, -, hq⟩ := ExceptList.exists_of_bind_ok h
        exact eq_nil_of_pure hq

theorem mapInsert_ok (h : (R.mapInsert k y).check v = .ok q) :
    q = [] ∧ Shape.def (R.shapes v.shape) = .map k.value.shape y.value.shape := by
  obtain ⟨kv, hinto, h⟩ := ExceptList.exists_of_bind_ok h
  obtain ⟨_, hk, h⟩ := ExceptList.exists_of_bind_ok h
  obtain ⟨_, hy, hq⟩ := ExceptList.exists_of_bind_ok h
  rw [expectShape_ok hk, expectShape_ok hy]
  exact ⟨eq_nil_of_pure hq, intoMap_ok hinto⟩

theorem setInsert_ok (h : (R.setInsert y).check v = .ok q) :
    q = [] ∧ Shape.def (R.shapes v.shape) = .set y.value.shape := by
  obtain ⟨t, hinto, h⟩ := ExceptList.exists_of_bind_ok h
  obtain ⟨_, hshape, hq⟩ := ExceptList.exists_of_bind_ok h
  rw [expectShape_ok hshape]
  exact ⟨eq_nil_of_pure hq, intoSet_ok hinto⟩

omit [DecidableEq ι] in
/-- The checks of the operations on a dynamic value that are given no value. -/
theorem dynCheck_ok
    (h : (do R.intoDynamicValue v; return [] : Reply ι Place) = .ok q) :
    q = [] ∧ Shape.def (R.shapes v.shape) = .dynamicValue := by
  obtain ⟨_, hinto, hq⟩ := ExceptList.exists_of_bind_ok h
  exact ⟨eq_nil_of_pure hq, intoDynamicValue_ok hinto⟩

omit [DecidableEq ι] in
theorem setBytes_ok {bytes : List (BitVec 8)} (h : (R.setBytes bytes).check v = .ok q) :
    q = [] ∧ Shape.def (R.shapes v.shape) = .dynamicValue := by
  obtain ⟨_, hinto, h⟩ := ExceptList.exists_of_bind_ok h
  cases hbytes : R.tables.dynSetBytes v.shape with
  | false =>
    rw [hbytes] at h
    cases h
  | true =>
    rw [hbytes] at h
    exact ⟨eq_nil_of_pure h, intoDynamicValue_ok hinto⟩

/-- The checks of the operations that move a value into a dynamic value. -/
theorem dynInsertCheck_ok
    (h : (do
      R.intoDynamicValue v
      expectShape v.shape x
      return [] : Reply ι Place) = .ok q) :
    q = [] ∧ Shape.def (R.shapes v.shape) = .dynamicValue ∧ x.shape = v.shape := by
  obtain ⟨_, hinto, h⟩ := ExceptList.exists_of_bind_ok h
  obtain ⟨_, hshape, hq⟩ := ExceptList.exists_of_bind_ok h
  exact ⟨eq_nil_of_pure hq, intoDynamicValue_ok hinto, expectShape_ok hshape⟩

end Self

end Checks

end Runtime

end Facet.Poke
