import Facet.Frames.Initialization
import Facet.Lib.ExceptList

/-!
# Filling the fields that are not set

A frame of fields is completed in one of two ways. One goes by the attributes of the fields and
checks afterwards that nothing is missing; the other one goes by the fill rules that the type plan
made of the fields, and runs their validators on the way.
-/

namespace Facet.Frames

open TypePlan

variable {ι P N Mem : Type}

def isOption (shape : Shape ι) : Bool :=
  match shape.def with
  | .option _ => true
  | _ => false

/-- The struct types without fields, `()` among them. -/
def isEmptyStruct (shape : Shape ι) : Bool :=
  match shape.ty with
  | .user (.struct st) => st.fields.isEmpty
  | _ => false

/-- How a field that was not set is to be filled. -/
def determineFillRule (S : Shapes ι) (field : Field ι) (containerHasDefault : Bool) :
    FillRule ι :=
  let fieldShape := S field.shape
  let isDefault := fieldShape.hasDefaultInPlace
  match field.default with
  | some .custom => .defaultable (.custom field.defaultFn)
  | some .fromTrait => .defaultable (.fromTrait field.shape)
  | none =>
    if isOption fieldShape && isDefault then .defaultable (.fromTrait field.shape)
    else if field.shouldSkipDeserializing && isDefault then .defaultable (.fromTrait field.shape)
    else if isEmptyStruct fieldShape && isDefault then .defaultable (.fromTrait field.shape)
    else if containerHasDefault && isDefault then .defaultable (.fromTrait field.shape)
    else .required

def createFieldPlan (S : Shapes ι) (containerHasDefault : Bool) (index : ℕ) (field : Field ι) :
    Except String (FieldInitPlan ι) := do
  let validators ← extractValidators S field
  return {
    index
    offset := field.offset
    name := field.name
    fillRule := determineFillRule S field containerHasDefault
    validators }

def buildFieldPlans (S : Shapes ι) (containerHasDefault : Bool) (fields : List (Field ι)) :
    Except String (List (FieldInitPlan ι)) :=
  fields.zipIdx.mapM fun (field, index) => createFieldPlan S containerHasDefault index field

variable (env : Env ι P N Mem)

/-- Whether a type's default can be written does not depend on where; and only types that have a
default function have a default. -/
structure DefaultsOf (defaults : ι → Bool) : Prop where
  isSome : ∀ shape ptr mem, (env.vtables.callDefaultInPlace shape ptr mem).isSome = defaults shape
  hasFunction : ∀ shape, defaults shape = true → (env.shapes shape).hasDefaultInPlace = true

/-- What is written into a field that is filled. -/
def writeDefault (field : Field ι) (fieldPtr : P) (mem : Mem) : Mem :=
  match field.default with
  | some .custom => env.vtables.defaultFn field.defaultFn fieldPtr mem
  | _ => (env.vtables.callDefaultInPlace field.shape fieldPtr mem).getD mem

/-- The types that stand for nothing, or for a collection, and so need no default attribute. -/
def isImplied (shape : ι) : Bool :=
  env.vtables.isUnit shape ||
    match (env.shapes shape).def with
    | .option _ | .list _ | .map _ _ | .set _ => true
    | _ => false

variable (defaults : ι → Bool)

/-- The fields that are filled by their attributes. -/
def filledByAttributes (containerHasDefault : Bool) (field : Field ι) : Bool :=
  match field.default with
  | some .custom => true
  | some .fromTrait => defaults field.shape
  | none => defaults field.shape && (containerHasDefault || isImplied env field.shape)

/-- The fields that are filled by their fill rules. -/
def filledByPlan (containerHasDefault : Bool) (field : Field ι) : Bool :=
  match field.default with
  | some .custom => true
  | some .fromTrait => defaults field.shape
  | none => defaults field.shape && (containerHasDefault || field.shouldSkipDeserializing ||
      isOption (env.shapes field.shape) || isEmptyStruct (env.shapes field.shape))

variable {env defaults}

theorem DefaultsOf.callDefaultInPlace (h : DefaultsOf env defaults) (shape : ι) (ptr : P)
    (mem : Mem) :
    env.vtables.callDefaultInPlace shape ptr mem =
      if defaults shape = true then
        some ((env.vtables.callDefaultInPlace shape ptr mem).getD mem)
      else none := by
  have hsome := h.isSome shape ptr mem
  cases hcall : env.vtables.callDefaultInPlace shape ptr mem with
  | none =>
    rw [hcall] at hsome
    simp [← hsome]
  | some mem =>
    rw [hcall] at hsome
    simp [← hsome]

theorem tryInitFieldDefault_eq (h : DefaultsOf env defaults) (field : Field ι) (fieldPtr : P)
    (containerHasDefault : Bool) (mem : Mem) :
    Frame.tryInitFieldDefault env field fieldPtr containerHasDefault mem =
      if filledByAttributes env defaults containerHasDefault field = true then
        some (writeDefault env field fieldPtr mem)
      else none := by
  unfold Frame.tryInitFieldDefault filledByAttributes writeDefault isImplied
  rw [h.callDefaultInPlace field.shape fieldPtr mem]
  generalize Shape.def (env.shapes field.shape) = d
  cases hdefault : field.default with
  | none =>
    cases defaults field.shape <;> cases containerHasDefault <;>
      cases env.vtables.isUnit field.shape <;> cases d <;> simp
  | some source =>
    cases source with
    | custom => simp
    | fromTrait => cases defaults field.shape <;> cases d <;> simp

theorem createFieldPlan_ok {S : Shapes ι} {containerHasDefault : Bool} {index : ℕ}
    {field : Field ι} {plan : FieldInitPlan ι}
    (h : createFieldPlan S containerHasDefault index field = .ok plan) :
    plan.index = index ∧ plan.offset = field.offset ∧ plan.name = field.name ∧
      plan.fillRule = determineFillRule S field containerHasDefault ∧
      extractValidators S field = .ok plan.validators := by
  obtain ⟨validators, hvalidators, h⟩ := ExceptList.exists_of_bind_ok h
  cases h
  exact ⟨rfl, rfl, rfl, rfl, hvalidators⟩

theorem determineFillRule_none {S : Shapes ι} {field : Field ι} (h : field.default = none)
    (containerHasDefault : Bool) :
    determineFillRule S field containerHasDefault =
      if (S field.shape).hasDefaultInPlace = true ∧
          (containerHasDefault || field.shouldSkipDeserializing || isOption (S field.shape) ||
            isEmptyStruct (S field.shape)) = true then
        .defaultable (.fromTrait field.shape)
      else .required := by
  simp only [determineFillRule, h]
  cases (S field.shape).hasDefaultInPlace <;> cases isOption (S field.shape) <;>
    cases field.shouldSkipDeserializing <;> cases isEmptyStruct (S field.shape) <;>
    cases containerHasDefault <;> simp

theorem fillByRule_eq (h : DefaultsOf env defaults) (shape : ι) (data : P)
    {containerHasDefault : Bool} {index : ℕ} {field : Field ι} {plan : FieldInitPlan ι}
    (hplan : createFieldPlan env.shapes containerHasDefault index field = .ok plan) (mem : Mem) :
    Frame.fillByRule env shape data plan mem =
      if filledByPlan env defaults containerHasDefault field = true then
        .ok (writeDefault env field (env.vtables.fieldUninit data field.offset) mem)
      else .error (.uninitializedField shape field.name) := by
  obtain ⟨-, hoffset, hname, hrule, -⟩ := createFieldPlan_ok hplan
  have hcall := h.callDefaultInPlace field.shape (env.vtables.fieldUninit data field.offset) mem
  unfold Frame.fillByRule filledByPlan writeDefault
  rw [hoffset, hname, hrule]
  cases hdefault : field.default with
  | some source =>
    cases source with
    | custom => simp [determineFillRule, hdefault]
    | fromTrait =>
      simp only [determineFillRule, hdefault]
      rw [hcall]
      cases defaults field.shape <;> simp
  | none =>
    rw [determineFillRule_none hdefault]
    cases hdef : defaults field.shape with
    | true =>
      rw [if_pos hdef] at hcall
      by_cases hfilled : (containerHasDefault || field.shouldSkipDeserializing ||
          isOption (env.shapes field.shape) || isEmptyStruct (env.shapes field.shape)) = true
      · rw [if_pos ⟨h.hasFunction field.shape hdef, hfilled⟩]
        simp only [Bool.true_and, if_pos hfilled]
        rw [hcall]
        rfl
      · rw [if_neg fun hboth => hfilled hboth.2]
        simp only [Bool.true_and, if_neg hfilled]
    | false =>
      rw [if_neg (by simp [hdef])] at hcall
      simp only [Bool.false_and, Bool.false_eq_true, if_false]
      by_cases hdefaultable : (env.shapes field.shape).hasDefaultInPlace = true ∧
          (containerHasDefault || field.shouldSkipDeserializing ||
            isOption (env.shapes field.shape) || isEmptyStruct (env.shapes field.shape)) = true
      · rw [if_pos hdefaultable]
        simp only
        rw [hcall]
      · rw [if_neg hdefaultable]

/-- A field that is not set, and that a rule does not fill. -/
def Missing (filled : Field ι → Bool) (iset : ISet) (p : Field ι × ℕ) : Prop :=
  iset.get p.2 = false ∧ filled p.1 = false

/-- The plan of the field has validators. -/
def hasValidators (S : Shapes ι) (field : Field ι) : Bool :=
  match extractValidators S field with
  | .ok [] => false
  | _ => true

/-- Each field with validators is, or comes after, a missing one. -/
def Unvalidated (S : Shapes ι) (filled : Field ι → Bool) (iset : ISet)
    (fields : List (Field ι × ℕ)) : Prop :=
  ∀ p ∈ fields, hasValidators S p.1 = true → ∃ q ∈ fields, q.2 ≤ p.2 ∧ Missing filled iset q

theorem unvalidated_cons_of_missing (S : Shapes ι) {filled : Field ι → Bool} {iset : ISet}
    {p : Field ι × ℕ} {fields : List (Field ι × ℕ)} (hhead : ∀ q ∈ fields, p.2 < q.2)
    (hmissing : Missing filled iset p) : Unvalidated S filled iset (p :: fields) := by
  intro q hq _
  refine ⟨p, List.mem_cons_self, ?_, hmissing⟩
  rcases List.mem_cons.mp hq with rfl | hq
  · omega
  · have := hhead q hq
    omega

theorem unvalidated_cons_iff {S : Shapes ι} {filled : Field ι → Bool} {iset : ISet}
    {p : Field ι × ℕ} {fields : List (Field ι × ℕ)} (hhead : ∀ q ∈ fields, p.2 < q.2)
    (hmissing : ¬ Missing filled iset p) :
    Unvalidated S filled iset (p :: fields) ↔
      hasValidators S p.1 = false ∧ Unvalidated S filled iset fields := by
  constructor
  · intro h
    constructor
    · cases hhas : hasValidators S p.1 with
      | false => rfl
      | true =>
        obtain ⟨q, hq, hle, hq'⟩ := h p List.mem_cons_self hhas
        rcases List.mem_cons.mp hq with rfl | hq
        · exact absurd hq' hmissing
        · have := hhead q hq
          omega
    · intro q hq hhas
      obtain ⟨r, hr, hle, hr'⟩ := h q (List.mem_cons_of_mem p hq) hhas
      rcases List.mem_cons.mp hr with rfl | hr
      · exact absurd hr' hmissing
      · exact ⟨r, hr, hle, hr'⟩
  · rintro ⟨hno, htail⟩ q hq hhas
    rcases List.mem_cons.mp hq with rfl | hq
    · rw [hno] at hhas
      cases hhas
    · obtain ⟨r, hr, hle, hr'⟩ := htail q hq hhas
      exact ⟨r, List.mem_cons_of_mem p hr, hle, hr'⟩

/-- The defaults of fields, written in turn. -/
def writeDefaults (env : Env ι P N Mem) (data : P) (fields : List (Field ι × ℕ)) (mem : Mem) :
    Mem :=
  fields.foldl
    (fun mem p => writeDefault env p.1 (env.vtables.fieldUninit data p.1.offset) mem) mem

theorem writeDefaults_append (env : Env ι P N Mem) (data : P) (fields others : List (Field ι × ℕ))
    (mem : Mem) :
    writeDefaults env data (fields ++ others) mem =
      writeDefaults env data others (writeDefaults env data fields mem) :=
  List.foldl_append

theorem ISet.get_set (iset : ISet) (i j : ℕ) :
    (iset.set i).get j = (decide (j = i) || iset.get j) := by
  simp [ISet.set, ISet.get]

theorem ISet.get_set_of_lt {iset : ISet} {i j : ℕ} (h : i < j) :
    (iset.set i).get j = iset.get j := by
  rw [ISet.get_set, decide_eq_false (by omega), Bool.false_or]

namespace Frame

variable {fields : List (Field ι × ℕ)} {iset isetBefore : ISet} {containerHasDefault : Bool}

/-- Every unset field that has a default by its attributes gets it. -/
theorem fillFields_ok (h : DefaultsOf env defaults) (data : P)
    (hsorted : fields.Pairwise fun p q => p.2 < q.2)
    (hsame : ∀ p ∈ fields, iset.get p.2 = isetBefore.get p.2)
    (hattr : ∀ p ∈ fields, isetBefore.get p.2 = false → p.1.hasDefault = true →
      filledByAttributes env defaults containerHasDefault p.1 = true) (mem : Mem) :
    ∃ isetAfter, fillFields env data containerHasDefault fields iset mem =
        .ok (isetAfter, writeDefaults env data (fields.filter fun p => !isetBefore.get p.2 &&
          filledByAttributes env defaults containerHasDefault p.1) mem) ∧
      ∀ i, isetAfter.get i = true ↔ iset.get i = true ∨
        ∃ p ∈ fields, p.2 = i ∧ isetBefore.get p.2 = false ∧
          filledByAttributes env defaults containerHasDefault p.1 = true := by
  induction fields generalizing iset mem with
  | nil => exact ⟨iset, rfl, by simp⟩
  | cons p fields ih =>
    obtain ⟨field, idx⟩ := p
    obtain ⟨hhead, htail⟩ := List.pairwise_cons.mp hsorted
    have hsameTail : ∀ p ∈ fields, iset.get p.2 = isetBefore.get p.2 := by
      intro p hp
      exact hsame p (List.mem_cons_of_mem _ hp)
    have hattrTail := fun p hp => hattr p (List.mem_cons_of_mem (field, idx) hp)
    have hget := hsame (field, idx) List.mem_cons_self
    simp only at hget hhead
    unfold fillFields
    cases hset : isetBefore.get idx with
    | true =>
      obtain ⟨isetAfter, hfill, hafter⟩ := ih htail hsameTail hattrTail mem
      refine ⟨isetAfter, ?_, ?_⟩
      · rw [if_pos (hget.trans hset), hfill, List.filter_cons_of_neg (by simp [hset])]
      · intro i
        rw [hafter i]
        simp [hset]
    | false =>
      rw [if_neg (by simp [hget, hset]), tryInitFieldDefault_eq h]
      by_cases hfilled : filledByAttributes env defaults containerHasDefault field = true
      · rw [if_pos hfilled]
        have hsameSet : ∀ p ∈ fields, (iset.set idx).get p.2 = isetBefore.get p.2 := by
          intro p hp
          rw [ISet.get_set_of_lt (hhead p hp)]
          exact hsameTail p hp
        obtain ⟨isetAfter, hfill, hafter⟩ := ih htail hsameSet hattrTail
          (writeDefault env field (env.vtables.fieldUninit data field.offset) mem)
        refine ⟨isetAfter, ?_, ?_⟩
        · rw [List.filter_cons_of_pos (by simp [hset, hfilled])]
          exact hfill
        · intro i
          rw [hafter i, ISet.get_set]
          simp only [Bool.or_eq_true, decide_eq_true_eq, List.mem_cons, exists_eq_or_imp, hset,
            hfilled, and_true, @eq_comm _ i idx]
          tauto
      · have hno : ¬ field.hasDefault = true := by
          intro hdefault
          exact hfilled (hattr (field, idx) List.mem_cons_self hset hdefault)
        obtain ⟨isetAfter, hfill, hafter⟩ := ih htail hsameTail hattrTail mem
        refine ⟨isetAfter, ?_, ?_⟩
        · rw [if_neg hfilled]
          simp only [if_neg hno]
          rw [hfill, List.filter_cons_of_neg (by simp [hset, hfilled])]
        · intro i
          rw [hafter i]
          simp [hfilled]

/-- A field whose default attribute asks for a default that its type does not have is an error. -/
theorem fillFields_error (h : DefaultsOf env defaults) (data : P)
    (hsorted : fields.Pairwise fun p q => p.2 < q.2)
    (hsame : ∀ p ∈ fields, iset.get p.2 = isetBefore.get p.2)
    (hattr : ∃ p ∈ fields, isetBefore.get p.2 = false ∧ p.1.hasDefault = true ∧
      filledByAttributes env defaults containerHasDefault p.1 = false) (mem : Mem) :
    ∃ shape, fillFields env data containerHasDefault fields iset mem =
      .error (.defaultAttrButNoDefaultImpl shape) := by
  induction fields generalizing iset mem with
  | nil =>
    obtain ⟨p, hp, -⟩ := hattr
    cases hp
  | cons p fields ih =>
    obtain ⟨field, idx⟩ := p
    obtain ⟨hhead, htail⟩ := List.pairwise_cons.mp hsorted
    have hsameTail : ∀ p ∈ fields, iset.get p.2 = isetBefore.get p.2 := by
      intro p hp
      exact hsame p (List.mem_cons_of_mem _ hp)
    have hget := hsame (field, idx) List.mem_cons_self
    simp only at hget hhead
    obtain ⟨p, hp, hunset, hdefault, hno⟩ := hattr
    unfold fillFields
    rcases List.mem_cons.mp hp with rfl | hp
    · simp only at hunset hdefault hno
      rw [if_neg (by simp [hget, hunset]), tryInitFieldDefault_eq h, if_neg (by simp [hno])]
      simp only [if_pos hdefault]
      exact ⟨_, rfl⟩
    · have hattrTail : ∃ p ∈ fields, isetBefore.get p.2 = false ∧ p.1.hasDefault = true ∧
          filledByAttributes env defaults containerHasDefault p.1 = false :=
        ⟨p, hp, hunset, hdefault, hno⟩
      cases hset : iset.get idx with
      | true =>
        rw [if_pos rfl]
        exact ih htail hsameTail hattrTail mem
      | false =>
        rw [if_neg (by simp), tryInitFieldDefault_eq h]
        by_cases hfilled : filledByAttributes env defaults containerHasDefault field = true
        · rw [if_pos hfilled]
          apply ih htail _ hattrTail
          intro p hp
          rw [ISet.get_set_of_lt (hhead p hp)]
          exact hsameTail p hp
        · rw [if_neg hfilled]
          simp only
          split
          · exact ⟨_, rfl⟩
          · exact ih htail hsameTail hattrTail mem

/-- One field in `fillPlans`: filled if it is not set. -/
def fillPlan (env : Env ι P N Mem) (shape : ι) (data : P) (allFieldsSet : Bool)
    (plan : FieldInitPlan ι) (iset : ISet) (mem : Mem) :
    Except (ReflectErrorKind ι) (ISet × Mem) :=
  if !allFieldsSet && !iset.get plan.index then do
    let mem ← fillByRule env shape data plan mem
    pure (iset.set plan.index, mem)
  else pure (iset, mem)

/-- The validators of one field, on what it holds. -/
def validatePlan (env : Env ι P N Mem) (shape : ι) (data : P) (plan : FieldInitPlan ι)
    (mem : Mem) : Except (ValidationFailed ι) Unit :=
  runValidators env.vtables.validators
    (env.vtables.readField (env.vtables.fieldUninit data plan.offset) mem) plan.name shape
    plan.validators

theorem fillPlans_cons (env : Env ι P N Mem) (shape : ι) (data : P) (allFieldsSet : Bool)
    (plan : FieldInitPlan ι) (plans : List (FieldInitPlan ι)) (iset : ISet) (mem : Mem) :
    fillPlans env shape data allFieldsSet (plan :: plans) iset mem =
      match fillPlan env shape data allFieldsSet plan iset mem with
      | .error e => .error e
      | .ok (iset, mem) =>
        match validatePlan env shape data plan mem with
        | .error failed => .error (.validationFailed failed.shape failed.fieldName failed.message)
        | .ok () => fillPlans env shape data allFieldsSet plans iset mem := by
  rw [fillPlans]
  unfold fillPlan
  cases hset : (!allFieldsSet && !iset.get plan.index) with
  | true =>
    simp only [if_true]
    cases fillByRule env shape data plan mem <;> rfl
  | false => rfl

/-- The fields whose validators `fillPlans` runs. -/
def validatedFields (env : Env ι P N Mem) (shape : ι) (data : P) (allFieldsSet : Bool) :
    List (FieldInitPlan ι) → ISet → Mem → List String
  | [], _, _ => []
  | plan :: plans, iset, mem =>
    match fillPlan env shape data allFieldsSet plan iset mem with
    | .error _ => []
    | .ok (iset, mem) =>
      (if plan.validators.isEmpty then [] else [plan.name]) ++
        match validatePlan env shape data plan mem with
        | .error _ => []
        | .ok () => validatedFields env shape data allFieldsSet plans iset mem

/-- A field that was set stays as it is, and one that was not gets its default or is missing. -/
theorem fillPlan_eq (h : DefaultsOf env defaults) (shape : ι) (data : P) {allFieldsSet : Bool}
    {index : ℕ} {field : Field ι} {plan : FieldInitPlan ι}
    (hplan : createFieldPlan env.shapes containerHasDefault index field = .ok plan)
    (hall : allFieldsSet = true → iset.get index = true) (mem : Mem) :
    fillPlan env shape data allFieldsSet plan iset mem =
      if iset.get index = true then .ok (iset, mem)
      else if filledByPlan env defaults containerHasDefault field = true then
        .ok (iset.set index,
          writeDefault env field (env.vtables.fieldUninit data field.offset) mem)
      else .error (.uninitializedField shape field.name) := by
  unfold fillPlan
  rw [(createFieldPlan_ok hplan).1]
  cases hset : iset.get index with
  | true =>
    simp only [Bool.not_true, Bool.and_false, Bool.false_eq_true, if_false, if_true]
    rfl
  | false =>
    have hnot : allFieldsSet = false := by
      cases hvalue : allFieldsSet with
      | true => exact absurd (hall hvalue) (by simp [hset])
      | false => rfl
    rw [hnot]
    simp only [Bool.not_false, Bool.and_true, if_true, Bool.false_eq_true, if_false]
    rw [fillByRule_eq h shape data hplan]
    split <;> rfl

variable {plans : List (FieldInitPlan ι)} {allFieldsSet : Bool}

theorem validatePlan_of_not_hasValidators (shape : ι) (data : P) {index : ℕ} {field : Field ι}
    {plan : FieldInitPlan ι}
    (hplan : createFieldPlan env.shapes containerHasDefault index field = .ok plan)
    (hno : hasValidators env.shapes field = false) (mem : Mem) :
    plan.validators = [] ∧ validatePlan env shape data plan mem = .ok () := by
  have hvalidators := (createFieldPlan_ok hplan).2.2.2.2
  have hnil : plan.validators = [] := by
    unfold hasValidators at hno
    rw [hvalidators] at hno
    split at hno
    · next hnil => exact Except.ok.inj hnil
    · cases hno
  refine ⟨hnil, ?_⟩
  unfold validatePlan
  rw [hnil]
  rfl

theorem validators_ne_nil {index : ℕ} {field : Field ι} {plan : FieldInitPlan ι}
    (hplan : createFieldPlan env.shapes containerHasDefault index field = .ok plan)
    (hhas : hasValidators env.shapes field = true) : plan.validators.isEmpty = false := by
  have hvalidators := (createFieldPlan_ok hplan).2.2.2.2
  unfold hasValidators at hhas
  rw [hvalidators] at hhas
  cases hempty : plan.validators with
  | nil =>
    rw [hempty] at hhas
    cases hhas
  | cons kind kinds => rfl

/-- The step at the first field: it is missing, or there afterwards, with its default written if it
was not set. -/
theorem fillPlan_cases (h : DefaultsOf env defaults) (shape : ι) (data : P) {p : Field ι × ℕ}
    {plan : FieldInitPlan ι}
    (hplan : createFieldPlan env.shapes containerHasDefault p.2 p.1 = .ok plan)
    (hhead : ∀ q ∈ fields, p.2 < q.2)
    (hsame : ∀ q ∈ p :: fields, iset.get q.2 = isetBefore.get q.2)
    (hall : allFieldsSet = true → ∀ q ∈ p :: fields, iset.get q.2 = true) (mem : Mem) :
    (Missing (filledByPlan env defaults containerHasDefault) isetBefore p ∧
      fillPlan env shape data allFieldsSet plan iset mem =
        .error (.uninitializedField shape p.1.name)) ∨
    ¬ Missing (filledByPlan env defaults containerHasDefault) isetBefore p ∧
      ∃ isetAfter, fillPlan env shape data allFieldsSet plan iset mem =
          .ok (isetAfter, writeDefaults env data ([p].filter fun q => !isetBefore.get q.2) mem) ∧
        (∀ q ∈ fields, isetAfter.get q.2 = isetBefore.get q.2) ∧
        (allFieldsSet = true → ∀ q ∈ fields, isetAfter.get q.2 = true) := by
  have hget := hsame p List.mem_cons_self
  have hallHead := fun hvalue => hall hvalue p List.mem_cons_self
  have hsameTail : ∀ q ∈ fields, iset.get q.2 = isetBefore.get q.2 := by
    intro q hq
    exact hsame q (List.mem_cons_of_mem _ hq)
  have hfill := fillPlan_eq h shape data hplan hallHead mem
  cases hset : iset.get p.2 with
  | true =>
    right
    rw [if_pos hset] at hfill
    rw [hset] at hget
    constructor
    · intro hmissing
      rw [hmissing.1] at hget
      cases hget
    · refine ⟨iset, ?_, hsameTail, fun hvalue q hq => hall hvalue q (List.mem_cons_of_mem _ hq)⟩
      rw [hfill, List.filter_cons_of_neg (by simp [← hget])]
      rfl
  | false =>
    rw [if_neg (by simp [hset])] at hfill
    rw [hset] at hget
    by_cases hfilled : filledByPlan env defaults containerHasDefault p.1 = true
    · right
      rw [if_pos hfilled] at hfill
      constructor
      · intro hmissing
        exact absurd hfilled (by simp [hmissing.2])
      · refine ⟨iset.set p.2, ?_, ?_, fun hvalue => absurd (hallHead hvalue) (by simp [hset])⟩
        · rw [hfill, List.filter_cons_of_pos (by simp [← hget])]
          rfl
        · intro q hq
          rw [ISet.get_set_of_lt (hhead q hq)]
          exact hsameTail q hq
    · left
      rw [if_neg hfilled] at hfill
      exact ⟨⟨hget.symm, by simpa using hfilled⟩, hfill⟩

/-- No validators are run exactly when each field with validators is, or comes after, a missing
one. -/
theorem validatedFields_eq_nil_iff (h : DefaultsOf env defaults) (shape : ι) (data : P)
    (hplans : List.Forall₂
      (fun p plan => createFieldPlan env.shapes containerHasDefault p.2 p.1 = .ok plan)
      fields plans)
    (hsorted : fields.Pairwise fun p q => p.2 < q.2)
    (hsame : ∀ p ∈ fields, iset.get p.2 = isetBefore.get p.2)
    (hall : allFieldsSet = true → ∀ p ∈ fields, iset.get p.2 = true) (mem : Mem) :
    validatedFields env shape data allFieldsSet plans iset mem = [] ↔
      Unvalidated env.shapes (filledByPlan env defaults containerHasDefault) isetBefore fields := by
  induction hplans generalizing iset mem with
  | nil => simp [validatedFields, Unvalidated]
  | @cons p plan fields plans hplan hplans ih =>
    obtain ⟨hhead, htail⟩ := List.pairwise_cons.mp hsorted
    rw [validatedFields]
    rcases fillPlan_cases h shape data hplan hhead hsame hall mem with
      ⟨hmissing, hfill⟩ | ⟨hmissing, isetAfter, hfill, hsameTail, hallTail⟩
    · rw [hfill]
      simp only [true_iff]
      exact unvalidated_cons_of_missing env.shapes hhead hmissing
    · rw [unvalidated_cons_iff hhead hmissing, hfill]
      simp only
      cases hhas : hasValidators env.shapes p.1 with
      | true => simp [validators_ne_nil hplan hhas]
      | false =>
        obtain ⟨hnil, hvalid⟩ := validatePlan_of_not_hasValidators shape data hplan hhas
          (writeDefaults env data ([p].filter fun q => !isetBefore.get q.2) mem)
        rw [hnil, hvalid]
        simpa using ih htail hsameTail hallTail _

/-- Where no validators are run, a missing field is reported. -/
theorem fillPlans_missing (h : DefaultsOf env defaults) (shape : ι) (data : P)
    (hplans : List.Forall₂
      (fun p plan => createFieldPlan env.shapes containerHasDefault p.2 p.1 = .ok plan)
      fields plans)
    (hsorted : fields.Pairwise fun p q => p.2 < q.2)
    (hsame : ∀ p ∈ fields, iset.get p.2 = isetBefore.get p.2)
    (hall : allFieldsSet = true → ∀ p ∈ fields, iset.get p.2 = true)
    (hquiet :
      Unvalidated env.shapes (filledByPlan env defaults containerHasDefault) isetBefore fields)
    (hmissing : ∃ p ∈ fields, Missing (filledByPlan env defaults containerHasDefault) isetBefore p)
    (mem : Mem) :
    ∃ name, fillPlans env shape data allFieldsSet plans iset mem =
      .error (.uninitializedField shape name) := by
  induction hplans generalizing iset mem with
  | nil =>
    obtain ⟨p, hp, -⟩ := hmissing
    cases hp
  | @cons p plan fields plans hplan hplans ih =>
    obtain ⟨hhead, htail⟩ := List.pairwise_cons.mp hsorted
    rw [fillPlans_cons]
    rcases fillPlan_cases h shape data hplan hhead hsame hall mem with
      ⟨-, hfill⟩ | ⟨hthere, isetAfter, hfill, hsameTail, hallTail⟩
    · rw [hfill]
      exact ⟨_, rfl⟩
    · obtain ⟨hno, hquietTail⟩ := (unvalidated_cons_iff hhead hthere).mp hquiet
      obtain ⟨q, hq, hq'⟩ := hmissing
      rw [hfill]
      simp only
      rw [(validatePlan_of_not_hasValidators shape data hplan hno _).2]
      apply ih htail hsameTail hallTail hquietTail
      rcases List.mem_cons.mp hq with rfl | hq
      · exact absurd hq' hthere
      · exact ⟨q, hq, hq'⟩

/-- Where no field is missing or has validators, the unset ones get their defaults. -/
theorem fillPlans_ok (h : DefaultsOf env defaults) (shape : ι) (data : P)
    (hplans : List.Forall₂
      (fun p plan => createFieldPlan env.shapes containerHasDefault p.2 p.1 = .ok plan)
      fields plans)
    (hsorted : fields.Pairwise fun p q => p.2 < q.2)
    (hsame : ∀ p ∈ fields, iset.get p.2 = isetBefore.get p.2)
    (hall : allFieldsSet = true → ∀ p ∈ fields, iset.get p.2 = true)
    (hquiet :
      Unvalidated env.shapes (filledByPlan env defaults containerHasDefault) isetBefore fields)
    (hthere : ∀ p ∈ fields, ¬ Missing (filledByPlan env defaults containerHasDefault) isetBefore p)
    (mem : Mem) :
    ∃ isetAfter, fillPlans env shape data allFieldsSet plans iset mem =
      .ok (isetAfter, writeDefaults env data (fields.filter fun p => !isetBefore.get p.2) mem) := by
  induction hplans generalizing iset mem with
  | nil => exact ⟨iset, rfl⟩
  | @cons p plan fields plans hplan hplans ih =>
    obtain ⟨hhead, htail⟩ := List.pairwise_cons.mp hsorted
    have hp := hthere p List.mem_cons_self
    rw [fillPlans_cons]
    rcases fillPlan_cases h shape data hplan hhead hsame hall mem with
      ⟨hmissing, -⟩ | ⟨-, isetAfter, hfill, hsameTail, hallTail⟩
    · exact absurd hmissing hp
    · obtain ⟨hno, hquietTail⟩ := (unvalidated_cons_iff hhead hp).mp hquiet
      rw [hfill]
      simp only
      rw [(validatePlan_of_not_hasValidators shape data hplan hno _).2]
      obtain ⟨isetLast, hlast⟩ := ih htail hsameTail hallTail hquietTail
        (fun q hq => hthere q (List.mem_cons_of_mem p hq))
        (writeDefaults env data ([p].filter fun q => !isetBefore.get q.2) mem)
      refine ⟨isetLast, ?_⟩
      simp only
      rw [hlast, ← writeDefaults_append, ← List.filter_append]
      rfl

end Frame

end Facet.Frames
