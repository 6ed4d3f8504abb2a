import Facet.Frames.FillRules

/-!
# When the two ways of completing a frame agree

A nested occurrence of a recursive type, and a frame that is stored in deferred mode, are completed
by the attributes of their fields; any other frame of a struct or of an enum's variant is completed
by the fill rules of its plan. The two agree on a frame when they accept it with the same values,
when they both miss a field or both refuse it, and when neither runs a validator: the first one
never does.
-/

namespace Facet.Frames

open TypePlan

variable {ι P N Mem : Type} (env : Env ι P N Mem)

/-- What completing a frame comes to. -/
inductive Verdict (Mem : Type)
  | accepted (mem : Mem)
  | missingField
  | refused

def verdict : Except (ReflectErrorKind ι) (Frame ι P N × Mem) → Verdict Mem
  | .ok (_, mem) => .accepted mem
  | .error (.uninitializedField _ _) => .missingField
  | .error _ => .refused

namespace Frame

/-- Completing a frame by the attributes of its fields. -/
def completeByAttributes [DecidableEq ι] (frame : Frame ι P N) (mem : Mem) :
    Except (ReflectErrorKind ι) (Frame ι P N × Mem) := do
  let (frame, mem) ← frame.fillDefaults env mem
  frame.requireFullInitialization env mem

/-- The fields whose validators `fillAndRequireFields` runs. -/
def fieldsValidated (frame : Frame ι P N) (plans : List (FieldInitPlan ι)) (numFields : ℕ)
    (mem : Mem) : List String :=
  match frame.tracker with
  | .scalar =>
    if frame.isInit || (env.vtables.callDefaultInPlace frame.shape frame.data mem).isSome then []
    else
      let iset := ISet.new numFields
      validatedFields env frame.shape frame.data (iset.allSet numFields) plans iset mem
  | .struct iset _ | .enum _ _ iset _ =>
    validatedFields env frame.shape frame.data (iset.allSet numFields) plans iset mem
  | _ => []

end Frame

/-- The frame is a struct's, or that of an enum with a variant selected; the fields are those of the
struct or variant, and the flag says whether their plans take the container to have a default. -/
inductive FieldsOf (S : Shapes ι) (frame : Frame ι P N) : List (Field ι) → Bool → Prop
  | untracked {st : StructType ι} : (S frame.shape).ty = .user (.struct st) →
    frame.tracker = .scalar → FieldsOf S frame st.fields (S frame.shape).hasDefaultInPlace
  | struct {st : StructType ι} {iset : ISet} {currentChild : Option ℕ} :
    (S frame.shape).ty = .user (.struct st) → frame.tracker = .struct iset currentChild →
    FieldsOf S frame st.fields (S frame.shape).hasDefaultInPlace
  | variant {et : EnumType ι} {variant : Variant ι} {variantIdx : ℕ} {iset : ISet}
    {currentChild : Option ℕ} :
    (S frame.shape).ty = .user (.enum et) → et.variants[variantIdx]? = some variant →
    frame.tracker = .enum variant variantIdx iset currentChild →
    FieldsOf S frame variant.data.fields false

/-- The two ways agree: on the outcome, and on running no validator. -/
structure CompletesAlike [DecidableEq ι] (frame : Frame ι P N) (plans : List (FieldInitPlan ι))
    (mem : Mem) : Prop where
  verdict : verdict (frame.completeByAttributes env mem) =
    verdict (frame.fillAndRequireFields env plans plans.length mem)
  validated : frame.fieldsValidated env plans plans.length mem = []

variable (defaults : ι → Bool)

/-- The rules agree on the fields of which those in `iset` are set. -/
structure RulesAgree (attributeDefault planDefault : Bool) (iset : ISet)
    (fields : List (Field ι × ℕ)) : Prop where
  /-- No field with validators is reached before a missing one. -/
  unvalidated : Unvalidated env.shapes (filledByPlan env defaults planDefault) iset fields
  /-- A default attribute on an unset field is on a type that has a default. -/
  defaulted : ∀ p ∈ fields, iset.get p.2 = false → p.1.default = some .fromTrait →
    defaults p.1.shape = true
  /-- Where a field is missing by the one rule, one is missing by the other. -/
  missing : (∃ p ∈ fields, Missing (filledByAttributes env defaults attributeDefault) iset p) ↔
    ∃ p ∈ fields, Missing (filledByPlan env defaults planDefault) iset p

/-- No field has validators or lacks a default, and the fields' defaults are what the struct's own
default is made of. -/
structure DefaultIsFieldwise (shape : ι) (data : P) (fields : List (Field ι)) (mem : Mem) :
    Prop where
  unvalidated : ∀ field ∈ fields, hasValidators env.shapes field = false
  filled : ∀ field ∈ fields, filledByPlan env defaults true field = true
  value : env.vtables.callDefaultInPlace shape data mem =
    some (writeDefaults env data fields.zipIdx mem)

/-- When the two ways agree on a frame. -/
def Frame.Agreeable (frame : Frame ι P N) (fields : List (Field ι)) (planDefault : Bool)
    (mem : Mem) : Prop :=
  let attributeDefault := (env.shapes frame.shape).hasDefaultAttr
  match frame.tracker with
  | .struct iset _ =>
    if fields ≠ [] ∧ defaults frame.shape = true ∧ ∀ i < fields.length, iset.get i = false then
      DefaultIsFieldwise env defaults frame.shape frame.data fields mem
    else RulesAgree env defaults attributeDefault planDefault iset fields.zipIdx
  | .enum _ _ iset _ => RulesAgree env defaults attributeDefault planDefault iset fields.zipIdx
  | _ =>
    frame.isInit = true ∨ defaults frame.shape = true ∨
      RulesAgree env defaults attributeDefault planDefault ∅ fields.zipIdx

variable {env defaults} {fields : List (Field ι)} {plans : List (FieldInitPlan ι)} {iset : ISet}
  {attributeDefault planDefault : Bool}

theorem pairwise_zipIdx (fields : List (Field ι)) :
    fields.zipIdx.Pairwise fun p q => p.2 < q.2 := by
  rw [← List.pairwise_map, List.zipIdx_map_snd]
  exact List.pairwise_lt_range'

theorem requireFields_eq_ok (shape : ι) (h : ∀ p ∈ fields.zipIdx, iset.get p.2 = true) :
    Frame.requireFields shape fields iset = .ok () := by
  unfold Frame.requireFields
  rw [List.find?_eq_none.mpr]
  intro p hp
  simp [h p hp]

theorem requireFields_eq_error (shape : ι) (h : ∃ p ∈ fields.zipIdx, iset.get p.2 = false) :
    ∃ name, Frame.requireFields shape fields iset = .error (.uninitializedField shape name) := by
  obtain ⟨p, hp, hunset⟩ := h
  unfold Frame.requireFields
  cases hfind : fields.zipIdx.find? fun p => !iset.get p.2 with
  | none =>
    have := List.find?_eq_none.mp hfind p hp
    simp [hunset] at this
  | some q => exact ⟨q.1.name, rfl⟩

theorem allSet_iff (iset : ISet) (fields : List (Field ι)) :
    iset.allSet fields.length = true ↔ ∀ p ∈ fields.zipIdx, iset.get p.2 = true := by
  unfold ISet.allSet
  rw [List.all_eq_true]
  constructor
  · intro h p hp
    apply h
    rw [List.mem_range]
    exact (List.getElem?_eq_some_iff.mp (List.mem_zipIdx_iff_getElem?.mp hp)).1
  · intro h i hi
    have hlt := List.mem_range.mp hi
    apply h (fields[i], i)
    rw [List.mem_zipIdx_iff_getElem?]
    exact List.getElem?_eq_getElem _

variable (env) in
/-- The fields of a frame by their attributes, and the check of them. -/
def fieldsByAttributes (shape : ι) (data : P) (containerHasDefault : Bool) (fields : List (Field ι))
    (iset : ISet) (finish : ISet → Frame ι P N) (mem : Mem) :
    Except (ReflectErrorKind ι) (Frame ι P N × Mem) := do
  let (iset, mem) ← Frame.fillFields env data containerHasDefault fields.zipIdx iset mem
  Frame.requireFields shape fields iset
  return (finish iset, mem)

variable (env) in
def fieldsByPlans (shape : ι) (data : P) (plans : List (FieldInitPlan ι)) (numFields : ℕ)
    (iset : ISet) (finish : ISet → Frame ι P N) (mem : Mem) :
    Except (ReflectErrorKind ι) (Frame ι P N × Mem) := do
  let (iset, mem) ← Frame.fillPlans env shape data (iset.allSet numFields) plans iset mem
  return (finish iset, mem)

/-- An unset field whose default attribute asks for what its type does not have. -/
def Undefaulted (defaults : ι → Bool) (iset : ISet) (p : Field ι × ℕ) : Prop :=
  iset.get p.2 = false ∧ p.1.default = some .fromTrait ∧ defaults p.1.shape = false

variable (env) in
theorem Undefaulted.hasDefault {p : Field ι × ℕ} (h : Undefaulted defaults iset p)
    (attributeDefault : Bool) : p.1.hasDefault = true ∧
      filledByAttributes env defaults attributeDefault p.1 = false := by
  unfold Field.hasDefault filledByAttributes
  rw [h.2.1]
  exact ⟨rfl, h.2.2⟩

theorem Undefaulted.missing {p : Field ι × ℕ} (h : Undefaulted defaults iset p)
    (planDefault : Bool) : Missing (filledByPlan env defaults planDefault) iset p := by
  refine ⟨h.1, ?_⟩
  unfold filledByPlan
  rw [h.2.1]
  exact h.2.2

/-- By the attributes: the fields without a default they ask for are refused. -/
theorem verdict_byAttributes_refused (h : DefaultsOf env defaults) (shape : ι) (data : P)
    (finish : ISet → Frame ι P N) (mem : Mem)
    (hundefaulted : ∃ p ∈ fields.zipIdx, Undefaulted defaults iset p) :
    verdict (fieldsByAttributes env shape data attributeDefault fields iset finish mem) =
      .refused := by
  obtain ⟨p, hp, hp'⟩ := hundefaulted
  have hno := hp'.hasDefault env attributeDefault
  obtain ⟨errorShape, herror⟩ := Frame.fillFields_error h data (pairwise_zipIdx fields)
    (fun _ _ => rfl) ⟨p, hp, hp'.1, hno⟩ mem
  unfold fieldsByAttributes
  rw [herror]
  rfl

theorem filledByAttributes_of_not_undefaulted {p : Field ι × ℕ} (attributeDefault : Bool)
    (h : ¬ Undefaulted defaults iset p) (hunset : iset.get p.2 = false)
    (hdefault : p.1.hasDefault = true) :
    filledByAttributes env defaults attributeDefault p.1 = true := by
  unfold filledByAttributes
  cases hsource : p.1.default with
  | none => simp [Field.hasDefault, hsource] at hdefault
  | some source =>
    cases source with
    | custom => rfl
    | fromTrait =>
      cases hdef : defaults p.1.shape with
      | true => rfl
      | false => exact absurd ⟨hunset, hsource, hdef⟩ h

theorem verdict_byAttributes_missing (h : DefaultsOf env defaults) (shape : ι) (data : P)
    (finish : ISet → Frame ι P N) (mem : Mem)
    (hdefaulted : ∀ p ∈ fields.zipIdx, ¬ Undefaulted defaults iset p)
    (hmissing : ∃ p ∈ fields.zipIdx,
      Missing (filledByAttributes env defaults attributeDefault) iset p) :
    verdict (fieldsByAttributes env shape data attributeDefault fields iset finish mem) =
      .missingField := by
  obtain ⟨isetAfter, hfill, hafter⟩ := Frame.fillFields_ok h data (pairwise_zipIdx fields)
    (fun _ _ => rfl)
    (fun p hp => filledByAttributes_of_not_undefaulted attributeDefault (hdefaulted p hp)) mem
  obtain ⟨p, hp, hunset, hno⟩ := hmissing
  have hstill : isetAfter.get p.2 = false := by
    rw [Bool.eq_false_iff]
    intro hset
    rcases (hafter p.2).mp hset with hset | ⟨q, hq, hidx, -, hfilled⟩
    · rw [hunset] at hset
      cases hset
    · have hfield : q.1 = p.1 := by
        have hq' := List.mem_zipIdx_iff_getElem?.mp hq
        rw [hidx, List.mem_zipIdx_iff_getElem?.mp hp] at hq'
        exact (Option.some.inj hq').symm
      rw [hfield, hno] at hfilled
      cases hfilled
  obtain ⟨name, herror⟩ := requireFields_eq_error shape ⟨p, hp, hstill⟩
  unfold fieldsByAttributes
  rw [hfill]
  simp only [bind, Except.bind]
  rw [herror]
  rfl

/-- By the attributes: and else the frame is accepted, with the defaults of the unset fields. -/
theorem verdict_byAttributes_accepted (h : DefaultsOf env defaults) (shape : ι) (data : P)
    (finish : ISet → Frame ι P N) (mem : Mem)
    (hdefaulted : ∀ p ∈ fields.zipIdx, ¬ Undefaulted defaults iset p)
    (hthere : ∀ p ∈ fields.zipIdx,
      ¬ Missing (filledByAttributes env defaults attributeDefault) iset p) :
    verdict (fieldsByAttributes env shape data attributeDefault fields iset finish mem) =
      .accepted (writeDefaults env data (fields.zipIdx.filter fun p => !iset.get p.2) mem) := by
  obtain ⟨isetAfter, hfill, hafter⟩ := Frame.fillFields_ok h data (pairwise_zipIdx fields)
    (fun _ _ => rfl)
    (fun p hp => filledByAttributes_of_not_undefaulted attributeDefault (hdefaulted p hp)) mem
  have hfilled : ∀ p ∈ fields.zipIdx, iset.get p.2 = false →
      filledByAttributes env defaults attributeDefault p.1 = true := by
    intro p hp hunset
    by_contra hno
    exact hthere p hp ⟨hunset, by simpa using hno⟩
  have hall : ∀ p ∈ fields.zipIdx, isetAfter.get p.2 = true := by
    intro p hp
    apply (hafter p.2).mpr
    cases hset : iset.get p.2 with
    | true => exact Or.inl rfl
    | false => exact Or.inr ⟨p, hp, rfl, hset, hfilled p hp hset⟩
  unfold fieldsByAttributes
  rw [hfill]
  simp only [bind, Except.bind]
  rw [requireFields_eq_ok shape hall]
  simp only [verdict, pure, Except.pure]
  congr 2
  apply List.filter_congr
  intro p hp
  cases hset : iset.get p.2 with
  | true => rfl
  | false => simp [hfilled p hp hset]

theorem verdict_byPlans_missing (h : DefaultsOf env defaults) (shape : ι) (data : P)
    (hplans : buildFieldPlans env.shapes planDefault fields = .ok plans)
    (finish : ISet → Frame ι P N) (mem : Mem)
    (hquiet : Unvalidated env.shapes (filledByPlan env defaults planDefault) iset fields.zipIdx)
    (hmissing : ∃ p ∈ fields.zipIdx, Missing (filledByPlan env defaults planDefault) iset p) :
    verdict (fieldsByPlans env shape data plans fields.length iset finish mem) =
      .missingField := by
  obtain ⟨name, herror⟩ := Frame.fillPlans_missing h shape data
    (ExceptList.forall₂_of_mapM_ok hplans) (pairwise_zipIdx fields) (fun _ _ => rfl)
    (allSet_iff iset fields).mp hquiet hmissing mem
  unfold fieldsByPlans
  rw [herror]
  rfl

theorem verdict_byPlans_accepted (h : DefaultsOf env defaults) (shape : ι) (data : P)
    (hplans : buildFieldPlans env.shapes planDefault fields = .ok plans)
    (finish : ISet → Frame ι P N) (mem : Mem)
    (hquiet : Unvalidated env.shapes (filledByPlan env defaults planDefault) iset fields.zipIdx)
    (hthere : ∀ p ∈ fields.zipIdx, ¬ Missing (filledByPlan env defaults planDefault) iset p) :
    verdict (fieldsByPlans env shape data plans fields.length iset finish mem) =
      .accepted (writeDefaults env data (fields.zipIdx.filter fun p => !iset.get p.2) mem) := by
  obtain ⟨isetAfter, hfill⟩ := Frame.fillPlans_ok h shape data
    (ExceptList.forall₂_of_mapM_ok hplans) (pairwise_zipIdx fields) (fun _ _ => rfl)
    (allSet_iff iset fields).mp hquiet hthere mem
  unfold fieldsByPlans
  rw [hfill]
  rfl

/-- The two ways agree on a list of fields exactly when the rules do. -/
theorem fields_agree_iff (h : DefaultsOf env defaults) (shape : ι) (data : P)
    (hplans : buildFieldPlans env.shapes planDefault fields = .ok plans)
    (finish finish' : ISet → Frame ι P N) (mem : Mem) :
    verdict (fieldsByAttributes env shape data attributeDefault fields iset finish mem) =
        verdict (fieldsByPlans env shape data plans fields.length iset finish' mem) ∧
      Frame.validatedFields env shape data (iset.allSet fields.length) plans iset mem = [] ↔
    RulesAgree env defaults attributeDefault planDefault iset fields.zipIdx := by
  rw [Frame.validatedFields_eq_nil_iff h shape data (ExceptList.forall₂_of_mapM_ok hplans)
    (pairwise_zipIdx fields) (fun _ _ => rfl) (allSet_iff iset fields).mp mem]
  constructor
  · rintro ⟨hverdict, hquiet⟩
    have hplansVerdict := verdict_byPlans_missing h shape data hplans finish' mem hquiet
    have hplansAccepted := verdict_byPlans_accepted h shape data hplans finish' mem hquiet
    have hdefaulted : ∀ p ∈ fields.zipIdx, ¬ Undefaulted defaults iset p := by
      intro p hp hundefaulted
      rw [verdict_byAttributes_refused h shape data finish mem ⟨p, hp, hundefaulted⟩,
        hplansVerdict ⟨p, hp, hundefaulted.missing planDefault⟩] at hverdict
      cases hverdict
    refine ⟨hquiet, ?_, ?_⟩
    · intro p hp hunset hsource
      by_contra hdef
      exact hdefaulted p hp ⟨hunset, hsource, by simpa using hdef⟩
    · constructor
      · intro hmissing
        by_contra hthere
        rw [verdict_byAttributes_missing h shape data finish mem hdefaulted hmissing,
          hplansAccepted fun p hp hp' => hthere ⟨p, hp, hp'⟩] at hverdict
        cases hverdict
      · intro hmissing
        by_contra hthere
        rw [verdict_byAttributes_accepted h shape data finish mem hdefaulted
          fun p hp hp' => hthere ⟨p, hp, hp'⟩, hplansVerdict hmissing] at hverdict
        cases hverdict
  · intro hagree
    refine ⟨?_, hagree.unvalidated⟩
    have hdefaulted : ∀ p ∈ fields.zipIdx, ¬ Undefaulted defaults iset p := by
      intro p hp hundefaulted
      have := hagree.defaulted p hp hundefaulted.1 hundefaulted.2.1
      rw [hundefaulted.2.2] at this
      cases this
    by_cases hmissing : ∃ p ∈ fields.zipIdx,
        Missing (filledByAttributes env defaults attributeDefault) iset p
    · rw [verdict_byAttributes_missing h shape data finish mem hdefaulted hmissing,
        verdict_byPlans_missing h shape data hplans finish' mem hagree.unvalidated
          (hagree.missing.mp hmissing)]
    · rw [verdict_byAttributes_accepted h shape data finish mem hdefaulted
          fun p hp hp' => hmissing ⟨p, hp, hp'⟩,
        verdict_byPlans_accepted h shape data hplans finish' mem hagree.unvalidated
          fun p hp hp' => hmissing (hagree.missing.mpr ⟨p, hp, hp'⟩)]

theorem length_of_buildFieldPlans {S : Shapes ι}
    (hplans : buildFieldPlans S planDefault fields = .ok plans) : plans.length = fields.length := by
  rw [← (ExceptList.forall₂_of_mapM_ok hplans).length_eq, List.length_zipIdx]

section Frames

variable {frame : Frame ι P N} {st : StructType ι} {currentChild : Option ℕ}

theorem allUnset_iff (iset : ISet) (n : ℕ) :
    ((List.range n).all fun i => !iset.get i) = true ↔ ∀ i < n, iset.get i = false := by
  simp [List.all_eq_true]

theorem fieldsByAttributes_of_allSet (h : DefaultsOf env defaults) (shape : ι) (data : P)
    (finish : ISet → Frame ι P N) (mem : Mem) (hall : iset.allSet fields.length = true) :
    verdict (fieldsByAttributes env shape data attributeDefault fields iset finish mem) =
      .accepted mem := by
  have hset := (allSet_iff iset fields).mp hall
  rw [verdict_byAttributes_accepted h]
  · rw [List.filter_eq_nil_iff.mpr]
    · rfl
    · intro p hp
      simp [hset p hp]
  · intro p hp hp'
    exact absurd (hset p hp) (by simp [hp'.1])
  · intro p hp hp'
    exact absurd (hset p hp) (by simp [hp'.1])

theorem fillDefaults_of_tracked (htracker : frame.tracker.isScalar = false) (mem : Mem) :
    frame.fillDefaults env mem = frame.fillTracked env mem := by
  unfold Frame.fillDefaults Frame.fillUntouched Frame.trackFields
  simp [htracker]

variable [DecidableEq ι]

theorem completeByAttributes_struct (h : DefaultsOf env defaults)
    (hty : (env.shapes frame.shape).ty = .user (.struct st))
    (htracker : frame.tracker = .struct iset currentChild)
    (hnot : ¬ (st.fields ≠ [] ∧ defaults frame.shape = true ∧
      ∀ i < st.fields.length, iset.get i = false)) (mem : Mem) :
    verdict (frame.completeByAttributes env mem) =
      verdict (fieldsByAttributes env frame.shape frame.data (env.shapes frame.shape).hasDefaultAttr
        st.fields iset (fun iset => { frame with tracker := .struct iset currentChild }) mem) := by
  unfold Frame.completeByAttributes
  rw [fillDefaults_of_tracked (by rw [htracker]; rfl)]
  unfold Frame.fillTracked
  rw [htracker, hty]
  simp only
  cases hall : iset.allSet st.fields.length with
  | true =>
    rw [fieldsByAttributes_of_allSet h _ _ _ _ hall]
    simp only [if_true, bind, Except.bind, Frame.requireFullInitialization, htracker, hty]
    rw [requireFields_eq_ok frame.shape ((allSet_iff iset st.fields).mp hall)]
    rfl
  | false =>
    have hnone : (if ((List.range st.fields.length).all fun i => !iset.get i) = true then
        env.vtables.callDefaultInPlace frame.shape frame.data mem else none) = none := by
      split
      · next hunset =>
        have hfields : st.fields ≠ [] := by
          intro hnil
          rw [hnil] at hall
          cases hall
        rw [h.callDefaultInPlace, if_neg]
        intro hdef
        exact hnot ⟨hfields, hdef, (allUnset_iff iset _).mp hunset⟩
      · rfl
    simp only [Bool.false_eq_true, if_false]
    rw [hnone]
    unfold fieldsByAttributes
    simp only
    cases Frame.fillFields env frame.data (env.shapes frame.shape).hasDefaultAttr st.fields.zipIdx
        iset mem with
    | error e => rfl
    | ok filled =>
      simp only [bind, Except.bind, pure, Except.pure, Frame.requireFullInitialization, hty]

/-- A struct of which no field is set gets its own default. -/
theorem completeByAttributes_default
    (hty : (env.shapes frame.shape).ty = .user (.struct st))
    (htracker : frame.tracker = .struct iset currentChild) (hfields : st.fields ≠ [])
    (hunset : ∀ i < st.fields.length, iset.get i = false) {mem memAfter : Mem}
    (hdefault : env.vtables.callDefaultInPlace frame.shape frame.data mem = some memAfter) :
    verdict (frame.completeByAttributes env mem) = .accepted memAfter := by
  have hall : iset.allSet st.fields.length = false := by
    rw [Bool.eq_false_iff]
    intro hall
    obtain ⟨field, fields, hcons⟩ := List.exists_cons_of_ne_nil hfields
    have hzero := hunset 0 (by simp [hcons])
    have := (allSet_iff iset st.fields).mp hall (field, 0) (by simp [hcons])
    rw [hzero] at this
    cases this
  unfold Frame.completeByAttributes
  rw [fillDefaults_of_tracked (by rw [htracker]; rfl)]
  unfold Frame.fillTracked
  rw [htracker, hty]
  simp only [hall, Bool.false_eq_true, if_false, (allUnset_iff iset _).mpr hunset, if_true]
  rw [hdefault]
  rfl

theorem completeByAttributes_variant (h : DefaultsOf env defaults) {variant : Variant ι}
    {variantIdx : ℕ} (htracker : frame.tracker = .enum variant variantIdx iset currentChild)
    (mem : Mem) :
    verdict (frame.completeByAttributes env mem) =
      verdict (fieldsByAttributes env frame.shape frame.data (env.shapes frame.shape).hasDefaultAttr
        variant.data.fields iset
        (fun iset => { frame with tracker := .enum variant variantIdx iset currentChild }) mem) := by
  unfold Frame.completeByAttributes
  rw [fillDefaults_of_tracked (by rw [htracker]; rfl)]
  unfold Frame.fillTracked
  rw [htracker]
  simp only
  by_cases hall : variant.data.fields.length = 0 ∨ iset.allSet variant.data.fields.length = true
  · have hset : iset.allSet variant.data.fields.length = true := by
      rcases hall with hzero | hset
      · rw [hzero]
        rfl
      · exact hset
    rw [if_pos hall, fieldsByAttributes_of_allSet h _ _ _ _ hset]
    simp only [bind, Except.bind, Frame.requireFullInitialization, htracker]
    rw [requireFields_eq_ok frame.shape ((allSet_iff iset variant.data.fields).mp hset)]
    rfl
  · rw [if_neg hall]
    unfold fieldsByAttributes
    cases Frame.fillFields env frame.data (env.shapes frame.shape).hasDefaultAttr
        variant.data.fields.zipIdx iset mem with
    | error e => rfl
    | ok filled => simp only [bind, Except.bind, pure, Except.pure, Frame.requireFullInitialization]

/-- A frame of a struct that was set as a whole is complete. -/
theorem completeByAttributes_whole (htracker : frame.tracker = .scalar)
    (hinit : frame.isInit = true) (mem : Mem) :
    verdict (frame.completeByAttributes env mem) = .accepted mem := by
  unfold Frame.completeByAttributes Frame.fillDefaults Frame.fillUntouched Frame.trackFields
    Frame.fillTracked
  simp [hinit, htracker, bind, Except.bind, Frame.requireFullInitialization, verdict]

/-- One that was never touched gets its own default, or is as if no field were set. -/
theorem completeByAttributes_untouched (h : DefaultsOf env defaults)
    (hty : (env.shapes frame.shape).ty = .user (.struct st))
    (htracker : frame.tracker = .scalar) (hinit : frame.isInit = false) (mem : Mem) :
    verdict (frame.completeByAttributes env mem) =
      match env.vtables.callDefaultInPlace frame.shape frame.data mem with
      | some mem => .accepted mem
      | none => verdict (fieldsByAttributes env frame.shape frame.data
          (env.shapes frame.shape).hasDefaultAttr st.fields (ISet.new st.fields.length)
          (fun iset => { frame with tracker := .struct iset none }) mem) := by
  have hdef := h.callDefaultInPlace frame.shape frame.data mem
  cases hdefault : env.vtables.callDefaultInPlace frame.shape frame.data mem with
  | some memAfter =>
    unfold Frame.completeByAttributes Frame.fillDefaults Frame.fillUntouched
    simp only [hinit, htracker, hty, hdefault, Tracker.isScalar, Bool.not_false, Bool.and_self,
      if_true, Option.map_some]
    simp only [bind, Except.bind, Frame.requireFullInitialization, if_true, verdict]
  | none =>
    obtain ⟨tracked, htracked⟩ : ∃ tracked : Frame ι P N,
        tracked = { frame with tracker := .struct (ISet.new st.fields.length) none } := ⟨_, rfl⟩
    have hshape : tracked.shape = frame.shape := by rw [htracked]
    have hstruct : tracked.tracker = .struct (ISet.new st.fields.length) none := by rw [htracked]
    have hnot : ¬ (st.fields ≠ [] ∧ defaults tracked.shape = true ∧
        ∀ i < st.fields.length, (ISet.new st.fields.length).get i = false) := by
      rintro ⟨-, hdefaults, -⟩
      rw [hshape] at hdefaults
      rw [hdefault, if_pos hdefaults] at hdef
      cases hdef
    have hverdict := completeByAttributes_struct h (hshape ▸ hty) hstruct hnot mem
    unfold Frame.completeByAttributes at hverdict ⊢
    rw [fillDefaults_of_tracked (by rw [hstruct]; rfl), htracked] at hverdict
    have huntouched : (!frame.isInit && frame.tracker.isScalar) = true := by
      simp [hinit, htracker, Tracker.isScalar]
    unfold Frame.fillDefaults Frame.fillUntouched Frame.trackFields
    rw [if_pos huntouched, if_pos huntouched, hty]
    simp only [hdefault, Option.map_none]
    exact hverdict

end Frames

section Plans

variable {frame : Frame ι P N} {st : StructType ι} {currentChild : Option ℕ}

theorem fillAndRequireFields_struct (htracker : frame.tracker = .struct iset currentChild)
    (numFields : ℕ) (mem : Mem) :
    frame.fillAndRequireFields env plans numFields mem =
      fieldsByPlans env frame.shape frame.data plans numFields iset
        (fun iset => { frame with tracker := .struct iset currentChild }) mem := by
  unfold Frame.fillAndRequireFields
  simp only [htracker, Tracker.isScalar, Bool.and_false, Bool.false_and, Bool.false_eq_true,
    if_false]
  rfl

theorem fillAndRequireFields_variant {variant : Variant ι} {variantIdx : ℕ}
    (htracker : frame.tracker = .enum variant variantIdx iset currentChild)
    (numFields : ℕ) (mem : Mem) :
    frame.fillAndRequireFields env plans numFields mem =
      fieldsByPlans env frame.shape frame.data plans numFields iset
        (fun iset => { frame with tracker := .enum variant variantIdx iset currentChild }) mem := by
  unfold Frame.fillAndRequireFields
  simp only [htracker, Tracker.isScalar, Bool.and_false, Bool.false_and, Bool.false_eq_true,
    if_false]
  rfl

theorem fillAndRequireFields_whole (htracker : frame.tracker = .scalar)
    (hinit : frame.isInit = true) (numFields : ℕ) (mem : Mem) :
    frame.fillAndRequireFields env plans numFields mem = .ok (frame, mem) := by
  unfold Frame.fillAndRequireFields
  simp only [hinit, htracker, Bool.not_true, Bool.false_and, Bool.false_eq_true, if_false]

theorem fillAndRequireFields_untouched
    (hty : (env.shapes frame.shape).ty = .user (.struct st))
    (htracker : frame.tracker = .scalar) (hinit : frame.isInit = false) (numFields : ℕ)
    (mem : Mem) :
    verdict (frame.fillAndRequireFields env plans numFields mem) =
      match env.vtables.callDefaultInPlace frame.shape frame.data mem with
      | some mem => .accepted mem
      | none => verdict (fieldsByPlans env frame.shape frame.data plans numFields
          (ISet.new numFields) (fun iset => { frame with tracker := .struct iset none }) mem) := by
  unfold Frame.fillAndRequireFields
  simp only [hinit, htracker, hty, Tracker.isScalar, Bool.not_false, Bool.and_self, if_true]
  cases env.vtables.callDefaultInPlace frame.shape frame.data mem with
  | some memAfter => rfl
  | none => rfl

end Plans

section Agreement

variable [DecidableEq ι] {frame : Frame ι P N}

omit [DecidableEq ι] in
/-- The default of a struct, against the plans of its fields with none of them set. -/
theorem default_agrees_iff (h : DefaultsOf env defaults) (shape : ι) (data : P)
    (hplans : buildFieldPlans env.shapes true fields = .ok plans)
    (hunset : ∀ i < fields.length, iset.get i = false) (finish : ISet → Frame ι P N)
    {mem memAfter : Mem} (hdefault : env.vtables.callDefaultInPlace shape data mem = some memAfter) :
    .accepted memAfter =
        verdict (fieldsByPlans env shape data plans fields.length iset finish mem) ∧
      Frame.validatedFields env shape data (iset.allSet fields.length) plans iset mem = [] ↔
    DefaultIsFieldwise env defaults shape data fields mem := by
  have hnone : ∀ p ∈ fields.zipIdx, iset.get p.2 = false := by
    intro p hp
    exact hunset p.2 (List.getElem?_eq_some_iff.mp (List.mem_zipIdx_iff_getElem?.mp hp)).1
  have hfilter : (fields.zipIdx.filter fun p => !iset.get p.2) = fields.zipIdx := by
    apply List.filter_eq_self.mpr
    intro p hp
    simp [hnone p hp]
  have hfield {field : Field ι} (hfield : field ∈ fields) : ∃ i, (field, i) ∈ fields.zipIdx := by
    obtain ⟨i, hi, rfl⟩ := List.mem_iff_getElem.mp hfield
    exact ⟨i, List.mem_zipIdx_iff_getElem?.mpr (List.getElem?_eq_getElem hi)⟩
  rw [Frame.validatedFields_eq_nil_iff h shape data (ExceptList.forall₂_of_mapM_ok hplans)
    (pairwise_zipIdx fields) (fun _ _ => rfl) (allSet_iff iset fields).mp mem]
  constructor
  · rintro ⟨hverdict, hquiet⟩
    have hthere : ∀ p ∈ fields.zipIdx, ¬ Missing (filledByPlan env defaults true) iset p := by
      intro p hp hmissing
      rw [verdict_byPlans_missing h shape data hplans finish mem hquiet ⟨p, hp, hmissing⟩]
        at hverdict
      cases hverdict
    rw [verdict_byPlans_accepted h shape data hplans finish mem hquiet hthere, hfilter] at hverdict
    refine ⟨?_, ?_, ?_⟩
    · intro field hmem
      obtain ⟨i, hi⟩ := hfield hmem
      rw [Bool.eq_false_iff]
      intro hhas
      obtain ⟨q, hq, -, hq'⟩ := hquiet (field, i) hi hhas
      exact hthere q hq hq'
    · intro field hmem
      obtain ⟨i, hi⟩ := hfield hmem
      by_contra hno
      exact hthere (field, i) hi ⟨hnone _ hi, by simpa using hno⟩
    · rw [hdefault]
      cases hverdict
      rfl
  · intro hfieldwise
    have hquiet : Unvalidated env.shapes (filledByPlan env defaults true) iset fields.zipIdx := by
      intro p hp hhas
      rw [hfieldwise.unvalidated p.1 (List.mem_of_getElem? (List.mem_zipIdx_iff_getElem?.mp hp))]
        at hhas
      cases hhas
    refine ⟨?_, hquiet⟩
    rw [verdict_byPlans_accepted h shape data hplans finish mem hquiet, hfilter]
    · rw [hfieldwise.value] at hdefault
      cases hdefault
      rfl
    · intro p hp hmissing
      have := hfieldwise.filled p.1
        (List.mem_of_getElem? (List.mem_zipIdx_iff_getElem?.mp hp))
      rw [hmissing.2] at this
      cases this

/-- The two ways of completing a frame of fields agree exactly when the rules do on its fields: no
validator is reached, no default attribute is in vain, and the rules do not part over whether a
field is missing; or, where no field of a struct with a default is tracked as set, when that default
is made of the defaults of the fields. -/
theorem completesAlike_iff (h : DefaultsOf env defaults)
    (hframe : FieldsOf env.shapes frame fields planDefault)
    (hplans : buildFieldPlans env.shapes planDefault fields = .ok plans) (mem : Mem) :
    CompletesAlike env frame plans mem ↔
      frame.Agreeable env defaults fields planDefault mem := by
  have hboth : CompletesAlike env frame plans mem ↔
      verdict (frame.completeByAttributes env mem) =
          verdict (frame.fillAndRequireFields env plans fields.length mem) ∧
        frame.fieldsValidated env plans fields.length mem = [] := by
    rw [← length_of_buildFieldPlans hplans]
    exact ⟨fun h => ⟨h.verdict, h.validated⟩, fun h => ⟨h.1, h.2⟩⟩
  rw [hboth]
  cases hframe with
  | @untracked st hty htracker =>
    unfold Frame.fieldsValidated Frame.Agreeable
    simp only [htracker]
    cases hinit : frame.isInit with
    | true =>
      rw [completeByAttributes_whole htracker hinit, fillAndRequireFields_whole htracker hinit]
      simp [verdict]
    | false =>
      have hdef := h.callDefaultInPlace frame.shape frame.data mem
      rw [completeByAttributes_untouched h hty htracker hinit,
        fillAndRequireFields_untouched hty htracker hinit]
      cases hdefaults : defaults frame.shape with
      | true =>
        rw [if_pos hdefaults] at hdef
        rw [hdef]
        simp
      | false =>
        rw [if_neg (by simp [hdefaults])] at hdef
        rw [hdef]
        simp only [Option.isSome_none, Bool.or_self, Bool.false_eq_true, if_false, false_or]
        exact fields_agree_iff h _ _ hplans _ _ mem
  | @struct st iset currentChild hty htracker =>
    rw [fillAndRequireFields_struct htracker]
    unfold Frame.fieldsValidated Frame.Agreeable
    simp only [htracker]
    by_cases hwhole : st.fields ≠ [] ∧ defaults frame.shape = true ∧
        ∀ i < st.fields.length, iset.get i = false
    · obtain ⟨hfields, hdefaults, hunset⟩ := hwhole
      have hdef := h.callDefaultInPlace frame.shape frame.data mem
      rw [if_pos hdefaults] at hdef
      rw [if_pos ⟨hfields, hdefaults, hunset⟩,
        completeByAttributes_default hty htracker hfields hunset hdef]
      rw [h.hasFunction frame.shape hdefaults] at hplans
      exact default_agrees_iff h _ _ hplans hunset _ hdef
    · rw [if_neg hwhole, completeByAttributes_struct h hty htracker hwhole]
      exact fields_agree_iff h _ _ hplans _ _ mem
  | variant hty hvariant htracker =>
    rw [completeByAttributes_variant h htracker, fillAndRequireFields_variant htracker]
    unfold Frame.fieldsValidated Frame.Agreeable
    rw [htracker]
    exact fields_agree_iff h _ _ hplans _ _ mem

end Agreement

inductive SignupShape
  | signup
  | age
  deriving DecidableEq, Repr

def age : Field SignupShape :=
  { name := "age", shape := .age, validations := [⟨"min", .i64 18⟩] }

def signupShapes : Shapes SignupShape
  | .signup => { ty := .user (.struct ⟨.struct, [age]⟩), «def» := .undefined }
  | .age =>
    { ty := .primitive .numeric, «def» := .scalar, scalarType := some .u8, size := 1,
      hasDefaultInPlace := true }

/-- A pointer to a byte; nothing else is read through it. -/
def bytePtr (byte : UInt8) : FieldPtr where
  get
    | .u8 => byte
    | .f32 | .f64 => Number.finite 0
    | .i8 => (0 : Int8)
    | .i16 => (0 : Int16)
    | .i32 => (0 : Int32)
    | .i64 => (0 : Int64)
    | .isize => (0 : ISize)
    | .i128 | .u128 => (0 : BitVec 128)
    | .u16 => (0 : UInt16)
    | .u32 => (0 : UInt32)
    | .u64 => (0 : UInt64)
    | .usize => (0 : USize)
    | .str | .string | .cowStr => ""
    | .unit | .bool | .char | .socketAddr | .ipAddr | .ipv4Addr | .ipv6Addr | .constTypeId => ()

abbrev Bytes := ℕ → UInt8

def Bytes.write (mem : Bytes) (ptr : ℕ) (byte : UInt8) : Bytes :=
  fun i => if i = ptr then byte else mem i

/-- A memory of bytes; the types here have no vtables beyond a default of the age. -/
def signupVtables : Vtables SignupShape ℕ Bytes where
  fieldUninit ptr offset := ptr + offset
  alloc _ mem := (0, mem)
  dealloc _ _ mem := mem
  copyNonoverlapping src dst _ mem := Bytes.write mem dst (mem src)
  callDropInPlace _ _ mem := mem
  callDefaultInPlace shape ptr mem :=
    match shape with
    | .signup => none
    | .age => some (Bytes.write mem ptr 0)
  defaultFn _ _ mem := mem
  readField ptr mem := bytePtr (mem ptr)
  validators := silentEnv
  writeDiscriminant _ _ _ mem := mem
  list _ := ⟨none, fun _ _ => 0, none⟩
  option _ := ⟨fun _ _ mem => mem, fun _ _ => none⟩
  result _ := ⟨fun _ _ mem => mem, fun _ _ mem => mem⟩
  pointer _ :=
    ⟨none, none, none, false,
      ⟨fun mem => (0, mem), fun _ _ mem => mem, fun _ mem => (0, mem), fun _ mem => mem⟩, none⟩
  dynamicValue _ :=
    ⟨fun _ mem => mem, fun _ mem => mem, fun _ _ _ mem => .ok mem, fun _ _ mem => mem,
      fun _ _ _ mem => mem⟩
  mapInsert _ _ _ _ mem := mem
  setInsert _ _ _ mem := mem
  writeString _ _ _ mem := mem
  tryFrom _ _ _ _ mem := (.unsupported, mem)
  convertIn _ _ ptr mem := (.ok ptr, mem)
  fieldProxy _ := none
  nextSlot _ _ mem := (0, mem)
  freeChunks _ mem := mem
  isStr _ := false
  isString _ := false
  isUnit _ := false
  string := .signup
  parse _ := none

def signupEnv : Env SignupShape ℕ ℕ Bytes where
  shapes := signupShapes
  vtables := signupVtables
  plan :=
    ⟨fun _ => .other, fun _ _ => none, fun _ _ _ => none, fun _ => none, fun _ => none,
      fun _ => none, fun _ => none, fun _ => none⟩

/-- A signup whose age is set. -/
def signupFrame : Frame SignupShape ℕ ℕ :=
  { data := 0, shape := .signup, allocatedSize := 1, isInit := false, tracker := .struct {0} none,
    ownership := .owned, typePlan := 0 }

def agePlan : FieldInitPlan SignupShape :=
  { index := 0, offset := 0, name := "age", fillRule := .required,
    validators := [.min 18 .u8] }

theorem defaultsOf_signup : DefaultsOf signupEnv (fun shape => shape = .age) where
  isSome shape ptr mem := by cases shape <;> rfl
  hasFunction shape h := by
    cases shape with
    | signup => cases h
    | age => rfl

def signupType : StructType SignupShape := ⟨.struct, [age]⟩

theorem fieldsOf_signup : FieldsOf signupEnv.shapes signupFrame signupType.fields false :=
  .struct rfl rfl

theorem completesAlike_iff_signup :
    CompletesAlike signupEnv signupFrame [agePlan] (fun _ => 7) ↔
      signupFrame.Agreeable signupEnv (fun shape => shape = .age) signupType.fields false
        fun _ => 7 :=
  completesAlike_iff defaultsOf_signup fieldsOf_signup rfl _

/-- An age of 7 is refused by the plans, and accepted by the attributes. -/
theorem signup_not_completesAlike :
    ¬ ∀ (frame : Frame SignupShape ℕ ℕ) (fields : List (Field SignupShape)) (planDefault : Bool)
      (plans : List (FieldInitPlan SignupShape)) (mem : Bytes),
      FieldsOf signupEnv.shapes frame fields planDefault →
      buildFieldPlans signupEnv.shapes planDefault fields = .ok plans →
      CompletesAlike signupEnv frame plans mem := by
  intro h
  have hverdict := (h signupFrame signupType.fields false [agePlan] (fun _ => 7) fieldsOf_signup
    rfl).verdict
  have hdiffer : Verdict.accepted (fun _ => 7 : Bytes) = .refused := hverdict
  cases hdiffer

end Facet.Frames
