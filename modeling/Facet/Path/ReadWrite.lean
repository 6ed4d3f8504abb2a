import Facet.Path.Access

/-!
# Reading and writing reach the same places

Where a step for writing succeeds it leads where the step for reading leads. Fields,
variants, indices and the inside of an option are also refused alike, except that no
mutable index leads into a list whose vtable has none.
-/

namespace Facet.Path

variable {ι : Type}

/-- The steps that can be taken for writing. -/
def PathStep.Direct : PathStep → Prop
  | .field _ | .variant _ | .index _ | .optionSome => True
  | _ => False

namespace Runtime

variable (R : Runtime ι)

/-- A list that cannot be changed in place, such as `Bytes`. -/
def Immutable (s : ι) : Prop :=
  match (R.shapes s).def with
  | .list _ => R.listGetMut s = none
  | _ => False

section Steps

variable {R} {loc : Location ι} {i : ℕ}

theorem applyStepMut_field (idx : ℕ) :
    R.applyStepMut loc (.field idx) i = R.applyStep loc (.field idx) i := by
  unfold applyStepMut applyStep
  cases hty : (R.shapes loc.shape).ty with
  | user uty =>
    cases uty with
    | enum ed =>
      simp only [R.variantIndexFromRaw_eq hty, PeekEnum.field]
      cases hactive : R.variantIndex loc ed with
      | error e => rfl
      | ok active =>
        cases hvariant : ed.variants[active]? with
        | none => simp [Except.mapError, hvariant, bind, Except.bind]
        | some variant =>
          simp only [Except.mapError, hvariant, bind, Except.bind]
          split_ifs with hidx
          · rw [List.getElem?_eq_none hidx]
            rfl
          · rfl
    | _ => rfl
  | _ => rfl

theorem applyStepMut_variant (expected : ℕ) :
    R.applyStepMut loc (.variant expected) i = R.applyStep loc (.variant expected) i := by
  unfold applyStepMut applyStep
  cases hty : (R.shapes loc.shape).ty with
  | user uty =>
    cases uty with
    | enum ed => simp only [R.variantIndexFromRaw_eq hty]
    | _ => rfl
  | _ => rfl

theorem applyStepMut_index (idx : ℕ) (h : ¬ R.Immutable loc.shape) :
    R.applyStepMut loc (.index idx) i = R.applyStep loc (.index idx) i := by
  unfold applyStepMut applyStep
  cases hdef : (R.shapes loc.shape).def with
  | list t =>
    cases hget : R.listGetMut loc.shape with
    | none =>
      rw [Immutable, hdef] at h
      exact absurd hget h
    | some getMut => simp only [R.getMut_eq loc.shape getMut hget]
  | array t n =>
    have helement := R.element_sized loc.shape
    rw [hdef] at helement
    have hsized : R.sizedLayout t = some (R.shapes t).size := if_pos helement
    simp only [hsized, PeekListLike.get, R.asPtr_eq]
    split_ifs with hidx
    · rfl
    · rw [Nat.mul_comm]
      rfl
  | _ => rfl

theorem applyStepMut_immutable (idx : ℕ) (h : R.Immutable loc.shape) :
    R.applyStepMut loc (.index idx) i
      = .error (.error (.wrongStepKind (.index idx) i loc.shape)) := by
  rw [Immutable] at h
  cases hdef : (R.shapes loc.shape).def with
  | list t =>
    rw [hdef] at h
    simp only [applyStepMut, hdef, h]
  | _ => simp [hdef] at h

/-- An offset taken from a base leads back when it is added to it. -/
theorem Address.field_sub (base inner : Address) : base.field (inner - base).toNat = inner := by
  rw [Address.field, BitVec.ofNat_toNat, BitVec.setWidth_eq]
  rw [BitVec.add_comm, BitVec.sub_add_cancel]

theorem applyStepMut_optionSome :
    R.applyStepMut loc .optionSome i = R.applyStep loc .optionSome i := by
  unfold applyStepMut applyStep
  cases hdef : (R.shapes loc.shape).def with
  | option t =>
    simp only [R.isSome_eq]
    cases hvalue : R.optionGetValue loc.shape loc.data with
    | none => rfl
    | some inner =>
      simp only [Option.isSome_some, Address.field_sub]
      rfl
  | _ => rfl

theorem applyStepMut_eq {step : PathStep} (hdirect : step.Direct)
    (hmut : ∀ idx, step = .index idx → ¬ R.Immutable loc.shape) :
    R.applyStepMut loc step i = R.applyStep loc step i := by
  cases step with
  | field idx => exact applyStepMut_field idx
  | variant idx => exact applyStepMut_variant idx
  | index idx => exact applyStepMut_index idx (hmut idx rfl)
  | optionSome => exact applyStepMut_optionSome
  | _ => exact hdirect.elim

theorem direct_of_applyStepMut {step : PathStep} {next : Location ι}
    (h : R.applyStepMut loc step i = .ok next) : step.Direct := by
  cases step with
  | field | variant | index | optionSome => trivial
  | mapKey | mapValue | deref =>
    unfold applyStepMut at h
    cases hdef : (R.shapes loc.shape).def with
    | _ => simp [hdef] at h
  | inner | proxy => cases h

theorem applyStep_of_applyStepMut {step : PathStep} {next : Location ι}
    (h : R.applyStepMut loc step i = .ok next) : R.applyStep loc step i = .ok next := by
  rw [← applyStepMut_eq (direct_of_applyStepMut h)]
  · exact h
  · rintro idx rfl himm
    rw [applyStepMut_immutable idx himm] at h
    cases h

end Steps

section Runs

variable {R} {loc : Location ι} {i : ℕ}

theorem applySteps_cons_ok {apply : Location ι → PathStep → ℕ → Access ι (Location ι)}
    {step : PathStep} {next : Location ι} (h : apply loc step i = .ok next)
    (steps : List PathStep) :
    applySteps apply loc i (step :: steps) = applySteps apply next (i + 1) steps := by
  rw [applySteps, h]
  rfl

theorem applySteps_cons_error {apply : Location ι → PathStep → ℕ → Access ι (Location ι)}
    {step : PathStep} {e : Failure (PathAccessError ι)} (h : apply loc step i = .error e)
    (steps : List PathStep) : applySteps apply loc i (step :: steps) = .error e := by
  rw [applySteps, h]
  rfl

theorem applySteps_of_applyStepMut {steps : List PathStep} {last : Location ι}
    (h : applySteps R.applyStepMut loc i steps = .ok last) :
    applySteps R.applyStep loc i steps = .ok last := by
  induction steps generalizing loc i with
  | nil => exact h
  | cons step steps ih =>
    cases hstep : R.applyStepMut loc step i with
    | error e =>
      rw [applySteps_cons_error hstep] at h
      cases h
    | ok next =>
      rw [applySteps_cons_ok hstep] at h
      rw [applySteps_cons_ok (applyStep_of_applyStepMut hstep)]
      exact ih h

/-- Reading comes to an index into an immutable list after the steps `pre`. -/
structure Blocked (R : Runtime ι) (loc : Location ι) (i : ℕ) (steps pre : List PathStep)
    (idx : ℕ) (list : Location ι) : Prop where
  split : ∃ post, steps = pre ++ .index idx :: post
  reached : applySteps R.applyStep loc i pre = .ok list
  immutable : R.Immutable list.shape

theorem Blocked.cons {step : PathStep} {next list : Location ι} {steps pre : List PathStep}
    {idx : ℕ} (hstep : R.applyStep loc step i = .ok next)
    (h : R.Blocked next (i + 1) steps pre idx list) :
    R.Blocked loc i (step :: steps) (step :: pre) idx list := by
  obtain ⟨⟨post, rfl⟩, hreached, himm⟩ := h
  refine ⟨⟨post, rfl⟩, ?_, himm⟩
  rw [applySteps_cons_ok hstep]
  exact hreached

theorem Blocked.cons_cases {step : PathStep} {list : Location ι} {steps pre : List PathStep}
    {idx : ℕ} (h : R.Blocked loc i (step :: steps) pre idx list) :
    (step = .index idx ∧ R.Immutable loc.shape) ∨
      ∃ next rest, R.applyStep loc step i = .ok next ∧
        R.Blocked next (i + 1) steps rest idx list := by
  obtain ⟨⟨post, hsplit⟩, hreached, himm⟩ := h
  cases pre with
  | nil =>
    cases hsplit
    cases hreached
    exact .inl ⟨rfl, himm⟩
  | cons first rest =>
    cases hsplit
    cases hstep : R.applyStep loc step i with
    | error e =>
      rw [applySteps_cons_error hstep] at hreached
      cases hreached
    | ok next =>
      rw [applySteps_cons_ok hstep] at hreached
      exact .inr ⟨next, rest, rfl, ⟨post, rfl⟩, hreached, himm⟩

theorem applySteps_mut_cases (loc : Location ι) (i : ℕ) {steps : List PathStep}
    (hdirect : ∀ step ∈ steps, step.Direct) :
    (∀ pre idx list, ¬ R.Blocked loc i steps pre idx list) ∧
        applySteps R.applyStepMut loc i steps = applySteps R.applyStep loc i steps ∨
      ∃ pre idx list, R.Blocked loc i steps pre idx list ∧
        applySteps R.applyStepMut loc i steps
          = .error (.error (.wrongStepKind (.index idx) (i + pre.length) list.shape)) := by
  induction steps generalizing loc i with
  | nil =>
    left
    constructor
    · intro pre idx list h
      obtain ⟨post, hsplit⟩ := h.split
      simp at hsplit
    · rfl
  | cons step steps ih =>
    obtain ⟨hfirst, hrest⟩ := List.forall_mem_cons.mp hdirect
    by_cases hblock : ∃ idx, step = .index idx ∧ R.Immutable loc.shape
    · obtain ⟨idx, rfl, himm⟩ := hblock
      right
      exact ⟨[], idx, loc, ⟨⟨steps, rfl⟩, rfl, himm⟩,
        applySteps_cons_error (applyStepMut_immutable idx himm) steps⟩
    · push Not at hblock
      have hstepMut := applyStepMut_eq hfirst hblock (i := i)
      cases hstep : R.applyStep loc step i with
      | error e =>
        left
        constructor
        · intro pre idx list h
          obtain ⟨heq, himm⟩ | ⟨next, rest, hnext, -⟩ := h.cons_cases
          · exact hblock idx heq himm
          · rw [hstep] at hnext
            cases hnext
        · rw [applySteps_cons_error hstep, applySteps_cons_error (hstepMut.trans hstep)]
      | ok next =>
        rw [applySteps_cons_ok hstep, applySteps_cons_ok (hstepMut.trans hstep)]
        obtain ⟨hfree, heq⟩ | ⟨pre, idx, list, hblocked, herror⟩ := ih next (i + 1) hrest
        · left
          constructor
          · intro pre idx list h
            obtain ⟨hindex, himm⟩ | ⟨next', rest, hnext, hlater⟩ := h.cons_cases
            · exact hblock idx hindex himm
            · cases hstep.symm.trans hnext
              exact hfree rest idx list hlater
          · exact heq
        · right
          refine ⟨step :: pre, idx, list, hblocked.cons hstep, ?_⟩
          rw [herror, List.length_cons]
          congr 3
          omega

theorem applySteps_mut_eq {steps : List PathStep} (hdirect : ∀ step ∈ steps, step.Direct)
    (hindex : ∀ idx, .index idx ∉ steps) :
    applySteps R.applyStepMut loc i steps = applySteps R.applyStep loc i steps := by
  obtain ⟨-, heq⟩ | ⟨pre, idx, list, hblocked, -⟩ := applySteps_mut_cases loc i hdirect
  · exact heq
  · obtain ⟨post, rfl⟩ := hblocked.split
    exact absurd (by simp) (hindex idx)

end Runs

section Options

/-- The enum view of an option: its payload is declared at offset 0. -/
def optionView (t : ι) (enumRepr : EnumRepr) : EnumType ι where
  variants := [
    { name := "None", data := ⟨.unit, []⟩, discriminant := some 0 },
    { name := "Some"
      data := ⟨.tuple, [{ name := "0", shape := t, offset := 0 }]⟩
      discriminant := some (if enumRepr = .rustNPO then 0 else 1) }]
  enumRepr

/-- A shape with the two views that the shape of an option has. -/
structure IsOption (shape : Shape ι) (t : ι) : Prop where
  def_eq : shape.def = .option t
  ty_eq : ∃ enumRepr, shape.ty = .user (.enum (optionView t enumRepr))

variable {R} {loc : Location ι} {t : ι} {payload : Address}

theorem applySteps_optionSome (hopt : IsOption (R.shapes loc.shape) t)
    (hvalue : R.optionGetValue loc.shape loc.data = some payload) :
    applySteps R.applyStep loc 0 [.optionSome] = .ok ⟨payload, t⟩ := by
  apply applySteps_cons_ok
  simp only [applyStep, hopt.def_eq, hvalue]
  rfl

/-- Through the enum view the payload is expected where its field is declared. -/
theorem applySteps_some (hopt : IsOption (R.shapes loc.shape) t)
    (hvalue : R.optionGetValue loc.shape loc.data = some payload) :
    applySteps R.applyStep loc 0 [.variant 1, .field 0] = .ok ⟨loc.data.field 0, t⟩ := by
  obtain ⟨enumRepr, hty⟩ := hopt.ty_eq
  have hactive : R.variantIndex loc (optionView t enumRepr) = .ok 1 := by
    simp only [variantIndex, hopt.def_eq, R.isSome_eq, hvalue]
    rfl
  have hvariant : R.applyStep loc (.variant 1) 0 = .ok loc := by
    simp only [applyStep, hty, hactive]
    rfl
  have hfield : R.applyStep loc (.field 0) 1 = .ok ⟨loc.data.field 0, t⟩ := by
    simp only [applyStep, hty, PeekEnum.field, hactive]
    rfl
  rw [applySteps_cons_ok hvariant, applySteps_cons_ok hfield]
  rfl

end Options

section Walks

variable [DecidableEq ι]

/-- Writing reaches only what reading reaches; along fields, variants, indices and
`OptionSome` the two differ only at an index into an immutable list; and an option's
payload at its declared place is reached through both of its views. -/
theorem atPathMut_agrees :
    (∀ loc root steps last, R.atPathMut loc root steps = .ok last →
      R.atPath loc root steps = .ok last) ∧
    (∀ loc root steps, (∀ step ∈ steps, step.Direct) →
      (loc.shape = root → ∀ pre idx list, ¬ R.Blocked loc 0 steps pre idx list) ∧
          R.atPathMut loc root steps = R.atPath loc root steps ∨
        loc.shape = root ∧ ∃ pre idx list, R.Blocked loc 0 steps pre idx list ∧
          R.atPathMut loc root steps
            = .error (.error (.wrongStepKind (.index idx) pre.length list.shape))) ∧
    ∀ (loc : Location ι) t payload, IsOption (R.shapes loc.shape) t →
      R.optionGetValue loc.shape loc.data = some payload → payload = loc.data.field 0 →
      R.atPath loc loc.shape [.variant 1, .field 0] = .ok ⟨payload, t⟩ ∧
        R.atPath loc loc.shape [.optionSome] = .ok ⟨payload, t⟩ ∧
        R.atPathMut loc loc.shape [.variant 1, .field 0] = .ok ⟨payload, t⟩ ∧
        R.atPathMut loc loc.shape [.optionSome] = .ok ⟨payload, t⟩ := by
  refine ⟨?_, ?_, ?_⟩
  · intro loc root steps last h
    unfold atPathMut at h
    unfold atPath
    split_ifs at h ⊢
    exact applySteps_of_applyStepMut h
  · intro loc root steps hdirect
    unfold atPathMut atPath
    by_cases hroot : loc.shape = root
    · simp only [hroot, ne_eq, not_true_eq_false, if_false, true_and, forall_const]
      simpa only [Nat.zero_add] using applySteps_mut_cases loc 0 hdirect
    · left
      exact ⟨fun h => absurd h hroot, by simp only [ne_eq, hroot, not_false_eq_true, if_true]⟩
  · rintro loc t payload hopt hvalue rfl
    have hview := applySteps_some hopt hvalue
    have hsome := applySteps_optionSome hopt hvalue
    unfold atPath atPathMut
    simp only [ne_eq, not_true_eq_false, if_false]
    refine ⟨hview, hsome, ?_, ?_⟩
    · rw [applySteps_mut_eq (by simp [PathStep.Direct]) (by simp)]
      exact hview
    · rw [applySteps_mut_eq (by simp [PathStep.Direct]) (by simp)]
      exact hsome

end Walks

end Runtime

inductive BytesType
  | bytes
  | u8
  deriving DecidableEq

/-- A value of type `Bytes` that holds one byte at another address. -/
def bytesRuntime : Runtime BytesType where
  shapes
    | .bytes => { ty := .user .opaqueTy, «def» := .list .u8, size := 32 }
    | .u8 => { ty := .primitive .numeric, «def» := .scalar, size := 1 }
  byte _ := 0
  listLen _ _ := 1
  listGet _ _ idx := if idx < 1 then some 0x2000 else none
  listGetMut _ := none
  arrayAsPtr _ data := data
  mapLen _ _ := 0
  mapIter _ _ := []
  optionIsSome _ _ := false
  optionGetValue _ _ := none
  borrowFn _ := none
  tryBorrowInner _ _ := none
  getMut_eq _ _ h := by cases h
  asPtr_eq _ _ := rfl
  isSome_eq _ _ := rfl
  enum_sized s _ _ := by cases s <;> rfl
  element_sized s := by cases s <;> trivial

/-- The byte can be read at `[0]`, but not written there. -/
theorem bytes_not_agrees :
    ¬ ∀ steps : List PathStep, (∀ step ∈ steps, step.Direct) →
      ((∃ last, bytesRuntime.atPath ⟨0x1000, .bytes⟩ .bytes steps = .ok last) ↔
        ∃ last, bytesRuntime.atPathMut ⟨0x1000, .bytes⟩ .bytes steps = .ok last) := by
  intro h
  have hindex := h [.index 0] (by simp [PathStep.Direct])
  obtain ⟨last, hlast⟩ := hindex.mp ⟨⟨0x2000, .u8⟩, rfl⟩
  have herror : bytesRuntime.atPathMut ⟨0x1000, .bytes⟩ .bytes [.index 0]
      = .error (.error (.wrongStepKind (.index 0) 0 .bytes)) := rfl
  rw [herror] at hlast
  cases hlast

end Facet.Path
