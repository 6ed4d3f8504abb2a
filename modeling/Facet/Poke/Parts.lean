import Facet.Poke.Checks

/-!
# The parts are there

The place that a call answers for a part of a sound value is in the value. Two kinds of
calls violate a contract: `object_get_mut` on a value that is not an object, and those that
take the value of an option to be where its enum view puts it, where the compiler has it
elsewhere.
-/

namespace Facet.Poke

variable {ι : Type}

/-- There is a value at the place. -/
def Value.Has (v : Value ι) (p : Place) : Prop := ∃ y, PlacedTree.get? p v = some y

namespace Value

variable {v : Value ι}

theorem has_nil : v.Has [] := ⟨v, rfl⟩

theorem has_child {index : ℕ} (h : index < v.childShapes.length) : v.Has [index] := by
  rw [childShapes, List.length_map] at h
  refine ⟨v.children[index], ?_⟩
  rw [PlacedTree.get?, List.getElem?_eq_getElem h]
  rfl

theorem Has.append {y : Value ι} {p q : Place} (hp : PlacedTree.get? p v = some y)
    (hq : y.Has q) : v.Has (p ++ q) := by
  obtain ⟨z, hz⟩ := hq
  refine ⟨z, ?_⟩
  rw [PlacedTree.get?_append, hp]
  exact hz

end Value

/-- Whatever place is answered is in the value. -/
def Inside (v : Value ι) (reply : Reply ι Place) : Prop := ∀ p, reply = .ok p → v.Has p

namespace Inside

variable {v : Value ι}

theorem error (e : Refusal ι) : Inside v (.error e) := fun _ h => nomatch h

theorem here : Inside v (.ok []) := by
  intro p hp
  obtain rfl := Except.ok.inj hp
  exact Value.has_nil

theorem child {index : ℕ} (h : index < v.childShapes.length) : Inside v (.ok [index]) := by
  intro p hp
  obtain rfl := Except.ok.inj hp
  exact Value.has_child h

theorem bind {α : Type} {x : Reply ι α} {f : α → Reply ι Place}
    (h : ∀ a, x = .ok a → Inside v (f a)) : Inside v (x >>= f) := by
  intro p hp
  obtain ⟨a, ha, hf⟩ := ExceptList.exists_of_bind_ok hp
  exact h a ha p hf

theorem ite {c : Prop} [Decidable c] {x y : Reply ι Place} (hx : c → Inside v x)
    (hy : ¬ c → Inside v y) : Inside v (if c then x else y) := by
  by_cases hc : c
  · rw [if_pos hc]
    exact hx hc
  · rw [if_neg hc]
    exact hy hc

theorem within {idx bound : ℕ} (hbound : bound ≤ v.childShapes.length) (e : Refusal ι) :
    Inside v (if idx < bound then .ok [idx] else .error e) := by
  apply Inside.ite
  · exact fun hlt => Inside.child (lt_of_lt_of_le hlt hbound)
  · exact fun _ => Inside.error e

theorem of_ok {reply reply' : Reply ι Place} (h : Inside v reply)
    (heq : (.ok reply : Checked (Reply ι Place)) = .ok reply') : Inside v reply' := by
  obtain rfl := Except.ok.inj heq
  exact h

end Inside

namespace Runtime

variable {R : Runtime ι} {v : Value ι}

theorem field_inside (hv : R.Fits v) (index : ℕ) : Inside v (R.field v index) := by
  apply Inside.bind
  intro structType hinto
  have hlength := congrArg List.length (TyFits.struct hv (intoStruct_ok hinto))
  rw [List.length_map] at hlength
  apply Inside.ite
  · intro hlt
    exact Inside.child (by omega)
  · exact fun _ => Inside.error _

theorem fieldByName_inside (hv : R.Fits v) (name : String) :
    Inside v (R.fieldByName v name) := by
  apply Inside.bind
  intro structType _
  cases structType.fields.findIdx? fun f => decide (f.name = name) with
  | some index => exact field_inside hv index
  | none => exact Inside.error _

theorem fieldMut_inside (hv : R.Fits v) (index : ℕ) : Inside v (R.fieldMut v index) := by
  apply Inside.bind
  intro tupleType hinto
  have hlength := congrArg List.length (TyFits.struct hv (intoTuple_ok hinto))
  rw [List.length_map] at hlength
  apply Inside.ite
  · intro hlt
    exact Inside.child (by omega)
  · exact fun _ => Inside.error _

/-- The field of the active variant lies where its offset says. -/
def FieldInPlace (R : Runtime ι) (v : Value ι) (index : ℕ) : Prop :=
  ∀ (variant : Variant ι) (f : Field ι), R.enumVariant v = .ok variant →
    variant.data.fields[index]? = some f → R.inPlace v f = true

theorem enumVariant_ok {enumType : EnumType ι} {variant : Variant ι}
    (hty : (R.shapes v.shape).ty = .user (.enum enumType))
    (hactive : R.activeVariant v enumType = .ok variant) : R.enumVariant v = .ok variant := by
  have hinto : R.intoEnum v = .ok enumType := by rw [intoEnum, hty]
  rw [enumVariant, hinto]
  exact hactive

theorem fieldAt_ok {index : ℕ} (hplace : R.FieldInPlace v index) {variant : Variant ι}
    {f : Field ι} (hvariant : R.enumVariant v = .ok variant)
    (hf : variant.data.fields[index]? = some f) : R.fieldAt v f index = .ok (.ok [index]) := by
  rw [fieldAt, if_pos (hplace variant f hvariant hf)]

theorem fieldAt_inside (hv : R.Fits v) {index : ℕ} {variant : Variant ι} {f : Field ι}
    (hvariant : R.enumVariant v = .ok variant) (hf : variant.data.fields[index]? = some f)
    {reply : Reply ι Place} (h : R.fieldAt v f index = .ok reply) : Inside v reply := by
  obtain ⟨enumType, hinto, hactive⟩ := ExceptList.exists_of_bind_ok hvariant
  have hlt : index < v.childShapes.length := by
    rw [TyFits.variant hv (intoEnum_ok hinto) hactive, List.length_map]
    exact (List.getElem?_eq_some_iff.mp hf).1
  rw [fieldAt] at h
  split_ifs at h
  · obtain rfl := Except.ok.inj h
    exact Inside.child hlt

theorem enumField_ok {index : ℕ} (hplace : R.FieldInPlace v index) :
    ∃ reply, R.enumField v index = .ok reply := by
  rw [enumField]
  cases hvariant : R.enumVariant v with
  | error e => exact ⟨_, rfl⟩
  | ok variant =>
    dsimp only
    cases hf : variant.data.fields[index]? with
    | none => exact ⟨_, rfl⟩
    | some f => exact ⟨_, fieldAt_ok hplace hvariant hf⟩

theorem enumField_inside (hv : R.Fits v) {index : ℕ} {reply : Reply ι Place}
    (h : R.enumField v index = .ok reply) : Inside v reply := by
  rw [enumField] at h
  cases hvariant : R.enumVariant v with
  | error e =>
    rw [hvariant] at h
    exact Inside.of_ok (.error e) h
  | ok variant =>
    rw [hvariant] at h
    dsimp only at h
    cases hf : variant.data.fields[index]? with
    | none =>
      rw [hf] at h
      exact Inside.of_ok (.error _) h
    | some f =>
      rw [hf] at h
      exact fieldAt_inside hv hvariant hf h

/-- The field of that name lies where its offset says, if there is one. -/
def NamedFieldInPlace (R : Runtime ι) (v : Value ι) (name : String) : Prop :=
  ∀ (variant : Variant ι) (index : ℕ), R.enumVariant v = .ok variant →
    (variant.data.fields.findIdx? fun f => f.name = name) = some index → R.FieldInPlace v index

theorem enumFieldByName_ok {name : String} (hplace : R.NamedFieldInPlace v name) :
    ∃ reply, R.enumFieldByName v name = .ok reply := by
  rw [enumFieldByName]
  cases hvariant : R.enumVariant v with
  | error e => exact ⟨_, rfl⟩
  | ok variant =>
    dsimp only
    cases hindex : variant.data.fields.findIdx? fun f => f.name = name with
    | none => exact ⟨_, rfl⟩
    | some index => exact enumField_ok (hplace variant index hvariant hindex)

theorem enumFieldByName_inside (hv : R.Fits v) {name : String} {reply : Reply ι Place}
    (h : R.enumFieldByName v name = .ok reply) : Inside v reply := by
  rw [enumFieldByName] at h
  cases hvariant : R.enumVariant v with
  | error e =>
    rw [hvariant] at h
    exact Inside.of_ok (.error e) h
  | ok variant =>
    rw [hvariant] at h
    dsimp only at h
    cases hindex : variant.data.fields.findIdx? fun f => decide (f.name = name) with
    | none =>
      rw [hindex] at h
      exact Inside.of_ok (.error _) h
    | some index =>
      rw [hindex] at h
      exact enumField_inside hv h

theorem lt_childShapes {index : ℕ} (h : index < v.children.length) :
    index < v.childShapes.length := by
  rwa [Value.childShapes, List.length_map]

theorem listGet_inside (index : ℕ) : Inside v (R.listGet v index) := by
  apply Inside.bind
  intro _ _
  apply Inside.ite
  · exact fun _ => Inside.error _
  · intro _
    apply Inside.ite
    · exact fun hlt => Inside.child (lt_childShapes hlt)
    · exact fun _ => Inside.error _

theorem listIter_inside (index : ℕ) : Inside v (R.listIter v index) := by
  apply Inside.bind
  intro _ _
  apply Inside.ite
  · exact fun _ => Inside.error _
  · intro _
    apply Inside.ite
    · exact fun _ => Inside.error _
    · intro _
      apply Inside.ite
      · exact fun hlt => Inside.child (lt_childShapes hlt)
      · exact fun _ => Inside.error _

theorem optionValue_child (hv : R.Fits v) {t : ι} (hdef : Shape.def (R.shapes v.shape) = .option t)
    (hsome : v.head = .some) : 0 < v.childShapes.length := by
  have hfits := hv.byDef
  rw [DefFits, hdef] at hfits
  rcases hfits with ⟨hnone, -⟩ | ⟨-, hchildren⟩
  · rw [hnone] at hsome
    cases hsome
  · simp [hchildren]

theorem optionValue_inside (hv : R.Fits v) : Inside v (R.optionValue v) := by
  apply Inside.bind
  intro t hinto
  apply Inside.ite
  · exact fun hsome => Inside.child (optionValue_child hv (intoOption_ok hinto) hsome)
  · exact fun _ => Inside.error _

theorem result_child (hv : R.Fits v) {te : ι × ι} (hinto : R.intoResult v = .ok te) :
    0 < v.childShapes.length := by
  have hfits := hv.byDef
  rw [DefFits, intoResult_ok hinto] at hfits
  rcases hfits with ⟨-, hchildren⟩ | ⟨-, hchildren⟩ <;> simp [hchildren]

theorem okMut_inside (hv : R.Fits v) : Inside v (R.okMut v) := by
  apply Inside.bind
  intro te hinto
  apply Inside.ite
  · exact fun _ => Inside.child (result_child hv hinto)
  · exact fun _ => Inside.error _

theorem errMut_inside (hv : R.Fits v) : Inside v (R.errMut v) := by
  apply Inside.bind
  intro te hinto
  apply Inside.ite
  · exact fun _ => Inside.child (result_child hv hinto)
  · exact fun _ => Inside.error _

theorem ndArrayGet_inside (index : ℕ) : Inside v (R.ndArrayGet v index) := by
  apply Inside.bind
  intro _ _
  apply Inside.ite
  · exact fun _ => Inside.error _
  · intro _
    apply Inside.ite
    · exact fun hlt => Inside.child (lt_childShapes hlt)
    · exact fun _ => Inside.error _

/-- What `object_get_mut` asks for where the table has it. -/
def objectGetMutPermitted (R : Runtime ι) (v : Value ι) : Prop :=
  (R.intoDynamicValue v).isOk → R.tables.dynObjectGetMut v.shape = true → v.IsObject

theorem objectGetMut_ok (hv : R.Fits v) (hsafe : objectGetMutPermitted R v) (key : String) :
    ∃ reply, R.objectGetMut v key = .ok reply ∧ Inside v reply := by
  rw [objectGetMut]
  cases hinto : R.intoDynamicValue v with
  | error e => exact ⟨_, rfl, Inside.error e⟩
  | ok u =>
    cases htable : R.tables.dynObjectGetMut v.shape with
    | false => exact ⟨_, rfl, Inside.error _⟩
    | true =>
      have hobject := hsafe (by rw [hinto]; rfl) htable
      have hfits := hv.byDef
      rw [DefFits, intoDynamicValue_ok hinto] at hfits
      rw [hobject]
      dsimp only [Bool.not_true]
      cases hfind : v.keys.findIdx? fun k => decide (k = key) with
      | none => exact ⟨_, rfl, Inside.error _⟩
      | some index =>
        have hlt := (List.findIdx?_eq_some_iff_findIdx_eq.mp hfind).1
        exact ⟨_, rfl, Inside.child (lt_of_lt_of_le hlt hfits.2.2)⟩

open Facet.Path (PathStep)

theorem applyStepMut_ok (step : PathStep) (i : ℕ)
    (hplace : ∀ idx, step = .field idx → R.FieldInPlace v idx) :
    ∃ reply, R.applyStepMut v step i = .ok reply := by
  cases step with
  | field idx =>
    dsimp only [applyStepMut]
    cases hty : (R.shapes v.shape).ty with
    | user userType =>
      cases userType with
      | enum enumType =>
        dsimp only
        cases hactive : R.activeVariant v enumType with
        | error e => exact ⟨_, rfl⟩
        | ok variant =>
          dsimp only
          cases hf : variant.data.fields[idx]? with
          | none => exact ⟨_, rfl⟩
          | some f => exact ⟨_, fieldAt_ok (hplace idx rfl) (enumVariant_ok hty hactive) hf⟩
      | _ => exact ⟨_, rfl⟩
    | _ => exact ⟨_, rfl⟩
  | variant expected =>
    dsimp only [applyStepMut]
    cases hty : (R.shapes v.shape).ty with
    | user userType =>
      cases userType with
      | enum enumType =>
        dsimp only
        by_cases hbound : enumType.variants.length ≤ expected
        · exact ⟨_, if_pos hbound⟩
        · exact ⟨_, if_neg hbound⟩
      | _ => exact ⟨_, rfl⟩
    | _ => exact ⟨_, rfl⟩
  | inner => exact ⟨_, rfl⟩
  | proxy => exact ⟨_, rfl⟩
  | _ =>
    dsimp only [applyStepMut]
    cases Shape.def (R.shapes v.shape) <;> exact ⟨_, rfl⟩

theorem applyStepMut_field_inside (hv : R.Fits v) {idx i : ℕ} {reply : Reply ι Place}
    (h : R.applyStepMut v (.field idx) i = .ok reply) : Inside v reply := by
  dsimp only [applyStepMut] at h
  cases hty : (R.shapes v.shape).ty with
  | user userType =>
    rw [hty] at h
    cases userType with
    | struct structType =>
      have hlength := congrArg List.length (TyFits.struct hv hty)
      rw [List.length_map] at hlength
      exact Inside.of_ok (.within (le_of_eq hlength.symm) _) h
    | enum enumType =>
      dsimp only at h
      cases hactive : R.activeVariant v enumType with
      | error e =>
        rw [hactive] at h
        exact Inside.of_ok (.error e) h
      | ok variant =>
        rw [hactive] at h
        dsimp only at h
        cases hf : variant.data.fields[idx]? with
        | none =>
          rw [hf] at h
          exact Inside.of_ok (.error _) h
        | some f =>
          rw [hf] at h
          exact fieldAt_inside hv (enumVariant_ok hty hactive) hf h
    | _ => exact Inside.of_ok (.error _) h
  | _ =>
    rw [hty] at h
    exact Inside.of_ok (.error _) h

theorem applyStepMut_variant_inside {expected i : ℕ} {reply : Reply ι Place}
    (h : R.applyStepMut v (.variant expected) i = .ok reply) : Inside v reply := by
  dsimp only [applyStepMut] at h
  cases hty : (R.shapes v.shape).ty with
  | user userType =>
    rw [hty] at h
    cases userType with
    | enum enumType =>
      dsimp only at h
      split_ifs at h
      · exact Inside.of_ok (.error _) h
      · apply Inside.of_ok _ h
        apply Inside.bind
        intro actual _
        apply Inside.ite
        · exact fun _ => Inside.error _
        · exact fun _ => Inside.here
    | _ => exact Inside.of_ok (.error _) h
  | _ =>
    rw [hty] at h
    exact Inside.of_ok (.error _) h

theorem applyStepMut_index_inside (hv : R.Fits v) {idx i : ℕ} {reply : Reply ι Place}
    (h : R.applyStepMut v (.index idx) i = .ok reply) : Inside v reply := by
  dsimp only [applyStepMut] at h
  cases hdef : Shape.def (R.shapes v.shape) with
  | list t =>
    rw [hdef] at h
    apply Inside.of_ok _ h
    apply Inside.ite
    · exact fun _ => Inside.within (le_of_eq (List.length_map _).symm) _
    · exact fun _ => Inside.error _
  | array t n =>
    have hfits := hv.byDef
    rw [DefFits, hdef] at hfits
    rw [hdef] at h
    apply Inside.of_ok _ h
    apply Inside.ite
    · exact fun _ => Inside.within (by simp [hfits.2]) _
    · exact fun _ => Inside.error _
  | _ =>
    rw [hdef] at h
    exact Inside.of_ok (.error _) h

theorem applyStepMut_inside (hv : R.Fits v) {step : PathStep} {i : ℕ} {reply : Reply ι Place}
    (h : R.applyStepMut v step i = .ok reply) : Inside v reply := by
  cases step with
  | field idx => exact applyStepMut_field_inside hv h
  | variant expected => exact applyStepMut_variant_inside h
  | index idx => exact applyStepMut_index_inside hv h
  | optionSome =>
    dsimp only [applyStepMut] at h
    cases hdef : Shape.def (R.shapes v.shape) with
    | option t =>
      rw [hdef] at h
      apply Inside.of_ok _ h
      apply Inside.ite
      · exact fun hsome => Inside.child (optionValue_child hv hdef hsome)
      · exact fun _ => Inside.error _
    | _ =>
      rw [hdef] at h
      exact Inside.of_ok (.error _) h
  | inner => exact Inside.of_ok (.error _) h
  | proxy => exact Inside.of_ok (.error _) h
  | _ =>
    dsimp only [applyStepMut] at h
    cases hdef : Shape.def (R.shapes v.shape) <;>
      (rw [hdef] at h; exact Inside.of_ok (.error _) h)

/-- No field step of the path is taken at a variant whose field lies elsewhere. -/
def StepsInPlace (R : Runtime ι) : Value ι → List PathStep → ℕ → Prop
  | _, [], _ => True
  | v, step :: steps, i => (∀ idx, step = .field idx → R.FieldInPlace v idx) ∧
      ∀ p y, R.applyStepMut v step i = .ok (.ok p) → PlacedTree.get? p v = some y →
        StepsInPlace R y steps (i + 1)

theorem applyStepsMut_ok (hv : R.Sound v) (steps : List PathStep) (i : ℕ)
    (hplace : R.StepsInPlace v steps i) :
    ∃ reply, R.applyStepsMut v steps i = .ok reply ∧ Inside v reply := by
  induction steps generalizing v i with
  | nil => exact ⟨_, rfl, Inside.here⟩
  | cons step steps ih =>
    obtain ⟨first, hfirst⟩ := applyStepMut_ok step i hplace.1
    have hinside := applyStepMut_inside (PlacedTree.Everywhere.self hv) hfirst
    rw [applyStepsMut, hfirst]
    cases first with
    | error e => exact ⟨_, rfl, Inside.error e⟩
    | ok p =>
      obtain ⟨y, hy⟩ := hinside p rfl
      obtain ⟨reply, hreply, hrest⟩ :=
        ih (PlacedTree.Everywhere.get? hv hy) (i + 1) (hplace.2 p y hfirst hy)
      dsimp only
      rw [hy]
      dsimp only
      rw [hreply]
      refine ⟨_, rfl, ?_⟩
      intro q hq
      cases reply with
      | error e => cases hq
      | ok r =>
        obtain rfl : p ++ r = q := Except.ok.inj hq
        exact Value.Has.append hy (hrest r rfl)

/-- No field of a variant that a call for a part enters lies elsewhere. -/
def accessInPlace (R : Runtime ι) (v : Value ι) : Access ι → Prop
  | .enumField index => R.FieldInPlace v index
  | .enumFieldByName name => R.NamedFieldInPlace v name
  | .atPathMut _ steps => R.StepsInPlace v steps 0
  | _ => True

/-- What a call for a part asks for. -/
def accessPermitted (R : Runtime ι) (v : Value ι) : Access ι → Prop
  | .objectGetMut _ => objectGetMutPermitted R v
  | a => R.accessInPlace v a

theorem applyStepsMut_ne_misplaced (steps : List PathStep) (i : ℕ)
    (hplace : R.StepsInPlace v steps i) : R.applyStepsMut v steps i ≠ .error .misplaced := by
  induction steps generalizing v i with
  | nil => exact nofun
  | cons step steps ih =>
    obtain ⟨first, hfirst⟩ := applyStepMut_ok step i hplace.1
    rw [applyStepsMut, hfirst]
    cases first with
    | error e => exact nofun
    | ok p =>
      dsimp only
      cases hy : PlacedTree.get? p v with
      | none => exact nofun
      | some y =>
        have hrest := ih (i + 1) (hplace.2 p y hfirst hy)
        dsimp only
        cases hreply : R.applyStepsMut y steps (i + 1) with
        | error violation =>
          rw [hreply] at hrest
          exact fun h => hrest (congrArg _ (Except.error.inj h))
        | ok reply => exact nofun

/-- A `Poke` is on memory that holds a value of its shape. -/
theorem access_ne_misplaced [DecidableEq ι] {a : Access ι} (hplace : R.accessInPlace v a) :
    R.access v a ≠ .error .misplaced := by
  cases a with
  | enumField index =>
    obtain ⟨reply, hreply⟩ := enumField_ok hplace
    exact fun h => nomatch hreply.symm.trans h
  | enumFieldByName name =>
    obtain ⟨reply, hreply⟩ := enumFieldByName_ok hplace
    exact fun h => nomatch hreply.symm.trans h
  | atPathMut shape steps =>
    rw [access, atPathMut]
    by_cases hshape : v.shape ≠ shape
    · rw [if_pos hshape]
      exact nofun
    · rw [if_neg hshape]
      exact applyStepsMut_ne_misplaced steps 0 hplace
  | objectGetMut key =>
    rw [access, objectGetMut]
    cases R.intoDynamicValue v with
    | error e => exact nofun
    | ok u =>
      cases R.tables.dynObjectGetMut v.shape with
      | false => exact nofun
      | true =>
        dsimp only [Bool.not_true]
        cases hhead : v.head with
        | dynamic content =>
          cases content with
          | object keys =>
            cases hfind : keys.findIdx? fun k => decide (k = key) <;> simp [hfind]
          | _ => simp
        | _ => simp
  | _ => exact nofun

theorem access_ok [DecidableEq ι] (hv : R.Sound v) (a : Access ι)
    (hsafe : accessPermitted R v a) :
    ∃ reply, R.access v a = .ok reply ∧ Inside v reply := by
  have hfits : R.Fits v := PlacedTree.Everywhere.self hv
  cases a with
  | field index => exact ⟨_, rfl, field_inside hfits index⟩
  | fieldByName name => exact ⟨_, rfl, fieldByName_inside hfits name⟩
  | fieldMut index => exact ⟨_, rfl, fieldMut_inside hfits index⟩
  | enumField index =>
    obtain ⟨reply, hreply⟩ := enumField_ok hsafe
    exact ⟨reply, hreply, enumField_inside hfits hreply⟩
  | enumFieldByName name =>
    obtain ⟨reply, hreply⟩ := enumFieldByName_ok hsafe
    exact ⟨reply, hreply, enumFieldByName_inside hfits hreply⟩
  | listGet index => exact ⟨_, rfl, listGet_inside index⟩
  | listIter index => exact ⟨_, rfl, listIter_inside index⟩
  | optionValue => exact ⟨_, rfl, optionValue_inside hfits⟩
  | okMut => exact ⟨_, rfl, okMut_inside hfits⟩
  | errMut => exact ⟨_, rfl, errMut_inside hfits⟩
  | ndArrayGet index => exact ⟨_, rfl, ndArrayGet_inside index⟩
  | objectGetMut key => exact objectGetMut_ok hfits hsafe key
  | atPathMut shape steps =>
    rw [access, atPathMut]
    by_cases hshape : v.shape ≠ shape
    · rw [if_pos hshape]
      exact ⟨_, rfl, Inside.error _⟩
    · rw [if_neg hshape]
      exact applyStepsMut_ok hv steps 0 hsafe

/-- With a cached length that is the real one, the items are there. -/
theorem itemAccess_inside {len : ℕ} (hlen : len = v.children.length)
    (a : ItemAccess) : Inside v (R.itemAccess v len a) := by
  cases a with
  | get index =>
    apply Inside.bind
    intro listDef _
    apply Inside.ite
    · exact fun _ => Inside.error _
    · intro hlt
      push Not at hlt
      rw [hlen] at hlt
      cases listDef with
      | list t =>
        apply Inside.ite
        · exact fun _ => Inside.error _
        · intro _
          apply Inside.ite
          · exact fun _ => Inside.child (lt_childShapes hlt)
          · exact fun _ => Inside.error _
      | array t n =>
        apply Inside.ite
        · exact fun _ => Inside.error _
        · exact fun _ => Inside.child (lt_childShapes hlt)
      | slice t =>
        apply Inside.ite
        · exact fun _ => Inside.error _
        · exact fun _ => Inside.child (lt_childShapes hlt)
  | iter index =>
    have hitem : Inside v (if index < len then .ok [index] else .error .absent) := by
      apply Inside.ite
      · intro hlt
        rw [hlen] at hlt
        exact Inside.child (lt_childShapes hlt)
      · exact fun _ => Inside.error _
    apply Inside.bind
    intro listDef _
    apply Inside.ite
    · exact fun _ => Inside.error _
    · intro _
      cases listDef with
      | list t =>
        apply Inside.ite
        · exact fun _ => Inside.error _
        · exact fun _ => hitem
      | array t n => exact hitem
      | slice t => exact hitem

end Runtime

end Facet.Poke
