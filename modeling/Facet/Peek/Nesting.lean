import Facet.Peek.FlattenedFields
import Mathlib.Logic.Relation

/-!
# Inside a value

What the iterator yields for the fields of a value lies inside that value.
-/

namespace Facet.Peek

open Pretty

variable {ι ν : Type}

section Inside

variable (shapes : Shapes ι) (mem : Memory ι ν)

/-- One value is reached in one step from the other. -/
inductive Part (x : ν) : ν → Prop
  | field {ty : StructType ι} {i : ℕ} : (mem.view x).data shapes = some ty →
      i < ty.fields.length → Part x ((mem.view x).field i)
  | payload {w : ν} : (mem.view x).option = some w → Part x w
  | opened {y : ν} : Opens mem x y → Part x y
  | item {y : ν} : y ∈ (mem.view x).items → Part x y
  | entry {k y : ν} : (k, y) ∈ (mem.view x).entries → Part x y

def Inside : ν → ν → Prop := Relation.TransGen (Part shapes mem)

variable {shapes mem} {keyText : ν → Option String} {skipPredicates : Bool}

theorem part_of_mem_structFields {x : ν} {st : StructType ι} {entry : Field ι × ν}
    (hst : intoStruct shapes mem x = some st) (hentry : entry ∈ structFields mem x st) :
    Part shapes mem x entry.2 := by
  obtain ⟨⟨field, i⟩, hmem, rfl⟩ := List.mem_map.mp hentry
  have hdata : (mem.view x).data shapes = some st := by
    unfold intoStruct at hst
    unfold View.data
    cases hty : (shapes (mem.view x).shape).ty with
    | user u => cases u <;> simp_all
    | _ => simp [hty] at hst
  have hlt : i < st.fields.length := by
    have := List.snd_lt_of_mem_zipIdx hmem
    omega
  exact .field hdata hlt

theorem inside_variantValue {root x : ν} {en : EnumType ι} {variant : Variant ι}
    (hinside : Inside shapes mem root x) (hen : intoEnum shapes mem x = some en)
    (hactive : activeVariant mem x en = some variant) :
    Inside shapes mem root (variantValue mem variant x) := by
  have hdata : (mem.view x).data shapes = some variant.data := by
    unfold intoEnum at hen
    unfold View.data
    cases hty : (shapes (mem.view x).shape).ty with
    | user u =>
      cases u with
      | enum ty =>
        simp only [hty, Option.some.injEq] at hen
        subst hen
        unfold activeVariant at hactive
        simp [hactive]
      | _ => simp [hty] at hen
    | _ => simp [hty] at hen
  have hfirst (h : 0 < variant.data.fields.length) :
      Inside shapes mem root ((mem.view x).field 0) := hinside.tail (.field hdata h)
  unfold variantValue
  split
  · rename_i hfields
    exact hfirst (by simp [hfields])
  · rename_i hfields
    exact hfirst (by simp [hfields])
  · exact hinside

/-- What is innermost in a value is the value itself or inside it. -/
theorem reaches_innermostPeek {n : ℕ} {x s : ν} (h : innermostPeek mem n x = some s) :
    Relation.ReflTransGen (Part shapes mem) x s := by
  induction n generalizing x with
  | zero => simp [innermostPeek] at h
  | succ n ih =>
    cases hpointee : (mem.view x).pointee with
    | some target =>
      simp only [innermostPeek, hpointee] at h
      exact .head (.opened (.inl hpointee)) (ih h)
    | none =>
      cases hinner : (mem.view x).inner with
      | some inner =>
        simp only [innermostPeek, hpointee, hinner] at h
        exact .head (.opened (.inr ⟨hpointee, hinner⟩)) (ih h)
      | none =>
        simp only [innermostPeek, hpointee, hinner, Option.some.injEq] at h
        rw [h]

variable (shapes mem) in
/-- Whatever a state of the iterator goes over is inside one value. -/
def StateInside (root : ν) : SerializeState ι ν → Prop
  | .fields entries => ∀ entry ∈ entries, Inside shapes mem root entry.2
  | .flattenedEnum _ value => Inside shapes mem root value
  | .flattenedMap entries => ∀ entry ∈ entries, Inside shapes mem root entry.2
  | .flattenedEnumList _ items => ∀ item ∈ items, Inside shapes mem root item
  | .flattenedOption _ w => Inside shapes mem root w

variable (shapes mem) in
/-- A turn stays inside one value. -/
def Turn.Inside (root : ν) : Turn ι ν → Prop
  | .yielded _ value stack =>
      Peek.Inside shapes mem root value ∧ ∀ state ∈ stack, StateInside shapes mem root state
  | .continued stack => ∀ state ∈ stack, StateInside shapes mem root state
  | .finished => True
  | .panicked => True

theorem stateInside_structFields {root x : ν} {st : StructType ι}
    (hinside : Relation.ReflTransGen (Part shapes mem) root x)
    (hst : intoStruct shapes mem x = some st) :
    StateInside shapes mem root (.fields (structFields mem x st)) := fun _ hentry =>
  Relation.TransGen.tail' hinside (part_of_mem_structFields hst hentry)

theorem pushFlattenedEnum_inside {root x : ν} {field : Field ι} {en : EnumType ι}
    (hinside : Inside shapes mem root x) (hen : intoEnum shapes mem x = some en) :
    (pushFlattenedEnum mem field en x []).Inside shapes mem root := by
  cases hactive : activeVariant mem x en with
  | none => simp [pushFlattenedEnum, hactive, Turn.Inside]
  | some variant =>
    have hvalue := inside_variantValue hinside hen hactive
    by_cases hunit : variant.data.kind = .unit
    · simp [pushFlattenedEnum, hactive, hunit, Turn.Inside]
    · simpa [pushFlattenedEnum, hactive, hunit, Turn.Inside, StateInside] using hvalue

theorem inside_entries {root x : ν} (hinside : Inside shapes mem root x) :
    StateInside shapes mem root (.flattenedMap (mem.view x).entries) := fun _ hentry =>
  hinside.tail (.entry hentry)

theorem pushFlattened_inside {root x s : ν} {field : Field ι}
    (hinside : Inside shapes mem root x)
    (hs : Relation.ReflTransGen (Part shapes mem) x s) :
    (pushFlattened shapes mem field x [] s).Inside shapes mem root := by
  cases hst : intoStruct shapes mem s with
  | some st =>
    rw [pushFlattened_struct hst]
    have hroot : Relation.ReflTransGen (Part shapes mem) root s :=
      hinside.to_reflTransGen.trans hs
    exact List.forall_mem_singleton.mpr (stateInside_structFields hroot hst)
  | none =>
    cases hen : intoEnum shapes mem x with
    | some en =>
      rw [pushFlattened_enum hst hen]
      exact pushFlattenedEnum_inside hinside hen
    | none =>
      by_cases hmap : IsMap shapes mem x
      · rw [pushFlattened_map hst hen hmap]
        exact List.forall_mem_singleton.mpr (inside_entries hinside)
      · by_cases hlist : IsList shapes mem x
        · rw [pushFlattened_list hst hen hlist]
          have hitems : StateInside shapes mem root
              (.flattenedEnumList field (mem.view x).items) :=
            fun _ hitem => hinside.tail (.item hitem)
          exact List.forall_mem_singleton.mpr hitems
        · rw [pushFlattened_other hst hen hmap hlist]
          trivial

theorem entryTurn_inside {root : ν} {n : ℕ} {entry : Field ι × ν} {t : Turn ι ν}
    (h : entryTurn shapes mem skipPredicates n entry = some t)
    (hinside : Inside shapes mem root entry.2) : t.Inside shapes mem root := by
  obtain ⟨field, x⟩ := entry
  rcases entryTurn_cases h with ⟨-, rfl⟩ | ⟨-, rfl⟩ | ⟨-, -, -, rfl⟩ |
    ⟨-, -, w, hpayload, rfl⟩ | ⟨-, -, s, hs, rfl⟩
  · simp [Turn.Inside]
  · simpa [Turn.Inside] using hinside
  · simp [Turn.Inside]
  · exact List.forall_mem_singleton.mpr (hinside.tail (.payload hpayload))
  · exact pushFlattened_inside hinside (reaches_innermostPeek hs)

theorem turn_inside {root : ν} {n : ℕ} {state : SerializeState ι ν} {t : Turn ι ν}
    (h : turn shapes mem keyText skipPredicates n [state] = some t)
    (hinside : StateInside shapes mem root state) : t.Inside shapes mem root := by
  cases state with
  | fields entries =>
    cases entries with
    | nil =>
      cases h
      simp [Turn.Inside]
    | cons entry entries =>
      rw [turn_fields_cons] at h
      obtain ⟨t, ht, rfl⟩ := Option.map_eq_some_iff.mp h
      obtain ⟨hfirst, hrest⟩ := List.forall_mem_cons.mp hinside
      have hentry := entryTurn_inside ht hfirst
      cases t with
      | yielded item value stack =>
        exact ⟨hentry.1, List.forall_mem_append.mpr ⟨hentry.2, List.forall_mem_singleton.mpr hrest⟩⟩
      | continued stack =>
        exact List.forall_mem_append.mpr ⟨hentry, List.forall_mem_singleton.mpr hrest⟩
      | finished => trivial
      | panicked => trivial
  | flattenedEnum item value =>
    cases item with
    | none =>
      cases h
      simp [Turn.Inside]
    | some item =>
      cases h
      exact ⟨hinside, by simp⟩
  | flattenedMap entries =>
    cases entries with
    | nil =>
      cases h
      simp [Turn.Inside]
    | cons entry entries =>
      obtain ⟨hfirst, hrest⟩ := List.forall_mem_cons.mp hinside
      cases hkey : keyText entry.1 with
      | none =>
        simp only [turn, hkey, Option.some.injEq] at h
        subst h
        exact List.forall_mem_singleton.mpr hrest
      | some key =>
        simp only [turn, hkey, Option.some.injEq] at h
        subst h
        exact ⟨hfirst, List.forall_mem_singleton.mpr hrest⟩
  | flattenedEnumList field items =>
    cases items with
    | nil =>
      cases h
      simp [Turn.Inside]
    | cons item items =>
      obtain ⟨hfirst, hrest⟩ := List.forall_mem_cons.mp hinside
      cases hen : intoEnum shapes mem item with
      | none =>
        simp only [turn, hen, Option.some.injEq] at h
        subst h
        exact List.forall_mem_singleton.mpr hrest
      | some en =>
        cases hactive : activeVariant mem item en with
        | none =>
          simp only [turn, hen, hactive, Option.some.injEq] at h
          subst h
          trivial
        | some variant =>
          simp only [turn, hen, hactive, Option.some.injEq] at h
          subst h
          exact ⟨inside_variantValue hfirst hen hactive, List.forall_mem_singleton.mpr hrest⟩
  | flattenedOption field w =>
    cases hst : intoStruct shapes mem w with
    | some st =>
      rw [turn_flattenedOption_struct hst] at h
      cases h
      exact List.forall_mem_singleton.mpr (stateInside_structFields hinside.to_reflTransGen hst)
    | none =>
      cases hen : intoEnum shapes mem w with
      | some en =>
        rw [turn_flattenedOption_enum hst hen] at h
        cases h
        exact pushFlattenedEnum_inside hinside hen
      | none =>
        by_cases hmap : IsMap shapes mem w
        · rw [turn_flattenedOption_map hst hen hmap] at h
          cases h
          exact List.forall_mem_singleton.mpr (inside_entries hinside)
        · rw [turn_flattenedOption_other hst hen hmap] at h
          cases h
          simp [Turn.Inside]

/-- Everything yielded is inside the value that the states go over. -/
theorem Yields.inside {root : ν} {stack : List (SerializeState ι ν)}
    {items : List (FieldItem ι × ν)} (h : Yields shapes mem keyText skipPredicates stack items)
    (hinside : ∀ state ∈ stack, StateInside shapes mem root state) :
    ∀ item ∈ items, Inside shapes mem root item.2 := by
  -- the turn of the uppermost state, and the states below it
  have hstep {n : ℕ} {state : SerializeState ι ν} {stack : List (SerializeState ι ν)}
      {t : Turn ι ν}
      (hturn : turn shapes mem keyText skipPredicates n (state :: stack) = some t)
      (hall : ∀ s ∈ state :: stack, StateInside shapes mem root s) :
      t.Inside shapes mem root := by
    rw [← List.nil_append stack, turn_append] at hturn
    obtain ⟨u, hu, rfl⟩ := Option.map_eq_some_iff.mp hturn
    obtain ⟨hfirst, hrest⟩ := List.forall_mem_cons.mp hall
    have hturn := turn_inside hu hfirst
    cases u with
    | yielded item value upper => exact ⟨hturn.1, List.forall_mem_append.mpr ⟨hturn.2, hrest⟩⟩
    | continued upper => exact List.forall_mem_append.mpr ⟨hturn, hrest⟩
    | finished => trivial
    | panicked => trivial
  induction h with
  | finished => simp
  | @yielded n stack stack' item value items hturn _ ih =>
    cases stack with
    | nil => cases hturn
    | cons state stack =>
      obtain ⟨hvalue, hstates⟩ := hstep hturn hinside
      exact List.forall_mem_cons.mpr ⟨hvalue, ih hstates⟩
  | @continued n stack stack' items hturn _ ih =>
    cases stack with
    | nil => cases hturn
    | cons state stack => exact ih (hstep hturn hinside)

end Inside

end Facet.Peek
