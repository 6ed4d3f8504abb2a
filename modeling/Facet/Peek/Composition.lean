import Facet.Peek.FieldsForSerialize

/-!
# The items of a stack, state by state

What the iterator yields from a stack is what it yields from each of its states in turn, and
what it yields from a list of fields is what it yields from each field in turn.
-/

namespace Facet.Peek

open Pretty

variable {ι ν : Type}

/-- The turn above other states. -/
def Turn.onto (rest : List (SerializeState ι ν)) : Turn ι ν → Turn ι ν
  | .yielded item value stack => .yielded item value (stack ++ rest)
  | .continued stack => .continued (stack ++ rest)
  | .finished => .finished
  | .panicked => .panicked

section Turns

variable (shapes : Shapes ι) (mem : Memory ι ν) (keyText : ν → Option String)
  (skipPredicates : Bool)

theorem pushFlattenedEnum_onto (field : Field ι) (en : EnumType ι) (peek : ν)
    (stack rest : List (SerializeState ι ν)) :
    pushFlattenedEnum mem field en peek (stack ++ rest) =
      (pushFlattenedEnum mem field en peek stack).onto rest := by
  unfold pushFlattenedEnum
  cases activeVariant mem peek en with
  | none => rfl
  | some variant => by_cases hunit : variant.data.kind = .unit <;> simp [hunit, Turn.onto]

theorem pushFlattened_onto (field : Field ι) (peek innermost : ν)
    (stack rest : List (SerializeState ι ν)) :
    pushFlattened shapes mem field peek (stack ++ rest) innermost =
      (pushFlattened shapes mem field peek stack innermost).onto rest := by
  unfold pushFlattened
  cases intoStruct shapes mem innermost with
  | some st => rfl
  | none =>
    cases intoEnum shapes mem peek with
    | some en => exact pushFlattenedEnum_onto mem field en peek stack rest
    | none => cases Shape.def (shapes (mem.view peek).shape) <;> rfl

/-- What a field adds, apart from the fields after it. -/
def entryTurn (n : ℕ) (entry : Field ι × ν) : Option (Turn ι ν) :=
  if shouldSkipSerializing mem skipPredicates entry.1 entry.2 then some (.continued [])
  else if entry.1.isFlattened then
    match (shapes (mem.view entry.2).shape).def with
    | .option _ =>
      match (mem.view entry.2).option with
      | some inner => some (.continued [.flattenedOption entry.1 inner])
      | none => some (.continued [])
    | _ => (innermostPeek mem n entry.2).map (pushFlattened shapes mem entry.1 entry.2 [])
  else some (.yielded (.new entry.1) entry.2 [])

theorem turn_fields_cons (n : ℕ) (entry : Field ι × ν) (fields : List (Field ι × ν))
    (stack : List (SerializeState ι ν)) :
    turn shapes mem keyText skipPredicates n (.fields (entry :: fields) :: stack) =
      (entryTurn shapes mem skipPredicates n entry).map (Turn.onto (.fields fields :: stack)) := by
  obtain ⟨field, peek⟩ := entry
  unfold entryTurn turn
  by_cases hskip : shouldSkipSerializing mem skipPredicates field peek = true
  · simp [hskip, Turn.onto]
  · by_cases hflat : field.isFlattened = true
    · simp only [hskip, hflat, if_true, Bool.false_eq_true, if_false]
      have hpush : ∀ innermost,
          pushFlattened shapes mem field peek (.fields fields :: stack) innermost =
            (pushFlattened shapes mem field peek [] innermost).onto (.fields fields :: stack) :=
        fun innermost => pushFlattened_onto shapes mem field peek innermost [] _
      cases (shapes (mem.view peek).shape).def with
      | option t => cases (mem.view peek).option <;> simp [Turn.onto]
      | _ =>
        simp only [Option.map_map]
        congr 1
        funext innermost
        exact hpush innermost
    · simp [hskip, hflat, Turn.onto]

theorem turn_append (n : ℕ) (state : SerializeState ι ν)
    (stack rest : List (SerializeState ι ν)) :
    turn shapes mem keyText skipPredicates n (state :: (stack ++ rest)) =
      (turn shapes mem keyText skipPredicates n (state :: stack)).map (Turn.onto rest) := by
  cases state with
  | fields fields =>
    cases fields with
    | nil => simp [turn, Turn.onto]
    | cons entry fields =>
      rw [turn_fields_cons, turn_fields_cons, Option.map_map]
      congr 1
      funext t
      cases t <;> simp [Turn.onto]
  | flattenedEnum item value => cases item <;> simp [turn, Turn.onto]
  | flattenedMap entries =>
    cases entries with
    | nil => simp [turn, Turn.onto]
    | cons entry entries =>
      cases hkey : keyText entry.1 <;> simp [turn, Turn.onto, hkey]
  | flattenedEnumList field items =>
    cases items with
    | nil => simp [turn, Turn.onto]
    | cons item items =>
      cases hen : intoEnum shapes mem item with
      | none => simp [turn, Turn.onto, hen]
      | some en =>
        cases hactive : activeVariant mem item en <;> simp [turn, Turn.onto, hen, hactive]
  | flattenedOption field inner =>
    cases hst : intoStruct shapes mem inner with
    | some st => simp [turn, Turn.onto, hst]
    | none =>
      cases hen : intoEnum shapes mem inner with
      | some en => simp [turn, hst, hen, pushFlattenedEnum_onto]
      | none =>
        cases hdef : Shape.def (shapes (mem.view inner).shape) <;>
          simp [turn, Turn.onto, hst, hen, hdef]

theorem pushFlattenedEnum_ne_finished (field : Field ι) (en : EnumType ι) (peek : ν)
    (stack : List (SerializeState ι ν)) :
    pushFlattenedEnum mem field en peek stack ≠ .finished := by
  unfold pushFlattenedEnum
  cases activeVariant mem peek en with
  | none => simp
  | some variant => by_cases hunit : variant.data.kind = .unit <;> simp [hunit]

theorem pushFlattened_ne_finished (field : Field ι) (peek innermost : ν)
    (stack : List (SerializeState ι ν)) :
    pushFlattened shapes mem field peek stack innermost ≠ .finished := by
  unfold pushFlattened
  cases intoStruct shapes mem innermost with
  | some st => simp
  | none =>
    cases intoEnum shapes mem peek with
    | some en => exact pushFlattenedEnum_ne_finished mem field en peek stack
    | none => cases hdef : Shape.def (shapes (mem.view peek).shape) <;> simp

theorem turn_cons_ne_finished (n : ℕ) (state : SerializeState ι ν)
    (stack : List (SerializeState ι ν)) :
    turn shapes mem keyText skipPredicates n (state :: stack) ≠ some .finished := by
  cases state with
  | fields fields =>
    cases fields with
    | nil => simp [turn]
    | cons entry fields =>
      rw [turn_fields_cons]
      unfold entryTurn
      by_cases hskip : shouldSkipSerializing mem skipPredicates entry.1 entry.2 = true
      · simp [hskip, Turn.onto]
      · by_cases hflat : entry.1.isFlattened = true
        · cases hdef : (shapes (mem.view entry.2).shape).def with
          | option t => cases (mem.view entry.2).option <;> simp [hskip, hflat, Turn.onto]
          | _ =>
            simp only [hskip, hflat, if_true, Bool.false_eq_true, if_false, ne_eq,
              Option.map_eq_some_iff, not_exists, not_and]
            rintro t ⟨innermost, -, rfl⟩
            rw [← pushFlattened_onto]
            exact pushFlattened_ne_finished shapes mem _ _ _ _
        · simp [hskip, hflat, Turn.onto]
  | flattenedEnum item value => cases item <;> simp [turn]
  | flattenedMap entries =>
    cases entries with
    | nil => simp [turn]
    | cons entry entries => cases hkey : keyText entry.1 <;> simp [turn, hkey]
  | flattenedEnumList field items =>
    cases items with
    | nil => simp [turn]
    | cons item items =>
      cases hen : intoEnum shapes mem item with
      | none => simp [turn, hen]
      | some en => cases hactive : activeVariant mem item en <;> simp [turn, hen, hactive]
  | flattenedOption field inner =>
    cases hst : intoStruct shapes mem inner with
    | some st => simp [turn, hst]
    | none =>
      cases hen : intoEnum shapes mem inner with
      | some en =>
        simp only [turn, hst, hen, ne_eq, Option.some.injEq]
        exact pushFlattenedEnum_ne_finished mem field en inner stack
      | none =>
        cases hdef : Shape.def (shapes (mem.view inner).shape) <;> simp [turn, hst, hen, hdef]

end Turns

section Runs

variable {shapes : Shapes ι} {mem : Memory ι ν} {keyText : ν → Option String}
  {skipPredicates : Bool}

theorem Yields.nil : Yields shapes mem keyText skipPredicates [] [] :=
  .finished (n := 0) rfl

theorem Yields.eq_nil {items : List (FieldItem ι × ν)}
    (h : Yields shapes mem keyText skipPredicates [] items) : items = [] := h.unique .nil

theorem Yields.append {stack rest : List (SerializeState ι ν)}
    {items more : List (FieldItem ι × ν)} (h : Yields shapes mem keyText skipPredicates stack items)
    (hrest : Yields shapes mem keyText skipPredicates rest more) :
    Yields shapes mem keyText skipPredicates (stack ++ rest) (items ++ more) := by
  induction h with
  | @finished n stack hturn =>
    cases stack with
    | nil => exact hrest
    | cons state stack => exact absurd hturn (turn_cons_ne_finished _ _ _ _ n state stack)
  | @yielded n stack stack' item value items hturn _ ih =>
    cases stack with
    | nil => cases hturn
    | cons state stack =>
      have happend : turn shapes mem keyText skipPredicates n (state :: (stack ++ rest)) =
          some (.yielded item value (stack' ++ rest)) := by
        rw [turn_append, hturn]
        rfl
      exact .yielded happend ih
  | @continued n stack stack' items hturn _ ih =>
    cases stack with
    | nil => cases hturn
    | cons state stack =>
      have happend : turn shapes mem keyText skipPredicates n (state :: (stack ++ rest)) =
          some (.continued (stack' ++ rest)) := by
        rw [turn_append, hturn]
        rfl
      exact .continued happend ih

/-- What a stack yields is what its upper part yields and then what the rest yields. -/
theorem Yields.split {upper rest : List (SerializeState ι ν)} {items : List (FieldItem ι × ν)}
    (h : Yields shapes mem keyText skipPredicates (upper ++ rest) items) :
    ∃ a b, items = a ++ b ∧ Yields shapes mem keyText skipPredicates upper a ∧
      Yields shapes mem keyText skipPredicates rest b := by
  generalize hstack : upper ++ rest = stack at h
  induction h generalizing upper with
  | @finished n stack hturn =>
    cases upper with
    | nil =>
      subst hstack
      exact ⟨[], [], rfl, .nil, .finished hturn⟩
    | cons state upper =>
      subst hstack
      exact absurd hturn (turn_cons_ne_finished _ _ _ _ n state (upper ++ rest))
  | @yielded n stack stack' item value items hturn hyields ih =>
    cases upper with
    | nil =>
      subst hstack
      exact ⟨[], _, rfl, .nil, .yielded hturn hyields⟩
    | cons state upper =>
      subst hstack
      rw [List.cons_append, turn_append] at hturn
      obtain ⟨t, ht, honto⟩ := Option.map_eq_some_iff.mp hturn
      cases t with
      | yielded item' value' stack'' =>
        simp only [Turn.onto, Turn.yielded.injEq] at honto
        obtain ⟨rfl, rfl, hstack'⟩ := honto
        obtain ⟨a, b, rfl, ha, hb⟩ := ih hstack'
        exact ⟨_ :: a, b, rfl, .yielded ht ha, hb⟩
      | continued stack'' => cases honto
      | finished => cases honto
      | panicked => cases honto
  | @continued n stack stack' items hturn hyields ih =>
    cases upper with
    | nil =>
      subst hstack
      exact ⟨[], _, rfl, .nil, .continued hturn hyields⟩
    | cons state upper =>
      subst hstack
      rw [List.cons_append, turn_append] at hturn
      obtain ⟨t, ht, honto⟩ := Option.map_eq_some_iff.mp hturn
      cases t with
      | continued stack'' =>
        simp only [Turn.onto, Turn.continued.injEq] at honto
        obtain ⟨a, b, rfl, ha, hb⟩ := ih honto
        exact ⟨a, b, rfl, .continued ht ha, hb⟩
      | yielded item' value' stack'' => cases honto
      | finished => cases honto
      | panicked => cases honto

/-- What one turn goes on to yield. -/
def Turn.Gives (shapes : Shapes ι) (mem : Memory ι ν) (keyText : ν → Option String)
    (skipPredicates : Bool) : Turn ι ν → List (FieldItem ι × ν) → Prop
  | .yielded item value stack, items =>
      ∃ more, Yields shapes mem keyText skipPredicates stack more ∧ items = (item, value) :: more
  | .continued stack, items => Yields shapes mem keyText skipPredicates stack items
  | .finished, items => items = []
  | .panicked, _ => False

theorem yields_iff_gives {stack : List (SerializeState ι ν)} {items : List (FieldItem ι × ν)} :
    Yields shapes mem keyText skipPredicates stack items ↔
      ∃ n t, turn shapes mem keyText skipPredicates n stack = some t ∧
        t.Gives shapes mem keyText skipPredicates items := by
  constructor
  · intro h
    cases h with
    | finished hturn => exact ⟨_, _, hturn, rfl⟩
    | yielded hturn hmore => exact ⟨_, _, hturn, _, hmore, rfl⟩
    | continued hturn hmore => exact ⟨_, _, hturn, hmore⟩
  · rintro ⟨n, t, hturn, hgives⟩
    cases t with
    | yielded item value stack' =>
      obtain ⟨more, hmore, rfl⟩ := hgives
      exact .yielded hturn hmore
    | continued stack' => exact .continued hturn hgives
    | finished =>
      obtain rfl := hgives
      exact .finished hturn
    | panicked => exact hgives.elim

theorem yields_of_turn {n : ℕ} {stack : List (SerializeState ι ν)} {t : Turn ι ν}
    (hturn : turn shapes mem keyText skipPredicates n stack = some t)
    (items : List (FieldItem ι × ν)) :
    Yields shapes mem keyText skipPredicates stack items ↔
      t.Gives shapes mem keyText skipPredicates items := by
  rw [yields_iff_gives]
  constructor
  · rintro ⟨m, t', hturn', hgives⟩
    rwa [turn_unique hturn hturn']
  · intro hgives
    exact ⟨n, t, hturn, hgives⟩

theorem Turn.gives_onto {t : Turn ι ν} (ht : t ≠ .finished) (rest : List (SerializeState ι ν))
    (items : List (FieldItem ι × ν)) :
    (t.onto rest).Gives shapes mem keyText skipPredicates items ↔
      ∃ a b, items = a ++ b ∧ t.Gives shapes mem keyText skipPredicates a ∧
        Yields shapes mem keyText skipPredicates rest b := by
  cases t with
  | yielded item value stack =>
    constructor
    · rintro ⟨more, hmore, rfl⟩
      obtain ⟨a, b, rfl, ha, hb⟩ := hmore.split
      exact ⟨_ :: a, b, rfl, ⟨a, ha, rfl⟩, hb⟩
    · rintro ⟨_, b, rfl, ⟨a, ha, rfl⟩, hb⟩
      exact ⟨a ++ b, ha.append hb, rfl⟩
  | continued stack =>
    constructor
    · intro h
      exact Yields.split h
    · rintro ⟨a, b, rfl, ha, hb⟩
      exact Yields.append ha hb
  | finished => exact absurd rfl ht
  | panicked => simp [Turn.onto, Turn.Gives]

end Runs

section Entries

variable (shapes : Shapes ι) (mem : Memory ι ν) (keyText : ν → Option String)
  (skipPredicates : Bool)

theorem entryTurn_ne_finished (n : ℕ) (entry : Field ι × ν) :
    entryTurn shapes mem skipPredicates n entry ≠ some .finished := by
  intro h
  apply turn_cons_ne_finished shapes mem (fun _ => none) skipPredicates n (.fields [entry]) []
  rw [turn_fields_cons, h]
  rfl

/-- The items of one field. -/
def EntryYields (entry : Field ι × ν) (items : List (FieldItem ι × ν)) : Prop :=
  Yields shapes mem keyText skipPredicates [.fields [entry]] items

variable {shapes mem keyText skipPredicates}

theorem yields_fields_nil : Yields shapes mem keyText skipPredicates [.fields []] [] :=
  .continued (n := 0) rfl .nil

theorem yields_fields_cons {entry : Field ι × ν} {entries : List (Field ι × ν)}
    {items : List (FieldItem ι × ν)} :
    Yields shapes mem keyText skipPredicates [.fields (entry :: entries)] items ↔
      ∃ n t a b, entryTurn shapes mem skipPredicates n entry = some t ∧ items = a ++ b ∧
        t.Gives shapes mem keyText skipPredicates a ∧
        Yields shapes mem keyText skipPredicates [.fields entries] b := by
  rw [yields_iff_gives]
  constructor
  · rintro ⟨n, t', hturn, hgives⟩
    rw [turn_fields_cons] at hturn
    obtain ⟨t, ht, rfl⟩ := Option.map_eq_some_iff.mp hturn
    have hne : t ≠ .finished := fun h =>
      entryTurn_ne_finished shapes mem skipPredicates n entry (h ▸ ht)
    obtain ⟨a, b, hitems, ha, hb⟩ := (Turn.gives_onto hne _ _).mp hgives
    exact ⟨n, t, a, b, ht, hitems, ha, hb⟩
  · rintro ⟨n, t, a, b, ht, hitems, ha, hb⟩
    have hne : t ≠ .finished := fun h =>
      entryTurn_ne_finished shapes mem skipPredicates n entry (h ▸ ht)
    refine ⟨n, t.onto [.fields entries], ?_, (Turn.gives_onto hne _ _).mpr ⟨a, b, hitems, ha, hb⟩⟩
    rw [turn_fields_cons, ht]
    rfl

theorem entryYields_iff {entry : Field ι × ν} {items : List (FieldItem ι × ν)} :
    EntryYields shapes mem keyText skipPredicates entry items ↔
      ∃ n t, entryTurn shapes mem skipPredicates n entry = some t ∧
        t.Gives shapes mem keyText skipPredicates items := by
  unfold EntryYields
  rw [yields_fields_cons]
  constructor
  · rintro ⟨n, t, a, b, ht, rfl, ha, hb⟩
    obtain rfl := hb.unique yields_fields_nil
    exact ⟨n, t, ht, by simpa using ha⟩
  · rintro ⟨n, t, ht, hgives⟩
    exact ⟨n, t, items, [], ht, (List.append_nil _).symm, hgives, yields_fields_nil⟩

/-- The items of a list of fields are those of its fields, one field after the other. -/
theorem yields_fields_iff {entries : List (Field ι × ν)} {items : List (FieldItem ι × ν)} :
    Yields shapes mem keyText skipPredicates [.fields entries] items ↔
      ∃ parts, List.Forall₂ (EntryYields shapes mem keyText skipPredicates) entries parts ∧
        items = parts.flatten := by
  induction entries generalizing items with
  | nil =>
    constructor
    · intro h
      exact ⟨[], .nil, h.unique yields_fields_nil⟩
    · rintro ⟨parts, hparts, rfl⟩
      cases hparts
      exact yields_fields_nil
  | cons entry entries ih =>
    rw [yields_fields_cons]
    constructor
    · rintro ⟨n, t, a, b, ht, rfl, ha, hb⟩
      obtain ⟨parts, hparts, rfl⟩ := ih.mp hb
      exact ⟨a :: parts, .cons (entryYields_iff.mpr ⟨n, t, ht, ha⟩) hparts, rfl⟩
    · rintro ⟨parts, hparts, rfl⟩
      cases hparts with
      | @cons _ a _ parts hentry hparts =>
        obtain ⟨n, t, ht, ha⟩ := entryYields_iff.mp hentry
        exact ⟨n, t, a, parts.flatten, ht, rfl, ha, ih.mpr ⟨parts, hparts, rfl⟩⟩

end Entries

end Facet.Peek
