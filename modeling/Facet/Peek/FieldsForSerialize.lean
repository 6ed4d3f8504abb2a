import Facet.Pretty.Value

/-!
# Fields for serialization

The iterator over the fields of a value that a serializer writes. It works on a stack: a flattened
field is replaced by the fields, the active variant, the entries or the items that stand for it.
-/

namespace Facet.Peek

open Pretty

variable {ι ν : Type}

/-- A text variant of the DOM formats. -/
def isText (v : Variant ι) : Bool :=
  v.attributes.contains ⟨none, "text"⟩ || v.attributes.contains ⟨some "html", "text"⟩ ||
    v.attributes.contains ⟨some "xml", "text"⟩

/-- A field with the state of the iteration; an entry of a flattened map has no field. -/
structure FieldItem (ι : Type) where
  field : Option (Field ι)
  name : String
  rename : Option String
  flattened : Bool
  isTextVariant : Bool

namespace FieldItem

def new (field : Field ι) : FieldItem ι where
  field := some field
  name := field.name
  rename := field.rename
  flattened := false
  isTextVariant := false

def flattenedEnum (field : Field ι) (variant : Variant ι) : FieldItem ι where
  field := some field
  name := variant.name
  rename := variant.rename
  flattened := true
  isTextVariant := isText variant

def flattenedMapEntry (key : String) : FieldItem ι where
  field := none
  name := key
  rename := none
  flattened := true
  isTextVariant := false

def effectiveName (item : FieldItem ι) : String := item.rename.getD item.name

@[simp] theorem effectiveName_new (field : Field ι) :
    (new field).effectiveName = field.effectiveName := rfl

@[simp] theorem effectiveName_flattenedEnum (field : Field ι) (variant : Variant ι) :
    (flattenedEnum field variant).effectiveName = variant.effectiveName := rfl

end FieldItem

inductive SerializeState (ι ν : Type)
  | fields (fields : List (Field ι × ν))
  | flattenedEnum (item : Option (FieldItem ι)) (value : ν)
  | flattenedMap (entries : List (ν × ν))
  | flattenedEnumList (field : Field ι) (items : List ν)
  | flattenedOption (field : Field ι) (inner : ν)

/-- One turn of the iterator's loop. -/
inductive Turn (ι ν : Type)
  | yielded (item : FieldItem ι) (value : ν) (stack : List (SerializeState ι ν))
  | continued (stack : List (SerializeState ι ν))
  | finished
  | panicked

section

variable (shapes : Shapes ι) (mem : Memory ι ν)

def intoStruct (peek : ν) : Option (StructType ι) :=
  match (shapes (mem.view peek).shape).ty with
  | .user (.struct st) => some st
  | _ => none

def intoEnum (peek : ν) : Option (EnumType ι) :=
  match (shapes (mem.view peek).shape).ty with
  | .user (.enum en) => some en
  | _ => none

def activeVariant (peek : ν) (en : EnumType ι) : Option (Variant ι) :=
  (mem.view peek).activeVariant.bind (en.variants[·]?)

/-- The fields of a struct with their values. -/
def structFields (peek : ν) (st : StructType ι) : List (Field ι × ν) :=
  st.fields.zipIdx.map fun (field, index) => (field, (mem.view peek).field index)

def shouldSkipSerializing (skipPredicates : Bool) (field : Field ι) (peek : ν) : Bool :=
  field.skipSerializing ||
    (skipPredicates && field.skipSerializingIf && mem.skipPredicate peek)

/-- What a value wraps, through pointers and transparent wrappers. -/
def innermostPeek : ℕ → ν → Option ν
  | 0, _ => none
  | n + 1, peek =>
    match (mem.view peek).pointee, (mem.view peek).inner with
    | some target, _ => innermostPeek n target
    | none, some inner => innermostPeek n inner
    | none, none => some peek

/-- The payload of a newtype variant, else the enum itself. -/
def variantValue (variant : Variant ι) (peek : ν) : ν :=
  match variant.data.kind, variant.data.fields with
  | .tuple, [_] | .tupleStruct, [_] => (mem.view peek).field 0
  | _, _ => peek

/-- A flattened enum that is not in a list; a unit variant has no value to write. -/
def pushFlattenedEnum (field : Field ι) (en : EnumType ι) (peek : ν)
    (stack : List (SerializeState ι ν)) : Turn ι ν :=
  match activeVariant mem peek en with
  | none => .panicked
  | some variant =>
    if variant.data.kind = .unit then .continued stack
    else .continued (.flattenedEnum (some (.flattenedEnum field variant))
      (variantValue mem variant peek) :: stack)

/-- A flattened field that is no `Option`, by what is innermost in its value. -/
def pushFlattened (field : Field ι) (peek : ν) (stack : List (SerializeState ι ν))
    (innermost : ν) : Turn ι ν :=
  match intoStruct shapes mem innermost with
  | some st => .continued (.fields (structFields mem innermost st) :: stack)
  | none =>
    match intoEnum shapes mem peek with
    | some en => pushFlattenedEnum mem field en peek stack
    | none =>
      match (shapes (mem.view peek).shape).def with
      | .map _ _ => .continued (.flattenedMap (mem.view peek).entries :: stack)
      | .list _ => .continued (.flattenedEnumList field (mem.view peek).items :: stack)
      | _ => .panicked

-- the text of a map key is what `extract_string_from_peek` or its `Display` gives
variable (keyText : ν → Option String) (skipPredicates : Bool)

/-- The fuel is for `innermost_peek` only. -/
def turn (n : ℕ) : List (SerializeState ι ν) → Option (Turn ι ν)
  | [] => some .finished
  | .flattenedEnum item value :: stack =>
    match item with
    | some item => some (.yielded item value stack)
    | none => some (.continued stack)
  | .flattenedMap entries :: stack =>
    match entries with
    | (key, value) :: entries =>
      match keyText key with
      | some key => some (.yielded (.flattenedMapEntry key) value (.flattenedMap entries :: stack))
      | none => some (.continued (.flattenedMap entries :: stack))
    | [] => some (.continued stack)
  | .flattenedEnumList field items :: stack =>
    match items with
    | item :: items =>
      let stack := .flattenedEnumList field items :: stack
      match intoEnum shapes mem item with
      | some en =>
        match activeVariant mem item en with
        | some variant =>
          some (.yielded (.flattenedEnum field variant) (variantValue mem variant item) stack)
        | none => some .panicked
      | none => some (.continued stack)
    | [] => some (.continued stack)
  | .flattenedOption field inner :: stack =>
    match intoStruct shapes mem inner with
    | some st => some (.continued (.fields (structFields mem inner st) :: stack))
    | none =>
      match intoEnum shapes mem inner with
      | some en => some (pushFlattenedEnum mem field en inner stack)
      | none =>
        match (shapes (mem.view inner).shape).def with
        | .map _ _ => some (.continued (.flattenedMap (mem.view inner).entries :: stack))
        | _ => some (.continued stack)
  | .fields fields :: stack =>
    match fields with
    | [] => some (.continued stack)
    | (field, peek) :: fields =>
      let stack := .fields fields :: stack
      if shouldSkipSerializing mem skipPredicates field peek then some (.continued stack)
      else if field.isFlattened then
        match (shapes (mem.view peek).shape).def with
        | .option _ =>
          match (mem.view peek).option with
          | some inner => some (.continued (.flattenedOption field inner :: stack))
          | none => some (.continued stack)
        | _ => (innermostPeek mem n peek).map (pushFlattened shapes mem field peek stack)
      else some (.yielded (.new field) peek stack)

/-- The iterator yields the items, in order, from a stack to the end. -/
inductive Yields : List (SerializeState ι ν) → List (FieldItem ι × ν) → Prop
  | finished {n : ℕ} {stack : List (SerializeState ι ν)} :
      turn shapes mem keyText skipPredicates n stack = some .finished → Yields stack []
  | yielded {n : ℕ} {stack stack' : List (SerializeState ι ν)} {item : FieldItem ι} {value : ν}
      {items : List (FieldItem ι × ν)} :
      turn shapes mem keyText skipPredicates n stack = some (.yielded item value stack') →
      Yields stack' items → Yields stack ((item, value) :: items)
  | continued {n : ℕ} {stack stack' : List (SerializeState ι ν)}
      {items : List (FieldItem ι × ν)} :
      turn shapes mem keyText skipPredicates n stack = some (.continued stack') →
      Yields stack' items → Yields stack items

/-- The stack that `fields_for_serialize` starts with, on a struct. -/
def fieldsForSerialize (peek : ν) (st : StructType ι) : List (SerializeState ι ν) :=
  [.fields (structFields mem peek st)]

end

section Unique

variable {shapes : Shapes ι} {mem : Memory ι ν}

theorem innermostPeek_unique {n m : ℕ} {peek a b : ν} (ha : innermostPeek mem n peek = some a)
    (hb : innermostPeek mem m peek = some b) : a = b := by
  induction n generalizing m peek with
  | zero => exact absurd ha (by simp [innermostPeek])
  | succ n ih =>
    cases m with
    | zero => exact absurd hb (by simp [innermostPeek])
    | succ m =>
      cases hpointee : (mem.view peek).pointee with
      | some target =>
        simp only [innermostPeek, hpointee] at ha hb
        exact ih ha hb
      | none =>
        cases hinner : (mem.view peek).inner with
        | some inner =>
          simp only [innermostPeek, hpointee, hinner] at ha hb
          exact ih ha hb
        | none =>
          simp only [innermostPeek, hpointee, hinner, Option.some.injEq] at ha hb
          rw [← ha, hb]

variable {keyText : ν → Option String} {skipPredicates : Bool}

variable (shapes mem keyText skipPredicates) in
/-- The fuel matters only for what is innermost in one value. -/
theorem turn_uses_fuel (stack : List (SerializeState ι ν)) :
    (∃ t, ∀ n, turn shapes mem keyText skipPredicates n stack = t) ∨
      ∃ peek k, ∀ n, turn shapes mem keyText skipPredicates n stack =
        (innermostPeek mem n peek).map k := by
  have hsame {stack : List (SerializeState ι ν)} (h : ∀ n,
      turn shapes mem keyText skipPredicates n stack = turn shapes mem keyText skipPredicates 0 stack) :
      ∃ t, ∀ n, turn shapes mem keyText skipPredicates n stack = t := ⟨_, h⟩
  cases stack with
  | nil => exact .inl (hsame fun n => rfl)
  | cons state stack =>
    cases state with
    | fields fields =>
      cases fields with
      | nil => exact .inl (hsame fun n => rfl)
      | cons entry fields =>
        obtain ⟨field, peek⟩ := entry
        by_cases hskip : shouldSkipSerializing mem skipPredicates field peek = true
        · exact .inl (hsame fun n => by simp only [turn, hskip, if_true])
        · by_cases hflat : field.isFlattened = true
          · cases hdef : (shapes (mem.view peek).shape).def with
            | option t =>
              exact .inl (hsame fun n => by simp only [turn, hskip, hflat, hdef, if_true])
            | _ =>
              exact .inr ⟨peek, pushFlattened shapes mem field peek (.fields fields :: stack), fun n => by
                simp [turn, hskip, hflat, hdef]⟩
          · exact .inl (hsame fun n => by simp [turn, hskip, hflat])
    | flattenedEnum item value => exact .inl (hsame fun n => rfl)
    | flattenedMap entries => exact .inl (hsame fun n => rfl)
    | flattenedEnumList field items => exact .inl (hsame fun n => rfl)
    | flattenedOption field inner => exact .inl (hsame fun n => rfl)

theorem turn_unique {n m : ℕ} {stack : List (SerializeState ι ν)} {t t' : Turn ι ν}
    (h : turn shapes mem keyText skipPredicates n stack = some t)
    (h' : turn shapes mem keyText skipPredicates m stack = some t') : t = t' := by
  rcases turn_uses_fuel shapes mem keyText skipPredicates stack with ⟨u, hu⟩ | ⟨peek, k, hk⟩
  · rw [hu] at h h'
    exact Option.some.inj (h.symm.trans h')
  · rw [hk] at h h'
    obtain ⟨a, ha, rfl⟩ := Option.map_eq_some_iff.mp h
    obtain ⟨b, hb, rfl⟩ := Option.map_eq_some_iff.mp h'
    rw [innermostPeek_unique ha hb]

theorem Yields.unique {stack : List (SerializeState ι ν)} {items items' : List (FieldItem ι × ν)}
    (h : Yields shapes mem keyText skipPredicates stack items)
    (h' : Yields shapes mem keyText skipPredicates stack items') : items = items' := by
  induction h generalizing items' with
  | finished hturn =>
    cases h' with
    | finished => rfl
    | yielded hturn' => exact nomatch turn_unique hturn hturn'
    | continued hturn' => exact nomatch turn_unique hturn hturn'
  | yielded hturn _ ih =>
    cases h' with
    | finished hturn' => exact nomatch turn_unique hturn hturn'
    | yielded hturn' hrest =>
      cases turn_unique hturn hturn'
      rw [ih hrest]
    | continued hturn' => exact nomatch turn_unique hturn hturn'
  | continued hturn _ ih =>
    cases h' with
    | finished hturn' => exact nomatch turn_unique hturn hturn'
    | yielded hturn' => exact nomatch turn_unique hturn hturn'
    | continued hturn' hrest =>
      cases turn_unique hturn hturn'
      exact ih hrest

end Unique

end Facet.Peek
