import Facet.Peek.Composition

/-!
# Flattened fields

A flattened field is taken apart in one turn: an option by its payload, in a state of its own,
and any other value by what is innermost in it. Some flattened fields have nothing to write.
-/

namespace Facet.Peek

open Pretty

variable {ι ν : Type}

section Kinds

variable (shapes : Shapes ι) (mem : Memory ι ν)

def IsOption (x : ν) : Prop := ∃ t, Shape.def (shapes (mem.view x).shape) = .option t

def IsMap (x : ν) : Prop := ∃ k v, Shape.def (shapes (mem.view x).shape) = .map k v

def IsList (x : ν) : Prop := ∃ t, Shape.def (shapes (mem.view x).shape) = .list t

/-- A value that a pointer or a transparent wrapper stands for. -/
def Opens (x y : ν) : Prop :=
  (mem.view x).pointee = some y ∨ (mem.view x).pointee = none ∧ (mem.view x).inner = some y

/-- The value that is tried as a struct for a flattened field, and the one that is tried as an
enum or a map. -/
inductive Taken (x : ν) : ν → ν → Prop
  | payload {w : ν} : IsOption shapes mem x → (mem.view x).option = some w → Taken x w w
  | value {n : ℕ} {s : ν} : ¬ IsOption shapes mem x → innermostPeek mem n x = some s → Taken x s x

variable (keyText : ν → Option String) (skipPredicates : Bool)

/-- A field that has nothing to write: it is skipped, or flattened with nothing in it. -/
inductive Blank : Field ι × ν → Prop
  | skipped {field : Field ι} {x : ν} :
      shouldSkipSerializing mem skipPredicates field x = true → Blank (field, x)
  | none {field : Field ι} {x : ν} : field.isFlattened = true → IsOption shapes mem x →
      (mem.view x).option = none → Blank (field, x)
  | struct {field : Field ι} {x s w : ν} {st : StructType ι} : field.isFlattened = true →
      Taken shapes mem x s w → intoStruct shapes mem s = some st →
      (∀ entry ∈ structFields mem s st, Blank entry) → Blank (field, x)
  | unit {field : Field ι} {x s w : ν} {en : EnumType ι} {variant : Variant ι} :
      field.isFlattened = true → Taken shapes mem x s w → intoStruct shapes mem s = none →
      intoEnum shapes mem w = some en → activeVariant mem w en = some variant →
      variant.data.kind = .unit → Blank (field, x)
  | map {field : Field ι} {x s w : ν} : field.isFlattened = true → Taken shapes mem x s w →
      intoStruct shapes mem s = none → intoEnum shapes mem w = none → IsMap shapes mem w →
      (∀ entry ∈ (mem.view w).entries, keyText entry.1 = none) → Blank (field, x)
  | list {field : Field ι} {x s : ν} {n : ℕ} : field.isFlattened = true →
      innermostPeek mem n x = some s → intoStruct shapes mem s = none →
      intoEnum shapes mem x = none → IsList shapes mem x →
      (∀ item ∈ (mem.view x).items, intoEnum shapes mem item = none) → Blank (field, x)
  | unknown {field : Field ι} {x w : ν} : field.isFlattened = true → IsOption shapes mem x →
      (mem.view x).option = some w → intoStruct shapes mem w = none →
      intoEnum shapes mem w = none → ¬ IsMap shapes mem w → Blank (field, x)

end Kinds

section Turns

variable {shapes : Shapes ι} {mem : Memory ι ν} {keyText : ν → Option String}
  {skipPredicates : Bool}

theorem entryTurn_cases {n : ℕ} {field : Field ι} {x : ν} {t : Turn ι ν}
    (h : entryTurn shapes mem skipPredicates n (field, x) = some t) :
    (shouldSkipSerializing mem skipPredicates field x = true ∧ t = .continued []) ∨
    (field.isFlattened = false ∧ t = .yielded (.new field) x []) ∨
    (field.isFlattened = true ∧ IsOption shapes mem x ∧ (mem.view x).option = none ∧
      t = .continued []) ∨
    (field.isFlattened = true ∧ IsOption shapes mem x ∧
      ∃ w, (mem.view x).option = some w ∧ t = .continued [.flattenedOption field w]) ∨
    (field.isFlattened = true ∧ ¬ IsOption shapes mem x ∧
      ∃ s, innermostPeek mem n x = some s ∧ t = pushFlattened shapes mem field x [] s) := by
  unfold entryTurn at h
  by_cases hskip : shouldSkipSerializing mem skipPredicates field x = true
  · rw [if_pos hskip] at h
    exact .inl ⟨hskip, (Option.some.inj h).symm⟩
  · rw [if_neg hskip] at h
    by_cases hflat : field.isFlattened = true
    · rw [if_pos hflat] at h
      by_cases hoption : IsOption shapes mem x
      · obtain ⟨t', hdef⟩ := hoption
        simp only [hdef] at h
        cases hpayload : (mem.view x).option with
        | none =>
          rw [hpayload] at h
          exact .inr (.inr (.inl ⟨hflat, ⟨t', hdef⟩, rfl, (Option.some.inj h).symm⟩))
        | some w =>
          rw [hpayload] at h
          exact .inr (.inr (.inr (.inl ⟨hflat, ⟨t', hdef⟩, w, rfl, (Option.some.inj h).symm⟩)))
      · have hvalue :
            (innermostPeek mem n x).map (pushFlattened shapes mem field x []) = some t := by
          cases hdef : Shape.def (shapes (mem.view x).shape) with
          | option t' => exact absurd ⟨t', hdef⟩ hoption
          | _ => simpa only [hdef] using h
        obtain ⟨s, hs, rfl⟩ := Option.map_eq_some_iff.mp hvalue
        exact .inr (.inr (.inr (.inr ⟨hflat, hoption, s, hs, rfl⟩)))
    · rw [if_neg hflat] at h
      exact .inr (.inl ⟨by simpa using hflat, (Option.some.inj h).symm⟩)

theorem entryTurn_skipped {n : ℕ} {field : Field ι} {x : ν}
    (h : shouldSkipSerializing mem skipPredicates field x = true) :
    entryTurn shapes mem skipPredicates n (field, x) = some (.continued []) := by
  simp [entryTurn, h]

theorem entryTurn_plain {n : ℕ} {field : Field ι} {x : ν}
    (h : shouldSkipSerializing mem skipPredicates field x = false)
    (hflat : field.isFlattened = false) :
    entryTurn shapes mem skipPredicates n (field, x) = some (.yielded (.new field) x []) := by
  simp [entryTurn, h, hflat]

theorem entryTurn_none {n : ℕ} {field : Field ι} {x : ν}
    (hflat : field.isFlattened = true) (hoption : IsOption shapes mem x)
    (hpayload : (mem.view x).option = none) :
    entryTurn shapes mem skipPredicates n (field, x) = some (.continued []) := by
  obtain ⟨t, hdef⟩ := hoption
  by_cases hskip : shouldSkipSerializing mem skipPredicates field x = true
  · exact entryTurn_skipped hskip
  · simp [entryTurn, hskip, hflat, hdef, hpayload]

theorem entryTurn_payload {n : ℕ} {field : Field ι} {x w : ν}
    (h : shouldSkipSerializing mem skipPredicates field x = false)
    (hflat : field.isFlattened = true) (hoption : IsOption shapes mem x)
    (hpayload : (mem.view x).option = some w) :
    entryTurn shapes mem skipPredicates n (field, x) =
      some (.continued [.flattenedOption field w]) := by
  obtain ⟨t, hdef⟩ := hoption
  simp [entryTurn, h, hflat, hdef, hpayload]

theorem entryTurn_value {n : ℕ} {field : Field ι} {x s : ν}
    (h : shouldSkipSerializing mem skipPredicates field x = false)
    (hflat : field.isFlattened = true) (hoption : ¬ IsOption shapes mem x)
    (hs : innermostPeek mem n x = some s) :
    entryTurn shapes mem skipPredicates n (field, x) =
      some (pushFlattened shapes mem field x [] s) := by
  unfold entryTurn
  rw [if_neg (by simp [h]), if_pos hflat]
  cases hdef : Shape.def (shapes (mem.view x).shape) with
  | option t => exact absurd ⟨t, hdef⟩ hoption
  | _ => simp [hs]

theorem entryYields_of_entryTurn {n : ℕ} {entry : Field ι × ν} {t : Turn ι ν}
    (h : entryTurn shapes mem skipPredicates n entry = some t) (items : List (FieldItem ι × ν)) :
    EntryYields shapes mem keyText skipPredicates entry items ↔
      t.Gives shapes mem keyText skipPredicates items := by
  unfold EntryYields
  have hturn : turn shapes mem keyText skipPredicates n [.fields [entry]] =
      some (t.onto [.fields []]) := by
    rw [turn_fields_cons, h]
    rfl
  have hne : t ≠ .finished := fun ht =>
    entryTurn_ne_finished shapes mem skipPredicates n entry (ht ▸ h)
  rw [yields_of_turn hturn, Turn.gives_onto hne]
  constructor
  · rintro ⟨a, b, rfl, ha, hb⟩
    obtain rfl := hb.unique yields_fields_nil
    simpa using ha
  · intro hgives
    exact ⟨items, [], (List.append_nil _).symm, hgives, yields_fields_nil⟩

theorem continued_nil_gives {items : List (FieldItem ι × ν)} :
    (Turn.continued [] : Turn ι ν).Gives shapes mem keyText skipPredicates items ↔ items = [] :=
  ⟨Yields.eq_nil, fun h => h ▸ .nil⟩

theorem IsMap.not_isList {x : ν} (h : IsMap shapes mem x) : ¬ IsList shapes mem x := by
  rintro ⟨t, ht⟩
  obtain ⟨k, v, hkv⟩ := h
  rw [hkv] at ht
  cases ht

theorem pushFlattened_struct {field : Field ι} {x s : ν} {st : StructType ι}
    {stack : List (SerializeState ι ν)} (hst : intoStruct shapes mem s = some st) :
    pushFlattened shapes mem field x stack s =
      .continued (.fields (structFields mem s st) :: stack) := by
  simp [pushFlattened, hst]

theorem pushFlattened_enum {field : Field ι} {x s : ν} {en : EnumType ι}
    {stack : List (SerializeState ι ν)} (hst : intoStruct shapes mem s = none)
    (hen : intoEnum shapes mem x = some en) :
    pushFlattened shapes mem field x stack s = pushFlattenedEnum mem field en x stack := by
  simp [pushFlattened, hst, hen]

theorem pushFlattened_map {field : Field ι} {x s : ν} {stack : List (SerializeState ι ν)}
    (hst : intoStruct shapes mem s = none) (hen : intoEnum shapes mem x = none)
    (hmap : IsMap shapes mem x) :
    pushFlattened shapes mem field x stack s =
      .continued (.flattenedMap (mem.view x).entries :: stack) := by
  obtain ⟨k, v, hdef⟩ := hmap
  simp [pushFlattened, hst, hen, hdef]

theorem pushFlattened_list {field : Field ι} {x s : ν} {stack : List (SerializeState ι ν)}
    (hst : intoStruct shapes mem s = none) (hen : intoEnum shapes mem x = none)
    (hlist : IsList shapes mem x) :
    pushFlattened shapes mem field x stack s =
      .continued (.flattenedEnumList field (mem.view x).items :: stack) := by
  obtain ⟨t, hdef⟩ := hlist
  simp [pushFlattened, hst, hen, hdef]

theorem pushFlattened_other {field : Field ι} {x s : ν} {stack : List (SerializeState ι ν)}
    (hst : intoStruct shapes mem s = none) (hen : intoEnum shapes mem x = none)
    (hmap : ¬ IsMap shapes mem x) (hlist : ¬ IsList shapes mem x) :
    pushFlattened shapes mem field x stack s = .panicked := by
  unfold pushFlattened
  simp only [hst, hen]
  cases hdef : Shape.def (shapes (mem.view x).shape) with
  | map k v => exact absurd ⟨k, v, hdef⟩ hmap
  | list t => exact absurd ⟨t, hdef⟩ hlist
  | _ => rfl

section FlattenedOption

variable {n : ℕ} {field : Field ι} {w : ν} {stack : List (SerializeState ι ν)}

theorem turn_flattenedOption_struct {st : StructType ι} (hst : intoStruct shapes mem w = some st) :
    turn shapes mem keyText skipPredicates n (.flattenedOption field w :: stack) =
      some (.continued (.fields (structFields mem w st) :: stack)) := by
  simp [turn, hst]

theorem turn_flattenedOption_enum {en : EnumType ι} (hst : intoStruct shapes mem w = none)
    (hen : intoEnum shapes mem w = some en) :
    turn shapes mem keyText skipPredicates n (.flattenedOption field w :: stack) =
      some (pushFlattenedEnum mem field en w stack) := by
  simp [turn, hst, hen]

theorem turn_flattenedOption_map (hst : intoStruct shapes mem w = none)
    (hen : intoEnum shapes mem w = none) (hmap : IsMap shapes mem w) :
    turn shapes mem keyText skipPredicates n (.flattenedOption field w :: stack) =
      some (.continued (.flattenedMap (mem.view w).entries :: stack)) := by
  obtain ⟨k, v, hdef⟩ := hmap
  simp [turn, hst, hen, hdef]

theorem turn_flattenedOption_other (hst : intoStruct shapes mem w = none)
    (hen : intoEnum shapes mem w = none) (hmap : ¬ IsMap shapes mem w) :
    turn shapes mem keyText skipPredicates n (.flattenedOption field w :: stack) =
      some (.continued stack) := by
  simp only [turn, hst, hen]
  cases hdef : Shape.def (shapes (mem.view w).shape) with
  | map k v => exact absurd ⟨k, v, hdef⟩ hmap
  | _ => rfl

end FlattenedOption

end Turns

section Items

variable {shapes : Shapes ι} {mem : Memory ι ν} {keyText : ν → Option String}
  {skipPredicates : Bool}

theorem entryYields_skipped {field : Field ι} {x : ν} {items : List (FieldItem ι × ν)}
    (h : shouldSkipSerializing mem skipPredicates field x = true) :
    EntryYields shapes mem keyText skipPredicates (field, x) items ↔ items = [] :=
  (entryYields_of_entryTurn (entryTurn_skipped (n := 0) h) items).trans continued_nil_gives

theorem entryYields_plain {field : Field ι} {x : ν} {items : List (FieldItem ι × ν)}
    (h : shouldSkipSerializing mem skipPredicates field x = false)
    (hflat : field.isFlattened = false) :
    EntryYields shapes mem keyText skipPredicates (field, x) items ↔
      items = [(.new field, x)] := by
  rw [entryYields_of_entryTurn (entryTurn_plain (n := 0) h hflat)]
  constructor
  · rintro ⟨more, hmore, rfl⟩
    rw [hmore.eq_nil]
  · rintro rfl
    exact ⟨[], .nil, rfl⟩

theorem entryYields_none {field : Field ι} {x : ν} {items : List (FieldItem ι × ν)}
    (hflat : field.isFlattened = true) (hoption : IsOption shapes mem x)
    (hpayload : (mem.view x).option = none) :
    EntryYields shapes mem keyText skipPredicates (field, x) items ↔ items = [] :=
  (entryYields_of_entryTurn (entryTurn_none (n := 0) hflat hoption hpayload) items).trans
    continued_nil_gives

section Flattened

variable {field : Field ι} {x s w : ν} {items : List (FieldItem ι × ν)}
  (hskip : shouldSkipSerializing mem skipPredicates field x = false)
  (hflat : field.isFlattened = true)
include hskip hflat

theorem entryYields_payload (hoption : IsOption shapes mem x)
    (hpayload : (mem.view x).option = some w) :
    EntryYields shapes mem keyText skipPredicates (field, x) items ↔
      Yields shapes mem keyText skipPredicates [.flattenedOption field w] items :=
  entryYields_of_entryTurn (entryTurn_payload (n := 0) hskip hflat hoption hpayload) items

theorem entryYields_struct (htaken : Taken shapes mem x s w) {st : StructType ι}
    (hst : intoStruct shapes mem s = some st) :
    EntryYields shapes mem keyText skipPredicates (field, x) items ↔
      Yields shapes mem keyText skipPredicates [.fields (structFields mem s st)] items := by
  cases htaken with
  | payload hoption hpayload =>
    rw [entryYields_payload hskip hflat hoption hpayload]
    exact yields_of_turn (turn_flattenedOption_struct (n := 0) hst) items
  | value hoption hs =>
    rw [entryYields_of_entryTurn (entryTurn_value hskip hflat hoption hs), pushFlattened_struct hst]
    rfl

theorem entryYields_enum (htaken : Taken shapes mem x s w) {en : EnumType ι}
    (hst : intoStruct shapes mem s = none) (hen : intoEnum shapes mem w = some en) :
    EntryYields shapes mem keyText skipPredicates (field, x) items ↔
      (pushFlattenedEnum mem field en w []).Gives shapes mem keyText skipPredicates items := by
  cases htaken with
  | payload hoption hpayload =>
    rw [entryYields_payload hskip hflat hoption hpayload]
    exact yields_of_turn (turn_flattenedOption_enum (n := 0) hst hen) items
  | value hoption hs =>
    rw [entryYields_of_entryTurn (entryTurn_value hskip hflat hoption hs),
      pushFlattened_enum hst hen]

theorem entryYields_map (htaken : Taken shapes mem x s w)
    (hst : intoStruct shapes mem s = none) (hen : intoEnum shapes mem w = none)
    (hmap : IsMap shapes mem w) :
    EntryYields shapes mem keyText skipPredicates (field, x) items ↔
      Yields shapes mem keyText skipPredicates [.flattenedMap (mem.view w).entries] items := by
  cases htaken with
  | payload hoption hpayload =>
    rw [entryYields_payload hskip hflat hoption hpayload]
    exact yields_of_turn (turn_flattenedOption_map (n := 0) hst hen hmap) items
  | value hoption hs =>
    rw [entryYields_of_entryTurn (entryTurn_value hskip hflat hoption hs),
      pushFlattened_map hst hen hmap]
    rfl

theorem entryYields_unknown (hoption : IsOption shapes mem x)
    (hpayload : (mem.view x).option = some w) (hst : intoStruct shapes mem w = none)
    (hen : intoEnum shapes mem w = none) (hmap : ¬ IsMap shapes mem w) :
    EntryYields shapes mem keyText skipPredicates (field, x) items ↔ items = [] := by
  rw [entryYields_payload hskip hflat hoption hpayload,
    yields_of_turn (turn_flattenedOption_other (n := 0) hst hen hmap)]
  exact continued_nil_gives

theorem entryYields_list (hoption : ¬ IsOption shapes mem x) {n : ℕ}
    (hs : innermostPeek mem n x = some s) (hst : intoStruct shapes mem s = none)
    (hen : intoEnum shapes mem x = none) (hlist : IsList shapes mem x) :
    EntryYields shapes mem keyText skipPredicates (field, x) items ↔
      Yields shapes mem keyText skipPredicates
        [.flattenedEnumList field (mem.view x).items] items := by
  rw [entryYields_of_entryTurn (entryTurn_value hskip hflat hoption hs),
    pushFlattened_list hst hen hlist]
  rfl

end Flattened

theorem pushFlattenedEnum_unit_gives {field : Field ι} {en : EnumType ι} {w : ν}
    {variant : Variant ι} {items : List (FieldItem ι × ν)}
    (hactive : activeVariant mem w en = some variant) (hunit : variant.data.kind = .unit) :
    (pushFlattenedEnum mem field en w []).Gives shapes mem keyText skipPredicates items ↔
      items = [] := by
  simp only [pushFlattenedEnum, hactive, hunit, if_true]
  exact continued_nil_gives

theorem pushFlattenedEnum_variant_gives {field : Field ι} {en : EnumType ι} {w : ν}
    {variant : Variant ι} {items : List (FieldItem ι × ν)}
    (hactive : activeVariant mem w en = some variant) (hunit : variant.data.kind ≠ .unit) :
    (pushFlattenedEnum mem field en w []).Gives shapes mem keyText skipPredicates items ↔
      items = [(.flattenedEnum field variant, variantValue mem variant w)] := by
  have hturn : turn shapes mem keyText skipPredicates 0
      [.flattenedEnum (some (.flattenedEnum field variant)) (variantValue mem variant w)] =
        some (.yielded (.flattenedEnum field variant) (variantValue mem variant w) []) := rfl
  simp only [pushFlattenedEnum, hactive, hunit, if_false]
  refine (yields_of_turn hturn items).trans ?_
  constructor
  · rintro ⟨more, hmore, rfl⟩
    rw [hmore.eq_nil]
  · rintro rfl
    exact ⟨[], .nil, rfl⟩

theorem pushFlattenedEnum_unknown_gives {field : Field ι} {en : EnumType ι} {w : ν}
    {items : List (FieldItem ι × ν)} (hactive : activeVariant mem w en = none) :
    ¬ (pushFlattenedEnum mem field en w []).Gives shapes mem keyText skipPredicates items := by
  simp [pushFlattenedEnum, hactive, Turn.Gives]

/-- A list with an item that is an enum yields something, if anything at all. -/
theorem not_yields_enumList_nil {field : Field ι} {item : ν} {more : List ν} {en : EnumType ι}
    (hen : intoEnum shapes mem item = some en) :
    ¬ Yields shapes mem keyText skipPredicates [.flattenedEnumList field (item :: more)] [] := by
  cases hactive : activeVariant mem item en with
  | none =>
    have hturn : turn shapes mem keyText skipPredicates 0
        [.flattenedEnumList field (item :: more)] = some .panicked := by simp [turn, hen, hactive]
    rw [yields_of_turn hturn]
    exact id
  | some variant =>
    have hturn : turn shapes mem keyText skipPredicates 0
        [.flattenedEnumList field (item :: more)] =
          some (.yielded (.flattenedEnum field variant) (variantValue mem variant item)
            [.flattenedEnumList field more]) := by simp [turn, hen, hactive]
    rw [yields_of_turn hturn]
    rintro ⟨items, -, hnil⟩
    cases hnil

end Items

section Blank

variable {shapes : Shapes ι} {mem : Memory ι ν} {keyText : ν → Option String}
  {skipPredicates : Bool}

theorem yields_map_nil_of_keys {entries : List (ν × ν)}
    (h : ∀ entry ∈ entries, keyText entry.1 = none) :
    Yields shapes mem keyText skipPredicates [.flattenedMap entries] [] := by
  induction entries with
  | nil => exact .continued (n := 0) rfl .nil
  | cons entry entries ih =>
    rw [List.forall_mem_cons] at h
    have hturn : turn shapes mem keyText skipPredicates 0 [.flattenedMap (entry :: entries)] =
        some (.continued [.flattenedMap entries]) := by simp [turn, h.1]
    exact .continued hturn (ih h.2)

theorem yields_list_nil_of_items {field : Field ι} {items : List ν}
    (h : ∀ item ∈ items, intoEnum shapes mem item = none) :
    Yields shapes mem keyText skipPredicates [.flattenedEnumList field items] [] := by
  induction items with
  | nil => exact .continued (n := 0) rfl .nil
  | cons item items ih =>
    rw [List.forall_mem_cons] at h
    have hturn : turn shapes mem keyText skipPredicates 0
        [.flattenedEnumList field (item :: items)] = some (.continued [.flattenedEnumList field items]) := by simp [turn, h.1]
    exact .continued hturn (ih h.2)

theorem yields_fields_nil_of_entries {entries : List (Field ι × ν)}
    (h : ∀ entry ∈ entries, EntryYields shapes mem keyText skipPredicates entry []) :
    Yields shapes mem keyText skipPredicates [.fields entries] [] := by
  apply yields_fields_iff.mpr
  refine ⟨entries.map fun _ => [], ?_, by simp⟩
  rw [List.forall₂_map_right_iff]
  exact List.forall₂_same.mpr h

theorem IsOption.not_isList {x : ν} (h : IsOption shapes mem x) : ¬ IsList shapes mem x := by
  rintro ⟨t, ht⟩
  obtain ⟨t', ht'⟩ := h
  rw [ht'] at ht
  cases ht

theorem Blank.entryYields_nil {entry : Field ι × ν}
    (h : Blank shapes mem keyText skipPredicates entry) :
    EntryYields shapes mem keyText skipPredicates entry [] := by
  -- a field that is skipped yields nothing whatever is in it
  have hunless {field : Field ι} {x : ν}
      (hnil : shouldSkipSerializing mem skipPredicates field x = false →
        EntryYields shapes mem keyText skipPredicates (field, x) []) :
      EntryYields shapes mem keyText skipPredicates (field, x) [] := by
    cases hskip : shouldSkipSerializing mem skipPredicates field x with
    | true => exact (entryYields_skipped hskip).mpr rfl
    | false => exact hnil hskip
  induction h with
  | skipped hskip => exact (entryYields_skipped hskip).mpr rfl
  | none hflat hoption hpayload => exact (entryYields_none hflat hoption hpayload).mpr rfl
  | struct hflat htaken hst _ ih =>
    exact hunless fun hskip =>
      (entryYields_struct hskip hflat htaken hst).mpr (yields_fields_nil_of_entries ih)
  | unit hflat htaken hst hen hactive hunit =>
    exact hunless fun hskip => (entryYields_enum hskip hflat htaken hst hen).mpr
      ((pushFlattenedEnum_unit_gives hactive hunit).mpr rfl)
  | map hflat htaken hst hen hmap hkeys =>
    exact hunless fun hskip =>
      (entryYields_map hskip hflat htaken hst hen hmap).mpr (yields_map_nil_of_keys hkeys)
  | list hflat hs hst hen hlist hitems =>
    have hoption := fun h => IsOption.not_isList h hlist
    exact hunless fun hskip => (entryYields_list hskip hflat hoption hs hst hen hlist).mpr
      (yields_list_nil_of_items hitems)
  | unknown hflat hoption hpayload hst hen hmap =>
    exact hunless fun hskip =>
      (entryYields_unknown hskip hflat hoption hpayload hst hen hmap).mpr rfl

variable (shapes mem keyText skipPredicates) in
/-- A state of the iterator that has nothing more to yield. -/
def BlankState : SerializeState ι ν → Prop
  | .fields entries => ∀ entry ∈ entries, Blank shapes mem keyText skipPredicates entry
  | .flattenedEnum item _ => item = none
  | .flattenedMap entries => ∀ entry ∈ entries, keyText entry.1 = none
  | .flattenedEnumList _ items => ∀ item ∈ items, intoEnum shapes mem item = none
  | .flattenedOption field w => field.isFlattened = true → ∀ x, IsOption shapes mem x →
      (mem.view x).option = some w → Blank shapes mem keyText skipPredicates (field, x)

/-- A turn of a state that yields nothing leads to blank states only from a blank state. -/
theorem blank_of_entryTurn {n : ℕ} {entry : Field ι × ν} {stack : List (SerializeState ι ν)}
    (h : entryTurn shapes mem skipPredicates n entry = some (.continued stack))
    (hblank : ∀ state ∈ stack, BlankState shapes mem keyText skipPredicates state) :
    Blank shapes mem keyText skipPredicates entry := by
  obtain ⟨field, x⟩ := entry
  rcases entryTurn_cases h with ⟨hskip, -⟩ | ⟨-, ht⟩ | ⟨hflat, hoption, hpayload, -⟩ |
    ⟨hflat, hoption, w, hpayload, ht⟩ | ⟨hflat, hoption, s, hs, ht⟩
  · exact .skipped hskip
  · cases ht
  · exact .none hflat hoption hpayload
  · cases ht
    exact hblank _ (List.mem_singleton_self _) hflat x hoption hpayload
  · have htaken : Taken shapes mem x s x := .value hoption hs
    cases hst : intoStruct shapes mem s with
    | some st =>
      rw [pushFlattened_struct hst] at ht
      cases ht
      exact .struct hflat htaken hst (hblank _ (List.mem_singleton_self _))
    | none =>
      cases hen : intoEnum shapes mem x with
      | some en =>
        rw [pushFlattened_enum hst hen] at ht
        cases hactive : activeVariant mem x en with
        | none => simp [pushFlattenedEnum, hactive] at ht
        | some variant =>
          by_cases hunit : variant.data.kind = .unit
          · exact .unit hflat htaken hst hen hactive hunit
          · simp only [pushFlattenedEnum, hactive, hunit, if_false] at ht
            cases ht
            cases hblank _ (List.mem_singleton_self _)
      | none =>
        by_cases hmap : IsMap shapes mem x
        · rw [pushFlattened_map hst hen hmap] at ht
          cases ht
          exact .map hflat htaken hst hen hmap (hblank _ (List.mem_singleton_self _))
        · by_cases hlist : IsList shapes mem x
          · rw [pushFlattened_list hst hen hlist] at ht
            cases ht
            exact .list hflat hs hst hen hlist (hblank _ (List.mem_singleton_self _))
          · rw [pushFlattened_other hst hen hmap hlist] at ht
            cases ht

theorem blank_of_turn {n : ℕ} {state : SerializeState ι ν} {stack : List (SerializeState ι ν)}
    (h : turn shapes mem keyText skipPredicates n [state] = some (.continued stack))
    (hblank : ∀ state ∈ stack, BlankState shapes mem keyText skipPredicates state) :
    BlankState shapes mem keyText skipPredicates state := by
  cases state with
  | fields entries =>
    cases entries with
    | nil => simp [BlankState]
    | cons entry entries =>
      rw [turn_fields_cons] at h
      obtain ⟨t, ht, honto⟩ := Option.map_eq_some_iff.mp h
      cases t with
      | continued stack' =>
        cases honto
        rw [List.forall_mem_append] at hblank
        have hrest := hblank.2 _ (List.mem_singleton_self _)
        exact List.forall_mem_cons.mpr ⟨blank_of_entryTurn ht hblank.1, hrest⟩
      | yielded item value stack' => cases honto
      | finished => cases honto
      | panicked => cases honto
  | flattenedEnum item value =>
    cases item with
    | none => rfl
    | some item => cases h
  | flattenedMap entries =>
    cases entries with
    | nil => simp [BlankState]
    | cons entry entries =>
      cases hkey : keyText entry.1 with
      | some key => simp [turn, hkey] at h
      | none =>
        simp only [turn, hkey, Option.some.injEq, Turn.continued.injEq] at h
        subst h
        exact List.forall_mem_cons.mpr ⟨hkey, hblank _ (List.mem_singleton_self _)⟩
  | flattenedEnumList field items =>
    cases items with
    | nil => simp [BlankState]
    | cons item items =>
      cases hen : intoEnum shapes mem item with
      | some en => cases hactive : activeVariant mem item en <;> simp [turn, hen, hactive] at h
      | none =>
        simp only [turn, hen, Option.some.injEq, Turn.continued.injEq] at h
        subst h
        exact List.forall_mem_cons.mpr ⟨hen, hblank _ (List.mem_singleton_self _)⟩
  | flattenedOption field w =>
    intro hflat x hoption hpayload
    have htaken : Taken shapes mem x w w := .payload hoption hpayload
    cases hst : intoStruct shapes mem w with
    | some st =>
      rw [turn_flattenedOption_struct hst] at h
      cases h
      exact .struct hflat htaken hst (hblank _ (List.mem_singleton_self _))
    | none =>
      cases hen : intoEnum shapes mem w with
      | some en =>
        rw [turn_flattenedOption_enum hst hen] at h
        cases hactive : activeVariant mem w en with
        | none => simp [pushFlattenedEnum, hactive] at h
        | some variant =>
          by_cases hunit : variant.data.kind = .unit
          · exact .unit hflat htaken hst hen hactive hunit
          · simp only [pushFlattenedEnum, hactive, hunit, if_false] at h
            cases h
            cases hblank _ (List.mem_singleton_self _)
      | none =>
        by_cases hmap : IsMap shapes mem w
        · rw [turn_flattenedOption_map hst hen hmap] at h
          cases h
          exact .map hflat htaken hst hen hmap (hblank _ (List.mem_singleton_self _))
        · exact .unknown hflat hoption hpayload hst hen hmap

theorem Yields.blank {stack : List (SerializeState ι ν)} {items : List (FieldItem ι × ν)}
    (h : Yields shapes mem keyText skipPredicates stack items) (hnil : items = []) :
    ∀ state ∈ stack, BlankState shapes mem keyText skipPredicates state := by
  induction h with
  | @finished n stack hturn =>
    cases stack with
    | nil => simp
    | cons state stack => exact absurd hturn (turn_cons_ne_finished _ _ _ _ n state stack)
  | yielded => cases hnil
  | @continued n stack stack' items hturn _ ih =>
    cases stack with
    | nil => cases hturn
    | cons state stack =>
      rw [← List.nil_append stack, turn_append] at hturn
      obtain ⟨t, ht, honto⟩ := Option.map_eq_some_iff.mp hturn
      cases t with
      | continued upper =>
        cases honto
        have hall := List.forall_mem_append.mp (ih hnil)
        exact List.forall_mem_cons.mpr ⟨blank_of_turn ht hall.1, hall.2⟩
      | yielded item' value' stack'' => cases honto
      | finished => cases honto
      | panicked => cases honto

theorem yields_fields_nil_iff {entries : List (Field ι × ν)} :
    Yields shapes mem keyText skipPredicates [.fields entries] [] ↔
      ∀ entry ∈ entries, Blank shapes mem keyText skipPredicates entry := by
  constructor
  · intro h
    exact h.blank rfl _ (List.mem_singleton_self _)
  · intro h
    exact yields_fields_nil_of_entries fun entry hentry => (h entry hentry).entryYields_nil

end Blank

end Facet.Peek
