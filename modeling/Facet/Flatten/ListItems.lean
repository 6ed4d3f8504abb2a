import Facet.Flatten.ListRuns
import Facet.Peek.FieldsForSerialize

/-!
# Serialized lists

The serializer goes by what a value can be viewed as: a flattened list of enums is written as one
key for each item, however many there are. The schema has one variant for the whole list.
-/

namespace Facet.Flatten

open Peek Pretty

variable {ι ν : Type} {shapes : Shapes ι}

section Values

variable (shapes : Shapes ι) (mem : Memory ι ν)

/-- An enum has an active variant. -/
def HasVariant (peek : ν) : Prop :=
  ∀ en, intoEnum shapes mem peek = some en → ∃ v, activeVariant mem peek en = some v

/-- A value of a flattened list or enum. -/
structure HoldsContainer (f : Field ι) (peek : ν) : Prop where
  shape : (mem.view peek).shape = f.shape
  -- neither a pointer nor a wrapper that lends its contents
  pointee : (mem.view peek).pointee = none
  inner : (mem.view peek).inner = none
  items : ∀ item ∈ (mem.view peek).items, HasVariant shapes mem item
  variant : HasVariant shapes mem peek

/-- The flattened containers in a struct's value hold values of their types. -/
def HoldsContainers (st : StructType ι) (peek : ν) : Prop :=
  ∀ entry ∈ structFields mem peek st, entry.1.isFlattened = true →
    FlattensContainer shapes entry.1 → HoldsContainer shapes mem entry.1 entry.2

/-- The active variant of an enum's value. -/
def itemVariant (item : ν) : Option (Variant ι) :=
  (intoEnum shapes mem item).bind (activeVariant mem item)

/-- The variants that stand for a flattened field, with their values: that of an enum unless it is a
unit variant, else those of the items that are enums. -/
def fieldVariants (entry : Field ι × ν) : List (Variant ι × ν) :=
  match (shapes entry.1.shape).ty with
  | .user (.enum _) => ((itemVariant shapes mem entry.2).filter fun v => v.data.kind ≠ .unit).toList.map
      fun v => (v, entry.2)
  | _ => (mem.view entry.2).items.filterMap fun item =>
      (itemVariant shapes mem item).map fun v => (v, item)

variable (skipPredicates : Bool)

/-- The items for one field of a struct. -/
def fieldItems (entry : Field ι × ν) : List (FieldItem ι × ν) :=
  if shouldSkipSerializing mem skipPredicates entry.1 entry.2 then []
  else if entry.1.isFlattened then (fieldVariants shapes mem entry).map fun x =>
    (.flattenedEnum entry.1 x.1, variantValue mem x.1 x.2)
  else [(.new entry.1, entry.2)]

/-- The names that one field of a struct puts on the wire: its own, or those of variants. -/
def fieldNames (entry : Field ι × ν) : List String :=
  if shouldSkipSerializing mem skipPredicates entry.1 entry.2 then []
  else if entry.1.isFlattened then (fieldVariants shapes mem entry).map fun x => x.1.effectiveName
  else [entry.1.effectiveName]

/-- The names that a struct's value puts on the wire. -/
def serializedNames (peek : ν) (st : StructType ι) : List String :=
  (structFields mem peek st).flatMap (fieldNames shapes mem skipPredicates)

end Values

section Items

variable {mem : Memory ι ν} {keyText : ν → Option String} {skipPredicates : Bool}

theorem names_fieldItems (entry : Field ι × ν) :
    (fieldItems shapes mem skipPredicates entry).map (fun x => x.1.effectiveName) =
      fieldNames shapes mem skipPredicates entry := by
  unfold fieldItems fieldNames
  split_ifs
  · rfl
  · simp
  · rfl

/-- The items of a list, one after another; those that are no enums are left out. -/
theorem yields_list (f : Field ι) {stack : List (SerializeState ι ν)} {rest : List (FieldItem ι × ν)}
    (hrest : Yields shapes mem keyText skipPredicates stack rest) {items : List ν}
    (hitems : ∀ item ∈ items, HasVariant shapes mem item) :
    Yields shapes mem keyText skipPredicates (.flattenedEnumList f items :: stack)
      ((items.filterMap fun item => (itemVariant shapes mem item).map fun v => (v, item)).map
        (fun x => (FieldItem.flattenedEnum f x.1, variantValue mem x.1 x.2)) ++ rest) := by
  induction items with
  | nil => exact .continued (n := 0) rfl hrest
  | cons item items ih =>
    have hyields := ih fun i hi => hitems i (List.mem_cons_of_mem item hi)
    cases hen : intoEnum shapes mem item with
    | none =>
      have hvariant : itemVariant shapes mem item = none := by simp [itemVariant, hen]
      rw [List.filterMap_cons_none (by rw [hvariant]; rfl)]
      exact .continued (n := 0) (by simp [turn, hen]) hyields
    | some en =>
      obtain ⟨v, hv⟩ := hitems item List.mem_cons_self en hen
      have hvariant : itemVariant shapes mem item = some v := by simp [itemVariant, hen, hv]
      rw [List.filterMap_cons_some (by rw [hvariant]; rfl), List.map_cons, List.cons_append]
      exact .yielded (n := 0) (by simp [turn, hen, hv]) hyields

section Turns

variable {f : Field ι} {peek : ν} (h : HoldsContainer shapes mem f peek)
  (hskip : shouldSkipSerializing mem skipPredicates f peek = false)
include h hskip

/-- A flattened field that is no `Option` is replaced by what is in its value. -/
theorem turn_flattened (hflat : f.isFlattened = true)
    (hoption : ∀ t, Shape.def (shapes f.shape) ≠ .option t) (fields : List (Field ι × ν))
    (stack : List (SerializeState ι ν)) :
    turn shapes mem keyText skipPredicates 1 (.fields ((f, peek) :: fields) :: stack) =
      some (pushFlattened shapes mem f peek (.fields fields :: stack) peek) := by
  have hinnermost : innermostPeek mem 1 peek = some peek := by
    simp [innermostPeek, h.pointee, h.inner]
  cases hdef : Shape.def (shapes f.shape) with
  | option t => exact absurd hdef (hoption t)
  | _ => simp [turn, hskip, hflat, h.shape, hdef, hinnermost]

theorem yields_listField {e : ι} (hflat : f.isFlattened = true)
    (hty : (shapes f.shape).ty = .user .opaqueTy) (hdef : Shape.def (shapes f.shape) = .list e)
    {fields : List (Field ι × ν)} {stack : List (SerializeState ι ν)}
    {rest : List (FieldItem ι × ν)}
    (hrest : Yields shapes mem keyText skipPredicates (.fields fields :: stack) rest) :
    Yields shapes mem keyText skipPredicates (.fields ((f, peek) :: fields) :: stack)
      (fieldItems shapes mem skipPredicates (f, peek) ++ rest) := by
  have hpush : pushFlattened shapes mem f peek (.fields fields :: stack) peek =
      .continued (.flattenedEnumList f (mem.view peek).items :: .fields fields :: stack) := by
    simp [pushFlattened, intoStruct, Peek.intoEnum, h.shape, hty, hdef]
  have hturn : turn shapes mem keyText skipPredicates 1 (.fields ((f, peek) :: fields) :: stack) = _ :=
    turn_flattened h hskip hflat (by simp [hdef]) fields stack
  rw [hpush] at hturn
  simp only [fieldItems, fieldVariants, hskip, hflat, hty]
  exact .continued hturn (yields_list f hrest h.items)

theorem yields_enumField {en : EnumType ι} (hflat : f.isFlattened = true)
    (hty : (shapes f.shape).ty = .user (.enum en))
    (hoption : ∀ t, Shape.def (shapes f.shape) ≠ .option t)
    {fields : List (Field ι × ν)} {stack : List (SerializeState ι ν)}
    {rest : List (FieldItem ι × ν)}
    (hrest : Yields shapes mem keyText skipPredicates (.fields fields :: stack) rest) :
    Yields shapes mem keyText skipPredicates (.fields ((f, peek) :: fields) :: stack)
      (fieldItems shapes mem skipPredicates (f, peek) ++ rest) := by
  have hen : intoEnum shapes mem peek = some en := by simp [intoEnum, h.shape, hty]
  obtain ⟨v, hv⟩ := h.variant en hen
  have hturn : turn shapes mem keyText skipPredicates 1 (.fields ((f, peek) :: fields) :: stack) = _ :=
    turn_flattened h hskip hflat hoption fields stack
  have hpush : pushFlattened shapes mem f peek (.fields fields :: stack) peek =
      pushFlattenedEnum mem f en peek (.fields fields :: stack) := by
    simp [pushFlattened, intoStruct, h.shape, hty, hen]
  rw [hpush] at hturn
  simp only [fieldItems, fieldVariants, hskip, hflat, hty, itemVariant, hen, Option.bind_some, hv]
  by_cases hunit : v.data.kind = .unit
  · rw [pushFlattenedEnum, hv] at hturn
    simp only [hunit, if_true] at hturn
    simpa [hunit, Option.filter] using Yields.continued hturn hrest
  · rw [pushFlattenedEnum, hv] at hturn
    simp only [hunit, if_false] at hturn
    have hyields := Yields.continued hturn (.yielded (n := 0) rfl hrest)
    simpa [hunit, Option.filter] using hyields

end Turns

theorem yields_fields {fields : List (Field ι × ν)}
    (hfields : ∀ entry ∈ fields, entry.1.isFlattened = true →
      FlattensContainer shapes entry.1 ∧ HoldsContainer shapes mem entry.1 entry.2)
    {stack : List (SerializeState ι ν)} {rest : List (FieldItem ι × ν)}
    (hrest : Yields shapes mem keyText skipPredicates stack rest) :
    Yields shapes mem keyText skipPredicates (.fields fields :: stack)
      (fields.flatMap (fieldItems shapes mem skipPredicates) ++ rest) := by
  induction fields with
  | nil => exact .continued (n := 0) rfl hrest
  | cons entry fields ih =>
    obtain ⟨f, peek⟩ := entry
    have hyields := ih fun e he => hfields e (List.mem_cons_of_mem _ he)
    rw [List.flatMap_cons, List.append_assoc]
    by_cases hskip : shouldSkipSerializing mem skipPredicates f peek = true
    · rw [fieldItems, if_pos hskip, List.nil_append]
      exact .continued (n := 0) (by simp [turn, hskip]) hyields
    · by_cases hflat : f.isFlattened = true
      · obtain ⟨hcontainer, hholds⟩ := hfields _ List.mem_cons_self hflat
        have hkept := Bool.eq_false_iff.mpr hskip
        cases hcontainer with
        | enums h => exact yields_listField hholds hkept hflat h.outer h.list hyields
        | structs h houter => exact yields_listField hholds hkept hflat houter h.list hyields
        | untagged h _ => exact yields_enumField hholds hkept hflat h.enum.ty h.notOption hyields
      · rw [fieldItems, if_neg hskip, if_neg hflat, List.singleton_append]
        exact .yielded (n := 0) (by simp [turn, hskip, hflat]) hyields

/-- The names of the items are the serialized names, whatever the run. -/
theorem names_of_yields (keyText : ν → Option String) (skipPredicates : Bool) {st : StructType ι}
    {peek : ν} (hcontainers : FlattensContainers shapes st.fields)
    (hholds : HoldsContainers shapes mem st peek) :
    ∃ items, Yields shapes mem keyText skipPredicates (fieldsForSerialize mem peek st) items ∧
      items.map (fun x => x.1.effectiveName) = serializedNames shapes mem skipPredicates peek st := by
  have hfields : ∀ entry ∈ structFields mem peek st, entry.1.isFlattened = true →
      FlattensContainer shapes entry.1 ∧ HoldsContainer shapes mem entry.1 entry.2 := by
    intro entry hentry hflat
    have hmem : entry.1 ∈ st.fields := by
      obtain ⟨⟨f, k⟩, hf, rfl⟩ := List.mem_map.mp hentry
      exact List.fst_mem_of_mem_zipIdx hf
    have hcontainer := hcontainers entry.1 hmem hflat
    exact ⟨hcontainer, hholds entry hentry hflat hcontainer⟩
  refine ⟨_, yields_fields hfields (.finished (n := 0) rfl), ?_⟩
  rw [List.append_nil, List.map_flatMap, serializedNames]
  exact List.flatMap_congr fun entry _ => names_fieldItems entry

end Items

/-- The names of all items that the serializer yields are answered, and the run ends well. -/
def Schema.AnswersItems [DecidableEq ι] (shapes : Shapes ι) (schema : Schema ι) (mem : Memory ι ν)
    (keyText : ν → Option String) (skipPredicates : Bool) (peek : ν) (st : StructType ι) : Prop :=
  ∀ items, Yields shapes mem keyText skipPredicates (fieldsForSerialize mem peek st) items →
    schema.AnswersAll shapes (items.map fun x => x.1.effectiveName)

/-- The builder that recognizes the representation of each enum. -/
def autoBuilder (s : ι) : SchemaBuilder ι where
  shape := s
  enumRepr := .flattened
  autoDetectEnumRepr := true
  format := .flat

inductive PageType
  | page
  | parts
  | part
  | rows
  | row
  | string
  deriving DecidableEq

def pageStruct : StructType PageType :=
  ⟨.struct, [{ name := "title", shape := .string }, { name := "parts", shape := .parts, flatten := true },
    { name := "rows", shape := .rows, flatten := true }]⟩

def partVariant (name : String) : Variant PageType :=
  { name := name, data := ⟨.tuple, [{ name := "0", shape := .string }]⟩ }

/-- `struct Page { title: String, #[facet(flatten)] parts: Vec<Part>, #[facet(flatten)] rows: Vec<Row> }`
where `Part` has the variants `Text(String)` and `Image(String)` and `Row` has no fields. -/
def pageShapes : Shapes PageType
  | .page => { ty := .user (.struct pageStruct), «def» := .undefined }
  | .parts => { ty := .user .opaqueTy, «def» := .list .part, inner := some .part }
  | .part =>
    { ty := .user (.enum ⟨[partVariant "Text", partVariant "Image"], .u8⟩)
      «def» := .undefined
      typeIdentifier := "Part" }
  | .rows => { ty := .user .opaqueTy, «def» := .list .row, inner := some .row }
  | .row => { ty := .user (.struct ⟨.struct, []⟩), «def» := .undefined }
  | .string => { ty := .user .opaqueTy, «def» := .scalar, typeIdentifier := "String" }

inductive PageValue
  | page
  | parts
  | part (k : ℕ)
  | rows
  | row
  | string
  deriving DecidableEq

/-- A page with the given parts, by the indices of their variants, and one row. -/
def pageMemory (parts : List ℕ) : Memory PageType PageValue where
  view
    | .page =>
      { shape := .page
        field := fun k => if k = 0 then .string else if k = 1 then .parts else .rows }
    | .parts =>
      { shape := .parts
        field := fun _ => .string
        items := parts.map .part }
    | .part k =>
      { shape := .part
        field := fun _ => .string
        activeVariant := some k }
    | .rows =>
      { shape := .rows
        field := fun _ => .string
        items := [.row] }
    | .row => { shape := .row, field := fun _ => .string }
    | .string => { shape := .string, field := fun _ => .string }
  convertOut _ _ := .error ""

theorem pageShapes_finiteTypes : FiniteTypes pageShapes where
  finite s := by
    have hleaf (s : PageType) (h : heldFields (pageShapes s) = []) : Finite pageShapes s :=
      .intro _ fun t ⟨f, hf, _⟩ => absurd (h ▸ hf) List.not_mem_nil
    cases s with
    | page =>
      constructor
      rintro t ⟨f, hf, rfl⟩
      rcases List.mem_cons.mp hf with rfl | hf
      · exact hleaf .string rfl
      · rcases List.mem_pair.mp hf with rfl | rfl
        · exact hleaf .parts rfl
        · exact hleaf .rows rfl
    | parts => exact hleaf .parts rfl
    | part =>
      constructor
      rintro t ⟨f, hf, rfl⟩
      rcases List.mem_pair.mp hf with rfl | rfl <;> exact hleaf .string rfl
    | rows => exact hleaf .rows rfl
    | row => exact hleaf .row rfl
    | string => exact hleaf .string rfl
  variants s en hty := by
    cases s with
    | part =>
      cases hty
      exact List.cons_ne_nil _ _
    | _ => cases hty

theorem pageShapes_wellNamed : WellNamed pageShapes where
  struct s st hty := by
    cases s with
    | page =>
      cases hty
      decide
    | row =>
      cases hty
      exact List.nodup_nil
    | _ => cases hty
  variant s en hty v hv := by
    cases s with
    | part =>
      cases hty
      rcases List.mem_pair.mp hv with rfl | rfl <;> decide
    | _ => cases hty

theorem pageShapes_distinctVariants : DistinctVariants pageShapes := by
  intro s en hty
  cases s with
  | part =>
    cases hty
    decide
  | _ => cases hty

theorem page_flattensContainers : FlattensContainers pageShapes pageStruct.fields := by
  intro f hf hflat
  rcases List.mem_cons.mp hf with rfl | hf
  · exact absurd hflat (by decide)
  · rcases List.mem_pair.mp hf with rfl | rfl
    · exact .enums ⟨rfl, rfl, rfl, rfl, ⟨rfl, rfl⟩, rfl⟩
    · exact .structs ⟨rfl, rfl, rfl, ⟨rfl, rfl, rfl⟩⟩ rfl

theorem page_holdsContainers (parts : List ℕ) (hparts : ∀ k ∈ parts, k < 2) :
    HoldsContainers pageShapes (pageMemory parts) pageStruct .page := by
  have hpart (k : ℕ) (hk : k < 2) : HasVariant pageShapes (pageMemory parts) (.part k) := by
    intro en hen
    cases hen
    exact ⟨_, List.getElem?_eq_getElem hk⟩
  intro entry hentry hflat _
  rcases List.mem_cons.mp (show entry ∈ [_, _, _] from hentry) with rfl | hentry
  · exact absurd hflat Bool.false_ne_true
  · rcases List.mem_pair.mp hentry with rfl | rfl
    · refine ⟨rfl, rfl, rfl, ?_, nofun⟩
      intro item hitem
      obtain ⟨k, hk, rfl⟩ := List.mem_map.mp hitem
      exact hpart k (hparts k hk)
    · refine ⟨rfl, rfl, rfl, ?_, nofun⟩
      intro item hitem
      rw [List.mem_singleton.mp hitem]
      exact nofun

end Facet.Flatten
