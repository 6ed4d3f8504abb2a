import Facet.Peek.Nesting

/-!
# Flattened options

A flattened `Option` is opened by a state of its own, which knows less than a plain flattened
field does: it looks through no pointer and no wrapper, it does not know lists, and it takes a
second `Option` for an enum. Here stands which values are written the same both ways.
-/

namespace Facet.Peek

open Pretty

variable {ι ν : Type}

section Conditions

variable (shapes : Shapes ι) (mem : Memory ι ν)

/-- What options, pointers and transparent wrappers are like. -/
structure WellShaped : Prop where
  none_unit : ∀ x, IsOption shapes mem x → (mem.view x).option = none →
    ∃ en variant, intoEnum shapes mem x = some en ∧ activeVariant mem x en = some variant ∧
      variant.data.kind = .unit
  some_newtype : ∀ x w, IsOption shapes mem x → (mem.view x).option = some w →
    ∃ en variant field, intoEnum shapes mem x = some en ∧
      activeVariant mem x en = some variant ∧ variant.effectiveName = "Some" ∧
      variant.data = ⟨.tuple, [field]⟩
  option_closed : ∀ x y, IsOption shapes mem x → ¬ Opens mem x y
  enum_closed : ∀ x y en, intoEnum shapes mem x = some en → ¬ Opens mem x y
  map_closed : ∀ x y, IsMap shapes mem x → ¬ Opens mem x y
  list_closed : ∀ x y, IsList shapes mem x → ¬ Opens mem x y
  /-- A struct that opens is a transparent wrapper of its only field. -/
  wrapper : ∀ x y st, intoStruct shapes mem x = some st → Opens mem x y →
    ∃ field, structFields mem x st = [(field, y)]

/-- No value is inside itself, and what an option's payload holds is not found where the option
starts. -/
structure Separate : Prop where
  irrefl : ∀ x, ¬ Inside shapes mem x x
  payload : ∀ x w, IsOption shapes mem x → (mem.view x).option = some w →
    ¬ Inside shapes mem w ((mem.view x).field 0)

variable (keyText : ν → Option String) (skipPredicates : Bool)

/-- The values whose type a flattened field can have. -/
inductive Flattenable (v : ν) : Prop
  | option : IsOption shapes mem v → Flattenable v
  | struct {n : ℕ} {s : ν} {st : StructType ι} : ¬ IsOption shapes mem v →
      innermostPeek mem n v = some s → intoStruct shapes mem s = some st → Flattenable v
  | enum {en : EnumType ι} : ¬ IsOption shapes mem v → intoEnum shapes mem v = some en →
      Flattenable v
  | map : intoStruct shapes mem v = none → intoEnum shapes mem v = none → IsMap shapes mem v →
      Flattenable v
  | enumList : intoStruct shapes mem v = none → intoEnum shapes mem v = none →
      IsList shapes mem v →
      (∀ item ∈ (mem.view v).items, (intoEnum shapes mem item).isSome) → Flattenable v

/-- The payload of an option is an enum whose active variant is written under the name `Some`, as
the variant of the option would be, with the value that stands where that variant's would. -/
def NamedSome (v : ν) : Prop :=
  ∃ w en variant, (mem.view v).option = some w ∧ intoEnum shapes mem w = some en ∧
    activeVariant mem w en = some variant ∧ variant.data.kind ≠ .unit ∧
    variant.effectiveName = "Some" ∧ variantValue mem variant w = (mem.view v).field 0

/-- What a flattened `Option` writes as its payload would be written. -/
inductive Carried (v : ν) : Prop
  | none : IsOption shapes mem v → (mem.view v).option = none → Carried v
  | named : IsOption shapes mem v → NamedSome shapes mem v → Carried v
  | enum {en : EnumType ι} : ¬ IsOption shapes mem v → intoEnum shapes mem v = some en → Carried v
  | map : intoStruct shapes mem v = none → intoEnum shapes mem v = none → IsMap shapes mem v →
      Carried v
  | noItems : IsList shapes mem v → intoStruct shapes mem v = none →
      intoEnum shapes mem v = none → (mem.view v).items = [] → Carried v
  | struct {st : StructType ι} : intoStruct shapes mem v = some st → (∀ y, ¬ Opens mem v y) →
      Carried v
  | flattenedWrapper {st : StructType ι} {field : Field ι} {y : ν} :
      intoStruct shapes mem v = some st → Opens mem v y → structFields mem v st = [(field, y)] →
      field.isFlattened = true → shouldSkipSerializing mem skipPredicates field y = false →
      Carried v
  | nothing {n : ℕ} {s : ν} {st : StructType ι} :
      innermostPeek mem n v = some s → intoStruct shapes mem s = some st →
      (∀ entry ∈ structFields mem s st, Blank shapes mem keyText skipPredicates entry) →
      (∀ st, intoStruct shapes mem v = some st →
        ∀ entry ∈ structFields mem v st, shouldSkipSerializing mem skipPredicates entry.1 entry.2) →
      Carried v

/-- The names and values that the iterator gives for a list of fields. -/
def Writes (entries : List (Field ι × ν)) (seq : List (String × ν)) : Prop :=
  ∃ items, Yields shapes mem keyText skipPredicates [.fields entries] items ∧
    items.map (fun item => (item.1.effectiveName, item.2)) = seq

/-- In a list of fields the one is written as the other would be. -/
def WrittenAlike (entry entry' : Field ι × ν) : Prop :=
  ∀ before after seq,
    Writes shapes mem keyText skipPredicates (before ++ entry :: after) seq ↔
      Writes shapes mem keyText skipPredicates (before ++ entry' :: after) seq

end Conditions

section Surrounding

variable {shapes : Shapes ι} {mem : Memory ι ν} {keyText : ν → Option String}
  {skipPredicates : Bool}

theorem writes_cons {entry : Field ι × ν} {entries : List (Field ι × ν)}
    {seq : List (String × ν)} :
    Writes shapes mem keyText skipPredicates (entry :: entries) seq ↔
      ∃ p q, seq = p ++ q ∧ Writes shapes mem keyText skipPredicates [entry] p ∧
        Writes shapes mem keyText skipPredicates entries q := by
  unfold Writes
  constructor
  · rintro ⟨items, hitems, rfl⟩
    obtain ⟨parts, hparts, rfl⟩ := yields_fields_iff.mp hitems
    cases hparts with
    | @cons _ a _ parts hentry hparts =>
      have hrest := yields_fields_iff.mpr ⟨parts, hparts, rfl⟩
      exact ⟨_, _, by simp, ⟨a, hentry, rfl⟩, ⟨parts.flatten, hrest, rfl⟩⟩
  · rintro ⟨_, _, rfl, ⟨a, ha, rfl⟩, ⟨b, hb, rfl⟩⟩
    obtain ⟨parts, hparts, rfl⟩ := yields_fields_iff.mp hb
    exact ⟨a ++ parts.flatten, yields_fields_iff.mpr ⟨a :: parts, .cons ha hparts, rfl⟩,
      List.map_append⟩

theorem writtenAlike_iff {entry entry' : Field ι × ν} :
    WrittenAlike shapes mem keyText skipPredicates entry entry' ↔
      ∀ seq, Writes shapes mem keyText skipPredicates [entry] seq ↔
        Writes shapes mem keyText skipPredicates [entry'] seq := by
  constructor
  · intro h seq
    exact h [] [] seq
  · intro h before after
    induction before with
    | nil =>
      intro seq
      rw [List.nil_append, List.nil_append, writes_cons, writes_cons]
      simp only [h]
    | cons first before ih =>
      intro seq
      rw [List.cons_append, List.cons_append, writes_cons, writes_cons]
      simp only [ih]

/-- The items of a list of fields come field by field, in order. -/
theorem writes_iff {entries : List (Field ι × ν)} {seq : List (String × ν)} :
    Writes shapes mem keyText skipPredicates entries seq ↔
      ∃ parts, List.Forall₂
        (fun entry part => Writes shapes mem keyText skipPredicates [entry] part) entries parts ∧
        seq = parts.flatten := by
  induction entries generalizing seq with
  | nil =>
    constructor
    · rintro ⟨items, hitems, rfl⟩
      rw [hitems.unique yields_fields_nil]
      exact ⟨[], .nil, rfl⟩
    · rintro ⟨parts, hparts, rfl⟩
      cases hparts
      exact ⟨[], yields_fields_nil, rfl⟩
  | cons entry entries ih =>
    rw [writes_cons]
    constructor
    · rintro ⟨p, q, rfl, hp, hq⟩
      obtain ⟨parts, hparts, rfl⟩ := ih.mp hq
      exact ⟨p :: parts, .cons hp hparts, rfl⟩
    · rintro ⟨parts, hparts, rfl⟩
      cases hparts with
      | cons hp hparts => exact ⟨_, _, rfl, hp, ih.mpr ⟨_, hparts, rfl⟩⟩

theorem writes_of_items {entry : Field ι × ν} {items : List (FieldItem ι × ν)}
    (h : ∀ items', EntryYields shapes mem keyText skipPredicates entry items' ↔ items' = items)
    (seq : List (String × ν)) :
    Writes shapes mem keyText skipPredicates [entry] seq ↔
      seq = items.map fun item => (item.1.effectiveName, item.2) := by
  constructor
  · rintro ⟨items', hitems, rfl⟩
    rw [(h items').mp hitems]
  · rintro rfl
    exact ⟨items, (h items).mpr rfl, rfl⟩

theorem writes_nil_iff {entries : List (Field ι × ν)}
    (h : Yields shapes mem keyText skipPredicates [.fields entries] []) (seq : List (String × ν)) :
    Writes shapes mem keyText skipPredicates entries seq ↔ seq = [] := by
  constructor
  · rintro ⟨items, hitems, rfl⟩
    rw [hitems.unique h]
    rfl
  · rintro rfl
    exact ⟨[], h, rfl⟩

theorem yields_of_writes_nil {entries : List (Field ι × ν)}
    (h : Writes shapes mem keyText skipPredicates entries []) :
    Yields shapes mem keyText skipPredicates [.fields entries] [] := by
  obtain ⟨items, hitems, hnil⟩ := h
  rwa [List.map_eq_nil_iff.mp hnil] at hitems

/-- The only value that is written lies inside what the states go over. -/
theorem Yields.inside_of_map {stack : List (SerializeState ι ν)} {items : List (FieldItem ι × ν)}
    {root x : ν} {name : String} (h : Yields shapes mem keyText skipPredicates stack items)
    (hmap : items.map (fun item => (item.1.effectiveName, item.2)) = [(name, x)])
    (hinside : ∀ state ∈ stack, StateInside shapes mem root state) :
    Inside shapes mem root x := by
  obtain ⟨item, rfl, hitem⟩ := List.map_eq_singleton_iff.mp hmap
  obtain ⟨-, rfl⟩ := Prod.mk.inj hitem
  exact h.inside hinside item (List.mem_singleton_self _)

theorem writtenAlike_of_items {entry entry' : Field ι × ν}
    (h : ∀ items, EntryYields shapes mem keyText skipPredicates entry items ↔
      EntryYields shapes mem keyText skipPredicates entry' items) :
    WrittenAlike shapes mem keyText skipPredicates entry entry' :=
  writtenAlike_iff.mpr fun _ => exists_congr fun items => and_congr_left fun _ => h items

end Surrounding

section Transparent

variable {shapes : Shapes ι} {mem : Memory ι ν}

theorem innermostPeek_closed {x : ν} (h : ∀ y, ¬ Opens mem x y) :
    innermostPeek mem 1 x = some x := by
  cases hpointee : (mem.view x).pointee with
  | some y => exact absurd (.inl hpointee) (h y)
  | none =>
    cases hinner : (mem.view x).inner with
    | some y => exact absurd (.inr ⟨hpointee, hinner⟩) (h y)
    | none => simp [innermostPeek, hpointee, hinner]

theorem innermostPeek_opens {x y : ν} (h : Opens mem x y) (n : ℕ) :
    innermostPeek mem (n + 1) x = innermostPeek mem n y := by
  rcases h with hpointee | ⟨hpointee, hinner⟩
  · simp [innermostPeek, hpointee]
  · simp [innermostPeek, hpointee, hinner]

theorem intoStruct_eq_none_of_enum {x : ν} {en : EnumType ι}
    (hen : intoEnum shapes mem x = some en) : intoStruct shapes mem x = none := by
  unfold intoEnum at hen
  unfold intoStruct
  cases hty : (shapes (mem.view x).shape).ty with
  | user u => cases u <;> simp_all
  | _ => simp

theorem IsOption.not_isMap {x : ν} (h : IsOption shapes mem x) : ¬ IsMap shapes mem x := by
  rintro ⟨k, v, hmap⟩
  obtain ⟨t, ht⟩ := h
  rw [ht] at hmap
  cases hmap

variable {keyText : ν → Option String} {skipPredicates : Bool}

theorem WellShaped.exists_enum (hwell : WellShaped shapes mem) {x : ν}
    (hoption : IsOption shapes mem x) : ∃ en, intoEnum shapes mem x = some en := by
  cases hpayload : (mem.view x).option with
  | none =>
    obtain ⟨en, -, hen, -⟩ := hwell.none_unit x hoption hpayload
    exact ⟨en, hen⟩
  | some w =>
    obtain ⟨en, -, -, hen, -⟩ := hwell.some_newtype x w hoption hpayload
    exact ⟨en, hen⟩

variable (mem) in
/-- What is written for an enum with an active variant. -/
def variantSeq (variant : Variant ι) (w : ν) : List (String × ν) :=
  if variant.data.kind = .unit then [] else [(variant.effectiveName, variantValue mem variant w)]

theorem writes_enum {field : Field ι} {x s w : ν} {en : EnumType ι}
    (hskip : shouldSkipSerializing mem skipPredicates field x = false)
    (hflat : field.isFlattened = true) (htaken : Taken shapes mem x s w)
    (hst : intoStruct shapes mem s = none) (hen : intoEnum shapes mem w = some en)
    (seq : List (String × ν)) :
    Writes shapes mem keyText skipPredicates [(field, x)] seq ↔
      ∃ variant, activeVariant mem w en = some variant ∧ seq = variantSeq mem variant w := by
  have hitems (items : List (FieldItem ι × ν)) :
      EntryYields shapes mem keyText skipPredicates (field, x) items ↔
        (pushFlattenedEnum mem field en w []).Gives shapes mem keyText skipPredicates items :=
    entryYields_enum hskip hflat htaken hst hen
  cases hactive : activeVariant mem w en with
  | none =>
    have hnone : ¬ Writes shapes mem keyText skipPredicates [(field, x)] seq := by
      rintro ⟨items, hyields, -⟩
      exact pushFlattenedEnum_unknown_gives hactive ((hitems items).mp hyields)
    simpa using hnone
  | some variant =>
    have hseq : Writes shapes mem keyText skipPredicates [(field, x)] seq ↔
        seq = variantSeq mem variant w := by
      by_cases hunit : variant.data.kind = .unit
      · have hnil := fun items =>
          (hitems items).trans (pushFlattenedEnum_unit_gives hactive hunit)
        rw [writes_of_items hnil, variantSeq, if_pos hunit]
        rfl
      · have hone := fun items =>
          (hitems items).trans (pushFlattenedEnum_variant_gives hactive hunit)
        rw [writes_of_items hone, variantSeq, if_neg hunit]
        rfl
    simpa using hseq

/-- An option that is itself the payload of an option is taken for an enum. -/
theorem writes_nestedNone (hwell : WellShaped shapes mem) {field : Field ι} {x v : ν}
    (hskip : shouldSkipSerializing mem skipPredicates field x = false)
    (hflat : field.isFlattened = true) (hoption : IsOption shapes mem x)
    (hpayload : (mem.view x).option = some v) (hv : IsOption shapes mem v)
    (hnone : (mem.view v).option = none) (seq : List (String × ν)) :
    Writes shapes mem keyText skipPredicates [(field, x)] seq ↔ seq = [] := by
  obtain ⟨en, variant, hen, hactive, hunit⟩ := hwell.none_unit v hv hnone
  rw [writes_enum hskip hflat (.payload hoption hpayload) (intoStruct_eq_none_of_enum hen) hen]
  simp [hactive, variantSeq, hunit]

theorem writes_nestedSome (hwell : WellShaped shapes mem) {field : Field ι} {x v w : ν}
    (hskip : shouldSkipSerializing mem skipPredicates field x = false)
    (hflat : field.isFlattened = true) (hoption : IsOption shapes mem x)
    (hpayload : (mem.view x).option = some v) (hv : IsOption shapes mem v)
    (hsome : (mem.view v).option = some w) (seq : List (String × ν)) :
    Writes shapes mem keyText skipPredicates [(field, x)] seq ↔
      seq = [("Some", (mem.view v).field 0)] := by
  obtain ⟨en, variant, only, hen, hactive, hname, hdata⟩ := hwell.some_newtype v w hv hsome
  have hvalue : variantValue mem variant v = (mem.view v).field 0 := by
    simp [variantValue, hdata]
  rw [writes_enum hskip hflat (.payload hoption hpayload) (intoStruct_eq_none_of_enum hen) hen]
  simp [hactive, variantSeq, hdata, hname, hvalue]

/-- A list is not known to the state of an option, nor is a pointer or whatever else a flattened
field may be. -/
theorem writes_hidden {field : Field ι} {x v : ν}
    (hskip : shouldSkipSerializing mem skipPredicates field x = false)
    (hflat : field.isFlattened = true) (hoption : IsOption shapes mem x)
    (hpayload : (mem.view x).option = some v) (hst : intoStruct shapes mem v = none)
    (hen : intoEnum shapes mem v = none) (hmap : ¬ IsMap shapes mem v)
    (seq : List (String × ν)) :
    Writes shapes mem keyText skipPredicates [(field, x)] seq ↔ seq = [] :=
  writes_nil_iff ((entryYields_unknown hskip hflat hoption hpayload hst hen hmap).mpr rfl) seq

/-- A struct, and what opens to a struct, is written as the fields of that struct. -/
theorem writes_struct {field : Field ι} {x s w : ν} {st : StructType ι}
    (hskip : shouldSkipSerializing mem skipPredicates field x = false)
    (hflat : field.isFlattened = true) (htaken : Taken shapes mem x s w)
    (hst : intoStruct shapes mem s = some st) (seq : List (String × ν)) :
    Writes shapes mem keyText skipPredicates [(field, x)] seq ↔
      Writes shapes mem keyText skipPredicates (structFields mem s st) seq :=
  exists_congr fun _ => and_congr_left fun _ => entryYields_struct hskip hflat htaken hst

theorem WellShaped.not_isOption (hwell : WellShaped shapes mem) {x : ν} {st : StructType ι}
    (hst : intoStruct shapes mem x = some st) : ¬ IsOption shapes mem x := by
  intro hoption
  obtain ⟨en, hen⟩ := hwell.exists_enum hoption
  rw [intoStruct_eq_none_of_enum hen] at hst
  cases hst

theorem innermostPeek_eq_self {n : ℕ} {x s : ν} (h : ∀ y, ¬ Opens mem x y)
    (hs : innermostPeek mem n x = some s) : s = x :=
  innermostPeek_unique hs (innermostPeek_closed h)

theorem exists_innermostPeek_opens {n : ℕ} {x y s : ν} (h : Opens mem x y)
    (hs : innermostPeek mem n x = some s) : ∃ m, innermostPeek mem m y = some s := by
  cases n with
  | zero => cases hs
  | succ n => exact ⟨n, (innermostPeek_opens h n).symm.trans hs⟩

/-- A value with a struct inside is neither an enum nor a map. -/
theorem WellShaped.no_enum_no_map (hwell : WellShaped shapes mem) {n : ℕ} {v s : ν}
    {st : StructType ι} (hs : innermostPeek mem n v = some s)
    (hst : intoStruct shapes mem s = some st) (hnone : intoStruct shapes mem v = none) :
    intoEnum shapes mem v = none ∧ ¬ IsMap shapes mem v := by
  -- were it closed, it would be the struct itself
  have hopen : ¬ ∀ y, ¬ Opens mem v y := by
    intro hclosed
    rw [innermostPeek_eq_self hclosed hs, hnone] at hst
    cases hst
  constructor
  · by_contra hen
    obtain ⟨en, hen⟩ := Option.ne_none_iff_exists'.mp hen
    exact hopen fun y => hwell.enum_closed v y en hen
  · intro hmap
    exact hopen fun y => hwell.map_closed v y hmap

section Payload

variable {field field' : Field ι} {o v : ν}
  (hskip : shouldSkipSerializing mem skipPredicates field o = false)
  (hskip' : shouldSkipSerializing mem skipPredicates field' v = false)
  (hflat : field.isFlattened = true) (hflat' : field'.isFlattened = true)
  (hoption : IsOption shapes mem o) (hpayload : (mem.view o).option = some v)
include hskip hskip' hflat hflat' hoption hpayload

theorem writtenAlike_of_carried (hwell : WellShaped shapes mem) (hT : Flattenable shapes mem v)
    (h : Carried shapes mem keyText skipPredicates v) :
    WrittenAlike shapes mem keyText skipPredicates (field, o) (field', v) := by
  have htaken : Taken shapes mem o v v := .payload hoption hpayload
  cases h with
  | none hv hnone =>
    apply writtenAlike_iff.mpr
    intro seq
    rw [writes_nestedNone hwell hskip hflat hoption hpayload hv hnone,
      writes_of_items (fun items => entryYields_none hflat' hv hnone)]
    rfl
  | named hv hnamed =>
    obtain ⟨w, en, variant, hsome, hen, hactive, hunit, hname, hvalue⟩ := hnamed
    apply writtenAlike_iff.mpr
    intro seq
    rw [writes_nestedSome hwell hskip hflat hoption hpayload hv hsome,
      writes_enum hskip' hflat' (.payload hv hsome) (intoStruct_eq_none_of_enum hen) hen]
    simp [hactive, variantSeq, hunit, hname, hvalue]
  | enum hv hen =>
    have hst := intoStruct_eq_none_of_enum hen
    have hs := innermostPeek_closed fun y => hwell.enum_closed v y _ hen
    apply writtenAlike_iff.mpr
    intro seq
    rw [writes_enum hskip hflat htaken hst hen, writes_enum hskip' hflat' (.value hv hs) hst hen]
  | map hst hen hmap =>
    have hv : ¬ IsOption shapes mem v := fun hv => hv.not_isMap hmap
    have hs := innermostPeek_closed fun y => hwell.map_closed v y hmap
    apply writtenAlike_of_items
    intro items
    rw [entryYields_map hskip hflat htaken hst hen hmap,
      entryYields_map hskip' hflat' (.value hv hs) hst hen hmap]
  | noItems hlist hst hen hitems =>
    have hv : ¬ IsOption shapes mem v := fun hv => hv.not_isList hlist
    have hmap : ¬ IsMap shapes mem v := fun hmap => hmap.not_isList hlist
    have hs := innermostPeek_closed fun y => hwell.list_closed v y hlist
    have hnil : EntryYields shapes mem keyText skipPredicates (field', v) [] := by
      rw [entryYields_list hskip' hflat' hv hs hst hen hlist, hitems]
      exact yields_list_nil_of_items (by simp)
    apply writtenAlike_iff.mpr
    intro seq
    rw [writes_hidden hskip hflat hoption hpayload hst hen hmap, writes_nil_iff hnil]
  | struct hst hclosed =>
    have hv := hwell.not_isOption hst
    apply writtenAlike_iff.mpr
    intro seq
    rw [writes_struct hskip hflat htaken hst,
      writes_struct hskip' hflat' (.value hv (innermostPeek_closed hclosed)) hst]
  | @flattenedWrapper st only y hst hopens hfields honly hskip'' =>
    have hv := hwell.not_isOption hst
    obtain ⟨n, s, st', hs, hst'⟩ : ∃ n s st', innermostPeek mem n v = some s ∧
        intoStruct shapes mem s = some st' := by
      cases hT with
      | option hv' => exact absurd hv' hv
      | struct _ hs hst' => exact ⟨_, _, _, hs, hst'⟩
      | enum _ hen => exact nomatch hst.symm.trans (intoStruct_eq_none_of_enum hen)
      | map hnone => exact nomatch hst.symm.trans hnone
      | enumList hnone => exact nomatch hst.symm.trans hnone
    obtain ⟨m, hm⟩ := exists_innermostPeek_opens hopens hs
    have hy : ¬ IsOption shapes mem y := by
      intro hy
      rw [innermostPeek_eq_self (fun z => hwell.option_closed y z hy) hm] at hst'
      exact hwell.not_isOption hst' hy
    apply writtenAlike_iff.mpr
    intro seq
    rw [writes_struct hskip hflat htaken hst, hfields,
      writes_struct hskip'' honly (.value hy hm) hst',
      writes_struct hskip' hflat' (.value hv hs) hst']
  | @nothing n s st hs hst hblank hall =>
    have hv : ¬ IsOption shapes mem v := by
      intro hv
      rw [innermostPeek_eq_self (fun z => hwell.option_closed v z hv) hs] at hst
      exact hwell.not_isOption hst hv
    apply writtenAlike_iff.mpr
    intro seq
    rw [writes_struct hskip' hflat' (.value hv hs) hst,
      writes_nil_iff (yields_fields_nil_iff.mpr hblank)]
    cases hstv : intoStruct shapes mem v with
    | some stv =>
      have hskipped : ∀ entry ∈ structFields mem v stv,
          Blank shapes mem keyText skipPredicates entry :=
        fun entry hentry => .skipped (hall stv hstv entry hentry)
      rw [writes_struct hskip hflat htaken hstv,
        writes_nil_iff (yields_fields_nil_iff.mpr hskipped)]
    | none =>
      obtain ⟨hen, hmap⟩ := hwell.no_enum_no_map hs hst hstv
      exact writes_hidden hskip hflat hoption hpayload hstv hen hmap seq

theorem carried_of_writtenAlike (hwell : WellShaped shapes mem) (hsep : Separate shapes mem)
    (hT : Flattenable shapes mem v)
    (h : WrittenAlike shapes mem keyText skipPredicates (field, o) (field', v)) :
    Carried shapes mem keyText skipPredicates v := by
  have htaken : Taken shapes mem o v v := .payload hoption hpayload
  rw [writtenAlike_iff] at h
  cases hT with
  | option hv =>
    cases hpayload' : (mem.view v).option with
    | none => exact .none hv hpayload'
    | some w =>
      apply Carried.named hv
      have hsome : Writes shapes mem keyText skipPredicates [(field', v)]
          [("Some", (mem.view v).field 0)] := by
        rw [← h]
        exact (writes_nestedSome hwell hskip hflat hoption hpayload hv hpayload' _).mpr rfl
      cases hst : intoStruct shapes mem w with
      | some st =>
        rw [writes_struct hskip' hflat' (.payload hv hpayload') hst] at hsome
        obtain ⟨items, hitems, hseq⟩ := hsome
        have hinside := hitems.inside_of_map hseq
          (List.forall_mem_singleton.mpr (stateInside_structFields .refl hst))
        exact absurd hinside (hsep.payload v w hv hpayload')
      | none =>
        cases hen : intoEnum shapes mem w with
        | some en =>
          rw [writes_enum hskip' hflat' (.payload hv hpayload') hst hen] at hsome
          obtain ⟨variant, hactive, hseq⟩ := hsome
          by_cases hunit : variant.data.kind = .unit
          · simp [variantSeq, hunit] at hseq
          · simp only [variantSeq, hunit, if_false, List.cons.injEq, Prod.mk.injEq,
              and_true] at hseq
            exact ⟨w, en, variant, hpayload', hen, hactive, hunit, hseq.1.symm, hseq.2.symm⟩
        | none =>
          by_cases hmap : IsMap shapes mem w
          · obtain ⟨items, hitems, hseq⟩ := hsome
            have hyields :=
              (entryYields_map hskip' hflat' (.payload hv hpayload') hst hen hmap).mp hitems
            have hentries : StateInside shapes mem w (.flattenedMap (mem.view w).entries) :=
              fun _ hentry => .single (.entry hentry)
            have hinside :=
              hyields.inside_of_map hseq (List.forall_mem_singleton.mpr hentries)
            exact absurd hinside (hsep.payload v w hv hpayload')
          · rw [writes_hidden hskip' hflat' hv hpayload' hst hen hmap] at hsome
            cases hsome
  | @struct n s st hv hs hst =>
    have hwritten (seq : List (String × ν)) :
        Writes shapes mem keyText skipPredicates (structFields mem s st) seq ↔
          Writes shapes mem keyText skipPredicates [(field, o)] seq :=
      (writes_struct hskip' hflat' (.value hv hs) hst seq).symm.trans (h seq).symm
    by_cases hclosed : ∀ y, ¬ Opens mem v y
    · rw [innermostPeek_eq_self hclosed hs] at hst
      exact .struct hst hclosed
    push Not at hclosed
    obtain ⟨y, hopens⟩ := hclosed
    cases hstv : intoStruct shapes mem v with
    | some stv =>
      obtain ⟨only, hfields⟩ := hwell.wrapper v y stv hstv hopens
      have hleft (seq : List (String × ν)) :=
        (hwritten seq).trans (writes_struct hskip hflat htaken hstv seq)
      rw [hfields] at hleft
      cases hskip'' : shouldSkipSerializing mem skipPredicates only y with
      | true =>
        have hnil : Writes shapes mem keyText skipPredicates (structFields mem s st) [] := by
          rw [hleft]
          exact ⟨[], (entryYields_skipped hskip'').mpr rfl, rfl⟩
        apply Carried.nothing hs hst (yields_fields_nil_iff.mp (yields_of_writes_nil hnil))
        intro st' hst' entry hentry
        obtain rfl := Option.some.inj (hstv.symm.trans hst')
        rw [hfields, List.mem_singleton] at hentry
        rw [hentry]
        exact hskip''
      | false =>
        cases honly : only.isFlattened with
        | true => exact .flattenedWrapper hstv hopens hfields honly hskip''
        | false =>
          have hone : Writes shapes mem keyText skipPredicates (structFields mem s st)
              [(only.effectiveName, y)] := by
            rw [hleft]
            exact ⟨_, (entryYields_plain hskip'' honly).mpr rfl, rfl⟩
          obtain ⟨items, hitems, hseq⟩ := hone
          obtain ⟨m, hm⟩ := exists_innermostPeek_opens hopens hs
          have hfieldsInside := stateInside_structFields (reaches_innermostPeek hm) hst
          have hinside :=
            hitems.inside_of_map hseq (List.forall_mem_singleton.mpr hfieldsInside)
          exact absurd hinside (hsep.irrefl y)
    | none =>
      obtain ⟨hen, hmap⟩ := hwell.no_enum_no_map hs hst hstv
      have hnil : Writes shapes mem keyText skipPredicates (structFields mem s st) [] := by
        rw [hwritten]
        exact (writes_hidden hskip hflat hoption hpayload hstv hen hmap []).mpr rfl
      apply Carried.nothing hs hst (yields_fields_nil_iff.mp (yields_of_writes_nil hnil))
      intro st' hst'
      exact nomatch hst'.symm.trans hstv
  | enum hv hen => exact .enum hv hen
  | map hst hen hmap => exact .map hst hen hmap
  | enumList hst hen hlist hitems =>
    have hv : ¬ IsOption shapes mem v := fun hv => hv.not_isList hlist
    have hmap : ¬ IsMap shapes mem v := fun hmap => hmap.not_isList hlist
    have hs := innermostPeek_closed fun y => hwell.list_closed v y hlist
    cases hall : (mem.view v).items with
    | nil => exact .noItems hlist hst hen hall
    | cons item more =>
      obtain ⟨en, hitem⟩ := Option.isSome_iff_exists.mp (hitems item (hall ▸ List.mem_cons_self))
      have hnil : EntryYields shapes mem keyText skipPredicates (field', v) [] := by
        apply yields_of_writes_nil
        rw [← h, writes_hidden hskip hflat hoption hpayload hst hen hmap]
      rw [entryYields_list hskip' hflat' hv hs hst hen hlist, hall] at hnil
      exact absurd hnil (not_yields_enumList_nil hitem)

end Payload

/-- The fields of a value are written one after the other, in order. A flattened option holding
nothing is not written, and one holding a value is written as a flattened field of the value's type
would be, in any surrounding, when the value is carried; and only then, as long as no value is
inside itself. -/
theorem flattenedOption_spec (hwell : WellShaped shapes mem) :
    (∀ entries seq, Writes shapes mem keyText skipPredicates entries seq ↔
      ∃ parts, List.Forall₂
        (fun entry part => Writes shapes mem keyText skipPredicates [entry] part) entries parts ∧
        seq = parts.flatten) ∧
    ∀ (field field' : Field ι) (o : ν), field.isFlattened = true → field'.isFlattened = true →
      IsOption shapes mem o →
      ((mem.view o).option = none →
        ∀ seq, Writes shapes mem keyText skipPredicates [(field, o)] seq ↔ seq = []) ∧
      ∀ v, (mem.view o).option = some v → Flattenable shapes mem v →
        shouldSkipSerializing mem skipPredicates field o = false →
        shouldSkipSerializing mem skipPredicates field' v = false →
        (Carried shapes mem keyText skipPredicates v →
          WrittenAlike shapes mem keyText skipPredicates (field, o) (field', v)) ∧
        (Separate shapes mem →
          WrittenAlike shapes mem keyText skipPredicates (field, o) (field', v) →
          Carried shapes mem keyText skipPredicates v) := by
  refine ⟨fun entries seq => writes_iff, fun field field' o hflat hflat' hoption => ⟨?_, ?_⟩⟩
  · intro hnone
    exact writes_of_items fun items => entryYields_none hflat hoption hnone
  · intro v hpayload hT hskip hskip'
    constructor
    · exact writtenAlike_of_carried hskip hskip' hflat hflat' hoption hpayload hwell hT
    · intro hsep
      exact carried_of_writtenAlike hskip hskip' hflat hflat' hoption hpayload hwell hsep hT

end Transparent

/-- `struct Meta { size: u32 }`, in an option and in a box that is in an option -/
inductive MetaType
  | optionBox
  | box
  | optionMeta
  | info
  | number
  deriving DecidableEq

inductive MetaValue
  | optionBox
  | box
  | optionMeta
  | info
  | size
  deriving DecidableEq

namespace MetaValue

def optionShape (t : MetaType) : Shape MetaType where
  ty := .user (.enum { variants :=
    [{ name := "None", data := ⟨.unit, []⟩, discriminant := some 0 },
     { name := "Some", data := ⟨.tuple, [{ name := "0", shape := t }]⟩,
       discriminant := some 1 }] })
  «def» := .option t

def shapes : Shapes MetaType
  | .optionBox => optionShape .box
  | .box => { ty := .user .opaqueTy, «def» := .pointer (some .info) }
  | .optionMeta => optionShape .info
  | .info => { ty := .user (.struct ⟨.struct, [{ name := "size", shape := .number }]⟩),
               «def» := .undefined }
  | .number => { ty := .primitive .numeric, «def» := .scalar }

def mem : Memory MetaType MetaValue where
  view
    | .optionBox =>
      { shape := .optionBox, field := fun _ => .box, activeVariant := some 1, option := some .box }
    | .box => { shape := .box, field := fun _ => .box, pointee := some .info }
    | .optionMeta =>
      { shape := .optionMeta, field := fun _ => .info, activeVariant := some 1,
        option := some .info }
    | .info => { shape := .info, field := fun _ => .size }
    | .size => { shape := .number, field := fun _ => .size }
  convertOut _ _ := .error ""

/-- A flattened field of the type. -/
def field (t : MetaType) : Field MetaType := { name := "meta", shape := t, flatten := true }

theorem isOption_iff (x : MetaValue) :
    IsOption shapes mem x ↔ x = .optionBox ∨ x = .optionMeta := by
  cases x <;> simp [IsOption, shapes, mem, optionShape]

theorem opens_iff (x y : MetaValue) : Opens mem x y ↔ x = .box ∧ y = .info := by
  cases x <;> cases y <;> simp [Opens, mem]

theorem wellShaped : WellShaped shapes mem where
  none_unit x hx hnone := by
    rcases (isOption_iff x).mp hx with rfl | rfl <;> cases hnone
  some_newtype x w hx _ := by
    rcases (isOption_iff x).mp hx with rfl | rfl <;> exact ⟨_, _, _, rfl, rfl, rfl, rfl⟩
  option_closed x y hx hopens := by
    obtain ⟨rfl, -⟩ := (opens_iff x y).mp hopens
    simp [isOption_iff] at hx
  enum_closed x y en hen hopens := by
    obtain ⟨rfl, -⟩ := (opens_iff x y).mp hopens
    cases hen
  map_closed x y hmap hopens := by
    obtain ⟨rfl, -⟩ := (opens_iff x y).mp hopens
    obtain ⟨k, v, hdef⟩ := hmap
    cases hdef
  list_closed x y hlist hopens := by
    obtain ⟨rfl, -⟩ := (opens_iff x y).mp hopens
    obtain ⟨t, hdef⟩ := hlist
    cases hdef
  wrapper x y st hst hopens := by
    obtain ⟨rfl, -⟩ := (opens_iff x y).mp hopens
    cases hst

def rank : MetaValue → ℕ
  | .optionBox => 3
  | .box => 2
  | .optionMeta => 2
  | .info => 1
  | .size => 0

theorem rank_lt_of_part {x y : MetaValue} (h : Part shapes mem x y) : rank y < rank x := by
  cases h with
  | field hdata hlt => cases x <;> simp [View.data, mem, shapes, optionShape] at hdata <;>
      simp [mem, rank]
  | payload hpayload => cases x <;> simp [mem] at hpayload <;> subst hpayload <;> decide
  | opened hopens =>
    obtain ⟨rfl, rfl⟩ := (opens_iff x y).mp hopens
    decide
  | item hitem => cases x <;> simp [mem] at hitem
  | entry hentry => cases x <;> simp [mem] at hentry

theorem rank_lt_of_inside {x y : MetaValue} (h : Inside shapes mem x y) : rank y < rank x := by
  induction h with
  | single hpart => exact rank_lt_of_part hpart
  | tail _ hpart ih => exact (rank_lt_of_part hpart).trans ih

theorem separate : Separate shapes mem where
  irrefl x hinside := (rank_lt_of_inside hinside).false
  payload x w hx hw hinside := by
    have hlt := rank_lt_of_inside hinside
    rcases (isOption_iff x).mp hx with rfl | rfl <;> cases hw <;> exact hlt.false

theorem shouldSkip_field (skipPredicates : Bool) (t : MetaType) (x : MetaValue) :
    shouldSkipSerializing mem skipPredicates (field t) x = false := by
  simp [shouldSkipSerializing, field]

theorem info_carried : Carried shapes mem (fun _ => none) true .info :=
  .struct rfl fun y hopens => nomatch ((opens_iff _ y).mp hopens).1

theorem info_flattenable : Flattenable shapes mem .info := by
  have hoption : ¬ IsOption shapes mem .info := by simp [isOption_iff]
  exact .struct (n := 1) hoption rfl rfl

theorem box_not_option : ¬ IsOption shapes mem .box := by simp [isOption_iff]

theorem box_flattenable : Flattenable shapes mem .box :=
  .struct (n := 2) box_not_option rfl rfl

/-- The struct is written out of an option as it is outside; for a box of it that would take an
empty struct. -/
theorem flattenedOption_spec_info :
    WrittenAlike shapes mem (fun _ => none) true (field .optionMeta, .optionMeta)
      (field .info, .info) ∧
    (WrittenAlike shapes mem (fun _ => none) true (field .optionBox, .optionBox)
      (field .box, .box) → Carried shapes mem (fun _ => none) true .box) :=
  ⟨(((flattenedOption_spec wellShaped).2 _ _ _ rfl rfl ⟨_, rfl⟩).2 .info rfl info_flattenable
      (shouldSkip_field _ _ _) (shouldSkip_field _ _ _)).1 info_carried,
    (((flattenedOption_spec wellShaped).2 _ _ _ rfl rfl ⟨_, rfl⟩).2 .box rfl box_flattenable
      (shouldSkip_field _ _ _) (shouldSkip_field _ _ _)).2 separate⟩

/-- In a box the struct is written as a field, and not at all out of an option of the box. -/
theorem box_not_writtenAlike : ¬ WrittenAlike shapes mem (fun _ => none) true
    (field .optionBox, .optionBox) (field .box, .box) := by
  intro h
  have hmap : ¬ IsMap shapes mem .box := by
    rintro ⟨k, v, hdef⟩
    cases hdef
  have hoption : Writes shapes mem (fun _ => none) true [(field .optionBox, .optionBox)] [] :=
    (writes_hidden (shouldSkip_field _ _ _) rfl ⟨_, rfl⟩ rfl rfl rfl hmap []).mpr rfl
  have hbox : Writes shapes mem (fun _ => none) true [(field .box, .box)] [] :=
    (writtenAlike_iff.mp h []).mp hoption
  rw [writes_struct (shouldSkip_field _ _ _) rfl (.value (n := 2) box_not_option rfl) rfl] at hbox
  have hblank := yields_fields_nil_iff.mp (yields_of_writes_nil hbox) _ List.mem_cons_self
  cases hblank with
  | skipped hskip => cases hskip
  | _ hflat => cases hflat

end MetaValue

end Facet.Peek
