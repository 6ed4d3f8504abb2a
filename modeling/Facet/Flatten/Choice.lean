import Facet.Flatten.SchemaBuilder

/-!
# Choosing variants

What a flattened struct can look like on the wire: one variant is chosen for every
flattened enum, where the enums inside a variant only come up once that variant is
chosen, and the choice decides which keys are at the top level. This is the meaning of
the flatten attributes, stated on its own; the analysis is compared with it.
-/

namespace Facet.Flatten

variable {ι : Type}

/-- A key at the top level. The field's own information says whether it is required by
itself, that is neither optional nor defaulted. -/
structure Entry (ι : Type) where
  info : FieldInfo ι
  /-- Below a flattened field that is declared as an `Option`. -/
  declaredOptional : Bool := false
  /-- Below a flattened field that has an `Option` on the way to its fields. -/
  wrapsOption : Bool := false

namespace Entry

variable (e : Entry ι)

/-- The field must be there: it is required itself, and so is everything around it. -/
def Needed : Prop := e.info.required ∧ e.wrapsOption = false

/-- The information with only declared `Option`s taken into account. -/
def stored : FieldInfo ι := { e.info with required := e.info.required && !e.declaredOptional }

end Entry

/-- The selections that make up a choice, in the order in which the enums come up, and
the keys it puts at the top level. -/
structure Choice (ι : Type) where
  selections : List VariantSelection
  entries : List (Entry ι)

namespace Choice

def empty : Choice ι := ⟨[], []⟩

/-- A field that is a key of its own. -/
def plain (info : FieldInfo ι) : Choice ι := ⟨[], [{ info }]⟩

def select (selection : VariantSelection) (c : Choice ι) : Choice ι :=
  { c with selections := selection :: c.selections }

/-- The choice seen from outside a flattened field. -/
def below (declaredOptional wrapsOption : Bool) (c : Choice ι) : Choice ι :=
  { c with entries := c.entries.map fun e =>
      { e with
        declaredOptional := declaredOptional || e.declaredOptional
        wrapsOption := wrapsOption || e.wrapsOption } }

instance : Append (Choice ι) := ⟨fun a b => ⟨a.selections ++ b.selections, a.entries ++ b.entries⟩⟩

/-- Two fields of the choice compete for one key. -/
def Clashes (c : Choice ι) : Prop :=
  ∃ e ∈ c.entries, ∃ e' ∈ c.entries, e.info.key = e'.info.key ∧ e.info.path ≠ e'.info.path

@[simp] theorem selections_append (a b : Choice ι) :
    (a ++ b).selections = a.selections ++ b.selections := rfl

@[simp] theorem entries_append (a b : Choice ι) : (a ++ b).entries = a.entries ++ b.entries := rfl

@[simp] theorem empty_append (a : Choice ι) : empty ++ a = a := rfl

@[simp] theorem append_empty (a : Choice ι) : a ++ empty = a := by
  change Choice.mk _ _ = a
  simp [empty]

theorem append_assoc (a b c : Choice ι) : a ++ b ++ c = a ++ (b ++ c) := by
  change Choice.mk _ _ = Choice.mk _ _
  simp

theorem append_select (a b : Choice ι) (selection : VariantSelection) :
    a ++ select selection .empty ++ b = a ++ b.select selection := by
  rw [append_assoc]
  rfl

theorem Clashes.append_left {a : Choice ι} (h : a.Clashes) (b : Choice ι) : (a ++ b).Clashes := by
  obtain ⟨e, he, e', he', hkey⟩ := h
  exact ⟨e, List.mem_append_left _ he, e', List.mem_append_left _ he', hkey⟩

theorem Clashes.append_right {b : Choice ι} (h : b.Clashes) (a : Choice ι) :
    (a ++ b).Clashes := by
  obtain ⟨e, he, e', he', hkey⟩ := h
  exact ⟨e, List.mem_append_right _ he, e', List.mem_append_right _ he', hkey⟩

theorem Clashes.below {c : Choice ι} (h : c.Clashes) (declaredOptional wrapsOption : Bool) :
    (c.below declaredOptional wrapsOption).Clashes := by
  obtain ⟨e, he, e', he', hkey⟩ := h
  exact ⟨_, List.mem_map_of_mem he, _, List.mem_map_of_mem he', hkey⟩

end Choice

/-- What choices are made for: the fields of a struct or variant, a flattened field, or a
chosen variant. -/
inductive Part (ι : Type)
  | fields (fs : List (Field ι))
  | flattened (f : Field ι)
  | variant (v : Variant ι)

section Relations

variable (shapes : Shapes ι)

/-- Removing the transparent layers `ws` from a shape leaves the last one. -/
inductive Unwraps : ι → List ι → ι → Prop
  | done {s : ι} : (shapes s).inner = none → Unwraps s [] s
  | layer {s u t : ι} {ws : List ι} :
      (shapes s).inner = some u → Unwraps u ws t → Unwraps s (s :: ws) t

/-- The shape whose fields are on the wire, behind transparent layers and proxies. -/
inductive Effective : ι → ι → Prop
  | done {s t : ι} {ws : List ι} :
      Unwraps shapes s ws t → (shapes t).proxy = none → Effective s t
  | proxy {s t p u : ι} {ws : List ι} :
      Unwraps shapes s ws t → (shapes t).proxy = some p → Effective p u → Effective s u

/-- Where unwrapping a flattened field starts: an outer `Option` is taken off first. -/
def flattenStart (f : Field ι) : ι := (unwrapOptionType (shapes f.shape)).getD f.shape

/-- The path to the contents of a flattened field behind the layers `ws`. -/
def flattenPath (path : FieldPath) (f : Field ι) (ws : List ι) : FieldPath :=
  path.pushField f.name ++ ws.map fun _ => .field "0"

/-- An `Option` stands between the flattened field and its contents. -/
def wrapsOption (f : Field ι) (ws : List ι) : Bool :=
  isOptionType (shapes f.shape) || ws.any fun w => isOptionType (shapes w)

/-- A choice for the contents, seen from outside the flattened field. -/
def Choice.belowField (f : Field ι) (ws : List ι) (c : Choice ι) : Choice ι :=
  c.below (isOptionType (shapes f.shape)) (wrapsOption shapes f ws)

variable (b : SchemaBuilder ι)

/-- The key of a field that is not flattened. -/
def fieldKeyInfo (path : FieldPath) (f : Field ι) : FieldInfo ι where
  serializedName := f.effectiveName
  path := path.pushField f.name
  required := !f.hasDefault && !isOptionType (shapes f.shape)
  valueShape := f.shape
  field := f
  category := b.category f

/-- `c` is one way of choosing a variant for each flattened enum reached in the part. -/
inductive Chosen : Part ι → FieldPath → Choice ι → Prop
  | nil {path : FieldPath} : Chosen (.fields []) path .empty
  | plain {f : Field ι} {fs : List (Field ι)} {path : FieldPath} {c : Choice ι} :
      f.isFlattened = false → Chosen (.fields fs) path c →
      Chosen (.fields (f :: fs)) path (.plain (fieldKeyInfo shapes b path f) ++ c)
  | flat {f : Field ι} {fs : List (Field ι)} {path : FieldPath} {c₁ c : Choice ι} :
      f.isFlattened = true → Chosen (.flattened f) path c₁ → Chosen (.fields fs) path c →
      Chosen (.fields (f :: fs)) path (c₁ ++ c)
  | struct {f : Field ι} {path : FieldPath} {ws : List ι} {t : ι} {st : StructType ι}
      {c : Choice ι} :
      Unwraps shapes (flattenStart shapes f) ws t → (shapes t).ty = .user (.struct st) →
      Chosen (.fields st.fields) (flattenPath path f ws) c →
      Chosen (.flattened f) path (c.belowField shapes f ws)
  | enum {f : Field ι} {path : FieldPath} {ws : List ι} {t : ι} {en : EnumType ι}
      {v : Variant ι} {c : Choice ι} :
      Unwraps shapes (flattenStart shapes f) ws t → (shapes t).ty = .user (.enum en) →
      v ∈ en.variants →
      Chosen (.variant v) ((flattenPath path f ws).pushVariant f.name v.name) c →
      Chosen (.flattened f) path ((c.belowField shapes f ws).select
        ⟨flattenPath path f ws, (shapes t).typeIdentifier, v.name⟩)
  /-- A newtype variant around a struct has the struct's fields. -/
  | newtype {v : Variant ι} {f : Field ι} {path : FieldPath} {t : ι} {st : StructType ι}
      {c : Choice ι} :
      newtypeField v = some f → Effective shapes f.shape t →
      (shapes t).ty = .user (.struct st) →
      Chosen (.fields st.fields) (path.pushField "0") c → Chosen (.variant v) path c
  | payload {v : Variant ι} {f : Field ι} {path : FieldPath} {t : ι} {c : Choice ι} :
      newtypeField v = some f → Effective shapes f.shape t →
      (∀ st, (shapes t).ty ≠ .user (.struct st)) →
      Chosen (.fields v.data.fields) path c → Chosen (.variant v) path c
  | variant {v : Variant ι} {path : FieldPath} {c : Choice ι} :
      newtypeField v = none → Chosen (.fields v.data.fields) path c →
      Chosen (.variant v) path c

/-- The fields that values of the shape hold by value. -/
def heldFields (shape : Shape ι) : List (Field ι) :=
  match shape.ty with
  | .user (.struct st) => st.fields
  | .user (.enum en) => en.variants.flatMap fun v => v.data.fields
  | _ => []

def Holds (s t : ι) : Prop := ∃ f ∈ heldFields (shapes s), f.shape = t

/-- By-value containment below `s` ends, as it does for every type of finite size. -/
def Finite (s : ι) : Prop := Acc (fun t s => Holds shapes s t) s

/-- Built from structs, plain fields, flattened structs behind `Option` and transparent
wrappers, and flattened enums in the flattened representation. Rust makes the names of a
struct's fields and of an enum's variants distinct, and has no enum with a representation
but without variants. -/
inductive Built : Part ι → Prop
  | nil : Built (.fields [])
  | plain {f : Field ι} {fs : List (Field ι)} :
      f.isFlattened = false → f.name ∉ fs.map Field.name → Finite shapes f.shape →
      Built (.fields fs) → Built (.fields (f :: fs))
  | flat {f : Field ι} {fs : List (Field ι)} :
      f.isFlattened = true → f.name ∉ fs.map Field.name → Built (.flattened f) →
      Built (.fields fs) → Built (.fields (f :: fs))
  | struct {f : Field ι} {ws : List ι} {t : ι} {st : StructType ι} :
      Unwraps shapes (flattenStart shapes f) ws t → (shapes t).ty = .user (.struct st) →
      Built (.fields st.fields) → Built (.flattened f)
  | enum {f : Field ι} {ws : List ι} {t : ι} {en : EnumType ι} :
      Unwraps shapes (flattenStart shapes f) ws t → (shapes t).ty = .user (.enum en) →
      (if b.autoDetectEnumRepr then EnumRepr.fromShape (shapes t) else b.enumRepr) = .flattened →
      en.variants ≠ [] → (en.variants.map Variant.name).Nodup →
      (∀ v ∈ en.variants, Built (.variant v)) → Built (.flattened f)
  | newtype {v : Variant ι} {f : Field ι} {t : ι} {st : StructType ι} :
      newtypeField v = some f → Effective shapes f.shape t →
      (shapes t).ty = .user (.struct st) → Built (.fields st.fields) → Built (.variant v)
  | payload {v : Variant ι} {f : Field ι} {t : ι} :
      newtypeField v = some f → Effective shapes f.shape t →
      (∀ st, (shapes t).ty ≠ .user (.struct st)) → Built (.fields v.data.fields) →
      Built (.variant v)
  | variant {v : Variant ι} :
      newtypeField v = none → Built (.fields v.data.fields) → Built (.variant v)

end Relations

end Facet.Flatten
