import Facet.Flatten.NestedKeyPaths
import Facet.Lib.ExceptList

/-!
# The keys of a variant choice

Once a variant is chosen for every enum in the flatten paths, the top level holds the
names of ordinary fields and the names that select variants: tags, and the names of
externally tagged variants. Each key remembers the path of the field it comes from. The
analysis finds two fields under one name only when both are ordinary or both select a
variant.
-/

namespace Facet.Flatten

variable {ι : Type}

/-- A name at the top level, the path of the field it comes from, and whether it selects a
variant. -/
structure WireKey where
  name : String
  path : FieldPath
  selector : Bool := false

/-- The key under which a schema for a flat format keeps it. -/
def WireKey.key (k : WireKey) : FieldKey :=
  if k.selector then .dom .element k.name else .flat k.name

theorem WireKey.key_name (k : WireKey) : k.key.name = k.name := by
  unfold key
  split <;> rfl

theorem WireKey.key_eq_iff (k l : WireKey) :
    k.key = l.key ↔ k.selector = l.selector ∧ k.name = l.name := by
  cases hk : k.selector <;> cases hl : l.selector <;> simp [key, hk, hl]

/-- Two fields from different sources have one name. -/
def NameClash (ks : List WireKey) : Prop :=
  ∃ k ∈ ks, ∃ l ∈ ks, k.name = l.name ∧ k.path ≠ l.path

/-- Two ordinary fields, or two variant selectors, from different sources have one name. -/
def LikeClash (ks : List WireKey) : Prop :=
  ∃ k ∈ ks, ∃ l ∈ ks, k.selector = l.selector ∧ k.name = l.name ∧ k.path ≠ l.path

/-- A variant selector has the name of an ordinary field. -/
def SelectorClash (ks : List WireKey) : Prop :=
  ∃ k ∈ ks, ∃ l ∈ ks, k.selector = true ∧ l.selector = false ∧ k.name = l.name

theorem LikeClash.append_left {ks : List WireKey} (h : LikeClash ks) (ls : List WireKey) :
    LikeClash (ks ++ ls) := by
  obtain ⟨k, hk, l, hl, hclash⟩ := h
  exact ⟨k, List.mem_append_left ls hk, l, List.mem_append_left ls hl, hclash⟩

theorem LikeClash.append_right {ls : List WireKey} (h : LikeClash ls) (ks : List WireKey) :
    LikeClash (ks ++ ls) := by
  obtain ⟨k, hk, l, hl, hclash⟩ := h
  exact ⟨k, List.mem_append_right ks hk, l, List.mem_append_right ks hl, hclash⟩

/-- The name that selects a variant in this representation. -/
def EnumRepr.selectorName (variantName : String) : EnumRepr → Option String
  | .flattened => none
  | .externallyTagged => some variantName
  | .internallyTagged tag | .adjacentlyTagged tag _ => some tag

/-- The fields of a variant are at the level of the enum itself. -/
def EnumRepr.Inline : EnumRepr → Prop
  | .flattened | .internallyTagged _ => True
  | .externallyTagged | .adjacentlyTagged _ _ => False

def selectorKeys (repr : EnumRepr) (variantName : String) (variantPath : FieldPath) :
    List WireKey :=
  (repr.selectorName variantName).toList.map fun name => ⟨name, variantPath, true⟩

section Relations

variable (shapes : Shapes ι) (b : SchemaBuilder ι)

/-- The representation the builder takes an enum to have. -/
def SchemaBuilder.reprOf (s : ι) : EnumRepr :=
  if b.autoDetectEnumRepr then EnumRepr.fromShape (shapes s) else b.enumRepr

/-- The key of a flattened field that is neither struct nor enum; maps and dynamic values
take the unknown keys and have no key of their own. -/
def leafKeys (f : Field ι) (s : ι) (path : FieldPath) : List WireKey :=
  match (shapes s).def with
  | .map _ _ | .dynamicValue => []
  | _ => [⟨f.effectiveName, path, false⟩]

def IsAggregate (s : ι) : Prop :=
  (∃ st, (shapes s).ty = .user (.struct st)) ∨ ∃ en, (shapes s).ty = .user (.enum en)

/-- One variant choice in the part puts the keys `ks` at the top level. -/
inductive Arises : Part ι → FieldPath → List WireKey → Prop
  | nil {path : FieldPath} : Arises (.fields []) path []
  | plain {f : Field ι} {fs : List (Field ι)} {path : FieldPath} {ks : List WireKey} :
      f.isFlattened = false → Arises (.fields fs) path ks →
      Arises (.fields (f :: fs)) path (⟨f.effectiveName, path.pushField f.name, false⟩ :: ks)
  | flat {f : Field ι} {fs : List (Field ι)} {path : FieldPath} {ks₁ ks : List WireKey} :
      f.isFlattened = true → Arises (.flattened f) path ks₁ → Arises (.fields fs) path ks →
      Arises (.fields (f :: fs)) path (ks₁ ++ ks)
  | struct {f : Field ι} {path : FieldPath} {ws : List ι} {t : ι} {st : StructType ι}
      {ks : List WireKey} :
      Unwraps shapes (flattenStart shapes f) ws t → (shapes t).ty = .user (.struct st) →
      Arises (.fields st.fields) (flattenPath path f ws) ks → Arises (.flattened f) path ks
  | inline {f : Field ι} {path : FieldPath} {ws : List ι} {t : ι} {en : EnumType ι}
      {v : Variant ι} {ks : List WireKey} :
      Unwraps shapes (flattenStart shapes f) ws t → (shapes t).ty = .user (.enum en) →
      (b.reprOf shapes t).Inline → v ∈ en.variants →
      Arises (.variant v) ((flattenPath path f ws).pushVariant f.name v.name) ks →
      Arises (.flattened f) path (selectorKeys (b.reprOf shapes t) v.name
        ((flattenPath path f ws).pushVariant f.name v.name) ++ ks)
  /-- The fields of the variant are nested below the variant's name or the content key. -/
  | nested {f : Field ι} {path : FieldPath} {ws : List ι} {t : ι} {en : EnumType ι}
      {v : Variant ι} :
      Unwraps shapes (flattenStart shapes f) ws t → (shapes t).ty = .user (.enum en) →
      ¬ (b.reprOf shapes t).Inline → v ∈ en.variants →
      Arises (.flattened f) path (selectorKeys (b.reprOf shapes t) v.name
        ((flattenPath path f ws).pushVariant f.name v.name))
  | leaf {f : Field ι} {path : FieldPath} {ws : List ι} {t : ι} :
      Unwraps shapes (flattenStart shapes f) ws t → ¬ IsAggregate shapes t →
      Arises (.flattened f) path (leafKeys shapes f t (flattenPath path f ws))
  | newtype {v : Variant ι} {f : Field ι} {path : FieldPath} {t : ι} {st : StructType ι}
      {ks : List WireKey} :
      newtypeField v = some f → Effective shapes f.shape t →
      (shapes t).ty = .user (.struct st) →
      Arises (.fields st.fields) (path.pushField "0") ks → Arises (.variant v) path ks
  | payload {v : Variant ι} {f : Field ι} {path : FieldPath} {t : ι} {ks : List WireKey} :
      newtypeField v = some f → Effective shapes f.shape t →
      (∀ st, (shapes t).ty ≠ .user (.struct st)) →
      Arises (.fields v.data.fields) path ks → Arises (.variant v) path ks
  | variant {v : Variant ι} {path : FieldPath} {ks : List WireKey} :
      newtypeField v = none → Arises (.fields v.data.fields) path ks →
      Arises (.variant v) path ks

/-- Flattening ends: no flattened field leads through flattened fields back to itself.
Types of finite size hold the shapes of their fields by value, and Rust has no enum with a
representation but without variants. -/
inductive Grounded : Part ι → Prop
  | nil : Grounded (.fields [])
  | plain {f : Field ι} {fs : List (Field ι)} :
      f.isFlattened = false → Finite shapes f.shape → Grounded (.fields fs) →
      Grounded (.fields (f :: fs))
  | flat {f : Field ι} {fs : List (Field ι)} :
      f.isFlattened = true → Grounded (.flattened f) → Grounded (.fields fs) →
      Grounded (.fields (f :: fs))
  | struct {f : Field ι} {ws : List ι} {t : ι} {st : StructType ι} :
      Unwraps shapes (flattenStart shapes f) ws t → (shapes t).ty = .user (.struct st) →
      Grounded (.fields st.fields) → Grounded (.flattened f)
  | enum {f : Field ι} {ws : List ι} {t : ι} {en : EnumType ι} :
      Unwraps shapes (flattenStart shapes f) ws t → (shapes t).ty = .user (.enum en) →
      Finite shapes t → en.variants ≠ [] →
      ((b.reprOf shapes t).Inline → ∀ v ∈ en.variants, Grounded (.variant v)) →
      Grounded (.flattened f)
  | leaf {f : Field ι} {ws : List ι} {t : ι} :
      Unwraps shapes (flattenStart shapes f) ws t → ¬ IsAggregate shapes t →
      Grounded (.flattened f)
  | newtype {v : Variant ι} {f : Field ι} {t : ι} {st : StructType ι} :
      newtypeField v = some f → Effective shapes f.shape t →
      (shapes t).ty = .user (.struct st) → Grounded (.fields st.fields) →
      Grounded (.variant v)
  | payload {v : Variant ι} {f : Field ι} {t : ι} :
      newtypeField v = some f → Effective shapes f.shape t →
      (∀ st, (shapes t).ty ≠ .user (.struct st)) → Grounded (.fields v.data.fields) →
      Grounded (.variant v)
  | variant {v : Variant ι} :
      newtypeField v = none → Grounded (.fields v.data.fields) → Grounded (.variant v)

end Relations

end Facet.Flatten
