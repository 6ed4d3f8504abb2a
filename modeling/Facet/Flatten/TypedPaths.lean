import Facet.Flatten.WireKeys

/-!
# The types at key paths

What a key path leads to, stated on its own: in a resolution the variants of the flattened enums
are chosen, and the keys of a document lead through plain fields, flattened fields and the
contents of the chosen variants to a field, whose type is the type at the path.
-/

namespace Facet.Flatten

variable {ι : Type}

section Relations

variable (shapes : Shapes ι)

/-- Options and smart pointers have the keys of what is in them. -/
inductive Behind : ι → ι → Prop
  | refl {s : ι} : Behind s s
  | option {s u t : ι} : Shape.def (shapes s) = .option u → Behind u t → Behind s t
  | pointer {s u t : ι} : Shape.def (shapes s) = .pointer (some u) → Behind u t → Behind s t

/-- The fields whose keys a variant contributes: those of the struct in a newtype variant, or the
variant's own. -/
def contentFields (v : Variant ι) : List (Field ι) :=
  match newtypeField v with
  | some f =>
    match (shapes f.shape).ty with
    | .user (.struct st) => st.fields
    | _ => v.data.fields
  | none => v.data.fields

/-- Among the fields of a value that is nested in the document, the keys lead to a field of type
`t`. The variant of a flattened enum is one that is selected for a field of that name. -/
inductive Reached (sel : List VariantSelection) : List (Field ι) → KeyPath → ι → Prop
  | here {fs : List (Field ι)} {f : Field ι} :
      f ∈ fs → f.isFlattened = false → Reached sel fs [f.effectiveName] f.shape
  | nested {fs : List (Field ι)} {f : Field ι} {s t : ι} {st : StructType ι} {keys : KeyPath} :
      f ∈ fs → f.isFlattened = false → Behind shapes f.shape s →
      (shapes s).ty = .user (.struct st) → Reached sel st.fields keys t →
      Reached sel fs (f.effectiveName :: keys) t
  | struct {fs : List (Field ι)} {f : Field ι} {s t : ι} {st : StructType ι} {keys : KeyPath} :
      f ∈ fs → f.isFlattened = true → Behind shapes f.shape s →
      (shapes s).ty = .user (.struct st) → Reached sel st.fields keys t → Reached sel fs keys t
  | enum {fs : List (Field ι)} {f : Field ι} {s t : ι} {en : EnumType ι} {v : Variant ι}
      {vs : VariantSelection} {keys : KeyPath} :
      f ∈ fs → f.isFlattened = true → Behind shapes f.shape s →
      (shapes s).ty = .user (.enum en) → v ∈ en.variants → vs ∈ sel →
      vs.path.getLast? = some (.field f.name) → vs.variantName = v.name →
      Reached sel (contentFields shapes v) keys t → Reached sel fs keys t

/-- Where the keys below a variant's name or a content key start. -/
inductive Content (ι : Type)
  | shape (s : ι)
  | fields (fs : List (Field ι))
  | variant (v : Variant ι)

/-- Below a variant's name or a content key, where the variants of nested enums are open, the
keys can lead to a field of type `t`. -/
inductive ReachedInside : Content ι → KeyPath → ι → Prop
  | struct {s t : ι} {st : StructType ι} {keys : KeyPath} :
      (shapes s).ty = .user (.struct st) → ReachedInside (.fields st.fields) keys t →
      ReachedInside (.shape s) keys t
  | enum {s t : ι} {en : EnumType ι} {v : Variant ι} {keys : KeyPath} :
      (shapes s).ty = .user (.enum en) → v ∈ en.variants → ReachedInside (.variant v) keys t →
      ReachedInside (.shape s) keys t
  | here {fs : List (Field ι)} {f : Field ι} :
      f ∈ fs → f.isFlattened = false → ReachedInside (.fields fs) [f.effectiveName] f.shape
  | nested {fs : List (Field ι)} {f : Field ι} {t : ι} {keys : KeyPath} :
      f ∈ fs → f.isFlattened = false → ReachedInside (.shape f.shape) keys t →
      ReachedInside (.fields fs) (f.effectiveName :: keys) t
  | flat {fs : List (Field ι)} {f : Field ι} {t : ι} {keys : KeyPath} :
      f ∈ fs → f.isFlattened = true → ReachedInside (.shape f.shape) keys t →
      ReachedInside (.fields fs) keys t
  | newtype {v : Variant ι} {f : Field ι} {t : ι} {keys : KeyPath} :
      newtypeField v = some f → ReachedInside (.shape f.shape) keys t →
      ReachedInside (.variant v) keys t
  | payload {v : Variant ι} {f : Field ι} :
      newtypeField v = none → f ∈ v.data.fields →
      ReachedInside (.variant v) [f.effectiveName] f.shape
  | nestedPayload {v : Variant ι} {f : Field ι} {t : ι} {keys : KeyPath} :
      newtypeField v = none → f ∈ v.data.fields → ReachedInside (.shape f.shape) keys t →
      ReachedInside (.variant v) (f.effectiveName :: keys) t

variable (b : SchemaBuilder ι)

/-- At the top level of the document the keys lead from the part to a field of type `t`, with
the variants of flattened enums as selected. A key that selects a variant or holds its contents
stands for the enum. -/
inductive TypedAt (sel : List VariantSelection) : Part ι → FieldPath → KeyPath → ι → Prop
  | plain {fs : List (Field ι)} {f : Field ι} {path : FieldPath} {keys : KeyPath} {t : ι} :
      f ∈ fs → f.isFlattened = false → Reached shapes sel [f] keys t →
      TypedAt sel (.fields fs) path keys t
  | flat {fs : List (Field ι)} {f : Field ι} {path : FieldPath} {keys : KeyPath} {t : ι} :
      f ∈ fs → f.isFlattened = true → TypedAt sel (.flattened f) path keys t →
      TypedAt sel (.fields fs) path keys t
  | struct {f : Field ι} {path : FieldPath} {ws : List ι} {s t : ι} {st : StructType ι}
      {keys : KeyPath} :
      Unwraps shapes (flattenStart shapes f) ws s → (shapes s).ty = .user (.struct st) →
      TypedAt sel (.fields st.fields) (flattenPath path f ws) keys t →
      TypedAt sel (.flattened f) path keys t
  | inline {f : Field ι} {path : FieldPath} {ws : List ι} {s t : ι} {en : EnumType ι}
      {v : Variant ι} {keys : KeyPath} :
      Unwraps shapes (flattenStart shapes f) ws s → (shapes s).ty = .user (.enum en) →
      (b.reprOf shapes s).Inline → v ∈ en.variants →
      ⟨flattenPath path f ws, (shapes s).typeIdentifier, v.name⟩ ∈ sel →
      TypedAt sel (.variant v) ((flattenPath path f ws).pushVariant f.name v.name) keys t →
      TypedAt sel (.flattened f) path keys t
  | selector {f : Field ι} {path : FieldPath} {ws : List ι} {s : ι} {en : EnumType ι}
      {v : Variant ι} {name : String} :
      Unwraps shapes (flattenStart shapes f) ws s → (shapes s).ty = .user (.enum en) →
      v ∈ en.variants → ⟨flattenPath path f ws, (shapes s).typeIdentifier, v.name⟩ ∈ sel →
      (b.reprOf shapes s).selectorName v.name = some name →
      TypedAt sel (.flattened f) path [name] s
  | external {f : Field ι} {path : FieldPath} {ws : List ι} {s t : ι} {en : EnumType ι}
      {v : Variant ι} {keys : KeyPath} :
      Unwraps shapes (flattenStart shapes f) ws s → (shapes s).ty = .user (.enum en) →
      b.reprOf shapes s = .externallyTagged → v ∈ en.variants →
      ⟨flattenPath path f ws, (shapes s).typeIdentifier, v.name⟩ ∈ sel →
      ReachedInside shapes (.variant v) keys t → TypedAt sel (.flattened f) path (v.name :: keys) t
  | content {f : Field ι} {path : FieldPath} {ws : List ι} {s : ι} {en : EnumType ι}
      {tag content : String} :
      Unwraps shapes (flattenStart shapes f) ws s → (shapes s).ty = .user (.enum en) →
      b.reprOf shapes s = .adjacentlyTagged tag content →
      TypedAt sel (.flattened f) path [content] s
  | adjacent {f : Field ι} {path : FieldPath} {ws : List ι} {s t : ι} {en : EnumType ι}
      {v : Variant ι} {tag content : String} {keys : KeyPath} :
      Unwraps shapes (flattenStart shapes f) ws s → (shapes s).ty = .user (.enum en) →
      b.reprOf shapes s = .adjacentlyTagged tag content → v ∈ en.variants →
      ⟨flattenPath path f ws, (shapes s).typeIdentifier, v.name⟩ ∈ sel →
      ReachedInside shapes (.variant v) keys t →
      TypedAt sel (.flattened f) path (content :: keys) t
  | leaf {f : Field ι} {path : FieldPath} {ws : List ι} {s : ι} :
      Unwraps shapes (flattenStart shapes f) ws s → ¬ IsAggregate shapes s →
      TypedAt sel (.flattened f) path [f.effectiveName] s
  | newtype {v : Variant ι} {f : Field ι} {path : FieldPath} {s t : ι} {st : StructType ι}
      {keys : KeyPath} :
      newtypeField v = some f → Effective shapes f.shape s → (shapes s).ty = .user (.struct st) →
      TypedAt sel (.fields st.fields) (path.pushField "0") keys t →
      TypedAt sel (.variant v) path keys t
  | payload {v : Variant ι} {f : Field ι} {path : FieldPath} {s t : ι} {keys : KeyPath} :
      newtypeField v = some f → Effective shapes f.shape s →
      (∀ st, (shapes s).ty ≠ .user (.struct st)) →
      TypedAt sel (.fields v.data.fields) path keys t → TypedAt sel (.variant v) path keys t
  | variant {v : Variant ι} {path : FieldPath} {keys : KeyPath} {t : ι} :
      newtypeField v = none → TypedAt sel (.fields v.data.fields) path keys t →
      TypedAt sel (.variant v) path keys t

/-- In a resolution with these selections the keys of a document lead to a field of type `t`. -/
inductive TypedIn (sel : List VariantSelection) : KeyPath → ι → Prop
  | struct {st : StructType ι} {keys : KeyPath} {t : ι} :
      (shapes b.shape).ty = .user (.struct st) →
      TypedAt shapes b sel (.fields st.fields) [] keys t → TypedIn sel keys t
  | enum {en : EnumType ι} {v : Variant ι} {keys : KeyPath} {t : ι} :
      (shapes b.shape).ty = .user (.enum en) → v ∈ en.variants →
      ⟨[], (shapes b.shape).typeIdentifier, v.name⟩ ∈ sel →
      TypedAt shapes b sel (.variant v) (FieldPath.pushVariant [] "" v.name) keys t →
      TypedIn sel keys t

end Relations

variable {shapes : Shapes ι} {b : SchemaBuilder ι} {sel sel' : List VariantSelection}

theorem contentFields_newtype {v : Variant ι} {f : Field ι} (hnew : newtypeField v = some f)
    {st : StructType ι} (hty : (shapes f.shape).ty = .user (.struct st)) :
    contentFields shapes v = st.fields := by
  simp only [contentFields, hnew, hty]

theorem contentFields_payload {v : Variant ι}
    (hpayload : ∀ f, newtypeField v = some f → ∀ st, (shapes f.shape).ty ≠ .user (.struct st)) :
    contentFields shapes v = v.data.fields := by
  unfold contentFields
  cases hnew : newtypeField v with
  | none => rfl
  | some f =>
    dsimp only
    split
    · next st hty => exact absurd hty (hpayload f hnew st)
    · rfl

theorem Reached.of_mem {fs : List (Field ι)} {f : Field ι} (hf : f ∈ fs) {keys : KeyPath} {t : ι}
    (h : Reached shapes sel [f] keys t) : Reached shapes sel fs keys t := by
  cases h with
  | here hg hplain =>
    obtain rfl := List.mem_singleton.mp hg
    exact .here hf hplain
  | nested hg hplain hbehind hty h =>
    obtain rfl := List.mem_singleton.mp hg
    exact .nested hf hplain hbehind hty h
  | struct hg hflat hbehind hty h =>
    obtain rfl := List.mem_singleton.mp hg
    exact .struct hf hflat hbehind hty h
  | enum hg hflat hbehind hty hv hvs hlast hname h =>
    obtain rfl := List.mem_singleton.mp hg
    exact .enum hf hflat hbehind hty hv hvs hlast hname h

theorem Reached.mono (hsub : sel ⊆ sel') {fs : List (Field ι)} {keys : KeyPath} {t : ι}
    (h : Reached shapes sel fs keys t) : Reached shapes sel' fs keys t := by
  induction h with
  | here hf hplain => exact .here hf hplain
  | nested hf hplain hbehind hty _ ih => exact .nested hf hplain hbehind hty ih
  | struct hf hflat hbehind hty _ ih => exact .struct hf hflat hbehind hty ih
  | enum hf hflat hbehind hty hv hvs hlast hname _ ih =>
    exact .enum hf hflat hbehind hty hv (hsub hvs) hlast hname ih

theorem TypedAt.mono (hsub : sel ⊆ sel') {part : Part ι} {path : FieldPath} {keys : KeyPath}
    {t : ι} (h : TypedAt shapes b sel part path keys t) :
    TypedAt shapes b sel' part path keys t := by
  induction h with
  | plain hf hplain h => exact .plain hf hplain (h.mono hsub)
  | flat hf hflat _ ih => exact .flat hf hflat ih
  | struct hunwraps hty _ ih => exact .struct hunwraps hty ih
  | inline hunwraps hty hinline hv hvs _ ih => exact .inline hunwraps hty hinline hv (hsub hvs) ih
  | selector hunwraps hty hv hvs hname => exact .selector hunwraps hty hv (hsub hvs) hname
  | external hunwraps hty hrepr hv hvs h => exact .external hunwraps hty hrepr hv (hsub hvs) h
  | content hunwraps hty hrepr => exact .content hunwraps hty hrepr
  | adjacent hunwraps hty hrepr hv hvs h => exact .adjacent hunwraps hty hrepr hv (hsub hvs) h
  | leaf hunwraps hleaf => exact .leaf hunwraps hleaf
  | newtype hnew heffective hty _ ih => exact .newtype hnew heffective hty ih
  | payload hnew heffective hty _ ih => exact .payload hnew heffective hty ih
  | variant hnew _ ih => exact .variant hnew ih

theorem TypedAt.of_mem {fs : List (Field ι)} {f : Field ι} (hf : f ∈ fs) {path : FieldPath}
    {keys : KeyPath} {t : ι} (h : TypedAt shapes b sel (.fields [f]) path keys t) :
    TypedAt shapes b sel (.fields fs) path keys t := by
  cases h with
  | plain hg hplain h =>
    obtain rfl := List.mem_singleton.mp hg
    exact .plain hf hplain h
  | flat hg hflat h =>
    obtain rfl := List.mem_singleton.mp hg
    exact .flat hf hflat h

end Facet.Flatten
