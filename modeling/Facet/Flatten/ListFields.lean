import Facet.Flatten.RequiredNames
import Facet.Flatten.Stopping

/-!
# Flattened lists

A container names its element type in `inner`, as a transparent wrapper names what it wraps, so the
analysis goes on with the element. The keys of the element's fields are then on the wire.
-/

namespace Facet.Flatten

open Filter

variable {ι : Type} {shapes : Shapes ι} {b : SchemaBuilder ι}

theorem selectorKeys_path {repr : EnumRepr} {name : String} {path : FieldPath} {k : WireKey}
    (hk : k ∈ selectorKeys repr name path) : k.path = path := by
  obtain ⟨n, -, rfl⟩ := List.mem_map.mp hk
  rfl

theorem leafKeys_path {f : Field ι} {s : ι} {path : FieldPath} {k : WireKey}
    (hk : k ∈ leafKeys shapes f s path) : k.path = path := by
  unfold leafKeys at hk
  split at hk
  · exact absurd hk List.not_mem_nil
  · exact absurd hk List.not_mem_nil
  · rw [List.mem_singleton.mp hk]

/-- Where the keys of a part come from; those of a variant's contents are strictly below it. -/
def Part.Holds (path : FieldPath) : Part ι → FieldPath → Prop
  | .fields fs, q => ∃ f ∈ fs, Under path f q
  | .flattened f, q => Under path f q
  | .variant _, q => StrictlyBelow path q

theorem Arises.holds {part : Part ι} {path : FieldPath} {ks : List WireKey}
    (h : Arises shapes b part path ks) : ∀ k ∈ ks, Part.Holds path part k.path := by
  have hunder {f : Field ι} {path q : FieldPath} {ws : List ι}
      (h : flattenPath path f ws <+: q) : Under path f q :=
    (pushField_prefix_flattenPath path f ws).trans h
  induction h with
  | nil => exact fun k hk => absurd hk List.not_mem_nil
  | @plain f fs path ks hf _ ih =>
    intro k hk
    rcases List.mem_cons.mp hk with rfl | hk
    · exact ⟨f, List.mem_cons_self, List.prefix_rfl⟩
    · obtain ⟨g, hg, hunder⟩ := ih k hk
      exact ⟨g, List.mem_cons_of_mem f hg, hunder⟩
  | @flat f fs path ks₁ ks hf _ _ ih₁ ih =>
    intro k hk
    rcases List.mem_append.mp hk with hk | hk
    · exact ⟨f, List.mem_cons_self, ih₁ k hk⟩
    · obtain ⟨g, hg, hunder⟩ := ih k hk
      exact ⟨g, List.mem_cons_of_mem f hg, hunder⟩
  | struct hunwraps hty _ ih =>
    intro k hk
    obtain ⟨g, -, hg⟩ := ih k hk
    exact hunder ((List.prefix_append _ _).trans hg)
  | inline hunwraps hty hinline hv _ ih =>
    intro k hk
    rcases List.mem_append.mp hk with hk | hk
    · rw [selectorKeys_path hk]
      exact hunder (List.prefix_append _ _)
    · exact hunder ((List.prefix_append _ _).trans (ih k hk).prefix_of)
  | nested hunwraps hty hinline hv =>
    intro k hk
    rw [selectorKeys_path hk]
    exact hunder (List.prefix_append _ _)
  | leaf hunwraps hleaf =>
    intro k hk
    rw [leafKeys_path hk]
    exact hunder List.prefix_rfl
  | newtype hnew heffective hty _ ih =>
    intro k hk
    obtain ⟨g, -, hg⟩ := ih k hk
    exact ⟨.field "0", (List.prefix_append _ _).trans hg⟩
  | payload hnew heffective hty _ ih =>
    intro k hk
    obtain ⟨g, -, hg⟩ := ih k hk
    exact hg.strictlyBelow
  | variant hnew _ ih =>
    intro k hk
    obtain ⟨g, -, hg⟩ := ih k hk
    exact hg.strictlyBelow

/-- A key of a choice of the fields is one of a choice of a field. -/
theorem exists_field_of_arises {fs : List (Field ι)} {path : FieldPath} {ks : List WireKey}
    (h : Arises shapes b (.fields fs) path ks) {k : WireKey} (hk : k ∈ ks) : ∃ f ∈ fs,
      (f.isFlattened = false ∧ k = ⟨f.effectiveName, path.pushField f.name, false⟩) ∨
        (f.isFlattened = true ∧ ∃ ls, Arises shapes b (.flattened f) path ls ∧ k ∈ ls) := by
  induction fs generalizing ks with
  | nil =>
    cases h
    exact absurd hk List.not_mem_nil
  | cons f fs ih =>
    cases h with
    | plain hf h =>
      rcases List.mem_cons.mp hk with rfl | hk
      · exact ⟨f, List.mem_cons_self, .inl ⟨hf, rfl⟩⟩
      · obtain ⟨g, hg, hkey⟩ := ih h hk
        exact ⟨g, List.mem_cons_of_mem f hg, hkey⟩
    | flat hf h₁ h =>
      rcases List.mem_append.mp hk with hk | hk
      · exact ⟨f, List.mem_cons_self, .inr ⟨hf, _, h₁, hk⟩⟩
      · obtain ⟨g, hg, hkey⟩ := ih h hk
        exact ⟨g, List.mem_cons_of_mem f hg, hkey⟩

/-- Where flattening ends, a choice for one flattened field is part of a choice for all fields. -/
theorem Grounded.extend_arises {fs : List (Field ι)} (h : Grounded shapes b (.fields fs))
    (hflat : b.format = .flat) {path : FieldPath} {f : Field ι} (hf : f ∈ fs)
    (hflattened : f.isFlattened = true) {ls : List WireKey}
    (hls : Arises shapes b (.flattened f) path ls) :
    ∃ ks, Arises shapes b (.fields fs) path ks ∧ ls ⊆ ks := by
  induction fs with
  | nil => exact absurd hf List.not_mem_nil
  | cons g fs ih =>
    rcases List.mem_cons.mp hf with rfl | hf
    · cases h with
      | plain hplain => simp [hflattened] at hplain
      | flat _ _ h =>
        obtain ⟨ks, hks⟩ := (h.settled hflat path).nonempty
        exact ⟨ls ++ ks, .flat hflattened hls hks, List.subset_append_left ls ks⟩
    · cases h with
      | plain hplain _ h =>
        obtain ⟨ks, hks, hsub⟩ := ih h hf
        exact ⟨_, .plain hplain hks, fun k hk => List.mem_cons_of_mem _ (hsub hk)⟩
      | flat hg hg' h =>
        obtain ⟨ks, hks, hsub⟩ := ih h hf
        obtain ⟨ms, hms⟩ := (hg'.settled hflat path).nonempty
        exact ⟨ms ++ ks, .flat hg hms hks, List.subset_append_of_subset_right ms hsub⟩

/-- A schema's resolutions are those of the choices of its type. -/
theorem cover_of_intoSchema (htypes : FiniteTypes shapes) {n : ℕ} {schema : Schema ι}
    (hflat : b.format = .flat) (h : b.intoSchema shapes n = .ok schema) :
    Cover schema.resolutions (rootArising shapes b b.shape) := by
  have hanalyze := SchemaBuilder.analyze_of_intoSchema shapes n h
  have hgrounded := GroundedRoot.of_intoSchema htypes h
  obtain ⟨m, hrecorded, hm⟩ :=
    ((hgrounded.recorded hflat).and (eventually_ge_atTop n)).exists
  have hends : Ends (b.analyze shapes n) := by
    rw [hanalyze]
    exact .ok _
  rw [analyze_settles hm hends, hanalyze] at hrecorded
  exact hrecorded

/-- A list, array or set: its element type stands in `inner`. -/
def IsContainer (shapes : Shapes ι) (s e : ι) : Prop :=
  (Shape.def (shapes s) = .list e ∨ (∃ n, Shape.def (shapes s) = .array e n) ∨
    Shape.def (shapes s) = .set e) ∧ (shapes s).inner = some e

/-- A struct type that neither wraps another type nor is converted through one. -/
structure IsStruct (shapes : Shapes ι) (s : ι) (st : StructType ι) : Prop where
  ty : (shapes s).ty = .user (.struct st)
  inner : (shapes s).inner = none
  proxy : (shapes s).proxy = none

/-- An enum type that wraps no other type. -/
structure IsEnum (shapes : Shapes ι) (s : ι) (en : EnumType ι) : Prop where
  ty : (shapes s).ty = .user (.enum en)
  inner : (shapes s).inner = none

section Places

variable (shapes : Shapes ι)

/-- A flattened list of externally tagged enums. -/
structure FlattensEnums (f : Field ι) (e : ι) (en : EnumType ι) : Prop where
  flattened : f.isFlattened = true
  outer : (shapes f.shape).ty = .user .opaqueTy
  list : Shape.def (shapes f.shape) = .list e
  inner : (shapes f.shape).inner = some e
  element : IsEnum shapes e en
  tagged : EnumRepr.fromShape (shapes e) = .externallyTagged

/-- A flattened list of structs. -/
structure FlattensStructs (f : Field ι) (e : ι) (st : StructType ι) : Prop where
  flattened : f.isFlattened = true
  list : Shape.def (shapes f.shape) = .list e
  inner : (shapes f.shape).inner = some e
  element : IsStruct shapes e st

/-- A flattened untagged enum. -/
structure FlattensUntagged (f : Field ι) (en : EnumType ι) : Prop where
  flattened : f.isFlattened = true
  enum : IsEnum shapes f.shape en
  notOption : ∀ t, Shape.def (shapes f.shape) ≠ .option t
  untagged : EnumRepr.fromShape (shapes f.shape) = .flattened

/-- The struct is the element of a flattened list, or of a list, array or set in a newtype variant of a
flattened untagged enum; `place` is where the fields of an element are. -/
inductive ElementAt (fs : List (Field ι)) : StructType ι → FieldPath → Prop
  | list {f : Field ι} {e : ι} {st : StructType ι} :
      f ∈ fs → FlattensStructs shapes f e st →
      ElementAt fs st (flattenPath [] f [f.shape])
  | variant {f : Field ι} {en : EnumType ι} {v : Variant ι} {g : Field ι} {e : ι}
      {st : StructType ι} :
      f ∈ fs → FlattensUntagged shapes f en → v ∈ en.variants → newtypeField v = some g →
      IsContainer shapes g.shape e → IsStruct shapes e st →
      ElementAt fs st (((flattenPath [] f []).pushVariant f.name v.name).pushField "0")

variable (b : SchemaBuilder ι)

/-- No choice for the fields of an element struct puts a key on the wire. -/
def KeylessElements (fs : List (Field ι)) : Prop :=
  ∀ st place, ElementAt shapes fs st place →
    ∀ ks, Arises shapes b (.fields st.fields) place ks → ks = []

end Places

/-- The schema has no key that comes from a field of an element struct. -/
def Schema.HidesElements (shapes : Shapes ι) (schema : Schema ι) (fs : List (Field ι)) : Prop :=
  ∀ r ∈ schema.resolutions, ∀ (key : FieldKey) info, r.fields[key]? = some info →
    ∀ st place, ElementAt shapes fs st place → ¬ StrictlyBelow place info.path

/-- Rust makes the names of an enum's variants distinct. -/
def DistinctVariants (shapes : Shapes ι) : Prop :=
  ∀ s en, (shapes s).ty = .user (.enum en) → (en.variants.map Variant.name).Nodup

section Expansion

variable {f : Field ι} {path : FieldPath}

theorem FlattensStructs.unwraps {e : ι} {st : StructType ι} (h : FlattensStructs shapes f e st) :
    Unwraps shapes (flattenStart shapes f) [f.shape] e := by
  have hstart : flattenStart shapes f = f.shape := by
    simp [flattenStart, unwrapOptionType, h.list]
  rw [hstart]
  exact .layer h.inner (.done h.element.inner)

theorem FlattensUntagged.unwraps {en : EnumType ι} (h : FlattensUntagged shapes f en) :
    Unwraps shapes (flattenStart shapes f) [] f.shape := by
  have hstart : flattenStart shapes f = f.shape := by
    unfold flattenStart unwrapOptionType
    split
    · next t hoption => exact absurd hoption (h.notOption t)
    · rfl
  rw [hstart]
  exact .done h.enum.inner

theorem effective_of_container {s e : ι} {st : StructType ι} (h : IsContainer shapes s e)
    (he : IsStruct shapes e st) : Effective shapes s e :=
  .done (.layer h.2 (.done he.inner)) he.proxy

end Expansion

/-- The choices for the fields of an element, for a field that leads to it. -/
theorem ElementAt.arises (hauto : b.autoDetectEnumRepr = true)
    {fs : List (Field ι)} {st : StructType ι} {place : FieldPath}
    (h : ElementAt shapes fs st place) {ks : List WireKey}
    (hks : Arises shapes b (.fields st.fields) place ks) :
    ∃ f ∈ fs, f.isFlattened = true ∧ Arises shapes b (.flattened f) [] ks := by
  cases h with
  | @list f e st hf hlist =>
    exact ⟨f, hf, hlist.flattened, .struct hlist.unwraps hlist.element.ty hks⟩
  | @variant f en v g e st hf huntagged hv hnew hcontainer hstruct =>
    have hrepr : b.reprOf shapes f.shape = .flattened := by
      rw [SchemaBuilder.reprOf, hauto, if_pos rfl, huntagged.untagged]
    have hcontents : Arises shapes b (.variant v)
        ((flattenPath [] f []).pushVariant f.name v.name) ks :=
      .newtype hnew (effective_of_container hcontainer hstruct) hstruct.ty hks
    have hfork := Arises.inline huntagged.unwraps huntagged.enum.ty (by rw [hrepr]; trivial) hv
      hcontents
    rw [hrepr] at hfork
    exact ⟨f, hf, huntagged.flattened, hfork⟩

theorem eq_of_under {f g : Field ι} {fs : List (Field ι)} (hnames : (fs.map Field.name).Nodup)
    (hf : f ∈ fs) (hg : g ∈ fs) {path q : FieldPath} (hfq : Under path f q) (hgq : Under path g q) :
    f = g :=
  List.inj_on_of_nodup_map hnames hf hg (hfq.name_eq hgq)

theorem reprOf_untagged (hauto : b.autoDetectEnumRepr = true) {f : Field ι} {en : EnumType ι}
    (h : FlattensUntagged shapes f en) : b.reprOf shapes f.shape = .flattened := by
  rw [SchemaBuilder.reprOf, hauto, if_pos rfl, h.untagged]

theorem variantName_eq {path q : FieldPath} {name v v' : String}
    (h : path.pushVariant name v <+: q) (h' : path.pushVariant name v' <+: q) : v = v' := by
  have heq := List.prefix_of_prefix_length_le h h' (by simp [FieldPath.pushVariant])
  have hlast := heq.eq_of_length (by simp [FieldPath.pushVariant])
  simpa [FieldPath.pushVariant] using hlast

/-- A key below the place of an element comes from the element's fields. -/
theorem ElementAt.exists_arises (hauto : b.autoDetectEnumRepr = true)
    (hvariants : DistinctVariants shapes) {fs : List (Field ι)}
    (hnames : (fs.map Field.name).Nodup) {st : StructType ι} {place : FieldPath}
    (h : ElementAt shapes fs st place) {g : Field ι} (hg : g ∈ fs) {ls : List WireKey}
    (hls : Arises shapes b (.flattened g) [] ls) {k : WireKey} (hk : k ∈ ls)
    (hbelow : StrictlyBelow place k.path) :
    ∃ ks, Arises shapes b (.fields st.fields) place ks ∧ k ∈ ks := by
  have hunder : Under [] g k.path := hls.holds k hk
  cases h with
  | @list f e st hf hlist =>
    have hf' : Under [] f k.path :=
      (pushField_prefix_flattenPath [] f _).trans hbelow.prefix_of
    obtain rfl := eq_of_under hnames hf hg hf' hunder
    have hstruct : ls ∈ arising shapes b (.flattened f) [] := hls
    rw [arising_struct hlist.unwraps hlist.element.ty] at hstruct
    exact ⟨ls, hstruct, hk⟩
  | @variant f en v g' e st hf huntagged hv hnew hcontainer hstruct =>
    have hvariant : (flattenPath [] f []).pushVariant f.name v.name <+: k.path :=
      (List.prefix_append _ _).trans hbelow.prefix_of
    have hf' : Under [] f k.path :=
      (pushField_prefix_flattenPath [] f []).trans ((List.prefix_append _ _).trans hvariant)
    obtain rfl := eq_of_under hnames hf hg hf' hunder
    have henum : ls ∈ arising shapes b (.flattened f) [] := hls
    rw [arising_enum huntagged.unwraps huntagged.enum.ty] at henum
    obtain ⟨v', hv', hkeys⟩ := henum
    rw [reprOf_untagged hauto huntagged] at hkeys
    rcases hkeys with ⟨-, ms, hms, rfl⟩ | ⟨hnested, -⟩
    · obtain hvv : v'.name = v.name :=
        variantName_eq (Arises.holds hms k hk).prefix_of hvariant
      obtain rfl := List.inj_on_of_nodup_map (hvariants _ en huntagged.enum.ty) hv' hv hvv
      dsimp only at hms
      rw [arising_newtype hnew (effective_of_container hcontainer hstruct) hstruct.ty] at hms
      exact ⟨ms, hms, hk⟩
    · exact absurd trivial hnested

theorem ElementAt.length_le {fs : List (Field ι)} {st : StructType ι} {place : FieldPath}
    (h : ElementAt shapes fs st place) : 2 ≤ place.length := by
  cases h with
  | list => simp [flattenPath, FieldPath.pushField]
  | variant => simp [flattenPath, FieldPath.pushField, FieldPath.pushVariant]

/-- The keys of the elements' fields are kept out exactly when there are none. -/
theorem hidesElements_iff (htypes : FiniteTypes shapes) (hwell : WellNamed shapes)
    (hvariants : DistinctVariants shapes) {st : StructType ι}
    (hty : (shapes b.shape).ty = .user (.struct st)) (hflat : b.format = .flat)
    (hauto : b.autoDetectEnumRepr = true) {n : ℕ} {schema : Schema ι}
    (hschema : b.intoSchema shapes n = .ok schema) :
    schema.HidesElements shapes st.fields ↔ KeylessElements shapes b st.fields := by
  have hcover := cover_of_intoSchema htypes hflat hschema
  have hgrounded := GroundedRoot.of_intoSchema htypes hschema
  unfold GroundedRoot at hgrounded
  unfold rootArising at hcover
  rw [hty] at hcover hgrounded
  constructor
  · intro hhides est place helement ks hks
    rw [List.eq_nil_iff_forall_not_mem]
    intro k hk
    obtain ⟨f, hf, hflattened, harises⟩ := helement.arises hauto hks
    obtain ⟨all, hall, hsub⟩ := hgrounded.extend_arises hflat hf hflattened harises
    obtain ⟨r, hr, htracks⟩ := hcover.complete all hall
    obtain ⟨info, hinfo, hpath⟩ :=
      (htracks.mem_iff k.key k.path).mpr (List.mem_map_of_mem (hsub hk))
    apply hhides r hr k.key info hinfo est place helement
    obtain ⟨g, -, hunder⟩ := hks.holds k hk
    rw [hpath]
    exact hunder.strictlyBelow
  · intro hkeyless r hr key info hinfo est place helement hbelow
    obtain ⟨all, hall, htracks⟩ := hcover.sound r hr
    obtain ⟨k, hk, hkey⟩ := List.mem_map.mp ((htracks.mem_iff key info.path).mp ⟨info, hinfo, rfl⟩)
    obtain ⟨-, hpath⟩ := Prod.mk.inj hkey
    rw [← hpath] at hbelow
    obtain ⟨f, hf, ⟨-, rfl⟩ | ⟨-, ls, hls, hkls⟩⟩ := exists_field_of_arises hall hk
    · obtain ⟨seg, hseg⟩ := hbelow
      have hlength := hseg.length_le
      have hplace := helement.length_le
      simp only [FieldPath.pushField, List.length_append, List.length_cons, List.length_nil]
        at hlength
      omega
    · obtain ⟨ks, hks, hkks⟩ := helement.exists_arises hauto hvariants (hwell.struct _ st hty) hf hls
        hkls hbelow
      rw [hkeyless est place helement ks hks] at hkks
      exact absurd hkks List.not_mem_nil

end Facet.Flatten
