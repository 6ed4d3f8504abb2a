import Facet.Flatten.DistinctNames
import Facet.Flatten.KeyRuns
import Facet.Flatten.OptionalFields

/-!
# Omitted blocks

A flattened `Option` may be left out: none of its fields is required. Leaving it out says nothing
about the variant of an enum in it, though, so that each of its choices is still left at the end.
-/

namespace Facet.Flatten

open Filter Std

variable {ι : Type} {shapes : Shapes ι} {b : SchemaBuilder ι}

variable (shapes b) in
/-- Every flattened enum in the part has exactly one variant. -/
inductive OneChoice : Part ι → Prop
  | nil : OneChoice (.fields [])
  | plain {f : Field ι} {fs : List (Field ι)} : f.isFlattened = false →
      OneChoice (.fields fs) → OneChoice (.fields (f :: fs))
  | flat {f : Field ι} {fs : List (Field ι)} : f.isFlattened = true → OneChoice (.flattened f) →
      OneChoice (.fields fs) → OneChoice (.fields (f :: fs))
  | struct {f : Field ι} {ws : List ι} {t : ι} {st : StructType ι} :
      Unwraps shapes (flattenStart shapes f) ws t → (shapes t).ty = .user (.struct st) →
      OneChoice (.fields st.fields) → OneChoice (.flattened f)
  | enum {f : Field ι} {ws : List ι} {t : ι} {en : EnumType ι} {v : Variant ι} :
      Unwraps shapes (flattenStart shapes f) ws t → (shapes t).ty = .user (.enum en) →
      en.variants = [v] → ((b.reprOf shapes t).Inline → OneChoice (.variant v)) →
      OneChoice (.flattened f)
  | leaf {f : Field ι} {ws : List ι} {t : ι} : Unwraps shapes (flattenStart shapes f) ws t →
      ¬ IsAggregate shapes t → OneChoice (.flattened f)
  | newtype {v : Variant ι} {f : Field ι} {t : ι} {st : StructType ι} :
      newtypeField v = some f → Effective shapes f.shape t →
      (shapes t).ty = .user (.struct st) → OneChoice (.fields st.fields) → OneChoice (.variant v)
  | payload {v : Variant ι} {f : Field ι} {t : ι} :
      newtypeField v = some f → Effective shapes f.shape t →
      (∀ st, (shapes t).ty ≠ .user (.struct st)) → OneChoice (.fields v.data.fields) →
      OneChoice (.variant v)
  | variant {v : Variant ι} :
      newtypeField v = none → OneChoice (.fields v.data.fields) → OneChoice (.variant v)

theorem length_extendKeys (bss kss : List (List Tracked)) :
    (extendKeys bss kss).length = bss.length * kss.length := by
  simp [extendKeys, List.length_flatMap]

theorem length_forkKeys_eq_one_iff (repr : EnumRepr) (v : Variant ι) (path : FieldPath)
    (kss : List (List Tracked)) :
    (forkKeys repr v path kss).length = 1 ↔ (repr.Inline → kss.length = 1) := by
  cases repr <;> simp [forkKeys, EnumRepr.Inline]

/-- Lists that are all inhabited make up one element only if there is one of them. -/
theorem length_flatMap_eq_one_iff {α β : Type} {xs : List α} {g : α → List β}
    (hne : ∀ x ∈ xs, g x ≠ []) :
    (xs.flatMap g).length = 1 ↔ ∃ x, xs = [x] ∧ (g x).length = 1 := by
  cases xs with
  | nil => simp
  | cons x xs =>
    have hx := List.length_pos_of_ne_nil (hne x List.mem_cons_self)
    cases xs with
    | nil => simp
    | cons y xs =>
      have hy := List.length_pos_of_ne_nil (hne y (List.mem_cons_of_mem x List.mem_cons_self))
      have hlong : ((x :: y :: xs).flatMap g).length ≠ 1 := by
        simp only [List.flatMap_cons, List.length_append]
        omega
      simpa using hlong

/-- A part has one list of keys exactly when there is one choice for it. -/
theorem ListsKeys.length_eq_one_iff (htypes : FiniteTypes shapes) {part : Part ι} {path : FieldPath}
    {kss : List (List Tracked)} (h : ListsKeys shapes b part path kss) :
    kss.length = 1 ↔ OneChoice shapes b part := by
  induction h with
  | nil => exact iff_of_true rfl .nil
  | plain hf _ ih =>
    rw [length_extendKeys, List.length_singleton, one_mul, ih]
    constructor
    · exact .plain hf
    · intro hone
      cases hone with
      | plain _ hfs => exact hfs
      | flat hf' => exact nomatch hf.symm.trans hf'
  | flat hf _ _ ih₁ ih =>
    rw [length_extendKeys, mul_eq_one, ih₁, ih]
    constructor
    · rintro ⟨hfirst, hrest⟩
      exact .flat hf hfirst hrest
    · intro hone
      cases hone with
      | plain hf' => exact nomatch hf.symm.trans hf'
      | flat _ hfirst hrest => exact ⟨hfirst, hrest⟩
  | struct hunwraps hty _ ih =>
    rw [ih]
    constructor
    · exact .struct hunwraps hty
    · intro hone
      cases hone with
      | struct hunwraps' hty' hfs =>
        obtain ⟨-, rfl⟩ := hunwraps.unique hunwraps'
        cases hty.symm.trans hty'
        exact hfs
      | enum hunwraps' hty' =>
        obtain ⟨-, rfl⟩ := hunwraps.unique hunwraps'
        cases hty.symm.trans hty'
      | leaf hunwraps' hleaf =>
        obtain ⟨-, rfl⟩ := hunwraps.unique hunwraps'
        exact absurd (.inl ⟨_, hty⟩) hleaf
  | @enum f path ws t en css hunwraps hty hcontents ih =>
    have hne : ∀ v ∈ en.variants, forkKeys (b.reprOf shapes t) v
        ((flattenPath path f ws).pushVariant f.name v.name) (css v) ≠ [] :=
      fun v hv => forkKeys_ne_nil fun hinline => (hcontents hinline v hv).ne_nil htypes
    rw [length_flatMap_eq_one_iff hne]
    constructor
    · rintro ⟨v, hvariants, hlength⟩
      rw [length_forkKeys_eq_one_iff] at hlength
      have hv : v ∈ en.variants := hvariants ▸ List.mem_singleton_self v
      exact .enum hunwraps hty hvariants fun hinline => (ih hinline v hv).mp (hlength hinline)
    · intro hone
      cases hone with
      | struct hunwraps' hty' =>
        obtain ⟨-, rfl⟩ := hunwraps.unique hunwraps'
        cases hty.symm.trans hty'
      | @enum _ _ _ _ v hunwraps' hty' hvariants hone =>
        obtain ⟨-, rfl⟩ := hunwraps.unique hunwraps'
        cases hty.symm.trans hty'
        have hv : v ∈ en.variants := hvariants ▸ List.mem_singleton_self v
        refine ⟨v, hvariants, (length_forkKeys_eq_one_iff _ _ _ _).mpr fun hinline => ?_⟩
        exact (ih hinline v hv).mpr (hone hinline)
      | leaf hunwraps' hleaf =>
        obtain ⟨-, rfl⟩ := hunwraps.unique hunwraps'
        exact absurd (.inr ⟨_, hty⟩) hleaf
  | leaf hunwraps hleaf => exact iff_of_true rfl (.leaf hunwraps hleaf)
  | newtype hnew heffective hty _ ih =>
    rw [ih]
    constructor
    · exact .newtype hnew heffective hty
    · intro hone
      cases hone with
      | newtype hnew' heffective' hty' hfs =>
        cases hnew.symm.trans hnew'
        obtain rfl := heffective.unique heffective'
        cases hty.symm.trans hty'
        exact hfs
      | payload hnew' heffective' hty' =>
        cases hnew.symm.trans hnew'
        obtain rfl := heffective.unique heffective'
        exact absurd hty (hty' _)
      | variant hnew' => cases hnew.symm.trans hnew'
  | payload hnew heffective hty _ ih =>
    rw [ih]
    constructor
    · exact .payload hnew heffective hty
    · intro hone
      cases hone with
      | newtype hnew' heffective' hty' =>
        cases hnew.symm.trans hnew'
        obtain rfl := heffective.unique heffective'
        exact absurd hty' (hty _)
      | payload _ _ _ hfs => exact hfs
      | variant hnew' => cases hnew.symm.trans hnew'
  | variant hnew _ ih =>
    rw [ih]
    constructor
    · exact .variant hnew
    · intro hone
      cases hone with
      | newtype hnew' => cases hnew.symm.trans hnew'
      | payload hnew' => cases hnew.symm.trans hnew'
      | variant _ hfs => exact hfs

theorem variantSelectors_path {repr : EnumRepr} {name : String} {path : FieldPath} {k : Tracked}
    (hk : k ∈ variantSelectors repr name path) : k.2 = path := by
  obtain ⟨n, -, rfl⟩ := List.mem_map.mp hk
  rfl

/-- A key of a variant selects it, or is one of its contents. -/
theorem mem_of_mem_forkKeys {repr : EnumRepr} {v : Variant ι} {path : FieldPath}
    {kss : List (List Tracked)} {ks : List Tracked} (hks : ks ∈ forkKeys repr v path kss)
    {k : Tracked} (hk : k ∈ ks) :
    k ∈ variantSelectors repr v.name path ∨ repr.Inline ∧ ∃ ls ∈ kss, k ∈ ls := by
  by_cases hinline : repr.Inline
  · rw [forkKeys_inline hinline] at hks
    obtain ⟨ls, hls, rfl⟩ := List.mem_map.mp hks
    rcases List.mem_append.mp hk with hk | hk
    · exact .inl hk
    · exact .inr ⟨hinline, ls, hls, hk⟩
  · rw [forkKeys_nested hinline, List.mem_singleton] at hks
    rw [hks] at hk
    exact .inl hk

theorem leafTracked_path {f : Field ι} {s : ι} {path : FieldPath} {k : Tracked}
    (hk : k ∈ leafTracked shapes b f s path) : k.2 = path := by
  unfold leafTracked at hk
  split at hk
  · exact absurd hk List.not_mem_nil
  · exact absurd hk List.not_mem_nil
  · rw [List.mem_singleton.mp hk]

theorem ListsKeys.holds {part : Part ι} {path : FieldPath} {kss : List (List Tracked)}
    (h : ListsKeys shapes b part path kss) :
    ∀ ks ∈ kss, ∀ k ∈ ks, Part.Holds path part k.2 := by
  have hunder {f : Field ι} {path q : FieldPath} {ws : List ι}
      (h : flattenPath path f ws <+: q) : Under path f q :=
    (pushField_prefix_flattenPath path f ws).trans h
  induction h with
  | nil =>
    intro ks hks k hk
    rw [List.mem_singleton.mp hks] at hk
    exact absurd hk List.not_mem_nil
  | @plain f fs path kss hf _ ih =>
    intro ks hks k hk
    obtain ⟨as, has, bs, hbs, rfl⟩ := mem_extendKeys.mp hks
    rw [List.mem_singleton.mp has] at hk
    rcases List.mem_append.mp hk with hk | hk
    · rw [List.mem_singleton.mp hk]
      exact ⟨f, List.mem_cons_self, List.prefix_rfl⟩
    · obtain ⟨g, hg, hbelow⟩ := ih bs hbs k hk
      exact ⟨g, List.mem_cons_of_mem f hg, hbelow⟩
  | @flat f fs path kss₁ kss hf _ _ ih₁ ih =>
    intro ks hks k hk
    obtain ⟨as, has, bs, hbs, rfl⟩ := mem_extendKeys.mp hks
    rcases List.mem_append.mp hk with hk | hk
    · exact ⟨f, List.mem_cons_self, ih₁ as has k hk⟩
    · obtain ⟨g, hg, hbelow⟩ := ih bs hbs k hk
      exact ⟨g, List.mem_cons_of_mem f hg, hbelow⟩
  | struct hunwraps hty _ ih =>
    intro ks hks k hk
    obtain ⟨g, -, hg⟩ := ih ks hks k hk
    exact hunder ((List.prefix_append _ _).trans hg)
  | @enum f path ws t en css hunwraps hty hcontents ih =>
    intro ks hks k hk
    obtain ⟨v, hv, hks⟩ := List.mem_flatMap.mp hks
    have hvariant : Under path f ((flattenPath path f ws).pushVariant f.name v.name) :=
      hunder (List.prefix_append _ _)
    rcases mem_of_mem_forkKeys hks hk with hk | ⟨hinline, ls, hls, hk⟩
    · rw [variantSelectors_path hk]
      exact hvariant
    · exact hvariant.trans (ih hinline v hv ls hls k hk).prefix_of
  | leaf hunwraps hleaf =>
    intro ks hks k hk
    rw [List.mem_singleton.mp hks] at hk
    rw [leafTracked_path hk]
    exact hunder List.prefix_rfl
  | newtype hnew heffective hty _ ih =>
    intro ks hks k hk
    obtain ⟨g, -, hg⟩ := ih ks hks k hk
    exact ⟨.field "0", (List.prefix_append _ _).trans hg⟩
  | payload hnew heffective hty _ ih =>
    intro ks hks k hk
    obtain ⟨g, -, hg⟩ := ih ks hks k hk
    exact hg.strictlyBelow
  | variant hnew _ ih =>
    intro ks hks k hk
    obtain ⟨g, -, hg⟩ := ih ks hks k hk
    exact hg.strictlyBelow

/-- The fields before and after one of the fields have keys of their own. -/
theorem ListsKeys.split {before after : List (Field ι)} {f : Field ι} {path : FieldPath}
    {kss : List (List Tracked)} (hflat : f.isFlattened = true)
    (h : ListsKeys shapes b (.fields (before ++ f :: after)) path kss) :
    ∃ ass mss zss, ListsKeys shapes b (.fields before) path ass ∧
      ListsKeys shapes b (.flattened f) path mss ∧ ListsKeys shapes b (.fields after) path zss ∧
      kss = extendKeys ass (extendKeys mss zss) := by
  induction before generalizing kss with
  | nil =>
    cases h with
    | plain hf => exact nomatch hf.symm.trans hflat
    | @flat _ _ _ mss zss _ hfirst hrest =>
      exact ⟨[[]], mss, zss, .nil, hfirst, hrest, (nil_extendKeys _).symm⟩
  | cons g before ih =>
    cases h with
    | plain hg hrest =>
      obtain ⟨ass, mss, zss, hass, hmss, hzss, rfl⟩ := ih hrest
      exact ⟨_, mss, zss, .plain hg hass, hmss, hzss, (extendKeys_assoc _ _ _).symm⟩
    | flat hg hfirst hrest =>
      obtain ⟨ass, mss, zss, hass, hmss, hzss, rfl⟩ := ih hrest
      exact ⟨_, mss, zss, .flat hg hfirst hass, hmss, hzss, (extendKeys_assoc _ _ _).symm⟩

/-- The keys of a struct with one flattened field that has choices. -/
theorem exists_keys_around (htypes : FiniteTypes shapes) {before after : List (Field ι)}
    {f : Field ι} {path : FieldPath} {kss : List (List Tracked)} (hflat : f.isFlattened = true)
    (hbefore : OneChoice shapes b (.fields before)) (hafter : OneChoice shapes b (.fields after))
    (h : ListsKeys shapes b (.fields (before ++ f :: after)) path kss) :
    ∃ as mss zs, ListsKeys shapes b (.fields before) path [as] ∧
      ListsKeys shapes b (.flattened f) path mss ∧ ListsKeys shapes b (.fields after) path [zs] ∧
      kss = mss.map fun ms => as ++ (ms ++ zs) := by
  obtain ⟨ass, mss, zss, hass, hmss, hzss, rfl⟩ := h.split hflat
  obtain ⟨as, rfl⟩ := List.length_eq_one_iff.mp ((hass.length_eq_one_iff htypes).mpr hbefore)
  obtain ⟨zs, rfl⟩ := List.length_eq_one_iff.mp ((hzss.length_eq_one_iff htypes).mpr hafter)
  refine ⟨as, mss, zs, hass, hmss, hzss, ?_⟩
  simp [extendKeys, List.map_eq_flatMap, List.flatMap_assoc]

instance (path : FieldPath) (f : Field ι) (q : FieldPath) : Decidable (Under path f q) :=
  inferInstanceAs (Decidable (_ <+: _))

/-- The names that some resolution requires, of fields that are not below the flattened field. -/
def Schema.requiredOutside (schema : Schema ι) (f : Field ι) : List String :=
  schema.resolutions.flatMap fun r =>
    (r.fields.values.filter fun info => info.required && !decide (Under [] f info.path)).map
      FieldInfo.serializedName

theorem Schema.mem_requiredOutside {schema : Schema ι} {f : Field ι} {name : String} :
    name ∈ schema.requiredOutside f ↔ ∃ r ∈ schema.resolutions, ∃ info ∈ r.fields.values,
      (info.required = true ∧ ¬ Under [] f info.path) ∧ info.serializedName = name := by
  simp [Schema.requiredOutside, and_assoc]

/-- With enough fuel the analysis behind a schema is the same. -/
theorem eventually_analyze_of_intoSchema {n : ℕ} {schema : Schema ι}
    (h : b.intoSchema shapes n = .ok schema) :
    ∀ᶠ m in atTop, b.analyze shapes m = .ok schema.resolutions := by
  have hanalyze := SchemaBuilder.analyze_of_intoSchema shapes n h
  have hends : Ends (b.analyze shapes n) := by
    rw [hanalyze]
    exact .ok _
  filter_upwards [eventually_ge_atTop n] with m hm
  rw [analyze_settles hm hends, hanalyze]

section Struct

variable {st : StructType ι} {f : Field ι} {n : ℕ} {schema : Schema ι}
  (hty : (shapes b.shape).ty = .user (.struct st))
  (hschema : b.intoSchema shapes n = .ok schema)
include hty hschema

/-- The resolutions of a struct have the keys of its choices. -/
theorem tracks_of_intoSchema (htypes : FiniteTypes shapes) :
    ∃ kss, ListsKeys shapes b (.fields st.fields) [] kss ∧
      List.Forall₂ Resolution.Tracks schema.resolutions kss := by
  have hgrounded := GroundedRoot.of_intoSchema htypes hschema
  simp only [GroundedRoot, hty] at hgrounded
  obtain ⟨kss, hkss⟩ := hgrounded.listsKeys []
  obtain ⟨m, hleads, hanalyze⟩ :=
    ((hkss.leads htypes).and ((tendsto_add_atTop_nat 1).eventually
      (eventually_analyze_of_intoSchema hschema))).exists
  have hkeys : HaveKeys kss (b.analyze shapes (m + 1)) := by
    rw [analyze_struct hty]
    exact LeadsTo.struct hleads
  rw [hanalyze] at hkeys
  exact ⟨kss, hkss, hkeys⟩

theorem optional_of_intoSchema (hwell : WellNamed shapes) (hf : f ∈ st.fields)
    (hflat : f.isFlattened = true) (hoption : isOptionType (shapes f.shape) = true) :
    ∀ r ∈ schema.resolutions, ∀ info ∈ r.fields.values, Under [] f info.path →
      info.required = false := by
  obtain ⟨m, hanalyze⟩ := ((tendsto_add_atTop_nat 3).eventually
    (eventually_analyze_of_intoSchema hschema)).exists
  rw [analyze_struct hty] at hanalyze
  have hbelow : ∀ g ∈ st.fields, ∀ info, Contributes shapes [] g info →
      Under [] f info.path → info.required = false := by
    intro g hg info hinfo hunder
    have hsame : g = f :=
      List.inj_on_of_nodup_map (hwell.struct _ st hty) hg hf (hinfo.1.name_eq hunder)
    rw [hsame] at hinfo
    exact hinfo.2 hflat hoption
  have hwithin : AllOf _ (b.analyzeStruct shapes (m + 3) st [] []) := within_struct hwell hbelow
  intro r hr info hinfo
  obtain ⟨key, hkey⟩ := (r.mem_values_iff info).mp hinfo
  exact hwithin _ hanalyze r hr key info hkey

end Struct

variable (shapes) in
/-- No enum is flattened in the part. -/
inductive FlattensNoEnum : Part ι → Prop
  | nil : FlattensNoEnum (.fields [])
  | plain {f : Field ι} {fs : List (Field ι)} : f.isFlattened = false →
      FlattensNoEnum (.fields fs) → FlattensNoEnum (.fields (f :: fs))
  | flat {f : Field ι} {fs : List (Field ι)} : f.isFlattened = true →
      FlattensNoEnum (.flattened f) → FlattensNoEnum (.fields fs) →
      FlattensNoEnum (.fields (f :: fs))
  | struct {f : Field ι} {ws : List ι} {t : ι} {st : StructType ι} :
      Unwraps shapes (flattenStart shapes f) ws t → (shapes t).ty = .user (.struct st) →
      FlattensNoEnum (.fields st.fields) → FlattensNoEnum (.flattened f)
  | leaf {f : Field ι} {ws : List ι} {t : ι} : Unwraps shapes (flattenStart shapes f) ws t →
      ¬ IsAggregate shapes t → FlattensNoEnum (.flattened f)

theorem FlattensNoEnum.oneChoice {part : Part ι} (h : FlattensNoEnum shapes part) :
    OneChoice shapes b part := by
  induction h with
  | nil => exact .nil
  | plain hf _ ih => exact .plain hf ih
  | flat hf _ _ ih₁ ih => exact .flat hf ih₁ ih
  | struct hunwraps hty _ ih => exact .struct hunwraps hty ih
  | leaf hunwraps hleaf => exact .leaf hunwraps hleaf

theorem oneChoice_fields {fs : List (Field ι)}
    (h : ∀ g ∈ fs, g.isFlattened = true → FlattensNoEnum shapes (.flattened g)) :
    OneChoice shapes b (.fields fs) := by
  induction fs with
  | nil => exact .nil
  | cons g fs ih =>
    obtain ⟨hfirst, hrest⟩ := List.forall_mem_cons.mp h
    cases hflat : g.isFlattened with
    | true => exact .flat hflat (hfirst hflat).oneChoice (ih hrest)
    | false => exact .plain hflat (ih hrest)

theorem Resolution.Tracks.exists_info {r : Resolution ι} {ks : List Tracked} (h : r.Tracks ks)
    {k : Tracked} (hk : k ∈ ks) : ∃ info ∈ r.fields.values, info.key = k.1 ∧ info.path = k.2 := by
  obtain ⟨info, hinfo, hpath⟩ := (h.mem_iff k.1 k.2).mpr hk
  exact ⟨info, (r.mem_values_iff info).mpr ⟨k.1, hinfo⟩, h.own _ _ hinfo, hpath⟩

theorem Resolution.Tracks.mem_of_info {r : Resolution ι} {ks : List Tracked} (h : r.Tracks ks)
    {info : FieldInfo ι} (hinfo : info ∈ r.fields.values) : (info.key, info.path) ∈ ks := by
  obtain ⟨key, hkey⟩ := (r.mem_values_iff info).mp hinfo
  rw [h.own key info hkey]
  exact (h.mem_iff key info.path).mp ⟨info, hkey, rfl⟩

section Omitted

variable {st : StructType ι} {f : Field ι} {n : ℕ} {schema : Schema ι}

/-- The resolutions of a struct with one flattened field that has choices are those of the field,
and each has all the keys outside it. -/
theorem exists_choices_of_intoSchema (htypes : FiniteTypes shapes) (hwell : WellNamed shapes)
    (hty : (shapes b.shape).ty = .user (.struct st)) (hf : f ∈ st.fields)
    (hflat : f.isFlattened = true)
    (hothers : ∀ g ∈ st.fields, g ≠ f → g.isFlattened = true →
      FlattensNoEnum shapes (.flattened g))
    (hschema : b.intoSchema shapes n = .ok schema) :
    schema.resolutions ≠ [] ∧
      (schema.resolutions.length = 1 ↔ OneChoice shapes b (.flattened f)) ∧
      ∀ name ∈ schema.requiredOutside f, ∀ r ∈ schema.resolutions,
        ∃ info ∈ r.fields.values, info.serializedName = name := by
  obtain ⟨kss, hkss, htracks⟩ := tracks_of_intoSchema hty hschema htypes
  obtain ⟨before, after, hfields⟩ := List.append_of_mem hf
  have hnames := hwell.struct _ st hty
  rw [hfields] at hkss hothers hnames
  have hnodup : (before ++ f :: after).Nodup := hnames.of_map
  have hfresh : f ∉ before ++ after := (List.nodup_middle.mp hnodup).notMem
  have hother {g : Field ι} (hg : g ∈ before ++ after) (hgflat : g.isFlattened = true) :
      FlattensNoEnum shapes (.flattened g) := by
    apply hothers g _ (fun heq => hfresh (heq ▸ hg)) hgflat
    rcases List.mem_append.mp hg with hg | hg
    · exact List.mem_append_left _ hg
    · exact List.mem_append_right _ (List.mem_cons_of_mem f hg)
  have hbefore : OneChoice shapes b (.fields before) :=
    oneChoice_fields fun g hg => hother (List.mem_append_left _ hg)
  have hafter : OneChoice shapes b (.fields after) :=
    oneChoice_fields fun g hg => hother (List.mem_append_right _ hg)
  obtain ⟨as, mss, zs, has, hmss, hzs, rfl⟩ := exists_keys_around htypes hflat hbefore hafter hkss
  refine ⟨?_, ?_, ?_⟩
  · intro hnil
    rw [hnil, List.forall₂_nil_left_iff, List.map_eq_nil_iff] at htracks
    exact hmss.ne_nil htypes htracks
  · rw [← hmss.length_eq_one_iff htypes, htracks.length_eq, List.length_map]
  · intro name hname r' hr'
    obtain ⟨r, hr, info, hinfo, ⟨-, hout⟩, rfl⟩ := Schema.mem_requiredOutside.mp hname
    obtain ⟨ks, hks, hrks⟩ := exists_of_forall₂_right htracks.flip hr
    obtain ⟨ms, hms, rfl⟩ := List.mem_map.mp hks
    obtain ⟨ks', hks', hrks'⟩ := exists_of_forall₂_right htracks.flip hr'
    obtain ⟨ms', -, rfl⟩ := List.mem_map.mp hks'
    -- the key is not one of the block's, so that it is in every choice
    have hmem : (info.key, info.path) ∈ as ++ (ms' ++ zs) := by
      have hk := hrks.mem_of_info hinfo
      simp only [List.mem_append] at hk ⊢
      rcases hk with hk | hk | hk
      · exact .inl hk
      · exact absurd (hmss.holds ms hms _ hk) hout
      · exact .inr (.inr hk)
    obtain ⟨info', hinfo', hkey, -⟩ := hrks'.exists_info hmem
    exact ⟨info', hinfo', by rw [← info'.key_name, hkey, info.key_name]⟩

variable [DecidableEq ι]

/-- Reporting the required keys outside a flattened option is accepted exactly when there is one
choice for what it holds. -/
theorem omittedBlock_accepted_iff (htypes : FiniteTypes shapes) (hwell : WellNamed shapes)
    (hty : (shapes b.shape).ty = .user (.struct st)) (hf : f ∈ st.fields)
    (hflat : f.isFlattened = true) (hoption : isOptionType (shapes f.shape) = true)
    (hothers : ∀ g ∈ st.fields, g ≠ f → g.isFlattened = true →
      FlattensNoEnum shapes (.flattened g))
    (hschema : b.intoSchema shapes n = .ok schema) (hformat : schema.format = .flat)
    (names : List String) (hnames : ∀ name, name ∈ names ↔ name ∈ schema.requiredOutside f) :
    (∃ r, ((Solver.new schema).seeKeys shapes (names.map .flat)).finish = .ok r) ↔
      OneChoice shapes b (.flattened f) := by
  obtain ⟨hne, hlength, houtside⟩ :=
    exists_choices_of_intoSchema htypes hwell hty hf hflat hothers hschema
  have hoptional := optional_of_intoSchema hty hschema hwell hf hflat hoption
  have hmatch : ∀ r ∈ schema.resolutions, r.RequiredMatch :=
    analyze_requiredMatch hwell (SchemaBuilder.analyze_of_intoSchema shapes n hschema)
  -- every resolution explains the keys, and requires no others
  have haccepts (i : ℕ) :
      schema.Accepts (names.map .flat) i ↔ i < schema.resolutions.length := by
    constructor
    · intro h
      exact h.1.1
    · intro hi
      have hmem : schema.resolutions[i] ∈ schema.resolutions := List.getElem_mem hi
      refine ⟨⟨hi, fun k hk _ => ?_⟩, schema.resolutions[i], List.getElem?_eq_getElem hi, ?_⟩
      · obtain ⟨name, hname, rfl⟩ := List.mem_map.mp hk
        obtain ⟨info, hinfo, hsame⟩ := houtside name ((hnames name).mp hname) _ hmem
        refine ⟨info, ?_, hsame⟩
        simpa [Schema.fieldsOf, List.getElem?_eq_getElem hi] using hinfo
      · intro name hname
        obtain ⟨info, hinfo, hrequired, rfl⟩ := (hmatch _ hmem name).mp hname
        have hout : ¬ Under [] f info.path := by
          intro hunder
          rw [hoptional _ hmem info hinfo hunder] at hrequired
          cases hrequired
        have hreported := (hnames _).mpr
          (Schema.mem_requiredOutside.mpr ⟨_, hmem, info, hinfo, ⟨hrequired, hout⟩, rfl⟩)
        exact ⟨.flat info.serializedName, List.mem_map_of_mem hreported, rfl⟩
  have hpos := List.length_pos_of_ne_nil hne
  have hfinish := (Solver.seeKeys_finish shapes hschema hformat (names.map .flat)
    ⟨0, ((haccepts 0).mpr hpos).1⟩).2.1
  simp only [hfinish, haccepts]
  rw [← hlength]
  constructor
  · rintro ⟨r, hr⟩
    have hfirst := (hr 0).mp hpos
    by_contra hlong
    have hsecond := (hr 1).mp (by omega)
    omega
  · intro hone
    exact ⟨0, fun i => by omega⟩

end Omitted

def jobSource : Field (Fin 4) := { name := "source", shape := 1, flatten := true }

def jobStruct : StructType (Fin 4) := ⟨.struct, [{ name := "name", shape := 3 }, jobSource]⟩

/-- `struct Job { name: String, #[facet(flatten)] source: Option<Source> }` where `Source` has the
variants `Http { url }` and `Git { repo }`. -/
def jobShapes : Shapes (Fin 4) := ![
  { ty := .user (.struct jobStruct), «def» := .undefined },
  { ty := .user (.enum ⟨[{ name := "None", data := ⟨.unit, []⟩ },
      { name := "Some", data := ⟨.tuple, [{ name := "0", shape := 2 }]⟩ }], .rust⟩)
    «def» := .option 2
    inner := some 2 },
  { ty := .user (.enum ⟨[{ name := "Http", data := ⟨.struct, [{ name := "url", shape := 3 }]⟩ },
      { name := "Git", data := ⟨.struct, [{ name := "repo", shape := 3 }]⟩ }], .u8⟩)
    «def» := .undefined
    typeIdentifier := "Source" },
  { ty := .user .opaqueTy, «def» := .scalar, typeIdentifier := "String" }]

/-- What `Schema::build` starts from. -/
def jobBuilder : SchemaBuilder (Fin 4) := { shape := 0, enumRepr := .flattened }

/-- Without a source both variants are left at the end. -/
theorem job_not_accepted : ∃ schema, jobBuilder.intoSchema jobShapes 10 = .ok schema ∧
    (∀ name, name ∈ ["name"] ↔ name ∈ schema.requiredOutside jobSource) ∧
    ¬ ∃ r, ((Solver.new schema).seeKeys jobShapes [.flat "name"]).finish = .ok r := by
  have heval : (jobBuilder.intoSchema jobShapes 10).toOption.any fun schema =>
      schema.requiredOutside jobSource == ["name", "name"] &&
        ((Solver.new schema).seeKeys jobShapes [.flat "name"]).finish.toOption.isNone := by
    decide
  cases hschema : jobBuilder.intoSchema jobShapes 10 with
  | error e => simp [hschema, Except.toOption] at heval
  | ok schema =>
    rw [hschema] at heval
    simp only [Except.toOption, Option.any_some, Bool.and_eq_true, beq_iff_eq] at heval
    refine ⟨schema, rfl, fun name => by simp [heval.1], ?_⟩
    rintro ⟨r, hr⟩
    rw [hr] at heval
    simp at heval

theorem jobShapes_finiteTypes : FiniteTypes jobShapes where
  finite s := by
    have hstring : Finite jobShapes 3 :=
      .intro _ fun t ⟨f, hf, _⟩ => absurd hf List.not_mem_nil
    have hsource : Finite jobShapes 2 := by
      constructor
      rintro t ⟨f, hf, rfl⟩
      rcases List.mem_pair.mp hf with rfl | rfl <;> exact hstring
    have hoption : Finite jobShapes 1 := by
      constructor
      rintro t ⟨f, hf, rfl⟩
      rw [List.mem_singleton.mp hf]
      exact hsource
    have hjob : Finite jobShapes 0 := by
      constructor
      rintro t ⟨f, hf, rfl⟩
      rcases List.mem_pair.mp hf with rfl | rfl
      · exact hstring
      · exact hoption
    fin_cases s
    · exact hjob
    · exact hoption
    · exact hsource
    · exact hstring
  variants s en hty := by
    fin_cases s <;> cases hty <;> exact List.cons_ne_nil _ _

theorem jobShapes_wellNamed : WellNamed jobShapes where
  struct s st hty := by
    fin_cases s <;> cases hty
    decide
  variant s en hty v hv := by
    fin_cases s <;> cases hty <;> rcases List.mem_pair.mp hv with rfl | rfl <;> decide

theorem omittedBlock_accepted_iff_job : ∃ schema,
    jobBuilder.intoSchema jobShapes 10 = .ok schema ∧
    ((∃ r, ((Solver.new schema).seeKeys jobShapes
      ((schema.requiredOutside jobSource).map .flat)).finish = .ok r) ↔
      OneChoice jobShapes jobBuilder (.flattened jobSource)) := by
  have heval : (jobBuilder.intoSchema jobShapes 10).toOption.any fun schema =>
      decide (schema.format = .flat) := by decide
  cases hschema : jobBuilder.intoSchema jobShapes 10 with
  | error e => simp [hschema, Except.toOption] at heval
  | ok schema =>
    have hformat : schema.format = .flat := by simpa [hschema, Except.toOption] using heval
    have hothers : ∀ g ∈ jobStruct.fields, g ≠ jobSource → g.isFlattened = true →
        FlattensNoEnum jobShapes (.flattened g) := by
      intro g hg hne hgflat
      rcases List.mem_pair.mp hg with rfl | rfl
      · cases hgflat
      · exact absurd rfl hne
    exact ⟨schema, rfl, omittedBlock_accepted_iff jobShapes_finiteTypes jobShapes_wellNamed rfl
      (List.mem_cons_of_mem _ List.mem_cons_self) rfl rfl hothers hschema hformat _
      fun name => Iff.rfl⟩

end Facet.Flatten
