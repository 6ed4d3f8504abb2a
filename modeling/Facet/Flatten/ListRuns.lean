import Facet.Flatten.MixedFields

/-!
# Runs on flattened lists

A resolution asks for exactly one variant of each flattened list. Reporting the keys of a value is
decided by which variants they name, and by the first of them that is not an ordinary field.
-/

namespace Facet.Flatten

variable {ι : Type} {shapes : Shapes ι} {b : SchemaBuilder ι} {fs : List (Field ι)}

theorem existsUnique_index_iff {α : Type} {xs : List α} (hxs : xs.Nodup) {P : α → Prop} :
    (∃ i : ℕ, ∀ j : ℕ, (∃ x, xs[j]? = some x ∧ P x) ↔ j = i) ↔ ∃! x, x ∈ xs ∧ P x := by
  constructor
  · rintro ⟨i, hi⟩
    obtain ⟨x, hx, hPx⟩ := (hi i).mpr rfl
    refine ⟨x, ⟨List.mem_of_getElem? hx, hPx⟩, ?_⟩
    rintro y ⟨hy, hPy⟩
    obtain ⟨j, hj⟩ := List.mem_iff_getElem?.mp hy
    obtain rfl := (hi j).mp ⟨y, hj, hPy⟩
    exact Option.some.inj (hj.symm.trans hx)
  · rintro ⟨x, ⟨hx, hPx⟩, hunique⟩
    obtain ⟨i, hi⟩ := List.mem_iff_getElem?.mp hx
    refine ⟨i, fun j => ⟨?_, ?_⟩⟩
    · rintro ⟨y, hy, hPy⟩
      obtain rfl := hunique y ⟨List.mem_of_getElem? hy, hPy⟩
      obtain ⟨hlt, -⟩ := List.getElem?_eq_some_iff.mp hi
      exact ((List.getElem?_inj hlt hxs).mp (hi.trans hy.symm)).symm
    · rintro rfl
      exact ⟨x, hi, hPx⟩

theorem getElem?_of_forall₂ {α β : Type} {R : α → β → Prop} {xs : List α} {ys : List β}
    (h : List.Forall₂ R xs ys) (i : ℕ) :
    (xs[i]? = none ∧ ys[i]? = none) ∨ ∃ x y, xs[i]? = some x ∧ ys[i]? = some y ∧ R x y := by
  induction h generalizing i with
  | nil => exact .inl ⟨rfl, rfl⟩
  | @cons x y xs ys hxy _ ih =>
    cases i with
    | zero => exact .inr ⟨x, y, rfl, rfl, hxy⟩
    | succ i => exact ih i

theorem Resolution.Records.mem_values_iff {r : Resolution ι} {c : List (FieldInfo ι)}
    (h : r.Records c) (info : FieldInfo ι) : info ∈ r.fields.values ↔ info ∈ c := by
  rw [r.mem_values_iff]
  simp [h.fields]

theorem Schema.ContainsAll.upTo {schema : Schema ι} {pre post : List String} {name : String} {i : ℕ}
    (h : schema.ContainsAll ((pre ++ name :: post).map .flat) i) :
    schema.ContainsAll ((pre ++ [name]).map .flat) i := by
  refine ⟨h.1, fun k hk => h.2 k ?_⟩
  rw [← List.singleton_append, ← List.append_assoc, List.map_append]
  exact List.mem_append_left _ hk

/-- A schema whose resolutions record the choices for lists of enums. -/
structure ListSchema (shapes : Shapes ι) (b : SchemaBuilder ι) (fs : List (Field ι))
    (schema : Schema ι) : Prop where
  built : schema = Schema.ofResolutions schema.shape schema.format schema.resolutions
  format : schema.format = .flat
  builderFormat : b.format = .flat
  records : List.Forall₂ Resolution.Records schema.resolutions (fieldChoices shapes b fs)
  lists : FlattensEnumLists shapes fs
  names : (fs.map Field.name).Nodup
  types : FiniteTypes shapes
  variants : DistinctVariants shapes

namespace ListSchema

variable {schema : Schema ι} (h : ListSchema shapes b fs schema)
include h

theorem nodup : fs.Nodup := h.names.of_map

theorem nodup_choices : (fieldChoices shapes b fs).Nodup := by
  apply nodup_foldl_appendEach (List.nodup_singleton _)
  intro xs hxs
  obtain ⟨f, -, rfl⟩ := List.mem_map.mp hxs
  by_cases hf : f.isFlattened = true
  · rw [fieldInfos, if_pos hf]
    apply (nodup_listVariants h.variants f).of_map.map_on
    intro u hu v hv heq
    exact List.inj_on_of_nodup_map (nodup_listVariants h.variants f) hu hv
      (congrArg FieldInfo.serializedName heq)
  · rw [fieldInfos_plain hf]
    exact List.nodup_singleton _

/-- Two lists with a variant name in common would be in conflict. -/
theorem distinctLists : DistinctLists shapes fs := by
  intro f hf g hg hfflat hgflat u hu v hv hname
  by_contra hne
  have hi := (mem_fieldInfos_list (b := b) hfflat).mpr ⟨u, hu, rfl⟩
  have hj := (mem_fieldInfos_list (b := b) hgflat).mpr ⟨v, hv, rfl⟩
  obtain ⟨c, hc, hic, hjc⟩ := exists_choice_of_mem₂ h.lists h.types hf hg hne hi hj
  obtain ⟨r, -, hr⟩ := exists_of_forall₂_right h.records hc
  have heq := hr.eq_of_key_eq hic hjc (congrArg (FieldKey.dom .element) hname)
  have hunder : Under [] g (listSelector shapes f u).path := heq ▸ under_of_mem_fieldInfos hj
  exact hne (eq_of_under h.names hf hg (under_of_mem_fieldInfos hi) hunder)

theorem contains_iff (i : ℕ) (name : String) : schema.Contains i name ↔
    ∃ c, (fieldChoices shapes b fs)[i]? = some c ∧ HasName c name := by
  unfold Schema.Contains Schema.fieldsOf
  rcases getElem?_of_forall₂ h.records i with ⟨hr, hc⟩ | ⟨r, c, hr, hc, hrec⟩
  · simp [hr, hc]
  · simp [hr, hc, hrec.mem_values_iff, HasName]

theorem indexed : schema.FlatIndexed := ⟨h.format, schema.fieldIndex_represents h.built⟩

theorem indexed_iff (name : String) : schema.Indexed name ↔ KnownName shapes fs name := by
  rw [h.indexed.indexed_iff]
  constructor
  · rintro ⟨i, hi⟩
    obtain ⟨c, hc, j, hj, rfl⟩ := (h.contains_iff i name).mp hi
    obtain ⟨f, hf, hjf⟩ := exists_field_of_member (List.mem_of_getElem? hc) hj
    by_cases hflat : f.isFlattened = true
    · obtain ⟨v, hv, rfl⟩ := (mem_fieldInfos_list hflat).mp hjf
      exact .inr ⟨f, hf, hflat, v, hv, rfl⟩
    · rw [fieldInfos_plain hflat, List.mem_singleton] at hjf
      subst hjf
      exact .inl ⟨f, hf, by simpa using hflat, rfl⟩
  · intro hknown
    obtain ⟨c, hc, hname⟩ : ∃ c ∈ fieldChoices shapes b fs, HasName c name := by
      rcases hknown with hordinary | ⟨f, hf, hflat, v, hv, rfl⟩
      · obtain ⟨c, hc⟩ := List.exists_mem_of_ne_nil _ (fieldChoices_ne_nil (b := b) h.lists h.types)
        exact ⟨c, hc, hasName_of_ordinary hc hordinary⟩
      · have hi := (mem_fieldInfos_list (b := b) hflat).mpr ⟨v, hv, rfl⟩
        obtain ⟨c, hc, hic⟩ := exists_choice_of_mem h.lists h.types hf hi
        exact ⟨c, hc, _, hic, rfl⟩
    obtain ⟨i, hi⟩ := List.mem_iff_getElem?.mp hc
    exact ⟨i, (h.contains_iff i name).mpr ⟨c, hi, hname⟩⟩

theorem containsAll_iff {names : List String}
    (hknown : ∀ name ∈ names, KnownName shapes fs name) (i : ℕ) :
    schema.ContainsAll (names.map .flat) i ↔
      ∃ c, (fieldChoices shapes b fs)[i]? = some c ∧ ∀ name ∈ names, HasName c name := by
  have hlength : schema.resolutions.length = (fieldChoices shapes b fs).length :=
    h.records.length_eq
  have hmap : schema.ContainsAll (names.map .flat) i ↔
      i < schema.resolutions.length ∧ ∀ name ∈ names, schema.Contains i name := by
    apply and_congr_right
    intro _
    rw [List.forall_mem_map]
    exact forall₂_congr fun name hname => forall_prop_of_true ((h.indexed_iff name).mpr (hknown name hname))
  rw [hmap, hlength]
  constructor
  · rintro ⟨hlt, hall⟩
    refine ⟨_, List.getElem?_eq_getElem hlt, fun name hname => ?_⟩
    obtain ⟨c, hc, hhas⟩ := (h.contains_iff i name).mp (hall name hname)
    rw [List.getElem?_eq_getElem hlt] at hc
    rwa [Option.some.inj hc]
  · rintro ⟨c, hc, hall⟩
    obtain ⟨hlt, -⟩ := List.getElem?_eq_some_iff.mp hc
    exact ⟨hlt, fun name hname => (h.contains_iff i name).mpr ⟨c, hc, hall name hname⟩⟩

theorem requiredIn_iff (names : List String) (i : ℕ) :
    schema.RequiredIn (names.map .flat) i ↔ ∃ c, (fieldChoices shapes b fs)[i]? = some c ∧
      ∀ info ∈ c, info.required = true → info.serializedName ∈ names := by
  unfold Schema.RequiredIn
  rcases getElem?_of_forall₂ h.records i with ⟨hr, hc⟩ | ⟨r, c, hr, hc, hrec⟩
  · simp [hr, hc]
  · simp only [hr, hc, Option.some.injEq, exists_eq_left', List.mem_map, exists_exists_and_eq_and,
      FieldKey.name, exists_eq_right, hrec.required]
    constructor
    · exact fun hall info hinfo hrequired => hall _ ⟨info, hinfo, hrequired, rfl⟩
    · rintro hall name ⟨info, hinfo, hrequired, rfl⟩
      exact hall info hinfo hrequired

theorem accepts_iff {names : List String} (hknown : ∀ name ∈ names, KnownName shapes fs name)
    (i : ℕ) : schema.Accepts (names.map .flat) i ↔ ∃ c, (fieldChoices shapes b fs)[i]? = some c ∧
      (∀ name ∈ names, HasName c name) ∧
        ∀ info ∈ c, info.required = true → info.serializedName ∈ names := by
  rw [Schema.Accepts, h.containsAll_iff hknown, h.requiredIn_iff]
  constructor
  · rintro ⟨⟨c, hc, hnames⟩, d, hd, hrequired⟩
    obtain rfl := Option.some.inj (hc.symm.trans hd)
    exact ⟨c, hc, hnames, hrequired⟩
  · rintro ⟨c, hc, hnames, hrequired⟩
    exact ⟨⟨c, hc, hnames⟩, c, hc, hrequired⟩

section Answers

variable [DecidableEq ι] {s : Solver ι}

omit [DecidableEq ι] in
theorem lookedUp_iff (name : String) (i : ℕ) :
    schema.LookedUp (.flat name) i ↔ schema.Contains i name := by
  simp [Schema.LookedUp, Schema.HasMatch, Schema.Matches, h.format, Schema.Contains, FieldKey.name]

omit [DecidableEq ι] in
/-- A list's variants are stored as elements, so only an ordinary field is found under its name. -/
theorem storedShape_iff (hschema : s.schema = schema)
    (hsome : ∃ i ∈ s.candidates, i < schema.resolutions.length) (name : String) :
    (∃ sh, s.StoredShape (.flat name) sh) ↔ Ordinary fs name := by
  constructor
  · rintro ⟨sh, i, hi, config, hconfig, info, hinfo, -⟩
    rw [hschema] at hconfig
    rcases getElem?_of_forall₂ h.records i with ⟨hr, -⟩ | ⟨r, c, hr, hc, hrec⟩
    · simp [hr] at hconfig
    · obtain rfl := Option.some.inj (hr.symm.trans hconfig)
      obtain ⟨hmem, hkey⟩ := (hrec.fields _ info).mp hinfo
      obtain ⟨f, hf, hif⟩ := exists_field_of_member (List.mem_of_getElem? hc) hmem
      by_cases hflat : f.isFlattened = true
      · obtain ⟨v, -, rfl⟩ := (mem_fieldInfos_list hflat).mp hif
        exact absurd hkey (by simp [listSelector, SchemaBuilder.selectorField, FieldInfo.key])
      · rw [fieldInfos_plain hflat, List.mem_singleton] at hif
        subst hif
        refine ⟨f, hf, by simpa using hflat, ?_⟩
        simpa [fieldKeyInfo, FieldInfo.key, SchemaBuilder.category, h.builderFormat] using hkey
  · rintro ⟨f, hf, hplain, rfl⟩
    obtain ⟨i, hi, hlt⟩ := hsome
    rcases getElem?_of_forall₂ h.records i with ⟨hr, -⟩ | ⟨r, c, hr, hc, hrec⟩
    · exact absurd hlt (by simpa using hr)
    · obtain ⟨info, hinfo, hif⟩ := exists_member (List.mem_of_getElem? hc) hf
      rw [fieldInfos_plain (by simp [hplain]), List.mem_singleton] at hif
      refine ⟨info.valueShape, i, hi, r, by rw [hschema]; exact hr, info, ?_, rfl⟩
      rw [hrec.fields]
      refine ⟨hinfo, ?_⟩
      rw [hif]
      simp [fieldKeyInfo, FieldInfo.key, SchemaBuilder.category, h.builderFormat]

/-- A name is known when it is found and either it is an ordinary field's or it decides. -/
theorem seeKey_ne_unknown_iff {keys : List FieldKey} (hinv : Solver.RunInv schema s keys)
    (name : String) : (s.seeKey shapes name).1 ≠ .unknown ↔
      (∃ i, schema.ContainsAll keys i ∧ schema.Contains i name) ∧
        (Ordinary fs name ∨
          ∃ idx, ∀ i, (schema.ContainsAll keys i ∧ schema.Contains i name) ↔ i = idx) := by
  have hwf : Solver.WellFormed schema s := ⟨hinv.schema_eq, hinv.valid⟩
  unfold Solver.seeKey
  by_cases hfound : ∃ i ∈ s.candidates, schema.LookedUp (.flat name) i
  · obtain ⟨hanswer, hcandidates⟩ := Solver.seeKeyInternal_of_found shapes h.built hwf _ hfound
    have hwf' := hwf.seeKey shapes h.built (.flat name)
    have hsome : ∃ i, schema.ContainsAll keys i ∧ schema.Contains i name := by
      obtain ⟨i, hi, hlooked⟩ := hfound
      exact ⟨i, (hinv.mem i).mp hi, (h.lookedUp_iff name i).mp hlooked⟩
    rw [and_iff_right hsome, hanswer]
    generalize (s.seeKeyInternal shapes (.flat name)).2 = t at hcandidates hwf'
    have hmem (i : ℕ) : i ∈ t.candidates ↔ schema.ContainsAll keys i ∧ schema.Contains i name := by
      rw [hcandidates, hinv.mem, h.lookedUp_iff]
    simp only [← hmem]
    by_cases hsingle : ∃ idx, ∀ i, i ∈ t.candidates ↔ i = idx
    · obtain ⟨idx, hidx⟩ := hsingle
      rw [Solver.classify_of_single shapes hwf'.valid _ hidx]
      exact iff_of_true (fun hunknown => nomatch hunknown) (.inr ⟨idx, hidx⟩)
    · obtain ⟨-, htyped, -⟩ := Solver.classify_of_many shapes hwf'.valid (.flat name) hsingle
      obtain ⟨-, hstored⟩ := t.uniqueFields_shapes (.flat name)
      have hknown : t.classify shapes (.flat name) ≠ .unknown ↔
          (t.classify shapes (.flat name)).Typed := by
        cases hclass : t.classify shapes (.flat name) with
        | unambiguous => simp [KeyResult.Typed]
        | ambiguous => simp [KeyResult.Typed]
        | solved idx => exact absurd hclass ((Solver.classify_of_many shapes hwf'.valid _ hsingle).2.2 idx)
        | unknown => simp [KeyResult.Typed]
      obtain ⟨i, hi⟩ := hsome
      have hsome' : ∃ i ∈ t.candidates, i < schema.resolutions.length :=
        ⟨i, (hmem i).mpr hi, hi.1.1⟩
      rw [or_iff_left hsingle, hknown, htyped, ← h.storedShape_iff hwf'.schema_eq hsome' name]
      simp only [← hstored]
      constructor
      · intro hne
        obtain ⟨info, hinfo⟩ := List.exists_mem_of_ne_nil _ hne
        exact ⟨_, List.mem_map_of_mem hinfo⟩
      · rintro ⟨sh, hsh⟩ hnil
        rw [hnil] at hsh
        exact absurd hsh List.not_mem_nil
  · have hmiss : ∀ i ∈ s.candidates, ¬ schema.LookedUp (.flat name) i :=
      fun i hi hlooked => hfound ⟨i, hi, hlooked⟩
    obtain ⟨hunknown, -⟩ := Solver.seeKeyInternal_of_missed shapes h.built hwf _ hmiss
    refine iff_of_false (fun hne => hne hunknown) ?_
    rintro ⟨⟨i, hall, hcontains⟩, -⟩
    exact hmiss i ((hinv.mem i).mpr hall) ((h.lookedUp_iff name i).mpr hcontains)

omit [DecidableEq ι] in
theorem containsAll_concat {name : String} (hknown : KnownName shapes fs name)
    (pre : List String) (i : ℕ) : schema.ContainsAll ((pre ++ [name]).map .flat) i ↔
      schema.ContainsAll (pre.map .flat) i ∧ schema.Contains i name := by
  have hindexed := (h.indexed_iff name).mpr hknown
  simp only [Schema.ContainsAll, List.map_append, List.mem_append, List.map_cons, List.map_nil,
    List.mem_singleton, or_imp, forall_and, forall_eq, FieldKey.name, and_assoc,
    forall_prop_of_true hindexed]

omit [DecidableEq ι] in
theorem known_of_contains {i : ℕ} {name : String} (hcontains : schema.Contains i name) :
    KnownName shapes fs name :=
  (h.indexed_iff name).mp ((h.indexed.indexed_iff name).mpr ⟨i, hcontains⟩)

theorem runInv {keys : List FieldKey} (hsome : ∃ r, schema.ContainsAll keys r) :
    Solver.RunInv schema ((Solver.new schema).seeKeys shapes keys) keys := by
  obtain ⟨r, hr⟩ := hsome
  have hstart : r ∈ (Solver.new schema).candidates := (ResolutionSet.mem_full _ r).mpr hr.1
  have hrun := (Solver.RunInv.new schema).seeKeys shapes h.indexed hstart hr.2
  rwa [List.nil_append] at hrun

omit [DecidableEq ι] in
theorem exists_resolution : ∃ r, schema.ContainsAll [] r := by
  have hne := fieldChoices_ne_nil (b := b) h.lists h.types
  rw [← List.length_pos_iff, ← h.records.length_eq] at hne
  exact ⟨0, hne, fun k hk => absurd hk List.not_mem_nil⟩

/-- No name is answered with `unknown` exactly when one resolution has them all and each name that
is not ordinary leaves over only one. -/
theorem neverUnknown_iff (names : List String) :
    (∀ pre name post, names = pre ++ name :: post →
      (((Solver.new schema).seeKeys shapes (pre.map .flat)).seeKey shapes name).1 ≠ .unknown) ↔
    (∀ name ∈ names, KnownName shapes fs name) ∧ (∃ r, schema.ContainsAll (names.map .flat) r) ∧
      ∀ pre name post, names = pre ++ name :: post → Ordinary fs name ∨
        ∃ idx, ∀ i, schema.ContainsAll ((pre ++ [name]).map .flat) i ↔ i = idx := by
  constructor
  · intro hanswers
    -- along the run some resolution contains what has been reported
    have hrun : ∀ pre post, names = pre ++ post → (∃ r, schema.ContainsAll (pre.map .flat) r) ∧
        ∀ name ∈ pre, KnownName shapes fs name := by
      intro pre
      induction pre using List.reverseRecOn with
      | nil => exact fun _ _ => ⟨h.exists_resolution, fun name hname => absurd hname List.not_mem_nil⟩
      | append_singleton pre name ih =>
        intro post hsplit
        rw [List.append_assoc, List.singleton_append] at hsplit
        obtain ⟨hsome, hknown⟩ := ih _ hsplit
        obtain ⟨⟨i, hall, hcontains⟩, -⟩ :=
          (h.seeKey_ne_unknown_iff (h.runInv hsome) name).mp (hanswers pre name post hsplit)
        have hname := h.known_of_contains hcontains
        refine ⟨⟨i, (h.containsAll_concat hname pre i).mpr ⟨hall, hcontains⟩⟩, ?_⟩
        intro other hother
        rcases List.mem_append.mp hother with hother | hother
        · exact hknown other hother
        · rwa [List.mem_singleton.mp hother]
    obtain ⟨hsome, hknown⟩ := hrun names [] (by simp)
    refine ⟨hknown, hsome, fun pre name post hsplit => ?_⟩
    obtain ⟨-, hdecides⟩ := (h.seeKey_ne_unknown_iff (h.runInv (hrun pre _ hsplit).1) name).mp
      (hanswers pre name post hsplit)
    have hname : KnownName shapes fs name := hknown name (by simp [hsplit])
    simpa only [h.containsAll_concat hname] using hdecides
  · rintro ⟨hknown, ⟨r, hr⟩, hdecides⟩ pre name post hsplit
    have hname : KnownName shapes fs name := hknown name (by simp [hsplit])
    rw [hsplit] at hr
    have hsome : schema.ContainsAll ((pre ++ [name]).map .flat) r := hr.upTo
    have hboth := (h.containsAll_concat hname pre r).mp hsome
    rw [h.seeKey_ne_unknown_iff (h.runInv ⟨r, hboth.1⟩)]
    refine ⟨⟨r, hboth⟩, ?_⟩
    simpa only [h.containsAll_concat hname] using hdecides pre name post hsplit

end Answers

end ListSchema

variable (shapes) in
/-- The reported names leave one variant for each list, and the first that is not ordinary leaves no
choice for the other lists. -/
structure ListsDecided (fs : List (Field ι)) (names : List String) : Prop where
  known : ∀ name ∈ names, KnownName shapes fs name
  required : ∀ f ∈ fs, f.isFlattened = false → f.hasDefault = false →
    isOptionType (shapes f.shape) = false → f.effectiveName ∈ names
  one : ∀ f ∈ fs, f.isFlattened = true →
    ∃! v, v ∈ listVariants shapes f ∧ v.name ∈ names ∧ Allows shapes fs names f v.name
  first : ∀ pre name post, names = pre ++ name :: post → (∀ other ∈ pre, Ordinary fs other) →
    ¬ Ordinary fs name → ∀ f ∈ fs, f.isFlattened = true →
      (∀ v ∈ listVariants shapes f, v.name ≠ name) → ∃ v, listVariants shapes f = [v]

/-- Every name is answered with something else than `unknown`, and `finish` returns a resolution. -/
def Schema.AnswersAll [DecidableEq ι] (shapes : Shapes ι) (schema : Schema ι)
    (names : List String) : Prop :=
  (∀ pre name post, names = pre ++ name :: post →
    (((Solver.new schema).seeKeys shapes (pre.map .flat)).seeKey shapes name).1 ≠ .unknown) ∧
  ∃ idx, ((Solver.new schema).seeKeys shapes (names.map .flat)).finish = .ok idx

theorem exists_eq_singleton_iff {α : Type} {xs : List α} (hxs : xs.Nodup) :
    (∃ x, xs = [x]) ↔ ∃! x, x ∈ xs := by
  constructor
  · rintro ⟨x, rfl⟩
    exact ⟨x, List.mem_singleton_self x, fun y hy => List.mem_singleton.mp hy⟩
  · rintro ⟨x, hx, hunique⟩
    refine ⟨x, List.perm_singleton.mp ?_⟩
    rw [List.perm_ext_iff_of_nodup hxs (List.nodup_singleton x)]
    intro y
    rw [List.mem_singleton]
    exact ⟨hunique y, fun hy => hy ▸ hx⟩

theorem exists_first {α : Type} {P : α → Prop} {xs : List α} (h : ∃ x ∈ xs, ¬ P x) :
    ∃ pre x post, xs = pre ++ x :: post ∧ (∀ y ∈ pre, P y) ∧ ¬ P x := by
  induction xs with
  | nil => simp at h
  | cons x xs ih =>
    by_cases hx : P x
    · have hrest : ∃ y ∈ xs, ¬ P y := by
        obtain ⟨y, hy, hPy⟩ := h
        rcases List.mem_cons.mp hy with rfl | hy
        · exact absurd hx hPy
        · exact ⟨y, hy, hPy⟩
      obtain ⟨pre, y, post, rfl, hpre, hy⟩ := ih hrest
      refine ⟨x :: pre, y, post, rfl, ?_, hy⟩
      exact List.forall_mem_cons.mpr ⟨hx, hpre⟩
    · exact ⟨[], x, xs, rfl, fun y hy => absurd hy List.not_mem_nil, hx⟩

namespace ListSchema

variable {schema : Schema ι} (h : ListSchema shapes b fs schema) {names : List String}
include h

/-- A single resolution has the names exactly when each list has a single variant they allow. -/
theorem existsUnique_containsAll_iff (hknown : ∀ name ∈ names, KnownName shapes fs name) :
    (∃ idx, ∀ i, schema.ContainsAll (names.map .flat) i ↔ i = idx) ↔
      ∀ f ∈ fs, f.isFlattened = true →
        ∃! v, v ∈ listVariants shapes f ∧ Allows shapes fs names f v.name := by
  simp only [h.containsAll_iff hknown]
  rw [existsUnique_index_iff h.nodup_choices]
  exact existsUnique_named_iff h.nodup h.distinctLists h.variants hknown

/-- Among the variants of a list, a first name that is not ordinary leaves one. -/
theorem existsUnique_first_iff {pre : List String} (hpre : ∀ other ∈ pre, Ordinary fs other)
    {name : String} (hname : ¬ Ordinary fs name) (f : Field ι) :
    (∃! v, v ∈ listVariants shapes f ∧ Allows shapes fs (pre ++ [name]) f v.name) ↔
      ((∀ v ∈ listVariants shapes f, v.name ≠ name) → ∃ v, listVariants shapes f = [v]) := by
  have hnodup := nodup_listVariants h.variants f
  have hallows (n : String) : Allows shapes fs (pre ++ [name]) f n ↔
      ∀ u ∈ listVariants shapes f, u.name = name → u.name = n := by
    constructor
    · rintro hall u hu rfl
      exact hall u hu (by simp) hname
    · intro hall u hu hmem hordinary
      rcases List.mem_append.mp hmem with hmem | hmem
      · exact absurd (hpre _ hmem) hordinary
      · exact hall u hu (List.mem_singleton.mp hmem)
  simp only [hallows, exists_eq_singleton_iff hnodup.of_map]
  by_cases hsome : ∃ u ∈ listVariants shapes f, u.name = name
  · obtain ⟨u, hu, rfl⟩ := hsome
    refine iff_of_true ⟨u, ⟨hu, fun _ _ heq => heq⟩, ?_⟩ (fun hno => absurd rfl (hno u hu))
    rintro v ⟨hv, hall⟩
    exact List.inj_on_of_nodup_map hnodup hv hu (hall u hu rfl).symm
  · push Not at hsome
    rw [forall_prop_of_true hsome]
    apply existsUnique_congr
    intro v
    exact and_iff_left fun u hu heq => absurd heq (hsome u hu)

variable [DecidableEq ι]

theorem finish_iff (hknown : ∀ name ∈ names, KnownName shapes fs name)
    (hsome : ∃ r, schema.ContainsAll (names.map .flat) r) :
    (∃ idx, ((Solver.new schema).seeKeys shapes (names.map .flat)).finish = .ok idx) ↔
      ∃! c, c ∈ fieldChoices shapes b fs ∧ (∀ name ∈ names, HasName c name) ∧
        ∀ i ∈ c, i.required = true → i.serializedName ∈ names := by
  have hinv := h.runInv hsome
  rw [← existsUnique_index_iff h.nodup_choices]
  apply exists_congr
  intro idx
  rw [Solver.finish_ok_iff hinv.valid, Solver.eq_singleton_iff_of_nodup (Solver.viable_nodup _)]
  simp only [hinv.mem_viable, h.accepts_iff hknown]

/-- All names are answered and the run ends well exactly when the names decide. -/
theorem answersAll_iff : schema.AnswersAll shapes names ↔ ListsDecided shapes fs names := by
  unfold Schema.AnswersAll
  rw [h.neverUnknown_iff]
  constructor
  · rintro ⟨⟨hknown, hsome, hdecides⟩, hfinish⟩
    rw [h.finish_iff hknown hsome,
      existsUnique_accepted_iff h.nodup h.distinctLists h.variants hknown] at hfinish
    refine ⟨hknown, hfinish.1, hfinish.2, ?_⟩
    intro pre name post hsplit hpre hname f hf hflat
    have hsub : ∀ other ∈ pre ++ [name], KnownName shapes fs other := by
      intro other hother
      apply hknown
      rw [hsplit, ← List.singleton_append, ← List.append_assoc]
      exact List.mem_append_left _ hother
    rcases hdecides pre name post hsplit with hordinary | hunique
    · exact absurd hordinary hname
    · rw [h.existsUnique_containsAll_iff hsub] at hunique
      exact (h.existsUnique_first_iff hpre hname f).mp (hunique f hf hflat)
  · intro hdecided
    have haccepted : ∃! c, c ∈ fieldChoices shapes b fs ∧ (∀ name ∈ names, HasName c name) ∧
        ∀ i ∈ c, i.required = true → i.serializedName ∈ names :=
      (existsUnique_accepted_iff h.nodup h.distinctLists h.variants hdecided.known).mpr
        ⟨hdecided.required, hdecided.one⟩
    have hsome : ∃ r, schema.ContainsAll (names.map .flat) r := by
      obtain ⟨c, ⟨hc, hall, -⟩, -⟩ := haccepted
      obtain ⟨r, hr⟩ := List.mem_iff_getElem?.mp hc
      exact ⟨r, (h.containsAll_iff hdecided.known r).mpr ⟨c, hr, hall⟩⟩
    refine ⟨⟨hdecided.known, hsome, ?_⟩, (h.finish_iff hdecided.known hsome).mpr haccepted⟩
    intro pre name post hsplit
    by_cases hname : Ordinary fs name
    · exact .inl hname
    · right
      obtain ⟨first, n, rest, hfirst, hpre, hn⟩ :=
        exists_first ⟨name, List.mem_append_right pre (List.mem_singleton_self name), hname⟩
      have hnames : names = first ++ n :: (rest ++ post) := by
        calc names = (pre ++ [name]) ++ post := by simp [hsplit]
          _ = first ++ n :: (rest ++ post) := by simp [hfirst]
      have hsub : ∀ other ∈ first ++ [n], KnownName shapes fs other := by
        intro other hother
        apply hdecided.known
        rw [hnames, ← List.singleton_append, ← List.append_assoc]
        exact List.mem_append_left _ hother
      obtain ⟨idx, hidx⟩ := (h.existsUnique_containsAll_iff hsub).mpr fun f hf hflat =>
        (h.existsUnique_first_iff hpre hn f).mpr (hdecided.first first n _ hnames hpre hn f hf hflat)
      -- what is left over after the first such name is what is left over in the end
      have hshorter {i : ℕ} (hi : schema.ContainsAll ((pre ++ [name]).map .flat) i) : i = idx := by
        rw [hfirst] at hi
        exact (hidx i).mp hi.upTo
      obtain ⟨r, hr⟩ := hsome
      rw [hsplit] at hr
      have hr' : schema.ContainsAll ((pre ++ [name]).map .flat) r := hr.upTo
      refine ⟨idx, fun i => ⟨hshorter, ?_⟩⟩
      rintro rfl
      rwa [← hshorter hr']

end ListSchema

section Twins

variable {schema : Schema ι} {i j : ℕ}

/-- Two resolutions record the same fields. -/
def Schema.Alike (schema : Schema ι) (i j : ℕ) : Prop :=
  ∃ r r' c, schema.resolutions[i]? = some r ∧ schema.resolutions[j]? = some r' ∧
    r.Records c ∧ r'.Records c

theorem Schema.Alike.lookedUp_iff (h : schema.Alike i j) (hformat : schema.format = .flat)
    (name : String) : schema.LookedUp (.flat name) i ↔ schema.LookedUp (.flat name) j := by
  obtain ⟨r, r', c, hr, hr', hrec, hrec'⟩ := h
  simp [Schema.LookedUp, Schema.HasMatch, Schema.fieldsOf, hformat, hr, hr', hrec.mem_values_iff,
    hrec'.mem_values_iff]

variable [DecidableEq ι]

variable (shapes) in
theorem Solver.WellFormed.seeKeys
    (hbuilt : schema = Schema.ofResolutions schema.shape schema.format schema.resolutions)
    {s : Solver ι} (h : Solver.WellFormed schema s) (keys : List FieldKey) :
    Solver.WellFormed schema (s.seeKeys shapes keys) := by
  induction keys generalizing s with
  | nil => exact h
  | cons key keys ih => exact ih (h.seeKey shapes hbuilt key)

variable (shapes) in
/-- Reported keys leave over both of two resolutions that are alike, or neither. -/
theorem Schema.Alike.mem_candidates (h : schema.Alike i j)
    (hbuilt : schema = Schema.ofResolutions schema.shape schema.format schema.resolutions)
    (hformat : schema.format = .flat) {s : Solver ι} (hwf : Solver.WellFormed schema s)
    (hiff : i ∈ s.candidates ↔ j ∈ s.candidates) (names : List String) :
    i ∈ (s.seeKeys shapes (names.map .flat)).candidates ↔
      j ∈ (s.seeKeys shapes (names.map .flat)).candidates := by
  induction names generalizing s with
  | nil => exact hiff
  | cons name names ih =>
    apply ih (hwf.seeKey shapes hbuilt (.flat name))
    by_cases hfound : ∃ k ∈ s.candidates, schema.LookedUp (.flat name) k
    · obtain ⟨-, hmem⟩ := Solver.seeKeyInternal_of_found shapes hbuilt hwf _ hfound
      rw [hmem, hmem, hiff, h.lookedUp_iff hformat]
    · have hmiss : ∀ k ∈ s.candidates, ¬ schema.LookedUp (.flat name) k :=
        fun k hk hlooked => hfound ⟨k, hk, hlooked⟩
      obtain ⟨-, hsame⟩ := Solver.seeKeyInternal_of_missed shapes hbuilt hwf _ hmiss
      rw [hsame, hiff]

omit [DecidableEq ι] in
theorem Schema.Alike.mem_viable (h : schema.Alike i j) {s : Solver ι} (hschema : s.schema = schema)
    (hiff : i ∈ s.candidates ↔ j ∈ s.candidates) : i ∈ s.viable ↔ j ∈ s.viable := by
  obtain ⟨r, r', c, hr, hr', hrec, hrec'⟩ := h
  have hrequired : s.requiredSeen r = s.requiredSeen r' := by
    rw [Bool.eq_iff_iff]
    simp only [Solver.requiredSeen, List.all_eq_true, Std.TreeSet.mem_toList, hrec.required,
      hrec'.required]
  simp only [Solver.viable, List.mem_filter, ResolutionSet.mem_iter, hschema, hr, hr', hiff, hrequired]

/-- Where every recorded choice occurs twice, no run ends with one resolution. -/
theorem not_finish_of_twinned {css : List (List (FieldInfo ι))}
    (hrecords : List.Forall₂ Resolution.Records schema.resolutions css) (htwinned : Twinned css)
    (hbuilt : schema = Schema.ofResolutions schema.shape schema.format schema.resolutions)
    (hformat : schema.format = .flat) (names : List String) (idx : ℕ) :
    ((Solver.new schema).seeKeys shapes (names.map .flat)).finish ≠ .ok idx := by
  have hnew : Solver.WellFormed schema (Solver.new schema) := ⟨rfl, ResolutionSet.full_valid _⟩
  have hwf := hnew.seeKeys shapes hbuilt (names.map .flat)
  intro hfinish
  rw [Solver.finish_ok_iff hwf.valid, Solver.eq_singleton_iff_of_nodup (Solver.viable_nodup _)]
    at hfinish
  have hviable := (hfinish idx).mpr rfl
  rcases getElem?_of_forall₂ hrecords idx with ⟨hr, -⟩ | ⟨r, c, hr, hc, hrec⟩
  · simp [Solver.viable, hwf.schema_eq, hr] at hviable
  · obtain ⟨j, hne, hj⟩ := htwinned.exists_other hc
    rcases getElem?_of_forall₂ hrecords j with ⟨-, hnone⟩ | ⟨r', c', hr', hc', hrec'⟩
    · rw [hnone] at hj
      cases hj
    · obtain rfl := Option.some.inj (hj.symm.trans hc')
      have halike : schema.Alike idx j := ⟨r, r', c, hr, hr', hrec, hrec'⟩
      have hstart : idx ∈ (Solver.new schema).candidates ↔ j ∈ (Solver.new schema).candidates :=
        iff_of_true ((ResolutionSet.mem_full _ _).mpr (List.getElem?_eq_some_iff.mp hr).1)
          ((ResolutionSet.mem_full _ _).mpr (List.getElem?_eq_some_iff.mp hr').1)
      have hiff := halike.mem_candidates shapes hbuilt hformat hnew hstart names
      exact hne ((hfinish j).mp ((halike.mem_viable hwf.schema_eq hiff).mp hviable))

end Twins

theorem SchemaBuilder.format_of_intoSchema {b : SchemaBuilder ι} {n : ℕ} {schema : Schema ι}
    (h : b.intoSchema shapes n = .ok schema) : schema.format = b.format := by
  obtain ⟨resolutions, -, hschema⟩ := ExceptList.exists_of_bind_ok h
  cases hschema
  rfl

variable (shapes b) in
/-- The names decide in a struct that flattens other containers beside lists of enums. -/
structure ContainersDecided (fs : List (Field ι)) (names : List String) : Prop where
  lists : ListsDecided shapes (listedFields shapes fs) names
  others : ∀ f ∈ fs, isListed shapes f = false → OneChoice shapes b (.flattened f)

/-- Where the elements have no keys, all names are answered and the run ends well exactly when the
names decide. -/
theorem answersAll_iff_of_containers [DecidableEq ι] (htypes : FiniteTypes shapes)
    (hwell : WellNamed shapes) (hvariants : DistinctVariants shapes) (hflat : b.format = .flat)
    (hauto : b.autoDetectEnumRepr = true) {st : StructType ι}
    (hty : (shapes b.shape).ty = .user (.struct st))
    (hcontainers : FlattensContainers shapes st.fields)
    (hkeyless : KeylessElements shapes b st.fields) {n : ℕ} {schema : Schema ι}
    (hschema : b.intoSchema shapes n = .ok schema) (names : List String) :
    schema.AnswersAll shapes names ↔ ContainersDecided shapes b st.fields names := by
  have hbuilt := SchemaBuilder.intoSchema_eq shapes n hschema
  have hformat : schema.format = .flat := (SchemaBuilder.format_of_intoSchema hschema).trans hflat
  obtain ⟨css, hrecords, hone, hmany⟩ :=
    mixed_of_intoSchema htypes hwell hflat hauto hty hcontainers hkeyless hschema
  by_cases hothers : ∀ f ∈ st.fields, isListed shapes f = false → OneChoice shapes b (.flattened f)
  · rw [hone hothers] at hrecords
    have hlist : ListSchema shapes b (listedFields shapes st.fields) schema :=
      { built := hbuilt
        format := hformat
        builderFormat := hflat
        records := hrecords
        lists := hcontainers.enumLists
        names := (hwell.struct _ st hty).sublist (List.filter_sublist.map Field.name)
        types := htypes
        variants := hvariants }
    rw [hlist.answersAll_iff]
    exact ⟨fun hlists => ⟨hlists, hothers⟩, fun hdecided => hdecided.lists⟩
  · refine iff_of_false ?_ fun hdecided => hothers hdecided.others
    rintro ⟨-, idx, hfinish⟩
    push Not at hothers
    exact not_finish_of_twinned hrecords (hmany hothers) hbuilt hformat names idx hfinish

end Facet.Flatten
