import Facet.Flatten.DocumentKeys
import Facet.Flatten.ListFields

/-!
# Fields below an option

All that a flattened `Option` contributes is optional, whatever it holds and however its variants
are written, and no field that is analysed before or after it changes that.
-/

namespace Facet.Flatten

open Std

variable {ι : Type} {shapes : Shapes ι} {b : SchemaBuilder ι}

/-- Every field of the resolution is as described. -/
def Resolution.Within (R : FieldInfo ι → Prop) (r : Resolution ι) : Prop :=
  ∀ (key : FieldKey) (info : FieldInfo ι), r.fields[key]? = some info → R info

namespace Resolution.Within

variable {R Q : FieldInfo ι → Prop} {r r' : Resolution ι}

theorem new (R : FieldInfo ι → Prop) : (.new : Resolution ι).Within R := by
  intro key info h
  simp [Resolution.new] at h

theorem mono (h : r.Within R) (hRQ : ∀ info, R info → Q info) : r.Within Q :=
  fun key info hinfo => hRQ info (h key info hinfo)

theorem same (h : r.Within R) (hfields : r'.fields = r.fields) : r'.Within R := by
  intro key info hinfo
  rw [hfields] at hinfo
  exact h key info hinfo

theorem addKeyPath (h : r.Within R) (path : KeyPath) : (r.addKeyPath path).Within R := h.same rfl

theorem tryPutField (h : r.Within R) {key : FieldKey} {info : FieldInfo ι} (hinfo : R info)
    (hok : r.tryPutField key info = .ok r') : r'.Within R := by
  unfold Resolution.tryPutField at hok
  cases hconflict : r.conflict key info with
  | some e => simp [hconflict] at hok
  | none =>
    simp only [hconflict, Except.ok.injEq] at hok
    subst hok
    intro key' i hi
    simp only [Resolution.putField, TreeMap.getElem?_insert, Std.compare_eq_iff_eq] at hi
    split_ifs at hi
    · obtain rfl := Option.some.inj hi
      exact hinfo
    · exact h key' i hi

theorem addField (h : r.Within R) {info : FieldInfo ι} (hinfo : R info)
    (hok : orDuplicateField (r.addField info) = .ok r') : r'.Within R :=
  h.tryPutField hinfo (orDuplicateField_eq_ok hok)

theorem mergeFields (h : r.Within R) {others : List (FieldKey × FieldInfo ι)}
    (hothers : ∀ x ∈ others, R x.2) (hok : r.mergeFields others = .ok r') : r'.Within R := by
  induction others generalizing r with
  | nil =>
    simp only [Resolution.mergeFields, Except.ok.injEq] at hok
    exact hok ▸ h
  | cons x others ih =>
    obtain ⟨hx, hrest⟩ := List.forall_mem_cons.mp hothers
    rw [Resolution.mergeFields] at hok
    cases hput : r.tryPutField x.1 x.2 with
    | error e => simp [hput] at hok
    | ok r₁ =>
      simp only [hput] at hok
      exact ih (h.tryPutField hx hput) hrest hok

theorem merge (h : r.Within R) {r₁ : Resolution ι} (h₁ : r₁.Within R)
    (hok : orDuplicateField (r.merge r₁) = .ok r') : r'.Within R := by
  have hmerge := orDuplicateField_eq_ok hok
  unfold Resolution.merge at hmerge
  cases hfields : r.mergeFields r₁.fields.toList with
  | error e => simp [hfields] at hmerge
  | ok r₂ =>
    simp only [hfields, Except.ok.injEq] at hmerge
    have hothers : ∀ x ∈ r₁.fields.toList, R x.2 := fun x hx =>
      h₁ x.1 x.2 (TreeMap.mem_toList_iff_getElem?_eq_some.mp hx)
    have hmerged := h.mergeFields hothers hfields
    exact hmerged.same (by rw [← hmerge])

end Resolution.Within

theorem Resolution.Sound.within {P : FieldPath → Prop} {r : Resolution ι} (h : r.Sound P) :
    r.Within fun info => P info.path := by
  obtain ⟨infos, hrec, hpath⟩ := h
  intro key info hinfo
  exact hpath info ((hrec.fields key info).mp hinfo).1

theorem Resolution.Sound.within_markAllOptional {P : FieldPath → Prop} {r : Resolution ι}
    (h : r.Sound P) :
    r.markAllOptional.Within fun info => P info.path ∧ info.required = false := by
  obtain ⟨infos, hrec, hpath⟩ := h
  intro key info hinfo
  obtain ⟨hmem, -⟩ := (hrec.markAllOptional.fields key info).mp hinfo
  obtain ⟨j, hj, rfl⟩ := List.mem_map.mp hmem
  exact ⟨hpath j hj, rfl⟩

variable (shapes) in
/-- What a flattened field contributes: its fields come from below it, and they are optional if it
is an option. -/
def Contributes (path : FieldPath) (f : Field ι) (info : FieldInfo ι) : Prop :=
  Under path f info.path ∧ (f.isFlattened = true → isOptionType (shapes f.shape) = true →
    info.required = false)

theorem within_markOptionalIf {P : FieldPath → Prop} {rs : List (Resolution ι)} {f : Field ι}
    {path : FieldPath} (h : ∀ r ∈ rs, r.Sound P) (hP : ∀ q, P q → Under path f q) :
    ∀ r ∈ SchemaBuilder.markOptionalIf (isOptionType (shapes f.shape)) rs,
      r.Within (Contributes shapes path f) := by
  intro r hr
  cases hoption : isOptionType (shapes f.shape) with
  | true =>
    rw [hoption] at hr
    obtain ⟨r', hr', rfl⟩ := List.mem_map.mp hr
    exact (h r' hr').within_markAllOptional.mono fun info hinfo =>
      ⟨hP _ hinfo.1, fun _ _ => hinfo.2⟩
  | false =>
    rw [hoption] at hr
    exact (h r hr).within.mono fun info hinfo =>
      ⟨hP _ hinfo, fun _ hopt => nomatch hoption.symm.trans hopt⟩

theorem within_mergeEach {R : FieldInfo ι → Prop} {base : Resolution ι}
    {rs : List (Resolution ι)} (hbase : base.Within R) (h : ∀ r ∈ rs, r.Within R) :
    AllOf (Resolution.Within R) (SchemaBuilder.mergeEach base rs) :=
  .mapM fun r hr _ heq => hbase.merge (h r hr) heq

/-- A field and its key path are added to each configuration. -/
theorem within_addEach {R : FieldInfo ι → Prop} {rs : List (Resolution ι)} {info : FieldInfo ι}
    {keyPath : KeyPath} (h : ∀ r ∈ rs, r.Within R) (hinfo : R info) :
    AllOf (Resolution.Within R) (rs.mapM fun config =>
      orDuplicateField (config.addField info) >>= fun config =>
        pure (config.addKeyPath keyPath)) := by
  apply AllOf.mapM
  intro r hr r' heq
  obtain ⟨r₁, hadd, hpure⟩ := ExceptList.exists_of_bind_ok heq
  cases hpure
  exact ((h r hr).addField hinfo hadd).addKeyPath keyPath

theorem within_selector {R : FieldInfo ι → Prop} {base : Resolution ι} {info : FieldInfo ι}
    {next : Resolution ι → Analysis (List (Resolution ι))} (hbase : base.Within R)
    (hinfo : R info) (hnext : ∀ r, r.Within R → AllOf (Resolution.Within R) (next r)) :
    AllOf (Resolution.Within R) (orDuplicateField (base.addField info) >>= next) := by
  cases hadd : orDuplicateField (base.addField info) with
  | error e => exact .error _ e
  | ok r => exact hnext r (hbase.addField hinfo hadd)

theorem within_nested {R : FieldInfo ι → Prop} {r : Resolution ι}
    {collect : Analysis (Resolution ι)} (hr : r.Within R) (hkept : Kept SameChoice True r collect) :
    AllOf (Resolution.Within R) (collect >>= fun r => pure [r]) := by
  cases hres : collect with
  | error e => exact .error _ e
  | ok r' =>
    apply AllOf.ok
    intro r'' hr''
    rw [List.mem_singleton.mp hr'']
    exact hr.same (hkept.of_ok hres).fields

section Field

variable {R : FieldInfo ι → Prop} {f : Field ι} {path : FieldPath} {n : ℕ}

/-- One variant of a flattened enum, in any representation. -/
theorem within_forkVariant (h : AnalysisSound shapes b n)
    (hR : ∀ info, Contributes shapes path f info → R info) {fieldPath : FieldPath}
    (hpath : path.pushField f.name <+: fieldPath) (s : ι) {base : Resolution ι}
    (hbase : base.Within R) {v : Variant ι} (hnames : (v.data.fields.map Field.name).Nodup) :
    AllOf (Resolution.Within R)
      (b.forkVariant shapes n f fieldPath [] (isOptionType (shapes f.shape)) s base v) := by
  have hvariant : Under path f (fieldPath.pushVariant f.name v.name) :=
    hpath.trans (List.prefix_append _ _)
  have hselector (name : String) : R (SchemaBuilder.selectorField name
      (fieldPath.pushVariant f.name v.name) (isOptionType (shapes f.shape)) s f) := by
    apply hR
    refine ⟨hvariant, fun _ hoption => ?_⟩
    simp [SchemaBuilder.selectorField, hoption]
  have hforked : (base.addVariantSelection fieldPath (shapes s).typeIdentifier v.name).Within R :=
    hbase.same rfl
  have hcontents {r : Resolution ι} (hr : r.Within R) : AllOf (Resolution.Within R)
      (b.analyzeVariantContent shapes n v (fieldPath.pushVariant f.name v.name) [] >>=
        fun variantConfigs => SchemaBuilder.mergeEach r
          (SchemaBuilder.markOptionalIf (isOptionType (shapes f.shape)) variantConfigs)) := by
    refine AllOf.bind (h.variant v (fieldPath.pushVariant f.name v.name) [] hnames) ?_
    intro configs hconfigs
    have hbelow : ∀ r ∈ SchemaBuilder.markOptionalIf (isOptionType (shapes f.shape)) configs,
        r.Within (Contributes shapes path f) :=
      within_markOptionalIf hconfigs fun q hq => hvariant.trans hq.prefix_of
    exact within_mergeEach hr fun r' hr' => (hbelow r' hr').mono hR
  unfold SchemaBuilder.forkVariant
  cases b.reprOf shapes s with
  | flattened => exact hcontents hforked
  | internallyTagged tag =>
    exact within_selector (hforked.addKeyPath _) (hselector tag) fun r hr => hcontents hr
  | externallyTagged =>
    exact within_selector (hforked.addKeyPath _) (hselector v.name) fun r hr =>
      within_nested hr ((onlyKept .sameChoice n).variant v _ r)
  | adjacentlyTagged tag content =>
    exact within_selector (hforked.addKeyPath _) (hselector tag) fun r hr =>
      within_nested (hr.addKeyPath _) ((onlyKept .sameChoice n).variant v _ _)

theorem within_flattened (hwell : WellNamed shapes) (h : AnalysisSound shapes b n)
    (hR : ∀ info, Contributes shapes path f info → R info)
    {rs : List (Resolution ι)} (hrs : ∀ r ∈ rs, r.Within R) :
    AllOf (Resolution.Within R)
      (b.analyzeFlattenedFieldIntoConfigs shapes (n + 1) f path [] rs) := by
  rw [SchemaBuilder.analyzeFlattenedFieldIntoConfigs, unwrapOptionalFlatten_eq]
  dsimp only
  cases hunwrap : unwrapTransparentWithPath shapes n (flattenStart shapes f)
    (path.pushField f.name) with
  | error e => exact AllOf.error _ e
  | ok unwrapped =>
    obtain ⟨t, fieldPath⟩ := unwrapped
    have hpath := prefix_of_unwrapTransparentWithPath hunwrap
    rw [ok_bind]
    dsimp only
    split
    · next st hty =>
      refine AllOf.bind (h.struct st fieldPath [] (hwell.struct t st hty)) ?_
      intro configs hconfigs
      have hbelow : ∀ r ∈ SchemaBuilder.markOptionalIf (isOptionType (shapes f.shape)) configs,
          r.Within (Contributes shapes path f) := by
        apply within_markOptionalIf hconfigs
        intro q hq
        obtain ⟨_, _, hunder⟩ := hq
        exact (hpath.trans (List.prefix_append _ _)).trans hunder
      apply AllOf.flatMapM
      intro base hbase
      exact within_mergeEach (hrs base hbase) fun r hr => (hbelow r hr).mono hR
    · next en hty =>
      apply AllOf.flatMapM
      intro base hbase
      apply AllOf.flatMapM
      intro v hv
      exact within_forkVariant h hR hpath t (hrs base hbase) (hwell.variant t en hty v hv)
    · split
      · apply AllOf.ok
        intro r hr
        obtain ⟨r', hr', rfl⟩ := List.mem_map.mp hr
        exact (hrs r' hr').same rfl
      · apply AllOf.ok
        intro r hr
        obtain ⟨r', hr', rfl⟩ := List.mem_map.mp hr
        exact (hrs r' hr').same rfl
      · refine within_addEach hrs (hR _ ⟨hpath, fun _ hoption => ?_⟩)
        simp [hoption]

theorem within_field (hwell : WellNamed shapes) (h : AnalysisSound shapes b n)
    (hR : ∀ info, Contributes shapes path f info → R info) {rs : List (Resolution ι)}
    (hrs : ∀ r ∈ rs, r.Within R) :
    AllOf (Resolution.Within R) (b.analyzeFieldIntoConfigs shapes (n + 2) f path [] rs) := by
  rw [SchemaBuilder.analyzeFieldIntoConfigs]
  by_cases hflat : f.isFlattened = true
  · rw [if_pos hflat]
    exact within_flattened hwell h hR hrs
  · rw [if_neg hflat]
    apply AllOf.bind
    · exact within_addEach hrs (hR _ ⟨List.prefix_rfl, fun hflat' => absurd hflat' hflat⟩)
    · intro rs' hrs'
      exact AllOf.keptAll ((nestedKept .sameChoice (n + 1)).shape _ _ rs') fun r hr r' hsame =>
        (hrs' r hr).same hsame.fields

end Field

/-- The fields of a struct: whatever each of them contributes. -/
theorem within_struct (hwell : WellNamed shapes) {R : FieldInfo ι → Prop} {n : ℕ}
    {st : StructType ι} {path : FieldPath}
    (hR : ∀ f ∈ st.fields, ∀ info, Contributes shapes path f info → R info) :
    AllOf (Resolution.Within R) (b.analyzeStruct shapes (n + 3) st path []) := by
  rw [SchemaBuilder.analyzeStruct]
  apply AllOf.foldlM
  · intro f hf rs hrs
    exact within_field hwell (analysisSound hwell n) (hR f hf) hrs
  · intro r hr
    rw [List.mem_singleton.mp hr]
    exact .new R

end Facet.Flatten
