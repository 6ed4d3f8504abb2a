import Facet.Flatten.Enumeration
import Facet.Flatten.TypedCollection

/-!
# Known key paths have types

Every key path that a resolution of a schema knows leads, with the variants of that resolution, to
a field. This holds for whatever the analysis returns, at any fuel.
-/

namespace Facet.Flatten

variable {ι : Type} {shapes : Shapes ι} {b : SchemaBuilder ι}

/-- What holds with some variants selected still holds with more. -/
def MoreSelections (P : List VariantSelection → KeyPath → Prop) : Prop :=
  ∀ sel sel', sel ⊆ sel' → ∀ keys, P sel keys → P sel' keys

/-- Every key path of the resolution satisfies the predicate. -/
def Resolution.Covered (P : List VariantSelection → KeyPath → Prop) (r : Resolution ι) : Prop :=
  ∀ keys, r.hasKeyPath keys → P r.variantSelections keys

namespace Resolution.Covered

variable {P Q : List VariantSelection → KeyPath → Prop} {r r' r₁ : Resolution ι}

theorem new (P : List VariantSelection → KeyPath → Prop) : (.new : Resolution ι).Covered P := by
  intro keys hkeys
  exact absurd hkeys (by simp [Resolution.hasKeyPath, Resolution.new])

theorem mono (h : r.Covered P)
    (hPQ : ∀ keys, P r.variantSelections keys → Q r.variantSelections keys) : r.Covered Q :=
  fun keys hkeys => hPQ keys (h keys hkeys)

theorem same (h : r.Covered P) (hpaths : r'.knownPaths = r.knownPaths)
    (hselections : r'.variantSelections = r.variantSelections) : r'.Covered P := by
  intro keys hkeys
  rw [Resolution.hasKeyPath, hpaths] at hkeys
  rw [hselections]
  exact h keys hkeys

theorem adds (h : r.Covered P) (hadds : Adds P r r') : r'.Covered P := by
  intro keys hkeys
  rw [hadds.selections]
  exact (hadds.paths keys hkeys).elim (h keys) id

theorem addKeyPath (h : r.Covered P) {path : KeyPath} (hpath : P r.variantSelections path) :
    (r.addKeyPath path).Covered P := h.adds (.addKeyPath hpath)

theorem addVariantSelection (h : r.Covered P) (hP : MoreSelections P) (path : FieldPath)
    (enumName name : String) : (r.addVariantSelection path enumName name).Covered P :=
  fun keys hkeys => hP _ _ (List.subset_append_left _ _) keys (h keys hkeys)

theorem addField (h : r.Covered P) {info : FieldInfo ι}
    (hok : orDuplicateField (r.addField info) = .ok r') : r'.Covered P := by
  have hput := orDuplicateField_eq_ok hok
  exact h.same (knownPaths_tryPutField hput) (variantSelections_tryPutField hput)

theorem merge (h : r.Covered P) (hP : MoreSelections P) (h₁ : r₁.Covered Q)
    (hQP : ∀ keys, Q r₁.variantSelections keys →
      P (r.variantSelections ++ r₁.variantSelections) keys)
    (hok : orDuplicateField (r.merge r₁) = .ok r') : r'.Covered P := by
  have hmerge := orDuplicateField_eq_ok hok
  intro keys hkeys
  rw [variantSelections_merge hmerge]
  rcases (hasKeyPath_merge hmerge keys).mp hkeys with hr | hr₁
  · exact hP _ _ (List.subset_append_left _ _) keys (h keys hr)
  · exact hQP keys (h₁ keys hr₁)

end Resolution.Covered

variable (shapes b) in
/-- The keys lead from the part to a field. -/
def HasType (part : Part ι) (path : FieldPath) (sel : List VariantSelection) (keys : KeyPath) :
    Prop :=
  ∃ t, TypedAt shapes b sel part path keys t

theorem moreSelections_hasType (part : Part ι) (path : FieldPath) :
    MoreSelections (HasType shapes b part path) :=
  fun _ _ hsub _ ⟨t, h⟩ => ⟨t, h.mono hsub⟩

theorem HasType.of_mem {fs : List (Field ι)} {f : Field ι} (hf : f ∈ fs) {path : FieldPath}
    {sel : List VariantSelection} {keys : KeyPath} :
    HasType shapes b (.fields [f]) path sel keys → HasType shapes b (.fields fs) path sel keys :=
  fun ⟨t, h⟩ => ⟨t, h.of_mem hf⟩

variable (shapes b) in
/-- What holds with more selections, and of all keys that lead from the part to a field. -/
structure Admits (P : List VariantSelection → KeyPath → Prop) (part : Part ι) (path : FieldPath) :
    Prop where
  more : MoreSelections P
  typed : ∀ sel keys, HasType shapes b part path sel keys → P sel keys

theorem Admits.self (part : Part ι) (path : FieldPath) :
    Admits shapes b (HasType shapes b part path) part path :=
  ⟨moreSelections_hasType part path, fun _ _ => id⟩

theorem Admits.field {P : List VariantSelection → KeyPath → Prop} {fs : List (Field ι)}
    {path : FieldPath} (h : Admits shapes b P (.fields fs) path) {f : Field ι} (hf : f ∈ fs) :
    Admits shapes b P (.fields [f]) path :=
  ⟨h.more, fun sel keys htyped => h.typed sel keys (htyped.of_mem hf)⟩

variable (shapes b) in
/-- What the analysis returns at this fuel is covered. -/
structure AnalysisTyped (n : ℕ) : Prop where
  struct : ∀ st path, AllOf (Resolution.Covered (HasType shapes b (.fields st.fields) path))
    (b.analyzeStruct shapes n st path [])
  field : ∀ f path rs P, Admits shapes b P (.fields [f]) path → (∀ r ∈ rs, r.Covered P) →
    AllOf (Resolution.Covered P) (b.analyzeFieldIntoConfigs shapes n f path [] rs)
  flattened : ∀ f path rs P, Admits shapes b P (.flattened f) path → (∀ r ∈ rs, r.Covered P) →
    AllOf (Resolution.Covered P) (b.analyzeFlattenedFieldIntoConfigs shapes n f path [] rs)
  variant : ∀ v path, AllOf (Resolution.Covered (HasType shapes b (.variant v) path))
    (b.analyzeVariantContent shapes n v path [])

section Analysis

variable {n : ℕ} (h : AnalysisTyped shapes b n) {P : List VariantSelection → KeyPath → Prop}

include h

theorem AnalysisTyped.fromNew (fs : List (Field ι)) (path : FieldPath) :
    AllOf (Resolution.Covered (HasType shapes b (.fields fs) path)) (fs.foldlM (fun configs f =>
      b.analyzeFieldIntoConfigs shapes n f path [] configs) [.new]) := by
  apply AllOf.foldlM
  · intro f hf rs hrs
    exact h.field f path rs _ ((Admits.self _ path).field hf) hrs
  · intro r hr
    rw [List.mem_singleton.mp hr]
    exact .new _

theorem analysisTyped_struct (st : StructType ι) (path : FieldPath) :
    AllOf (Resolution.Covered (HasType shapes b (.fields st.fields) path))
      (b.analyzeStruct shapes (n + 1) st path []) := by
  rw [SchemaBuilder.analyzeStruct]
  exact h.fromNew st.fields path

theorem analysisTyped_field (f : Field ι) (path : FieldPath) {rs : List (Resolution ι)}
    (hP : Admits shapes b P (.fields [f]) path) (hrs : ∀ r ∈ rs, r.Covered P) :
    AllOf (Resolution.Covered P)
      (b.analyzeFieldIntoConfigs shapes (n + 1) f path [] rs) := by
  have hmem : f ∈ [f] := List.mem_singleton_self f
  rw [SchemaBuilder.analyzeFieldIntoConfigs]
  by_cases hflat : f.isFlattened = true
  · rw [if_pos hflat]
    apply h.flattened f path rs P ⟨hP.more, ?_⟩ hrs
    rintro sel keys ⟨t, htyped⟩
    exact hP.typed sel keys ⟨t, .flat hmem hflat htyped⟩
  · have hplain := Bool.eq_false_iff.mpr hflat
    have htyped (sel : List VariantSelection) (keys : KeyPath) (t : ι)
        (hreached : Reached shapes sel [f] keys t) : P sel keys :=
      hP.typed sel keys ⟨t, .plain hmem hplain hreached⟩
    rw [if_neg hflat]
    refine AllOf.bind (Q := Resolution.Covered P) (AllOf.mapM ?_) ?_
    · intro r hr r' heq
      obtain ⟨r₁, hadd, heq⟩ := ExceptList.exists_of_bind_ok heq
      cases heq
      exact ((hrs r hr).addField hadd).addKeyPath (htyped _ _ _ (.here hmem hplain))
    · intro rs' hrs'
      refine AllOf.keptAll ((nestedTyped n).shape f.shape [f.effectiveName] rs') ?_
      intro r hr r' hadds
      apply (hrs' r hr).adds (hadds.mono _)
      rintro keys ⟨st, hty, rest, t, rfl, hreached⟩
      exact htyped _ _ t (.nested hmem hplain .refl hty hreached)

/-- The contents of a variant are merged into a configuration that selects it. -/
theorem analysisTyped_inline (v : Variant ι) (path : FieldPath) (optional : Bool)
    {base : Resolution ι} (hbase : base.Covered P) (hP : MoreSelections P)
    (hvariant : ∀ sel keys, base.variantSelections ⊆ sel →
      HasType shapes b (.variant v) path sel keys → P sel keys) :
    AllOf (Resolution.Covered P)
      (b.analyzeVariantContent shapes n v path [] >>= fun variantConfigs =>
        SchemaBuilder.mergeEach base
          (SchemaBuilder.markOptionalIf optional variantConfigs)) := by
  refine AllOf.bind (h.variant v path) fun configs hconfigs => ?_
  refine AllOf.mapM fun r hr r' heq => ?_
  have hcovered := AllOf.markOptionalIf hconfigs
    (fun r hr => Resolution.Covered.same hr rfl rfl) optional r hr
  apply hbase.merge hP hcovered _ heq
  intro keys htyped
  exact hvariant _ keys (List.subset_append_left _ _)
    (moreSelections_hasType _ _ _ _ (List.subset_append_right _ _) keys htyped)

end Analysis

/-- The paths below a variant's name or a content key come at the end. -/
theorem Resolution.Covered.nested {P : List VariantSelection → KeyPath → Prop} {n : ℕ}
    {v : Variant ι} {key : String} {r : Resolution ι} (hr : r.Covered P)
    (hP : ∀ keys t, ReachedInside shapes (.variant v) keys t → P r.variantSelections (key :: keys)) :
    AllOf (Resolution.Covered P)
      (collectVariantFieldsKeyPathsOnly shapes n v [key] r >>= fun r => pure [r]) := by
  intro rs heq r' hr'
  obtain ⟨r₁, hcollect, heq⟩ := ExceptList.exists_of_bind_ok heq
  cases heq
  obtain rfl := List.mem_singleton.mp hr'
  apply hr.adds ((((insideTyped n).variant v [key] r).of_ok hcollect).mono _)
  rintro keys ⟨rest, t, rfl, hreached⟩
  exact hP rest t hreached

section Variant

variable {n : ℕ} {P : List VariantSelection → KeyPath → Prop} {f : Field ι} {path : FieldPath}
  {ws : List ι} {s : ι} {en : EnumType ι} {v : Variant ι}
  (hunwraps : Unwraps shapes (flattenStart shapes f) ws s)
  (hty : (shapes s).ty = .user (.enum en)) (hv : v ∈ en.variants)
  (hP : Admits shapes b P (.flattened f) path)

include hunwraps hty hv hP

theorem Resolution.Covered.selector {base : Resolution ι} {name : String} {info : FieldInfo ι}
    {next : Resolution ι → Analysis (List (Resolution ι))} (hbase : base.Covered P)
    (hselected : ⟨flattenPath path f ws, (shapes s).typeIdentifier, v.name⟩ ∈
      base.variantSelections)
    (hname : (b.reprOf shapes s).selectorName v.name = some name)
    (hnext : ∀ r, r.Covered P → r.variantSelections = base.variantSelections →
      AllOf (Resolution.Covered P) (next r)) :
    AllOf (Resolution.Covered P)
      (orDuplicateField ((base.addKeyPath [name]).addField info) >>= next) := by
  intro rs heq
  obtain ⟨r, hadd, heq⟩ := ExceptList.exists_of_bind_ok heq
  have htyped := hP.typed _ _ ⟨s, .selector hunwraps hty hv hselected hname⟩
  have hselections := variantSelections_tryPutField (orDuplicateField_eq_ok hadd)
  exact hnext r ((hbase.addKeyPath htyped).addField hadd) hselections rs heq

/-- A variant of a flattened enum is selected in a copy of the configuration before. -/
theorem analysisTyped_enum (h : AnalysisTyped shapes b n) (optional : Bool) {base : Resolution ι}
    (hbase : base.Covered P) :
    AllOf (Resolution.Covered P)
      (b.forkVariant shapes n f (flattenPath path f ws) [] optional s base v) := by
  unfold SchemaBuilder.forkVariant
  have hforked := hbase.addVariantSelection hP.more (flattenPath path f ws)
    (shapes s).typeIdentifier v.name
  have hselected : ⟨flattenPath path f ws, (shapes s).typeIdentifier, v.name⟩ ∈
      (base.addVariantSelection (flattenPath path f ws) (shapes s).typeIdentifier
        v.name).variantSelections := List.mem_append_right _ (List.mem_singleton_self _)
  generalize base.addVariantSelection (flattenPath path f ws) (shapes s).typeIdentifier v.name =
    forked at hforked hselected
  have hinline (hrepr : (b.reprOf shapes s).Inline) (sel : List VariantSelection) (keys : KeyPath)
      (hsub : forked.variantSelections ⊆ sel) (htyped : HasType shapes b (.variant v)
        ((flattenPath path f ws).pushVariant f.name v.name) sel keys) : P sel keys := by
    obtain ⟨t, htyped⟩ := htyped
    exact hP.typed sel keys ⟨t, .inline hunwraps hty hrepr hv (hsub hselected) htyped⟩
  cases hrepr : b.reprOf shapes s with
  | flattened =>
    apply analysisTyped_inline h v _ optional hforked hP.more
    exact hinline (by rw [hrepr]; trivial)
  | internallyTagged tag =>
    refine hforked.selector hunwraps hty hv hP hselected (by rw [hrepr]; rfl) ?_
    intro r hr hselections
    apply analysisTyped_inline h v _ optional hr hP.more
    rw [hselections]
    exact hinline (by rw [hrepr]; trivial)
  | externallyTagged =>
    refine hforked.selector hunwraps hty hv hP hselected (by rw [hrepr]; rfl) ?_
    intro r hr hselections
    apply hr.nested
    intro keys t hreached
    rw [hselections]
    exact hP.typed _ _ ⟨t, .external hunwraps hty hrepr hv hselected hreached⟩
  | adjacentlyTagged tag content =>
    refine hforked.selector hunwraps hty hv hP hselected (by rw [hrepr]; rfl) ?_
    intro r hr hselections
    have hcontent := hP.typed r.variantSelections _ ⟨s, .content hunwraps hty hrepr⟩
    apply (hr.addKeyPath hcontent).nested
    intro keys t hreached
    change P r.variantSelections (content :: keys)
    rw [hselections]
    exact hP.typed _ _ ⟨t, .adjacent hunwraps hty hrepr hv hselected hreached⟩

end Variant

theorem analysisTyped_flattened {n : ℕ} (h : AnalysisTyped shapes b n)
    {P : List VariantSelection → KeyPath → Prop} (f : Field ι) (path : FieldPath)
    {rs : List (Resolution ι)} (hP : Admits shapes b P (.flattened f) path)
    (hrs : ∀ r ∈ rs, r.Covered P) :
    AllOf (Resolution.Covered P)
      (b.analyzeFlattenedFieldIntoConfigs shapes (n + 1) f path [] rs) := by
  rw [SchemaBuilder.analyzeFlattenedFieldIntoConfigs, unwrapOptionalFlatten_eq]
  dsimp only
  cases hunwrap : unwrapTransparentWithPath shapes n (flattenStart shapes f)
    (path.pushField f.name) with
  | error e => exact AllOf.error _ e
  | ok unwrapped =>
    obtain ⟨s, fieldPath⟩ := unwrapped
    obtain ⟨ws, hunwraps, hpath⟩ := exists_unwraps_of_withPath hunwrap
    replace hpath : fieldPath = flattenPath path f ws := hpath
    subst hpath
    rw [ok_bind]
    dsimp only
    split
    · next st hty =>
      refine AllOf.bind (h.struct st (flattenPath path f ws)) fun configs hconfigs => ?_
      refine AllOf.flatMapM fun base hbase => AllOf.mapM fun r hr r' heq => ?_
      have hcovered := AllOf.markOptionalIf hconfigs
        (fun r hr => Resolution.Covered.same hr rfl rfl) _ r hr
      apply (hrs base hbase).merge hP.more hcovered _ heq
      rintro keys ⟨t, htyped⟩
      exact hP.typed _ keys ⟨t, .struct hunwraps hty (htyped.mono (List.subset_append_right _ _))⟩
    · next en hty =>
      refine AllOf.flatMapM fun base hbase => AllOf.flatMapM fun v hv => ?_
      exact analysisTyped_enum hunwraps hty hv hP h _ (hrs base hbase)
    · next hstruct henum =>
      have hleaf : ¬ IsAggregate shapes s := by
        rintro (⟨st, hty⟩ | ⟨en, hty⟩)
        · exact hstruct st hty
        · exact henum en hty
      split
      · apply AllOf.ok
        intro r hr
        obtain ⟨r', hr', rfl⟩ := List.mem_map.mp hr
        exact (hrs r' hr').same rfl rfl
      · apply AllOf.ok
        intro r hr
        obtain ⟨r', hr', rfl⟩ := List.mem_map.mp hr
        exact (hrs r' hr').same rfl rfl
      · refine AllOf.mapM fun r hr r' heq => ?_
        obtain ⟨r₁, hadd, heq⟩ := ExceptList.exists_of_bind_ok heq
        cases heq
        exact ((hrs r hr).addField hadd).addKeyPath (hP.typed _ _ ⟨s, .leaf hunwraps hleaf⟩)

theorem analysisTyped_variant {n : ℕ} (h : AnalysisTyped shapes b n) (v : Variant ι)
    (path : FieldPath) :
    AllOf (Resolution.Covered (HasType shapes b (.variant v) path))
      (b.analyzeVariantContent shapes (n + 1) v path []) := by
  have hfields := h.fromNew v.data.fields path
  rw [SchemaBuilder.analyzeVariantContent]
  cases hnew : newtypeField v with
  | none =>
    exact AllOf.mono hfields fun r hr => hr.mono fun keys h =>
      h.imp fun t htyped => .variant hnew htyped
  | some f =>
    dsimp only
    cases hunwrap : unwrapToEffectiveShape shapes n f.shape with
    | error e => exact AllOf.error _ e
    | ok s =>
      have heffective := effective_of_unwrap hunwrap
      rw [ok_bind]
      split
      · next st hty =>
        exact AllOf.mono (h.struct st (path.pushField "0")) fun r hr =>
          hr.mono fun keys h => h.imp fun t htyped => .newtype hnew heffective hty htyped
      · next hstruct =>
        exact AllOf.mono hfields fun r hr => hr.mono fun keys h =>
          h.imp fun t htyped => .payload hnew heffective hstruct htyped

theorem analysisTyped (n : ℕ) : AnalysisTyped shapes b n := by
  induction n with
  | zero =>
    constructor <;> intros
    · exact AllOf.error _ _
    · exact AllOf.error _ _
    · exact AllOf.error _ _
    · exact AllOf.error _ _
  | succ n ih =>
    constructor
    · exact analysisTyped_struct ih
    · exact fun f path rs P => analysisTyped_field ih f path
    · exact fun f path rs P => analysisTyped_flattened ih f path
    · exact analysisTyped_variant ih

theorem moreSelections_typedIn :
    MoreSelections fun sel keys => ∃ t, TypedIn shapes b sel keys t := by
  rintro sel sel' hsub keys ⟨t, h⟩
  cases h with
  | struct hty h => exact ⟨t, .struct hty (h.mono hsub)⟩
  | enum hty hv hvs h => exact ⟨t, .enum hty hv (hsub hvs) (h.mono hsub)⟩

/-- Every key path that a resolution of a schema knows leads to a field. -/
theorem analyze_typed {n : ℕ} {rs : List (Resolution ι)} (h : b.analyze shapes n = .ok rs) :
    ∀ r ∈ rs, ∀ keys, r.hasKeyPath keys → ∃ t, TypedIn shapes b r.variantSelections keys t := by
  have htyped : AnalysisTyped shapes b n := analysisTyped n
  have hall : AllOf (Resolution.Covered fun sel keys => ∃ t, TypedIn shapes b sel keys t)
      (b.analyze shapes n) := by
    unfold SchemaBuilder.analyze SchemaBuilder.analyzeShape
    cases hty : (shapes b.shape).ty with
    | user ty =>
      cases ty with
      | struct st =>
        exact AllOf.mono (htyped.struct st []) fun r hr => hr.mono fun keys ⟨t, h⟩ =>
          ⟨t, .struct hty h⟩
      | enum en =>
        refine AllOf.flatMapM fun v hv => ?_
        have hselected : ⟨[], (shapes b.shape).typeIdentifier, v.name⟩ ∈
            ((.new : Resolution ι).addVariantSelection [] (shapes b.shape).typeIdentifier
              v.name).variantSelections := List.mem_append_right _ (List.mem_singleton_self _)
        have hfork := analysisTyped_inline htyped v (FieldPath.pushVariant [] "" v.name) false
          ((Resolution.Covered.new fun sel keys => ∃ t, TypedIn shapes b sel keys t
            ).addVariantSelection moreSelections_typedIn [] _ v.name) moreSelections_typedIn
          fun sel keys hsub ⟨t, h⟩ => ⟨t, .enum hty hv (hsub hselected) h⟩
        exact AllOf.mono hfork fun _ => id
      | _ => exact AllOf.ok (by simpa using Resolution.Covered.new _)
    | _ => exact AllOf.ok (by simpa using Resolution.Covered.new _)
  exact fun r hr keys => hall rs h r hr keys

end Facet.Flatten
