import Facet.Flatten.Collecting
import Facet.Flatten.Enumeration

/-!
# Required names

A resolution keeps the names of its required fields in a set of their own. Field names
within a struct or variant are distinct, so no two fields come from one path, nothing is
overwritten, and the set holds exactly the names of the required fields. This holds for
whatever the analysis returns, at any fuel.
-/

namespace Facet.Flatten

variable {ι : Type} {shapes : Shapes ι} {b : SchemaBuilder ι}

/-- The resolution records some fields, all from paths described by `P`. -/
def Resolution.Sound (P : FieldPath → Prop) (r : Resolution ι) : Prop :=
  ∃ infos, r.Records infos ∧ ∀ i ∈ infos, P i.path

namespace Resolution.Sound

variable {P Q : FieldPath → Prop} {r r' : Resolution ι}

theorem new (P : FieldPath → Prop) : Resolution.Sound P (.new : Resolution ι) :=
  ⟨[], .new, by simp⟩

theorem mono (h : r.Sound P) (hPQ : ∀ q, P q → Q q) : r.Sound Q := by
  obtain ⟨infos, hrec, hpath⟩ := h
  exact ⟨infos, hrec, fun i hi => hPQ _ (hpath i hi)⟩

theorem same (h : r.Sound P) (hfields : r'.fields = r.fields)
    (hrequired : r'.requiredFieldNames = r.requiredFieldNames) : r'.Sound P := by
  obtain ⟨infos, hrec, hpath⟩ := h
  refine ⟨infos, ⟨?_, ?_⟩, hpath⟩
  · rw [hfields]
    exact hrec.fields
  · rw [hrequired]
    exact hrec.required

theorem addKeyPath (h : r.Sound P) (path : KeyPath) : (r.addKeyPath path).Sound P :=
  h.same rfl rfl

theorem addVariantSelection (h : r.Sound P) (path : FieldPath) (enumName name : String) :
    (r.addVariantSelection path enumName name).Sound P :=
  h.same rfl rfl

theorem setCatchAllMap (h : r.Sound P) (cat : FieldCategory) (info : FieldInfo ι) :
    (r.setCatchAllMap cat info).Sound P :=
  h.same rfl rfl

theorem sameChoice (h : r.Sound P) (hsame : SameChoice r r') : r'.Sound P :=
  h.same hsame.fields hsame.required

theorem markAllOptional (h : r.Sound P) : r.markAllOptional.Sound P := by
  obtain ⟨infos, hrec, hpath⟩ := h
  refine ⟨_, hrec.markAllOptional, ?_⟩
  intro i hi
  obtain ⟨j, hj, rfl⟩ := List.mem_map.mp hi
  exact hpath j hj

theorem addField (h : r.Sound P) {info : FieldInfo ι} (hnew : ¬ P info.path)
    (hok : orDuplicateField (r.addField info) = .ok r') :
    r'.Sound fun q => P q ∨ q = info.path := by
  obtain ⟨infos, hrec, hpath⟩ := h
  have hadd := hrec.addField fun i hi (_ : i.key = info.key) heq => hnew (heq ▸ hpath i hi)
  cases hres : r.addField info with
  | error e => simp [hres, orDuplicateField, Except.mapError] at hok
  | ok r'' =>
    rw [hres] at hadd hok
    obtain rfl : r'' = r' := by simpa [orDuplicateField, Except.mapError] using hok
    refine ⟨_, hadd.1, ?_⟩
    intro i hi
    rcases List.mem_append.mp hi with hi | hi
    · exact .inl (hpath i hi)
    · exact .inr (by rw [List.mem_singleton.mp hi])

theorem merge (h : r.Sound P) {r₂ : Resolution ι} (h₂ : r₂.Sound Q)
    (hdisj : ∀ q, P q → ¬ Q q) (hok : orDuplicateField (r.merge r₂) = .ok r') :
    r'.Sound fun q => P q ∨ Q q := by
  obtain ⟨infos, hrec, hpath⟩ := h
  obtain ⟨infos₂, hrec₂, hpath₂⟩ := h₂
  have hmerge := hrec.merge hrec₂ fun i hi j hj heq => hdisj _ (hpath i hi) (heq ▸ hpath₂ j hj)
  cases hres : r.merge r₂ with
  | error e => simp [hres, orDuplicateField, Except.mapError] at hok
  | ok r'' =>
    rw [hres] at hmerge hok
    obtain rfl : r'' = r' := by simpa [orDuplicateField, Except.mapError] using hok
    refine ⟨_, hmerge.1, ?_⟩
    intro i hi
    rcases List.mem_append.mp hi with hi | hi
    · exact .inl (hpath i hi)
    · exact .inr (hpath₂ i hi)

end Resolution.Sound

/-- If the step succeeds, its resolutions are sound. -/
def AllSound (P : FieldPath → Prop) (result : Analysis (List (Resolution ι))) : Prop :=
  ∀ rs, result = .ok rs → ∀ r ∈ rs, r.Sound P

namespace AllSound

variable {P Q : FieldPath → Prop} {rs : List (Resolution ι)}
  {result : Analysis (List (Resolution ι))}

theorem ok (h : ∀ r ∈ rs, r.Sound P) : AllSound P (.ok rs) := AllOf.ok h

theorem error (P : FieldPath → Prop) (e : SchemaError) :
    AllSound P (.error e : Analysis (List (Resolution ι))) := AllOf.error _ e

theorem mono (h : AllSound P result) (hPQ : ∀ q, P q → Q q) : AllSound Q result :=
  AllOf.mono h fun _ hr => hr.mono hPQ

theorem bind {next : List (Resolution ι) → Analysis (List (Resolution ι))} (h : AllSound P result)
    (hnext : ∀ rs, (∀ r ∈ rs, r.Sound P) → AllSound Q (next rs)) :
    AllSound Q (result >>= next) := AllOf.bind h hnext

theorem keptAll (h : ∀ r ∈ rs, r.Sound P) (hkept : KeptAll SameChoice True rs result) :
    AllSound P result := AllOf.keptAll hkept fun r hr _ hsame => (h r hr).sameChoice hsame

theorem mapM {α : Type} {xs : List α} {step : α → Analysis (Resolution ι)}
    (h : ∀ x ∈ xs, ∀ r, step x = .ok r → r.Sound P) : AllSound P (xs.mapM step) := AllOf.mapM h

theorem flatMapM {α : Type} {xs : List α} {step : α → Analysis (List (Resolution ι))}
    (h : ∀ x ∈ xs, AllSound P (step x)) :
    AllSound P (xs.mapM step >>= fun rss => pure rss.flatten) := AllOf.flatMapM h

theorem markOptionalIf (h : ∀ r ∈ rs, r.Sound P) (optional : Bool) :
    ∀ r ∈ SchemaBuilder.markOptionalIf optional rs, r.Sound P :=
  AllOf.markOptionalIf h (fun _ hr => hr.markAllOptional) optional

theorem mergeEach {base : Resolution ι} (hbase : base.Sound P) (h : ∀ r ∈ rs, r.Sound Q)
    (hdisj : ∀ q, P q → ¬ Q q) :
    AllSound (fun q => P q ∨ Q q) (SchemaBuilder.mergeEach base rs) :=
  .mapM fun r hr _ heq => hbase.merge (h r hr) hdisj heq

end AllSound

/-- A path properly below another. -/
def StrictlyBelow (path q : FieldPath) : Prop := ∃ seg, path ++ [seg] <+: q

theorem StrictlyBelow.ne {path q : FieldPath} (h : StrictlyBelow path q) : q ≠ path := by
  rintro rfl
  obtain ⟨seg, hseg⟩ := h
  have := hseg.length_le
  simp at this

theorem Under.strictlyBelow {path q : FieldPath} {f : Field ι} (h : Under path f q) :
    StrictlyBelow path q :=
  ⟨.field f.name, h⟩

theorem StrictlyBelow.prefix_of {path q : FieldPath} (h : StrictlyBelow path q) : path <+: q := by
  obtain ⟨seg, hseg⟩ := h
  exact (List.prefix_append path [seg]).trans hseg

theorem prefix_of_unwrapTransparentWithPath {n : ℕ} {s t : ι} {path path' : FieldPath}
    (h : unwrapTransparentWithPath shapes n s path = .ok (t, path')) : path <+: path' := by
  induction n generalizing s path with
  | zero => cases h
  | succ n ih =>
    rw [unwrapTransparentWithPath] at h
    split at h
    · exact (List.prefix_append path _).trans (ih h)
    · cases h
      exact List.prefix_rfl

/-- Rust makes the names of the fields of a struct, and of those of a variant, distinct. -/
structure WellNamed (shapes : Shapes ι) : Prop where
  struct : ∀ s st, (shapes s).ty = .user (.struct st) → (st.fields.map Field.name).Nodup
  variant : ∀ s en, (shapes s).ty = .user (.enum en) →
    ∀ v ∈ en.variants, (v.data.fields.map Field.name).Nodup

/-- A field is added at the path of `f` itself, and then a key path. -/
theorem fieldAdded {r r' : Resolution ι} {P : FieldPath → Prop} {f : Field ι} {path : FieldPath}
    {info : FieldInfo ι} {keyPath : KeyPath} (hr : r.Sound P)
    (hdisj : ∀ q, P q → ¬ Under path f q) (hinfo : Under path f info.path)
    (heq : (orDuplicateField (r.addField info) >>= fun r => pure (r.addKeyPath keyPath)) = .ok r') :
    r'.Sound fun q => P q ∨ Under path f q := by
  cases hadd : orDuplicateField (r.addField info) with
  | error e => simp [hadd, bind, Except.bind] at heq
  | ok r₁ =>
    simp only [hadd, bind, Except.bind, pure, Except.pure, Except.ok.injEq] at heq
    subst heq
    have hsound := hr.addField (fun hP => hdisj _ hP hinfo) hadd
    apply (hsound.addKeyPath keyPath).mono
    rintro q (hq | rfl)
    · exact .inl hq
    · exact .inr hinfo

variable (shapes b) in
/-- What the analysis returns at this fuel is sound. -/
structure AnalysisSound (n : ℕ) : Prop where
  struct : ∀ st path keyPrefix, (st.fields.map Field.name).Nodup →
    AllSound (Part.Covers path (.fields st.fields)) (b.analyzeStruct shapes n st path keyPrefix)
  field : ∀ f path keyPrefix rs (P : FieldPath → Prop), (∀ r ∈ rs, r.Sound P) →
    (∀ q, P q → ¬ Under path f q) → AllSound (fun q => P q ∨ Under path f q)
      (b.analyzeFieldIntoConfigs shapes n f path keyPrefix rs)
  flattened : ∀ f path keyPrefix rs (P : FieldPath → Prop), (∀ r ∈ rs, r.Sound P) →
    (∀ q, P q → ¬ Under path f q) → AllSound (fun q => P q ∨ Under path f q)
      (b.analyzeFlattenedFieldIntoConfigs shapes n f path keyPrefix rs)
  variant : ∀ v path keyPrefix, (v.data.fields.map Field.name).Nodup →
    AllSound (StrictlyBelow path) (b.analyzeVariantContent shapes n v path keyPrefix)

theorem AnalysisSound.fields {n : ℕ} (h : AnalysisSound shapes b n) {fs : List (Field ι)}
    (hnames : (fs.map Field.name).Nodup) (path : FieldPath) (keyPrefix : KeyPath)
    {rs : List (Resolution ι)} {P : FieldPath → Prop} (hrs : ∀ r ∈ rs, r.Sound P)
    (hdisj : ∀ q, P q → ¬ Part.Covers path (.fields fs) q) :
    AllSound (fun q => P q ∨ Part.Covers path (.fields fs) q) (fs.foldlM (fun configs f =>
      b.analyzeFieldIntoConfigs shapes n f path keyPrefix configs) rs) := by
  induction fs generalizing rs P with
  | nil => exact AllSound.ok fun r hr => (hrs r hr).mono fun q => .inl
  | cons f fs ih =>
    rw [List.map_cons, List.nodup_cons] at hnames
    rw [List.foldlM_cons]
    have hfirst := h.field f path keyPrefix rs P hrs fun q hq hunder =>
      hdisj q hq ⟨f, List.mem_cons_self, hunder⟩
    apply hfirst.bind
    intro rs' hrs'
    have hrest := ih hnames.2 hrs' ?_
    · apply hrest.mono
      rintro q ((hq | hq) | ⟨g, hg, hq⟩)
      · exact .inl hq
      · exact .inr ⟨f, List.mem_cons_self, hq⟩
      · exact .inr ⟨g, List.mem_cons_of_mem f hg, hq⟩
    · rintro q (hq | hq) ⟨g, hg, hunder⟩
      · exact hdisj q hq ⟨g, List.mem_cons_of_mem f hg, hunder⟩
      · exact hnames.1 (hq.name_eq hunder ▸ List.mem_map_of_mem hg)

theorem AnalysisSound.fromNew {n : ℕ} (h : AnalysisSound shapes b n) {fs : List (Field ι)}
    (hnames : (fs.map Field.name).Nodup) (path : FieldPath) (keyPrefix : KeyPath) :
    AllSound (Part.Covers path (.fields fs)) (fs.foldlM (fun configs f =>
      b.analyzeFieldIntoConfigs shapes n f path keyPrefix configs) [.new]) := by
  have hnew : ∀ r ∈ [(.new : Resolution ι)], r.Sound fun _ => False := by
    intro r hr
    rw [List.mem_singleton.mp hr]
    exact .new _
  apply (h.fields hnames path keyPrefix hnew (fun _ hq => hq.elim)).mono
  rintro q (hq | hq)
  · exact hq.elim
  · exact hq

theorem analysisSound_struct {n : ℕ} (h : AnalysisSound shapes b n) (st : StructType ι)
    (path : FieldPath) (keyPrefix : KeyPath) (hnames : (st.fields.map Field.name).Nodup) :
    AllSound (Part.Covers path (.fields st.fields))
      (b.analyzeStruct shapes (n + 1) st path keyPrefix) := by
  rw [SchemaBuilder.analyzeStruct]
  exact h.fromNew hnames path keyPrefix

theorem analysisSound_field {n : ℕ} (h : AnalysisSound shapes b n) (f : Field ι)
    (path : FieldPath) (keyPrefix : KeyPath) {rs : List (Resolution ι)} {P : FieldPath → Prop}
    (hrs : ∀ r ∈ rs, r.Sound P) (hdisj : ∀ q, P q → ¬ Under path f q) :
    AllSound (fun q => P q ∨ Under path f q)
      (b.analyzeFieldIntoConfigs shapes (n + 1) f path keyPrefix rs) := by
  rw [SchemaBuilder.analyzeFieldIntoConfigs]
  split_ifs
  · exact h.flattened f path keyPrefix rs P hrs hdisj
  · apply AllSound.bind
    · apply AllSound.mapM
      intro r hr r' heq
      refine fieldAdded (hrs r hr) hdisj ?_ heq
      exact List.prefix_rfl
    · intro rs' hrs'
      exact AllSound.keptAll hrs' ((nestedKept .sameChoice n).shape _ _ rs')

/-- The contents of a variant are merged into a configuration without fields below it. -/
theorem analysisSound_inline {n : ℕ} (h : AnalysisSound shapes b n) {v : Variant ι}
    (hnames : (v.data.fields.map Field.name).Nodup) (variantPath : FieldPath)
    (keyPrefix : KeyPath) (optional : Bool) {base : Resolution ι} {P : FieldPath → Prop}
    (hbase : base.Sound P) (hdisj : ∀ q, P q → ¬ StrictlyBelow variantPath q) :
    AllSound (fun q => P q ∨ StrictlyBelow variantPath q)
      (b.analyzeVariantContent shapes n v variantPath keyPrefix >>= fun variantConfigs =>
        SchemaBuilder.mergeEach base
          (SchemaBuilder.markOptionalIf optional variantConfigs)) := by
  apply (h.variant v variantPath keyPrefix hnames).bind
  intro configs hconfigs
  exact AllSound.mergeEach hbase (AllSound.markOptionalIf hconfigs optional) hdisj

/-- The selector of a variant is added before what depends on the representation. -/
theorem AllSound.selector {base : Resolution ι} {info : FieldInfo ι} {P Q : FieldPath → Prop}
    {next : Resolution ι → Analysis (List (Resolution ι))} (hbase : base.Sound P)
    (hnew : ¬ P info.path)
    (hnext : ∀ r, (r.Sound fun q => P q ∨ q = info.path) → AllSound Q (next r)) :
    AllSound Q (orDuplicateField (base.addField info) >>= next) := by
  cases hadd : orDuplicateField (base.addField info) with
  | error e => exact .error Q e
  | ok r => exact hnext r (hbase.addField hnew hadd)

/-- The paths below a nested variant are collected at the end. -/
theorem AllSound.nested {r : Resolution ι} {P : FieldPath → Prop}
    {collect : Analysis (Resolution ι)} (hr : r.Sound P) (hkept : Kept SameChoice True r collect) :
    AllSound P (collect >>= fun r => pure [r]) := by
  cases hres : collect with
  | error e => exact .error P e
  | ok r' =>
    apply AllSound.ok
    intro r'' hr''
    rw [List.mem_singleton.mp hr'']
    exact hr.sameChoice (hkept.of_ok hres)

theorem analysisSound_enum {n : ℕ} (h : AnalysisSound shapes b n) {f : Field ι}
    {path fieldPath : FieldPath} (hpath : path.pushField f.name <+: fieldPath)
    (keyPrefix : KeyPath) (optional : Bool) (s : ι) {base : Resolution ι}
    {P : FieldPath → Prop} (hbase : base.Sound P) (hdisj : ∀ q, P q → ¬ Under path f q)
    {v : Variant ι} (hnames : (v.data.fields.map Field.name).Nodup) :
    AllSound (fun q => P q ∨ Under path f q)
      (b.forkVariant shapes n f fieldPath keyPrefix optional s base v) := by
  have hvariant : Under path f (fieldPath.pushVariant f.name v.name) :=
    hpath.trans (List.prefix_append _ _)
  have hbelow (q : FieldPath) (hq : StrictlyBelow (fieldPath.pushVariant f.name v.name) q) :
      Under path f q := hvariant.trans hq.prefix_of
  have hselector (q : FieldPath) (hq : P q ∨ q = fieldPath.pushVariant f.name v.name) :
      ¬ StrictlyBelow (fieldPath.pushVariant f.name v.name) q := by
    intro hstrict
    rcases hq with hq | rfl
    · exact hdisj q hq (hbelow q hstrict)
    · exact hstrict.ne rfl
  have hunder (q : FieldPath) (hq : P q ∨ q = fieldPath.pushVariant f.name v.name) :
      P q ∨ Under path f q := by
    rcases hq with hq | rfl
    · exact .inl hq
    · exact .inr hvariant
  have hnew : ¬ P (fieldPath.pushVariant f.name v.name) := fun hP => hdisj _ hP hvariant
  have hforked := hbase.addVariantSelection fieldPath (shapes s).typeIdentifier v.name
  unfold SchemaBuilder.forkVariant
  cases b.reprOf shapes s with
  | flattened =>
    apply (analysisSound_inline h hnames _ keyPrefix optional hforked
      fun q hq => hselector q (.inl hq)).mono
    exact fun q hq => hq.imp_right (hbelow q)
  | internallyTagged tag =>
    apply AllSound.selector (hforked.addKeyPath _) hnew
    intro r hr
    apply (analysisSound_inline h hnames _ keyPrefix optional hr hselector).mono
    rintro q (hq | hq)
    · exact hunder q hq
    · exact .inr (hbelow q hq)
  | externallyTagged =>
    apply AllSound.selector (hforked.addKeyPath _) hnew
    intro r hr
    exact (AllSound.nested hr ((onlyKept .sameChoice n).variant v _ r)).mono hunder
  | adjacentlyTagged tag content =>
    apply AllSound.selector (hforked.addKeyPath _) hnew
    intro r hr
    exact (AllSound.nested (hr.addKeyPath _) ((onlyKept .sameChoice n).variant v _ _)).mono hunder

theorem analysisSound_flattened (hwell : WellNamed shapes) {n : ℕ} (h : AnalysisSound shapes b n)
    (f : Field ι) (path : FieldPath) (keyPrefix : KeyPath) {rs : List (Resolution ι)}
    {P : FieldPath → Prop} (hrs : ∀ r ∈ rs, r.Sound P) (hdisj : ∀ q, P q → ¬ Under path f q) :
    AllSound (fun q => P q ∨ Under path f q)
      (b.analyzeFlattenedFieldIntoConfigs shapes (n + 1) f path keyPrefix rs) := by
  rw [SchemaBuilder.analyzeFlattenedFieldIntoConfigs, unwrapOptionalFlatten_eq]
  dsimp only
  cases hunwrap : unwrapTransparentWithPath shapes n (flattenStart shapes f)
    (path.pushField f.name) with
  | error e => exact AllSound.error _ e
  | ok unwrapped =>
    obtain ⟨t, fieldPath⟩ := unwrapped
    have hpath := prefix_of_unwrapTransparentWithPath hunwrap
    rw [ok_bind]
    dsimp only
    split
    · next st hty =>
      apply (h.struct st fieldPath keyPrefix (hwell.struct t st hty)).bind
      intro configs hconfigs
      apply AllSound.flatMapM
      intro base hbase
      have hbelow (q : FieldPath) (hq : Part.Covers fieldPath (.fields st.fields) q) :
          Under path f q := by
        obtain ⟨g, -, hunder⟩ := hq
        exact (hpath.trans (List.prefix_append _ _)).trans hunder
      apply (AllSound.mergeEach (hrs base hbase) (AllSound.markOptionalIf hconfigs _)
        fun q hq hq' => hdisj q hq (hbelow q hq')).mono
      exact fun q hq => hq.imp_right (hbelow q)
    · next en hty =>
      apply AllSound.flatMapM
      intro base hbase
      apply AllSound.flatMapM
      intro v hv
      exact analysisSound_enum h hpath keyPrefix _ t (hrs base hbase) hdisj
        (hwell.variant t en hty v hv)
    · split
      · apply AllSound.ok
        intro r hr
        obtain ⟨r', hr', rfl⟩ := List.mem_map.mp hr
        exact ((hrs r' hr').setCatchAllMap _ _).mono fun q => .inl
      · apply AllSound.ok
        intro r hr
        obtain ⟨r', hr', rfl⟩ := List.mem_map.mp hr
        exact ((hrs r' hr').setCatchAllMap _ _).mono fun q => .inl
      · apply AllSound.mapM
        intro r hr r' heq
        refine fieldAdded (hrs r hr) hdisj ?_ heq
        exact hpath

theorem analysisSound_variant (hwell : WellNamed shapes) {n : ℕ} (h : AnalysisSound shapes b n)
    (v : Variant ι) (path : FieldPath) (keyPrefix : KeyPath)
    (hnames : (v.data.fields.map Field.name).Nodup) :
    AllSound (StrictlyBelow path) (b.analyzeVariantContent shapes (n + 1) v path keyPrefix) := by
  have hfields : AllSound (StrictlyBelow path) (v.data.fields.foldlM (fun configs field =>
      b.analyzeFieldIntoConfigs shapes n field path keyPrefix configs) [.new]) := by
    apply (h.fromNew hnames path keyPrefix).mono
    rintro q ⟨f, -, hunder⟩
    exact hunder.strictlyBelow
  rw [SchemaBuilder.analyzeVariantContent]
  cases newtypeField v with
  | none => exact hfields
  | some f =>
    dsimp only
    cases hunwrap : unwrapToEffectiveShape shapes n f.shape with
    | error e => exact AllSound.error _ e
    | ok t =>
      rw [ok_bind]
      split
      · next st hty =>
        apply (h.struct st (path.pushField "0") keyPrefix (hwell.struct t st hty)).mono
        rintro q ⟨g, -, hunder⟩
        exact ⟨.field "0", (List.prefix_append _ _).trans hunder⟩
      · exact hfields

theorem analysisSound (hwell : WellNamed shapes) (n : ℕ) : AnalysisSound shapes b n := by
  induction n with
  | zero =>
    constructor <;> intros
    · exact AllSound.error _ _
    · exact AllSound.error _ _
    · exact AllSound.error _ _
    · exact AllSound.error _ _
  | succ n ih =>
    constructor
    · exact analysisSound_struct ih
    · exact fun f path keyPrefix rs P => analysisSound_field ih f path keyPrefix
    · exact fun f path keyPrefix rs P => analysisSound_flattened hwell ih f path keyPrefix
    · exact analysisSound_variant hwell ih

/-- The required names of a resolution are those of its required fields. -/
def Resolution.RequiredMatch (r : Resolution ι) : Prop :=
  ∀ name, name ∈ r.requiredFieldNames ↔
    ∃ info ∈ r.fields.values, info.required ∧ info.serializedName = name

theorem values_eq_map_toList {α β : Type} {cmp : α → α → Ordering} (t : Std.TreeMap α β cmp) :
    t.values = t.toList.map Prod.snd := by
  have hvalues : t.values = t.foldr (fun _ v acc => v :: acc) [] := rfl
  rw [hvalues, Std.TreeMap.foldr_eq_foldr_toList]
  induction t.toList with
  | nil => rfl
  | cons x xs ih => simp [ih]

theorem Resolution.mem_values_iff (r : Resolution ι) (info : FieldInfo ι) :
    info ∈ r.fields.values ↔ ∃ key : FieldKey, r.fields[key]? = some info := by
  rw [values_eq_map_toList]
  simp only [List.mem_map, Prod.exists, Std.TreeMap.mem_toList_iff_getElem?_eq_some]
  simp

theorem Resolution.Sound.requiredMatch {P : FieldPath → Prop} {r : Resolution ι} (h : r.Sound P) :
    r.RequiredMatch := by
  obtain ⟨infos, hrec, -⟩ := h
  have hmem (info : FieldInfo ι) : info ∈ r.fields.values ↔ info ∈ infos := by
    rw [r.mem_values_iff]
    simp [hrec.fields]
  intro name
  simp only [hrec.required, hmem]

/-- Every resolution of a schema takes exactly the names of its required fields to be
required. -/
theorem analyze_requiredMatch (hwell : WellNamed shapes) {n : ℕ} {rs : List (Resolution ι)}
    (h : b.analyze shapes n = .ok rs) : ∀ r ∈ rs, r.RequiredMatch := by
  have hsound := analysisSound (b := b) hwell n
  have hall : AllSound (fun _ => True) (b.analyze shapes n) := by
    unfold SchemaBuilder.analyze SchemaBuilder.analyzeShape
    cases hty : (shapes b.shape).ty with
    | user ty =>
      cases ty with
      | struct st =>
        exact (hsound.struct st [] [] (hwell.struct _ st hty)).mono fun _ _ => trivial
      | enum en =>
        apply AllSound.flatMapM
        intro v hv
        have hconfig : ((.new : Resolution ι).addVariantSelection []
            (shapes b.shape).typeIdentifier v.name).Sound fun _ => False :=
          (Resolution.Sound.new _).addVariantSelection _ _ _
        have hfork := analysisSound_inline hsound (hwell.variant _ en hty v hv)
          (FieldPath.pushVariant [] "" v.name) [] false hconfig (fun _ hq => hq.elim)
        exact hfork.mono fun _ _ => trivial
      | _ => exact AllSound.ok (by simpa using Resolution.Sound.new _)
    | _ => exact AllSound.ok (by simpa using Resolution.Sound.new _)
  intro r hr
  exact (hall rs h r hr).requiredMatch

end Facet.Flatten
