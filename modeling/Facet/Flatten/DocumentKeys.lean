import Facet.Flatten.Collecting
import Facet.Flatten.Enumeration
import Facet.Flatten.Probing

/-!
# The keys of documents are known

Every document that a choice of variants lays out has a resolution that knows the paths of
its keys, as long as no flattened enum inside an ordinary field put them there. The
analysis is followed along the layout: it never forgets a path, and it adds those of the
part it has just gone through.
-/

namespace Facet.Flatten

variable {ι : Type} {shapes : Shapes ι} {b : SchemaBuilder ι}

/-- Every path that `r` knows is known to `r'`. -/
def Grows (r r' : Resolution ι) : Prop := ∀ path, r.hasKeyPath path → r'.hasKeyPath path

/-- The keys that the schema answers for are known to the resolution. -/
def Resolution.Knows (r : Resolution ι) (D : List DocumentKey) : Prop :=
  ∀ k ∈ D, k.inner = false → r.hasKeyPath k.path

/-- Every configuration goes on to one that knows the keys as well. -/
def Reaches (rs rs' : List (Resolution ι)) (D : List DocumentKey) : Prop :=
  ∀ r ∈ rs, ∃ r' ∈ rs', Grows r r' ∧ r'.Knows D

section Growth

variable {r r' r'' : Resolution ι} {rs rs' rs'' : List (Resolution ι)} {D E : List DocumentKey}

theorem Grows.refl (r : Resolution ι) : Grows r r := fun _ h => h

theorem Grows.trans (h : Grows r r') (h' : Grows r' r'') : Grows r r'' :=
  fun path hp => h' path (h path hp)

theorem hasKeyPath_addKeyPath (r : Resolution ι) (path q : KeyPath) :
    (r.addKeyPath path).hasKeyPath q ↔ q = path ∨ r.hasKeyPath q := by
  simp only [Resolution.hasKeyPath, Resolution.addKeyPath, Std.TreeSet.contains_insert,
    Bool.or_eq_true, beq_iff_eq, Std.compare_eq_iff_eq, @eq_comm _ path q]

theorem Grows.addKeyPath (r : Resolution ι) (path : KeyPath) : Grows r (r.addKeyPath path) :=
  fun q hq => (hasKeyPath_addKeyPath r path q).mpr (.inr hq)

theorem PathClosed.grows : PathClosed (Grows : Resolution ι → Resolution ι → Prop) where
  refl := Grows.refl
  trans _ _ _ := Grows.trans
  addKeyPath := Grows.addKeyPath

theorem Grows.knows (h : Grows r r') (hk : r.Knows D) : r'.Knows D :=
  fun k hkD hinner => h _ (hk k hkD hinner)

theorem Resolution.Knows.append (h : r.Knows D) (h' : r.Knows E) : r.Knows (D ++ E) :=
  List.forall_mem_append.mpr ⟨h, h'⟩

theorem Resolution.Knows.nil (r : Resolution ι) : r.Knows [] := by
  intro k hk
  cases hk

theorem Resolution.knows_mark (r : Resolution ι) (D : List DocumentKey) :
    r.Knows (D.map DocumentKey.mark) := by
  intro k hk hinner
  obtain ⟨k', -, rfl⟩ := List.mem_map.mp hk
  cases hinner

theorem Reaches.trans (h : Reaches rs rs' D) (h' : Reaches rs' rs'' E) :
    Reaches rs rs'' (D ++ E) := by
  intro r hr
  obtain ⟨r', hr', hgrows, hknows⟩ := h r hr
  obtain ⟨r'', hr'', hgrows', hknows'⟩ := h' r' hr'
  exact ⟨r'', hr'', hgrows.trans hgrows', (hgrows'.knows hknows).append hknows'⟩

theorem Reaches.nil (rs : List (Resolution ι)) : Reaches rs rs [] :=
  fun r hr => ⟨r, hr, .refl r, .nil r⟩

theorem Reaches.of_kept {result : Analysis (List (Resolution ι))} (h : KeptAll Grows True rs result)
    (hres : result = .ok rs') (hknows : ∀ r : Resolution ι, r.Knows D) : Reaches rs rs' D := by
  intro r hr
  obtain ⟨r', hr', hgrows⟩ := exists_of_forall₂_right (h.of_ok hres).flip hr
  exact ⟨r', hr', hgrows, hknows r'⟩

theorem Reaches.addKeyPath (rs : List (Resolution ι)) (ancestors : KeyPath) (key : String) :
    Reaches rs (rs.map fun r => r.addKeyPath (ancestors ++ [key])) [⟨ancestors, key, false⟩] := by
  intro r hr
  refine ⟨_, List.mem_map_of_mem hr, .addKeyPath r _, ?_⟩
  intro k hk _
  rw [List.mem_singleton.mp hk]
  exact (hasKeyPath_addKeyPath r _ _).mpr (.inl rfl)

end Growth

section Merging

variable {r r' r₁ : Resolution ι}

theorem knownPaths_tryPutField {key : FieldKey} {info : FieldInfo ι}
    (h : r.tryPutField key info = .ok r') : r'.knownPaths = r.knownPaths := by
  unfold Resolution.tryPutField at h
  split at h
  · cases h
  · cases h
    rfl

theorem knownPaths_mergeFields {entries : List (FieldKey × FieldInfo ι)}
    (h : r.mergeFields entries = .ok r') : r'.knownPaths = r.knownPaths := by
  induction entries generalizing r with
  | nil =>
    cases h
    rfl
  | cons entry entries ih =>
    rw [Resolution.mergeFields] at h
    cases hput : r.tryPutField entry.1 entry.2 with
    | error e => simp [hput] at h
    | ok r₁ =>
      simp only [hput] at h
      rw [ih h, knownPaths_tryPutField hput]

theorem mem_foldl_insert {α : Type} [Ord α] [Std.TransOrd α] [Std.LawfulEqOrd α] (xs : List α)
    (s : Std.TreeSet α) (x : α) : x ∈ xs.foldl (·.insert ·) s ↔ x ∈ s ∨ x ∈ xs := by
  induction xs generalizing s with
  | nil => simp
  | cons y ys ih =>
    rw [List.foldl_cons, ih, Std.TreeSet.mem_insert, Std.compare_eq_iff_eq, List.mem_cons]
    tauto

theorem variantSelections_tryPutField {key : FieldKey} {info : FieldInfo ι}
    (h : r.tryPutField key info = .ok r') : r'.variantSelections = r.variantSelections := by
  unfold Resolution.tryPutField at h
  split at h
  · cases h
  · cases h
    rfl

theorem variantSelections_mergeFields {entries : List (FieldKey × FieldInfo ι)}
    (h : r.mergeFields entries = .ok r') : r'.variantSelections = r.variantSelections := by
  induction entries generalizing r with
  | nil =>
    cases h
    rfl
  | cons entry entries ih =>
    rw [Resolution.mergeFields] at h
    cases hput : r.tryPutField entry.1 entry.2 with
    | error e => simp [hput] at h
    | ok r₁ =>
      simp only [hput] at h
      rw [ih h, variantSelections_tryPutField hput]

theorem variantSelections_merge (h : r.merge r₁ = .ok r') :
    r'.variantSelections = r.variantSelections ++ r₁.variantSelections := by
  unfold Resolution.merge at h
  cases hfields : r.mergeFields r₁.fields.toList with
  | error e => simp [hfields] at h
  | ok r₂ =>
    simp only [hfields, Except.ok.injEq] at h
    subst h
    simp only [variantSelections_mergeFields hfields]

theorem hasKeyPath_merge (h : r.merge r₁ = .ok r') (path : KeyPath) :
    r'.hasKeyPath path ↔ r.hasKeyPath path ∨ r₁.hasKeyPath path := by
  unfold Resolution.merge at h
  cases hfields : r.mergeFields r₁.fields.toList with
  | error e => simp [hfields] at h
  | ok r₂ =>
    simp only [hfields, Except.ok.injEq] at h
    subst h
    simp only [Resolution.hasKeyPath, Std.TreeSet.contains_iff_mem,
      Std.TreeSet.foldl_eq_foldl_toList, mem_foldl_insert, Std.TreeSet.mem_toList,
      knownPaths_mergeFields hfields]

theorem grows_of_merge (h : r.merge r₁ = .ok r') : Grows r r' :=
  fun path hp => (hasKeyPath_merge h path).mpr (.inl hp)

theorem knows_of_merge {D : List DocumentKey} (h : r.merge r₁ = .ok r') (hknows : r₁.Knows D) :
    r'.Knows D :=
  fun k hk hinner => (hasKeyPath_merge h _).mpr (.inr (hknows k hk hinner))

theorem orDuplicateField_eq_ok {α : Type} {result : Except DuplicateFieldError α} {x : α}
    (h : orDuplicateField result = .ok x) : result = .ok x := by
  cases result with
  | error e => cases h
  | ok y =>
    cases h
    rfl

/-- Merging a list of configurations into one reaches what any of them knows. -/
theorem knows_of_mergeEach {configs merged : List (Resolution ι)} {D : List DocumentKey}
    (h : SchemaBuilder.mergeEach r configs = .ok merged) (hr₁ : r₁ ∈ configs)
    (hknows : r₁.Knows D) : ∃ r' ∈ merged, Grows r r' ∧ r'.Knows D := by
  obtain ⟨r', hr', hmerge⟩ := ExceptList.exists_ok_of_mapM_ok h hr₁
  have hmerge := orDuplicateField_eq_ok hmerge
  exact ⟨r', hr', grows_of_merge hmerge, knows_of_merge hmerge hknows⟩

end Merging

section Collection

variable (shapes) in
/-- Collecting nested paths reaches the keys of the part. -/
def CollectsKeys (ancestors : KeyPath) (D : List DocumentKey) : Part ι → Prop
  | .fields fs => ∀ n rs rs', fs.foldlM (fun configs f =>
      if f.isFlattened then collectNestedKeyPathsForFlattened shapes n f ancestors configs
      else collectNestedKeyPathsForShape shapes n f.shape (ancestors ++ [f.effectiveName])
        (configs.map fun config => config.addKeyPath (ancestors ++ [f.effectiveName]))) rs
        = .ok rs' → Reaches rs rs' D
  | .flattened f => ∀ n rs rs',
      collectNestedKeyPathsForFlattened shapes n f ancestors rs = .ok rs' → Reaches rs rs' D
  | .variant _ => True

theorem CollectsKeys.struct {ancestors : KeyPath} {D : List DocumentKey} {st : StructType ι}
    (h : CollectsKeys shapes ancestors D (.fields st.fields)) {n : ℕ}
    {rs rs' : List (Resolution ι)}
    (hres : collectNestedKeyPathsForStruct shapes n st ancestors rs = .ok rs') :
    Reaches rs rs' D := by
  cases n with
  | zero => cases hres
  | succ n => exact h n rs rs' hres

theorem CollectsKeys.shape {ancestors : KeyPath} {D : List DocumentKey} {s : ι}
    {st : StructType ι} (hty : (shapes s).ty = .user (.struct st))
    (h : CollectsKeys shapes ancestors D (.fields st.fields)) {n : ℕ}
    {rs rs' : List (Resolution ι)}
    (hres : collectNestedKeyPathsForShape shapes n s ancestors rs = .ok rs') :
    Reaches rs rs' D := by
  cases n with
  | zero => cases hres
  | succ n =>
    rw [collectNestedKeyPathsForShape, hty] at hres
    exact h.struct hres

theorem reaches_shape {s : ι} {n : ℕ} {ancestors : KeyPath} {rs rs' : List (Resolution ι)}
    (hres : collectNestedKeyPathsForShape shapes n s ancestors rs = .ok rs') :
    Reaches rs rs' [] :=
  .of_kept ((nestedKept .grows n).shape s ancestors rs) hres Resolution.Knows.nil

theorem collectsKeys_cons {f : Field ι} {fs : List (Field ι)} {ancestors : KeyPath}
    {E D : List DocumentKey}
    (hstep : ∀ n rs rs', (if f.isFlattened then
        collectNestedKeyPathsForFlattened shapes n f ancestors rs
      else collectNestedKeyPathsForShape shapes n f.shape (ancestors ++ [f.effectiveName])
        (rs.map fun config => config.addKeyPath (ancestors ++ [f.effectiveName]))) = .ok rs' →
      Reaches rs rs' E)
    (h : CollectsKeys shapes ancestors D (.fields fs)) :
    CollectsKeys shapes ancestors (E ++ D) (.fields (f :: fs)) := by
  intro n rs rs' hres
  rw [List.foldlM_cons] at hres
  obtain ⟨rs₁, hfirst, hrest⟩ := ExceptList.exists_of_bind_ok hres
  exact (hstep n rs rs₁ hfirst).trans (h n rs₁ rs' hrest)

/-- A field that is not flattened, given the keys below it. -/
theorem collectsKeys_plain {f : Field ι} {fs : List (Field ι)} {ancestors : KeyPath}
    {E D : List DocumentKey} (hf : f.isFlattened = false)
    (hbelow : ∀ n rs rs', collectNestedKeyPathsForShape shapes n f.shape
      (ancestors ++ [f.effectiveName]) rs = .ok rs' → Reaches rs rs' E)
    (h : CollectsKeys shapes ancestors D (.fields fs)) :
    CollectsKeys shapes ancestors (⟨ancestors, f.effectiveName, false⟩ :: (E ++ D))
      (.fields (f :: fs)) := by
  apply collectsKeys_cons (E := ⟨ancestors, f.effectiveName, false⟩ :: E) _ h
  intro n rs rs' hres
  rw [if_neg (by simp [hf])] at hres
  exact (Reaches.addKeyPath rs ancestors f.effectiveName).trans (hbelow n _ rs' hres)

theorem collectsKeys_flat {f : Field ι} {fs : List (Field ι)} {ancestors : KeyPath}
    {E D : List DocumentKey} (hf : f.isFlattened = true)
    (hfirst : CollectsKeys shapes ancestors E (.flattened f))
    (h : CollectsKeys shapes ancestors D (.fields fs)) :
    CollectsKeys shapes ancestors (E ++ D) (.fields (f :: fs)) := by
  apply collectsKeys_cons _ h
  intro n rs rs' hres
  rw [if_pos hf] at hres
  exact hfirst n rs rs' hres

theorem collectsKeys_struct {f : Field ι} {st : StructType ι} {ancestors : KeyPath}
    {D : List DocumentKey} (hty : (shapes f.shape).ty = .user (.struct st))
    (h : CollectsKeys shapes ancestors D (.fields st.fields)) :
    CollectsKeys shapes ancestors D (.flattened f) := by
  intro n rs rs' hres
  cases n with
  | zero => cases hres
  | succ n =>
    rw [collectNestedKeyPathsForFlattened, hty] at hres
    exact h.struct hres

/-- What a flattened enum inside a field contributes is not looked at. -/
theorem collectsKeys_enum (f : Field ι) (ancestors : KeyPath) (D : List DocumentKey) :
    CollectsKeys shapes ancestors (D.map DocumentKey.mark) (.flattened f) := by
  intro n rs rs' hres
  exact .of_kept ((nestedKept .grows n).flattened f ancestors rs) hres
    fun r => r.knows_mark D

end Collection

section Analysis

variable (shapes b) in
/-- The analysis reaches the keys of the part. -/
def AnalysesKeys (ancestors : KeyPath) (D : List DocumentKey) : Part ι → Prop
  | .fields fs => ∀ n path rs rs', fs.foldlM (fun configs f =>
      b.analyzeFieldIntoConfigs shapes n f path ancestors configs) rs = .ok rs' →
      Reaches rs rs' D
  | .flattened f => ∀ n path rs rs',
      b.analyzeFlattenedFieldIntoConfigs shapes n f path ancestors rs = .ok rs' →
      Reaches rs rs' D
  | .variant v => ∀ n path rs', b.analyzeVariantContent shapes n v path ancestors = .ok rs' →
      ∃ r' ∈ rs', r'.Knows D

/-- Fields analysed on their own start with one empty configuration. -/
theorem AnalysesKeys.fromNew {ancestors : KeyPath} {D : List DocumentKey} {fs : List (Field ι)}
    (h : AnalysesKeys shapes b ancestors D (.fields fs)) {n : ℕ} {path : FieldPath}
    {rs' : List (Resolution ι)}
    (hres : fs.foldlM (fun configs f =>
      b.analyzeFieldIntoConfigs shapes n f path ancestors configs) [.new] = .ok rs') :
    ∃ r' ∈ rs', r'.Knows D := by
  obtain ⟨r', hr', -, hknows⟩ := h n path [.new] rs' hres .new (List.mem_singleton_self _)
  exact ⟨r', hr', hknows⟩

theorem AnalysesKeys.fromStruct {ancestors : KeyPath} {D : List DocumentKey}
    {st : StructType ι} (h : AnalysesKeys shapes b ancestors D (.fields st.fields)) {n : ℕ}
    {path : FieldPath} {rs' : List (Resolution ι)}
    (hres : b.analyzeStruct shapes n st path ancestors = .ok rs') : ∃ r' ∈ rs', r'.Knows D := by
  cases n with
  | zero => cases hres
  | succ n =>
    rw [SchemaBuilder.analyzeStruct] at hres
    exact h.fromNew hres

theorem analysesKeys_cons {f : Field ι} {fs : List (Field ι)} {ancestors : KeyPath}
    {E D : List DocumentKey}
    (hstep : ∀ n path rs rs', b.analyzeFieldIntoConfigs shapes n f path ancestors rs = .ok rs' →
      Reaches rs rs' E)
    (h : AnalysesKeys shapes b ancestors D (.fields fs)) :
    AnalysesKeys shapes b ancestors (E ++ D) (.fields (f :: fs)) := by
  intro n path rs rs' hres
  rw [List.foldlM_cons] at hres
  obtain ⟨rs₁, hfirst, hrest⟩ := ExceptList.exists_of_bind_ok hres
  exact (hstep n path rs rs₁ hfirst).trans (h n path rs₁ rs' hrest)

/-- The key of a field that is not flattened is added to every configuration. -/
theorem reaches_addField {rs rs' : List (Resolution ι)} {info : FieldInfo ι}
    {ancestors : KeyPath} {key : String}
    (hres : rs.mapM (fun config => orDuplicateField (config.addField info) >>= fun config =>
      pure (config.addKeyPath (ancestors ++ [key]))) = .ok rs') :
    Reaches rs rs' [⟨ancestors, key, false⟩] := by
  intro r hr
  obtain ⟨r', hr', hstep⟩ := ExceptList.exists_ok_of_mapM_ok hres hr
  obtain ⟨r₁, hadd, heq⟩ := ExceptList.exists_of_bind_ok hstep
  cases heq
  have hpaths := knownPaths_tryPutField (orDuplicateField_eq_ok hadd)
  have hgrows : Grows r r₁ := by
    intro path hpath
    rw [Resolution.hasKeyPath, hpaths]
    exact hpath
  refine ⟨_, hr', hgrows.trans (.addKeyPath r₁ _), ?_⟩
  intro k hk _
  rw [List.mem_singleton.mp hk]
  exact (hasKeyPath_addKeyPath r₁ _ _).mpr (.inl rfl)

theorem analysesKeys_plain {f : Field ι} {fs : List (Field ι)} {ancestors : KeyPath}
    {E D : List DocumentKey} (hf : f.isFlattened = false)
    (hbelow : ∀ n rs rs', collectNestedKeyPathsForShape shapes n f.shape
      (ancestors ++ [f.effectiveName]) rs = .ok rs' → Reaches rs rs' E)
    (h : AnalysesKeys shapes b ancestors D (.fields fs)) :
    AnalysesKeys shapes b ancestors (⟨ancestors, f.effectiveName, false⟩ :: (E ++ D))
      (.fields (f :: fs)) := by
  apply analysesKeys_cons (E := ⟨ancestors, f.effectiveName, false⟩ :: E) _ h
  intro n path rs rs' hres
  cases n with
  | zero => cases hres
  | succ n =>
    rw [SchemaBuilder.analyzeFieldIntoConfigs, if_neg (by simp [hf])] at hres
    obtain ⟨rs₁, hadd, hrest⟩ := ExceptList.exists_of_bind_ok hres
    exact (reaches_addField hadd).trans (hbelow n rs₁ rs' hrest)

theorem analysesKeys_flat {f : Field ι} {fs : List (Field ι)} {ancestors : KeyPath}
    {E D : List DocumentKey} (hf : f.isFlattened = true)
    (hfirst : AnalysesKeys shapes b ancestors E (.flattened f))
    (h : AnalysesKeys shapes b ancestors D (.fields fs)) :
    AnalysesKeys shapes b ancestors (E ++ D) (.fields (f :: fs)) := by
  apply analysesKeys_cons _ h
  intro n path rs rs' hres
  cases n with
  | zero => cases hres
  | succ n =>
    rw [SchemaBuilder.analyzeFieldIntoConfigs, if_pos hf] at hres
    exact hfirst n path rs rs' hres

theorem Direct.flattenStart {f : Field ι} (h : Direct shapes f.shape) :
    flattenStart shapes f = f.shape := by
  have hoption := h.option
  unfold isOptionType at hoption
  unfold Flatten.flattenStart unwrapOptionType
  cases hdef : (shapes f.shape).def with
  | option t => simp [hdef] at hoption
  | _ => rfl

theorem Direct.withPath {s : ι} (h : Direct shapes s) {n : ℕ} {path : FieldPath}
    {found : ι × FieldPath} (hres : unwrapTransparentWithPath shapes n s path = .ok found) :
    found = (s, path) := by
  cases n with
  | zero => cases hres
  | succ n =>
    rw [unwrapTransparentWithPath, h.inner] at hres
    cases hres
    rfl

theorem Direct.effective {s : ι} (h : Direct shapes s) {n : ℕ} {t : ι}
    (hres : unwrapToEffectiveShape shapes n s = .ok t) : t = s := by
  cases n with
  | zero => cases hres
  | succ n =>
    rw [unwrapToEffectiveShape] at hres
    obtain ⟨s', htransparent, hres⟩ := ExceptList.exists_of_bind_ok hres
    cases n with
    | zero => cases htransparent
    | succ n =>
      rw [unwrapTransparent, h.inner] at htransparent
      cases htransparent
      rw [h.proxy] at hres
      cases hres
      rfl

theorem analysesKeys_struct {f : Field ι} {st : StructType ι} {ancestors : KeyPath}
    {D : List DocumentKey} (hdirect : Direct shapes f.shape)
    (hty : (shapes f.shape).ty = .user (.struct st))
    (h : AnalysesKeys shapes b ancestors D (.fields st.fields)) :
    AnalysesKeys shapes b ancestors D (.flattened f) := by
  intro n path rs rs' hres r hr
  cases n with
  | zero => cases hres
  | succ n =>
    rw [SchemaBuilder.analyzeFlattenedFieldIntoConfigs, unwrapOptionalFlatten_eq] at hres
    dsimp only at hres
    obtain ⟨found, hfound, hres⟩ := ExceptList.exists_of_bind_ok hres
    rw [hdirect.flattenStart] at hfound
    cases hdirect.withPath hfound
    simp only [hty, hdirect.option, SchemaBuilder.markOptionalIf, Bool.false_eq_true, if_false]
      at hres
    obtain ⟨configs, hconfigs, hres⟩ := ExceptList.exists_of_bind_ok hres
    obtain ⟨merged, hmerged, hres⟩ := ExceptList.exists_of_bind_ok hres
    cases hres
    obtain ⟨r₁, hr₁, hknows⟩ := h.fromStruct hconfigs
    obtain ⟨rs₁, hrs₁, hmerge⟩ := ExceptList.exists_ok_of_mapM_ok hmerged hr
    obtain ⟨r', hr', hgrows, hknows'⟩ := knows_of_mergeEach hmerge hr₁ hknows
    exact ⟨r', List.mem_flatten.mpr ⟨rs₁, hrs₁, hr'⟩, hgrows, hknows'⟩

theorem analysesKeys_enum {f : Field ι} {en : EnumType ι} {v : Variant ι} {ancestors : KeyPath}
    {D : List DocumentKey} (hdirect : Direct shapes f.shape)
    (hty : (shapes f.shape).ty = .user (.enum en))
    (hrepr : b.reprOf shapes f.shape = .flattened) (hv : v ∈ en.variants)
    (h : AnalysesKeys shapes b ancestors D (.variant v)) :
    AnalysesKeys shapes b ancestors D (.flattened f) := by
  intro n path rs rs' hres r hr
  cases n with
  | zero => cases hres
  | succ n =>
    rw [SchemaBuilder.analyzeFlattenedFieldIntoConfigs, unwrapOptionalFlatten_eq] at hres
    dsimp only at hres
    obtain ⟨found, hfound, hres⟩ := ExceptList.exists_of_bind_ok hres
    rw [hdirect.flattenStart] at hfound
    cases hdirect.withPath hfound
    unfold SchemaBuilder.reprOf at hrepr
    simp only [hty, hrepr, hdirect.option, SchemaBuilder.markOptionalIf, Bool.false_eq_true,
      if_false] at hres
    obtain ⟨forks, hforks, hres⟩ := ExceptList.exists_of_bind_ok hres
    cases hres
    obtain ⟨forked, hforked, hfork⟩ := ExceptList.exists_ok_of_mapM_ok hforks hr
    obtain ⟨variants, hvariants, hfork⟩ := ExceptList.exists_of_bind_ok hfork
    cases hfork
    obtain ⟨merged, hmerged, hvariant⟩ := ExceptList.exists_ok_of_mapM_ok hvariants hv
    obtain ⟨configs, hconfigs, hmerge⟩ := ExceptList.exists_of_bind_ok hvariant
    obtain ⟨r₁, hr₁, hknows⟩ := h n _ configs hconfigs
    obtain ⟨r', hr', hgrows, hknows'⟩ := knows_of_mergeEach hmerge hr₁ hknows
    refine ⟨r', List.mem_flatten.mpr ⟨_, hforked, List.mem_flatten.mpr ⟨merged, hmerged, hr'⟩⟩,
      ?_, hknows'⟩
    -- the selection changes no path
    exact fun q hq => hgrows q hq

theorem analysesKeys_newtype {v : Variant ι} {f : Field ι} {st : StructType ι}
    {ancestors : KeyPath} {D : List DocumentKey} (hnew : newtypeField v = some f)
    (hdirect : Direct shapes f.shape) (hty : (shapes f.shape).ty = .user (.struct st))
    (h : AnalysesKeys shapes b ancestors D (.fields st.fields)) :
    AnalysesKeys shapes b ancestors D (.variant v) := by
  intro n path rs' hres
  cases n with
  | zero => cases hres
  | succ n =>
    rw [SchemaBuilder.analyzeVariantContent, hnew] at hres
    dsimp only at hres
    obtain ⟨t, heffective, hres⟩ := ExceptList.exists_of_bind_ok hres
    cases hdirect.effective heffective
    rw [hty] at hres
    exact h.fromStruct hres

theorem analysesKeys_payload {v : Variant ι} {f : Field ι} {ancestors : KeyPath}
    {D : List DocumentKey} (hnew : newtypeField v = some f) (hdirect : Direct shapes f.shape)
    (hty : ∀ st, (shapes f.shape).ty ≠ .user (.struct st))
    (h : AnalysesKeys shapes b ancestors D (.fields v.data.fields)) :
    AnalysesKeys shapes b ancestors D (.variant v) := by
  intro n path rs' hres
  cases n with
  | zero => cases hres
  | succ n =>
    rw [SchemaBuilder.analyzeVariantContent, hnew] at hres
    dsimp only at hres
    obtain ⟨t, heffective, hres⟩ := ExceptList.exists_of_bind_ok hres
    cases hdirect.effective heffective
    split at hres
    · next st hst => exact absurd hst (hty st)
    · exact h.fromNew hres

theorem analysesKeys_variant {v : Variant ι} {ancestors : KeyPath} {D : List DocumentKey}
    (hnew : newtypeField v = none)
    (h : AnalysesKeys shapes b ancestors D (.fields v.data.fields)) :
    AnalysesKeys shapes b ancestors D (.variant v) := by
  intro n path rs' hres
  cases n with
  | zero => cases hres
  | succ n =>
    rw [SchemaBuilder.analyzeVariantContent, hnew] at hres
    exact h.fromNew hres

end Analysis

/-- Inside a field the keys are collected, elsewhere they come up in the analysis. -/
theorem Laid.reached {part : Part ι} {inField : Bool} {ancestors : KeyPath}
    {D : List DocumentKey} (h : Laid shapes b part inField ancestors D) :
    (inField = true → CollectsKeys shapes ancestors D part) ∧
      (inField = false → AnalysesKeys shapes b ancestors D part) := by
  induction h with
  | nil =>
    constructor
    · intro _ n rs rs' hres
      cases hres
      exact .nil rs
    · intro _ n path rs rs' hres
      cases hres
      exact .nil rs
  | scalar hf _ _ ih =>
    constructor
    · intro hin
      exact collectsKeys_plain (E := []) hf (fun n rs rs' => reaches_shape) (ih.1 hin)
    · intro hin
      exact analysesKeys_plain (E := []) hf (fun n rs rs' => reaches_shape) (ih.2 hin)
  | nested hf hty _ _ ihbelow ih =>
    constructor
    · intro hin
      exact collectsKeys_plain hf (fun n rs rs' => (ihbelow.1 rfl).shape hty) (ih.1 hin)
    · intro hin
      exact analysesKeys_plain hf (fun n rs rs' => (ihbelow.1 rfl).shape hty) (ih.2 hin)
  | flat hf _ _ ihfirst ih =>
    exact ⟨fun hin => collectsKeys_flat hf (ihfirst.1 hin) (ih.1 hin),
      fun hin => analysesKeys_flat hf (ihfirst.2 hin) (ih.2 hin)⟩
  | struct hdirect hty _ ih =>
    exact ⟨fun hin => collectsKeys_struct hty (ih.1 hin),
      fun hin => analysesKeys_struct hdirect hty (ih.2 hin)⟩
  | enum hdirect hty hrepr hv _ ih =>
    constructor
    · rintro rfl
      exact collectsKeys_enum _ _ _
    · rintro rfl
      exact analysesKeys_enum hdirect hty hrepr hv (ih.2 rfl)
  | newtype hnew hdirect hty _ ih =>
    exact ⟨fun _ => trivial, fun hin => analysesKeys_newtype hnew hdirect hty (ih.2 hin)⟩
  | payload hnew hdirect hty _ ih =>
    exact ⟨fun _ => trivial, fun hin => analysesKeys_payload hnew hdirect hty (ih.2 hin)⟩
  | variant hnew _ ih =>
    exact ⟨fun _ => trivial, fun hin => analysesKeys_variant hnew (ih.2 hin)⟩

theorem DocumentLaid.known {D : List DocumentKey} (h : DocumentLaid shapes b b.shape D) {n : ℕ}
    {rs : List (Resolution ι)} (hres : b.analyze shapes n = .ok rs) : ∃ r ∈ rs, r.Knows D := by
  unfold SchemaBuilder.analyze SchemaBuilder.analyzeShape at hres
  cases h with
  | struct hty hD =>
    rw [hty] at hres
    exact AnalysesKeys.fromStruct (hD.reached.2 rfl) hres
  | @enum en v D hty hv hD =>
    rw [hty] at hres
    obtain ⟨result, hresult, hres⟩ := ExceptList.exists_of_bind_ok hres
    cases hres
    obtain ⟨merged, hmerged, hvariant⟩ := ExceptList.exists_ok_of_mapM_ok hresult hv
    obtain ⟨configs, hconfigs, hmerge⟩ := ExceptList.exists_of_bind_ok hvariant
    obtain ⟨r₁, hr₁, hknows⟩ := hD.reached.2 rfl n _ configs hconfigs
    obtain ⟨r', hr', -, hknows'⟩ := knows_of_mergeEach hmerge hr₁ hknows
    exact ⟨r', List.mem_flatten.mpr ⟨merged, hmerged, hr'⟩, hknows'⟩
  | scalar hscalar =>
    split at hres
    · next st hty => exact absurd (.inl ⟨st, hty⟩) hscalar
    · next en hty => exact absurd (.inr ⟨en, hty⟩) hscalar
    · cases hres
      exact ⟨.new, List.mem_singleton_self _, .nil _⟩

namespace ProbingSolver

theorem answer_ne_noMatch {s : ProbingSolver ι} {r : Resolution ι} (hr : r ∈ s.candidates) :
    s.answer ≠ .noMatch := by
  unfold answer
  split
  · next hnil =>
    rw [hnil] at hr
    cases hr
  · intro h
    cases h
  · intro h
    cases h

/-- A resolution that knows all reported paths stays a candidate. -/
theorem noMatch_notMem_probeKeys {reports : List (KeyPath × String)} {s : ProbingSolver ι}
    {r : Resolution ι} (hr : r ∈ s.candidates)
    (hknows : ∀ report ∈ reports, r.hasKeyPath (report.1 ++ [report.2])) :
    .noMatch ∉ s.probeKeys reports := by
  induction reports generalizing s with
  | nil => exact List.not_mem_nil
  | cons report reports ih =>
    obtain ⟨hfirst, hrest⟩ := List.forall_mem_cons.mp hknows
    have hkept : r ∈ (s.probeKey report.1 report.2).2.candidates :=
      List.mem_filter.mpr ⟨hr, hfirst⟩
    rw [probeKeys, List.mem_cons]
    intro h
    obtain h | h := h
    · exact answer_ne_noMatch hkept h.symm
    · exact ih hkept hrest h

/-- A key that no candidate knows is answered with `NoMatch`, whatever is reported before. -/
theorem noMatch_mem_probeKeys (report : KeyPath × String) {reports : List (KeyPath × String)}
    {s : ProbingSolver ι} (hreport : report ∈ reports)
    (hunknown : ∀ r ∈ s.candidates, r.hasKeyPath (report.1 ++ [report.2]) = false) :
    .noMatch ∈ s.probeKeys reports := by
  induction reports generalizing s with
  | nil => cases hreport
  | cons first reports ih =>
    rw [probeKeys, List.mem_cons]
    obtain rfl | hlater := List.mem_cons.mp hreport
    · left
      have hnil : (s.probeKey report.1 report.2).2.candidates = [] := by
        apply List.filter_eq_nil_iff.mpr
        intro r hr
        simp [hunknown r hr]
      rw [probeKey] at hnil
      dsimp only at hnil
      rw [probeKey, answer]
      dsimp only
      rw [hnil]
    · right
      apply ih hlater
      intro r hr
      exact hunknown r (List.mem_filter.mp hr).1

end ProbingSolver

/-- Whatever variants a document chooses, some resolution knows all of its keys that do not
come out of a flattened enum inside an ordinary field, and probing these keys in any order
never answers `NoMatch`. -/
theorem intoSchema_knows_document {n : ℕ} {schema : Schema ι}
    (hschema : b.intoSchema shapes n = .ok schema) {D : List DocumentKey}
    (hD : DocumentLaid shapes b b.shape D) :
    (∃ r ∈ schema.resolutions, ∀ k ∈ D, k.inner = false → r.hasKeyPath k.path) ∧
      ∀ reports : List DocumentKey, (∀ k ∈ reports, k ∈ D ∧ k.inner = false) →
        .noMatch ∉ (ProbingSolver.new schema).probeKeys
          (reports.map fun k => (k.ancestors, k.key)) := by
  obtain ⟨rs, hres, heq⟩ := ExceptList.exists_of_bind_ok hschema
  cases heq
  obtain ⟨r, hr, hknows⟩ := hD.known hres
  refine ⟨⟨r, hr, hknows⟩, ?_⟩
  intro reports hreports
  apply ProbingSolver.noMatch_notMem_probeKeys (r := r) hr
  intro report hreport
  obtain ⟨k, hk, rfl⟩ := List.mem_map.mp hreport
  exact hknows k (hreports k hk).1 (hreports k hk).2

inductive ServiceType
  | serviceConfig
  | connectionPool
  | dbType
  | postgresDetails
  | mySqlDetails
  | string
  | u64
  deriving DecidableEq

def poolField : Field ServiceType := { name := "pool", shape := .connectionPool }

def dbTypeField : Field ServiceType := { name := "db_type", shape := .dbType, flatten := true }

def postgresVariant : Variant ServiceType where
  name := "Postgres"
  data := ⟨.tupleStruct, [{ name := "0", shape := .postgresDetails }]⟩

/-- `struct ServiceConfig { service_name: String, pool: ConnectionPool }`, where the struct
`ConnectionPool { max_connections: u64, #[facet(flatten)] db_type: DbType }` flattens an enum
with the variants `Postgres(PostgresDetails)` and `MySql(MySqlDetails)`. -/
def serviceShapes : Shapes ServiceType
  | .serviceConfig =>
    { ty := .user (.struct ⟨.struct, [{ name := "service_name", shape := .string }, poolField]⟩)
      «def» := .undefined }
  | .connectionPool =>
    { ty := .user (.struct ⟨.struct, [{ name := "max_connections", shape := .u64 }, dbTypeField]⟩)
      «def» := .undefined }
  | .dbType =>
    { ty := .user (.enum ⟨[postgresVariant,
        { name := "MySql", data := ⟨.tupleStruct, [{ name := "0", shape := .mySqlDetails }]⟩ }],
        .u8⟩)
      «def» := .undefined }
  | .postgresDetails =>
    { ty := .user (.struct ⟨.struct, [{ name := "schema_name", shape := .string }]⟩)
      «def» := .undefined }
  | .mySqlDetails =>
    { ty := .user (.struct ⟨.struct, [{ name := "charset", shape := .string }]⟩)
      «def» := .undefined }
  | .string => { ty := .user .opaqueTy, «def» := .scalar }
  | .u64 => { ty := .primitive .numeric, «def» := .scalar }

def serviceBuilder : SchemaBuilder ServiceType where
  shape := .serviceConfig
  enumRepr := .flattened

/-- The keys of a service whose pool is a Postgres pool. -/
def postgresKeys : List DocumentKey :=
  [⟨[], "service_name", false⟩, ⟨[], "pool", false⟩, ⟨["pool"], "max_connections", false⟩,
    ⟨["pool"], "schema_name", true⟩]

theorem serviceShapes_direct (s : ServiceType) : Direct serviceShapes s := by
  constructor <;> cases s <;> rfl

theorem serviceShapes_scalar {s : ServiceType} (h : s = .string ∨ s = .u64) :
    ¬ IsAggregate serviceShapes s := by
  rintro (⟨st, hty⟩ | ⟨en, hty⟩)
  · rcases h with rfl | rfl <;> cases hty
  · rcases h with rfl | rfl <;> cases hty

theorem postgresKeys_laid :
    DocumentLaid serviceShapes serviceBuilder .serviceConfig postgresKeys := by
  have hstring := serviceShapes_scalar (.inl rfl : ServiceType.string = .string ∨ _)
  have hu64 := serviceShapes_scalar (.inr rfl : ServiceType.u64 = .string ∨ _)
  have hvariant : Laid serviceShapes serviceBuilder
      (.variant postgresVariant) true ["pool"] [⟨["pool"], "schema_name", false⟩] :=
    .newtype rfl (serviceShapes_direct _) rfl (.scalar rfl hstring .nil)
  have henum := Laid.enum (f := dbTypeField) (serviceShapes_direct _) rfl rfl
    List.mem_cons_self hvariant
  have hpool : Laid serviceShapes serviceBuilder
      (.fields [{ name := "max_connections", shape := .u64 }, dbTypeField]) true ["pool"]
      [⟨["pool"], "max_connections", false⟩, ⟨["pool"], "schema_name", true⟩] :=
    .scalar rfl hu64 (.flat rfl henum .nil)
  have hfields : Laid serviceShapes serviceBuilder (.fields [poolField]) false []
      (⟨[], "pool", false⟩ ::
        ([⟨["pool"], "max_connections", false⟩, ⟨["pool"], "schema_name", true⟩] ++ [])) :=
    .nested rfl rfl hpool .nil
  exact .struct rfl (.scalar rfl hstring hfields)

/-- No resolution of the service knows the schema of its pool. -/
theorem serviceShapes_schema : ∃ schema,
    Schema.build serviceShapes 12 .serviceConfig = .ok schema ∧
    ∀ r ∈ schema.resolutions, r.hasKeyPath ["pool", "schema_name"] = false := by
  have heval : (Schema.build serviceShapes 12 .serviceConfig).toOption.any fun schema =>
      schema.resolutions.all (fun r => !r.hasKeyPath ["pool", "schema_name"]) := by decide
  cases hschema : Schema.build serviceShapes 12 .serviceConfig with
  | error e => simp [hschema, Except.toOption] at heval
  | ok schema =>
    refine ⟨schema, rfl, ?_⟩
    simpa only [hschema, Except.toOption, Option.any_some, List.all_eq_true, Bool.not_eq_true']
      using heval

theorem postgresKeys_not_known : ∃ schema,
    Schema.build serviceShapes 12 .serviceConfig = .ok schema ∧
    ∃ D, DocumentLaid serviceShapes serviceBuilder .serviceConfig D ∧
      (∀ r ∈ schema.resolutions, ∃ k ∈ D, r.hasKeyPath k.path = false) ∧
      .noMatch ∈ (ProbingSolver.new schema).probeKeys (D.map fun k => (k.ancestors, k.key)) := by
  obtain ⟨schema, hschema, hunknown⟩ := serviceShapes_schema
  refine ⟨schema, hschema, postgresKeys, postgresKeys_laid, ?_, ?_⟩
  · intro r hr
    exact ⟨⟨["pool"], "schema_name", true⟩, by decide, hunknown r hr⟩
  · exact ProbingSolver.noMatch_mem_probeKeys (["pool"], "schema_name") (by decide) hunknown

theorem intoSchema_knows_document_service : ∃ schema,
    Schema.build serviceShapes 12 .serviceConfig = .ok schema ∧
    (∃ r ∈ schema.resolutions, ∀ k ∈ postgresKeys, k.inner = false → r.hasKeyPath k.path) ∧
      ∀ reports : List DocumentKey, (∀ k ∈ reports, k ∈ postgresKeys ∧ k.inner = false) →
        .noMatch ∉ (ProbingSolver.new schema).probeKeys
          (reports.map fun k => (k.ancestors, k.key)) := by
  obtain ⟨schema, hschema, -⟩ := serviceShapes_schema
  exact ⟨schema, hschema,
    intoSchema_knows_document (b := serviceBuilder) hschema postgresKeys_laid⟩

end Facet.Flatten
