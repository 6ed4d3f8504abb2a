import Facet.Flatten.Termination
import Facet.Flatten.Tracking
import Facet.Lib.Outcome

/-!
# The keys of every choice, in order

The keys that the choices of a part put at the top level, in any format and in the order in which
the analysis goes through the choices. With enough fuel, what the analysis returns has these keys,
or it reports two fields for one key of one of the choices.
-/

namespace Facet.Flatten

open Filter ExceptList

variable {ι : Type} {shapes : Shapes ι} {b : SchemaBuilder ι}

/-- The key of a field that is not flattened, in the category that the format gives it. -/
def SchemaBuilder.fieldKey (b : SchemaBuilder ι) (f : Field ι) : FieldKey :=
  match b.category f with
  | .flat => .flat f.effectiveName
  | category => .dom category f.effectiveName

/-- Every choice so far followed by every further one. -/
def extendKeys (bss kss : List (List Tracked)) : List (List Tracked) :=
  bss.flatMap fun bs => kss.map (bs ++ ·)

/-- The keys that select a variant. -/
def variantSelectors (repr : EnumRepr) (variantName : String) (variantPath : FieldPath) :
    List Tracked :=
  (repr.selectorName variantName).toList.map fun name => (.dom .element name, variantPath)

/-- The keys of one variant, given those of its contents. -/
def forkKeys (repr : EnumRepr) (v : Variant ι) (variantPath : FieldPath)
    (kss : List (List Tracked)) : List (List Tracked) :=
  match repr with
  | .flattened | .internallyTagged _ => kss.map (variantSelectors repr v.name variantPath ++ ·)
  | .externallyTagged | .adjacentlyTagged _ _ => [variantSelectors repr v.name variantPath]

theorem forkKeys_inline {repr : EnumRepr} (h : repr.Inline) (v : Variant ι)
    (variantPath : FieldPath) (kss : List (List Tracked)) :
    forkKeys repr v variantPath kss =
      kss.map (variantSelectors repr v.name variantPath ++ ·) := by
  cases repr with
  | flattened => rfl
  | internallyTagged tag => rfl
  | externallyTagged => exact h.elim
  | adjacentlyTagged tag content => exact h.elim

theorem forkKeys_nested {repr : EnumRepr} (h : ¬ repr.Inline) (v : Variant ι)
    (variantPath : FieldPath) (kss : List (List Tracked)) :
    forkKeys repr v variantPath kss = [variantSelectors repr v.name variantPath] := by
  cases repr with
  | flattened => exact absurd trivial h
  | internallyTagged tag => exact absurd trivial h
  | externallyTagged => rfl
  | adjacentlyTagged tag content => rfl

section Relations

variable (shapes : Shapes ι) (b : SchemaBuilder ι)

/-- The key of a flattened field that is neither struct nor enum, if it has one. -/
def leafTracked (f : Field ι) (s : ι) (path : FieldPath) : List Tracked :=
  match (shapes s).def with
  | .map _ _ | .dynamicValue => []
  | _ => [(b.fieldKey f, path)]

/-- The choices of the part, in order, have the keys `kss`. -/
inductive ListsKeys : Part ι → FieldPath → List (List Tracked) → Prop
  | nil {path : FieldPath} : ListsKeys (.fields []) path [[]]
  | plain {f : Field ι} {fs : List (Field ι)} {path : FieldPath} {kss : List (List Tracked)} :
      f.isFlattened = false → ListsKeys (.fields fs) path kss →
      ListsKeys (.fields (f :: fs)) path
        (extendKeys [[(b.fieldKey f, path.pushField f.name)]] kss)
  | flat {f : Field ι} {fs : List (Field ι)} {path : FieldPath} {kss₁ kss : List (List Tracked)} :
      f.isFlattened = true → ListsKeys (.flattened f) path kss₁ → ListsKeys (.fields fs) path kss →
      ListsKeys (.fields (f :: fs)) path (extendKeys kss₁ kss)
  | struct {f : Field ι} {path : FieldPath} {ws : List ι} {t : ι} {st : StructType ι}
      {kss : List (List Tracked)} :
      Unwraps shapes (flattenStart shapes f) ws t → (shapes t).ty = .user (.struct st) →
      ListsKeys (.fields st.fields) (flattenPath path f ws) kss → ListsKeys (.flattened f) path kss
  | enum {f : Field ι} {path : FieldPath} {ws : List ι} {t : ι} {en : EnumType ι}
      {css : Variant ι → List (List Tracked)} :
      Unwraps shapes (flattenStart shapes f) ws t → (shapes t).ty = .user (.enum en) →
      ((b.reprOf shapes t).Inline → ∀ v ∈ en.variants,
        ListsKeys (.variant v) ((flattenPath path f ws).pushVariant f.name v.name) (css v)) →
      ListsKeys (.flattened f) path (en.variants.flatMap fun v => forkKeys (b.reprOf shapes t) v
        ((flattenPath path f ws).pushVariant f.name v.name) (css v))
  | leaf {f : Field ι} {path : FieldPath} {ws : List ι} {t : ι} :
      Unwraps shapes (flattenStart shapes f) ws t → ¬ IsAggregate shapes t →
      ListsKeys (.flattened f) path [leafTracked shapes b f t (flattenPath path f ws)]
  | newtype {v : Variant ι} {f : Field ι} {path : FieldPath} {t : ι} {st : StructType ι}
      {kss : List (List Tracked)} :
      newtypeField v = some f → Effective shapes f.shape t → (shapes t).ty = .user (.struct st) →
      ListsKeys (.fields st.fields) (path.pushField "0") kss → ListsKeys (.variant v) path kss
  | payload {v : Variant ι} {f : Field ι} {path : FieldPath} {t : ι} {kss : List (List Tracked)} :
      newtypeField v = some f → Effective shapes f.shape t →
      (∀ st, (shapes t).ty ≠ .user (.struct st)) → ListsKeys (.fields v.data.fields) path kss →
      ListsKeys (.variant v) path kss
  | variant {v : Variant ι} {path : FieldPath} {kss : List (List Tracked)} :
      newtypeField v = none → ListsKeys (.fields v.data.fields) path kss →
      ListsKeys (.variant v) path kss

end Relations

theorem Grounded.listsKeys {part : Part ι} (h : Grounded shapes b part) (path : FieldPath) :
    ∃ kss, ListsKeys shapes b part path kss := by
  induction h generalizing path with
  | nil => exact ⟨_, .nil⟩
  | plain hf _ _ ih =>
    obtain ⟨kss, hkss⟩ := ih path
    exact ⟨_, .plain hf hkss⟩
  | flat hf _ _ ih₁ ih =>
    obtain ⟨kss₁, hkss₁⟩ := ih₁ path
    obtain ⟨kss, hkss⟩ := ih path
    exact ⟨_, .flat hf hkss₁ hkss⟩
  | struct hunwraps hty _ ih =>
    obtain ⟨kss, hkss⟩ := ih _
    exact ⟨kss, .struct hunwraps hty hkss⟩
  | @enum f ws t en hunwraps hty _ _ _ ih =>
    have hall (v : Variant ι) : ∃ kss, (b.reprOf shapes t).Inline → v ∈ en.variants →
        ListsKeys shapes b (.variant v) ((flattenPath path f ws).pushVariant f.name v.name)
          kss := by
      by_cases hv : (b.reprOf shapes t).Inline ∧ v ∈ en.variants
      · obtain ⟨kss, hkss⟩ := ih hv.1 v hv.2 ((flattenPath path f ws).pushVariant f.name v.name)
        exact ⟨kss, fun _ _ => hkss⟩
      · exact ⟨[], fun hinline hmem => absurd ⟨hinline, hmem⟩ hv⟩
    choose css hcss using hall
    exact ⟨_, .enum hunwraps hty fun hinline v => hcss v hinline⟩
  | leaf hunwraps hleaf => exact ⟨_, .leaf hunwraps hleaf⟩
  | newtype hnew heffective hty _ ih =>
    obtain ⟨kss, hkss⟩ := ih _
    exact ⟨kss, .newtype hnew heffective hty hkss⟩
  | payload hnew heffective hty _ ih =>
    obtain ⟨kss, hkss⟩ := ih path
    exact ⟨kss, .payload hnew heffective hty hkss⟩
  | variant hnew _ ih =>
    obtain ⟨kss, hkss⟩ := ih path
    exact ⟨kss, .variant hnew hkss⟩

theorem mem_extendKeys {bss kss : List (List Tracked)} {ks : List Tracked} :
    ks ∈ extendKeys bss kss ↔ ∃ bs ∈ bss, ∃ ls ∈ kss, bs ++ ls = ks := by
  simp [extendKeys]

theorem extendKeys_assoc (ass bss kss : List (List Tracked)) :
    extendKeys (extendKeys ass bss) kss = extendKeys ass (extendKeys bss kss) := by
  simp only [extendKeys, List.flatMap_assoc, List.flatMap_map, List.map_flatMap, List.map_map]
  simp only [Function.comp_def, List.append_assoc]

@[simp] theorem nil_extendKeys (kss : List (List Tracked)) : extendKeys [[]] kss = kss := by
  simp [extendKeys]

@[simp] theorem extendKeys_nil (kss : List (List Tracked)) : extendKeys kss [[]] = kss := by
  simp [extendKeys]

theorem extendKeys_ne_nil {bss kss : List (List Tracked)} (hbss : bss ≠ []) (hkss : kss ≠ []) :
    extendKeys bss kss ≠ [] := by
  obtain ⟨bs, hbs⟩ := List.exists_mem_of_ne_nil _ hbss
  obtain ⟨ks, hks⟩ := List.exists_mem_of_ne_nil _ hkss
  exact List.ne_nil_of_mem (mem_extendKeys.mpr ⟨bs, hbs, ks, hks, rfl⟩)

/-- The error reports two fields for one key of the choice. -/
def ReportsConflict : SchemaError → List Tracked → Prop
  | .duplicateField _, ks => Conflicting ks
  | .unfinished, _ => False

theorem ReportsConflict.mono {e : SchemaError} {ks ls : List Tracked} (h : ReportsConflict e ks)
    (hsub : ks ⊆ ls) : ReportsConflict e ls := by
  cases e with
  | duplicateField err => exact Conflicting.mono h hsub
  | unfinished => exact h.elim

theorem reportsConflict_extend_left {e : SchemaError} {bss kss : List (List Tracked)}
    (hkss : kss ≠ []) (h : ∃ bs ∈ bss, ReportsConflict e bs) :
    ∃ ks ∈ extendKeys bss kss, ReportsConflict e ks := by
  obtain ⟨bs, hbs, he⟩ := h
  obtain ⟨ks, hks⟩ := List.exists_mem_of_ne_nil _ hkss
  exact ⟨bs ++ ks, mem_extendKeys.mpr ⟨bs, hbs, ks, hks, rfl⟩,
    he.mono (List.subset_append_left bs ks)⟩

theorem reportsConflict_extend_right {e : SchemaError} {bss kss : List (List Tracked)}
    (hbss : bss ≠ []) (h : ∃ ks ∈ kss, ReportsConflict e ks) :
    ∃ ks ∈ extendKeys bss kss, ReportsConflict e ks := by
  obtain ⟨ks, hks, he⟩ := h
  obtain ⟨bs, hbs⟩ := List.exists_mem_of_ne_nil _ hbss
  exact ⟨bs ++ ks, mem_extendKeys.mpr ⟨bs, hbs, ks, hks, rfl⟩,
    he.mono (List.subset_append_right bs ks)⟩

/-- The configuration has the keys of the choice, or the error is that of the choice. -/
abbrev HasKeys (ks : List Tracked) : Analysis (Resolution ι) → Prop :=
  Meets Resolution.Tracks ReportsConflict ks

/-- The configurations have the keys of the choices, or the error is that of one of them. -/
abbrev HaveKeys (kss : List (List Tracked)) : Analysis (List (Resolution ι)) → Prop :=
  MeetsEach Resolution.Tracks ReportsConflict kss

namespace Resolution.Tracks

variable {r : Resolution ι} {ks : List Tracked}

theorem hasKeys_addField (h : r.Tracks ks) (info : FieldInfo ι) :
    HasKeys (ks ++ [(info.key, info.path)]) (orDuplicateField (r.addField info)) := by
  have hadd := h.tryPutField info
  unfold Resolution.addField
  cases hres : r.tryPutField info.key info with
  | ok r' =>
    rw [hres] at hadd
    exact hadd
  | error e =>
    rw [hres] at hadd
    exact hadd

theorem hasKeys_merge (h : r.Tracks ks) {r' : Resolution ι} {ls : List Tracked}
    (h' : r'.Tracks ls) :
    HasKeys (ks ++ ls) (orDuplicateField (r.merge r')) := by
  have hmerge := h.merge h'
  cases hres : r.merge r' with
  | ok r'' =>
    rw [hres] at hmerge
    exact hmerge
  | error e =>
    rw [hres] at hmerge
    exact hmerge

/-- Each of some configurations is merged into one configuration. -/
theorem haveKeys_mergeEach (h : r.Tracks ks) {rs : List (Resolution ι)} {kss : List (List Tracked)}
    (hrs : List.Forall₂ Resolution.Tracks rs kss) :
    HaveKeys (kss.map (ks ++ ·)) (SchemaBuilder.mergeEach r rs) := by
  apply MeetsEach.mapM
  exact hrs.imp fun r' ls hr' => h.hasKeys_merge hr'

end Resolution.Tracks

theorem forall₂_tracks_map {rs : List (Resolution ι)} {kss : List (List Tracked)}
    (h : List.Forall₂ Resolution.Tracks rs kss) {change : Resolution ι → Resolution ι}
    (hchange : ∀ r ks, r.Tracks ks → (change r).Tracks ks) :
    List.Forall₂ Resolution.Tracks (rs.map change) kss := by
  rw [List.forall₂_map_left_iff]
  exact h.imp hchange

theorem forall₂_tracks_markOptionalIf {rs : List (Resolution ι)} {kss : List (List Tracked)}
    (h : List.Forall₂ Resolution.Tracks rs kss) (optional : Bool) :
    List.Forall₂ Resolution.Tracks (SchemaBuilder.markOptionalIf optional rs) kss := by
  unfold SchemaBuilder.markOptionalIf
  split
  · exact forall₂_tracks_map h fun r ks hr => hr.markAllOptional
  · exact h

theorem haveKeys_of_keptAll {rs : List (Resolution ι)} {kss : List (List Tracked)}
    (h : List.Forall₂ Resolution.Tracks rs kss) {result : Analysis (List (Resolution ι))}
    (hkeep : KeptAll SameChoice False rs result) : HaveKeys kss result := by
  obtain ⟨rs', rfl, hsame⟩ := hkeep.exists_ok
  clear hkeep
  change List.Forall₂ Resolution.Tracks rs' kss
  induction h generalizing rs' with
  | nil =>
    cases hsame
    exact .nil
  | cons hr _ ih =>
    cases hsame with
    | cons hr' hrest => exact .cons (hr.ofFields hr'.fields) (ih _ hrest)

variable (shapes b) in
/-- At this fuel the analysis of the part leads to choices with the keys `kss`. -/
def LeadsTo (n : ℕ) (path : FieldPath) (kss : List (List Tracked)) : Part ι → Prop
  | .fields fs => ∀ rs bss, bss ≠ [] → List.Forall₂ Resolution.Tracks rs bss →
      HaveKeys (extendKeys bss kss) (fs.foldlM (fun configs f =>
        b.analyzeFieldIntoConfigs shapes n f path [] configs) rs)
  | .flattened f => ∀ rs bss, bss ≠ [] → List.Forall₂ Resolution.Tracks rs bss →
      HaveKeys (extendKeys bss kss) (b.analyzeFlattenedFieldIntoConfigs shapes n f path [] rs)
  | .variant v => HaveKeys kss (b.analyzeVariantContent shapes n v path [])

variable (shapes b) in
/-- At this fuel the analysis of one field leads to choices with the keys `kss`. -/
def FieldLeadsTo (n : ℕ) (f : Field ι) (path : FieldPath) (kss : List (List Tracked)) : Prop :=
  ∀ rs bss, bss ≠ [] → List.Forall₂ Resolution.Tracks rs bss →
    HaveKeys (extendKeys bss kss) (b.analyzeFieldIntoConfigs shapes n f path [] rs)

theorem haveKeys_addEach {rs : List (Resolution ι)} {bss : List (List Tracked)}
    (hrs : List.Forall₂ Resolution.Tracks rs bss) (info : FieldInfo ι) {key : FieldKey}
    (hkey : info.key = key) (keyPath : KeyPath) :
    HaveKeys (extendKeys bss [[(key, info.path)]]) (rs.mapM fun config =>
      orDuplicateField (config.addField info) >>= fun config =>
        pure (config.addKeyPath keyPath)) := by
  have hspecs : extendKeys bss [[(key, info.path)]] = bss.map (· ++ [(info.key, info.path)]) := by
    rw [hkey, extendKeys, List.map_eq_flatMap]
    rfl
  rw [hspecs]
  apply MeetsEach.mapM
  apply hrs.imp
  intro r ks hr
  apply Outcome.bind (hr.hasKeys_addField info)
  · exact fun e he => he
  · exact fun r' hr' => Resolution.Tracks.ofFields hr' rfl

theorem fieldLeadsTo_plain {n : ℕ} {f : Field ι} {path : FieldPath} (hf : f.isFlattened = false)
    (hcollects : Collects shapes n f.shape) :
    FieldLeadsTo shapes b (n + 1) f path [[(b.fieldKey f, path.pushField f.name)]] := by
  intro rs bss _ hrs
  rw [SchemaBuilder.analyzeFieldIntoConfigs, if_neg (by simp [hf])]
  apply Outcome.bind (haveKeys_addEach hrs (fieldKeyInfo shapes b path f) rfl _)
  · exact fun e he => he
  · exact fun rs' hrs' => haveKeys_of_keptAll hrs' (hcollects.shape _ rs')

theorem fieldLeadsTo_flat {n : ℕ} {f : Field ι} {path : FieldPath} {kss : List (List Tracked)}
    (hf : f.isFlattened = true) (h : LeadsTo shapes b n path kss (.flattened f)) :
    FieldLeadsTo shapes b (n + 1) f path kss := by
  intro rs bss hbss hrs
  rw [SchemaBuilder.analyzeFieldIntoConfigs, if_pos hf]
  exact h rs bss hbss hrs

theorem leadsTo_nil (n : ℕ) (path : FieldPath) : LeadsTo shapes b n path [[]] (.fields []) := by
  intro rs bss _ hrs
  rw [extendKeys_nil]
  exact hrs

theorem leadsTo_cons {n : ℕ} {f : Field ι} {fs : List (Field ι)} {path : FieldPath}
    {kss₁ kss : List (List Tracked)} (hne₁ : kss₁ ≠ []) (hne : kss ≠ [])
    (hstep : FieldLeadsTo shapes b n f path kss₁) (h : LeadsTo shapes b n path kss (.fields fs)) :
    LeadsTo shapes b n path (extendKeys kss₁ kss) (.fields (f :: fs)) := by
  intro rs bss hbss hrs
  rw [List.foldlM_cons, ← extendKeys_assoc]
  apply Outcome.bind (hstep rs bss hbss hrs)
  · exact fun e he => reportsConflict_extend_left hne he
  · exact fun rs' hrs' => h rs' _ (extendKeys_ne_nil hbss hne₁) hrs'

/-- Fields analysed on their own start with one empty configuration. -/
theorem LeadsTo.fromNew {n : ℕ} {fs : List (Field ι)} {path : FieldPath}
    {kss : List (List Tracked)} (h : LeadsTo shapes b n path kss (.fields fs)) :
    HaveKeys kss (fs.foldlM (fun configs f =>
      b.analyzeFieldIntoConfigs shapes n f path [] configs) [.new]) := by
  rw [← nil_extendKeys kss]
  exact h [.new] [[]] (List.cons_ne_nil [] []) (.cons .new .nil)

theorem LeadsTo.struct {n : ℕ} {st : StructType ι} {path : FieldPath} {kss : List (List Tracked)}
    (h : LeadsTo shapes b n path kss (.fields st.fields)) :
    HaveKeys kss (b.analyzeStruct shapes (n + 1) st path []) := by
  rw [SchemaBuilder.analyzeStruct]
  exact h.fromNew

theorem leadsTo_struct {n : ℕ} {f : Field ι} {ws : List ι} {t : ι} {st : StructType ι}
    {path : FieldPath} {kss : List (List Tracked)}
    (hunwraps : Unwraps shapes (flattenStart shapes f) ws t)
    (hty : (shapes t).ty = .user (.struct st)) (hn : ws.length ≤ n)
    (h : LeadsTo shapes b n (flattenPath path f ws) kss (.fields st.fields)) :
    LeadsTo shapes b (n + 2) path kss (.flattened f) := by
  intro rs bss hbss hrs
  rw [SchemaBuilder.analyzeFlattenedFieldIntoConfigs, unwrapOptionalFlatten_eq]
  dsimp only
  rw [hunwraps.withPath (Nat.lt_succ_of_le hn), ok_bind]
  dsimp only
  rw [hty]
  dsimp only
  apply Outcome.bind h.struct
  · exact fun e he => reportsConflict_extend_right hbss he
  · intro configs hconfigs
    apply MeetsEach.flatMapM
    exact hrs.imp fun r bs hr =>
      hr.haveKeys_mergeEach (forall₂_tracks_markOptionalIf hconfigs _)

/-- The contents of an inline variant are merged into the configuration that has its selector. -/
theorem haveKeys_inlineFork {n : ℕ} {v : Variant ι} {variantPath : FieldPath}
    {kss : List (List Tracked)} {r : Resolution ι} {ks : List Tracked} (optional : Bool)
    (hr : r.Tracks ks) (h : LeadsTo shapes b n variantPath kss (.variant v)) :
    HaveKeys (kss.map (ks ++ ·)) (b.analyzeVariantContent shapes n v variantPath [] >>=
      fun configs => SchemaBuilder.mergeEach r (SchemaBuilder.markOptionalIf optional configs)) := by
  apply Outcome.bind h
  · rintro e ⟨ls, hls, he⟩
    exact ⟨ks ++ ls, List.mem_map_of_mem hls, he.mono (List.subset_append_right ks ls)⟩
  · intro configs hconfigs
    exact hr.haveKeys_mergeEach (forall₂_tracks_markOptionalIf hconfigs optional)

/-- The paths below a nested variant are collected after its selector was added. -/
theorem haveKeys_nestedFork {r : Resolution ι} {ks : List Tracked}
    {collect : Analysis (Resolution ι)} (hr : r.Tracks ks) (hkeep : Kept SameChoice False r collect) :
    HaveKeys [ks] (collect >>= fun r => pure [r]) := by
  obtain ⟨r', rfl, hsame⟩ := hkeep.exists_ok
  exact List.Forall₂.cons (hr.ofFields hsame.fields) .nil

/-- One configuration and one variant of a flattened enum. -/
theorem haveKeys_forkVariant {n : ℕ} {f : Field ι} {fieldPath : FieldPath} {optional : Bool}
    {s : ι} {r : Resolution ι} {ks : List Tracked} {v : Variant ι} {kss : List (List Tracked)}
    (hr : r.Tracks ks) (hne : (b.reprOf shapes s).Inline → kss ≠ [])
    (hkeep : ∀ keyPrefix r,
      Kept SameChoice False r (collectVariantFieldsKeyPathsOnly shapes n v keyPrefix r))
    (h : (b.reprOf shapes s).Inline →
      LeadsTo shapes b n (fieldPath.pushVariant f.name v.name) kss (.variant v)) :
    HaveKeys ((forkKeys (b.reprOf shapes s) v (fieldPath.pushVariant f.name v.name) kss).map
      (ks ++ ·)) (b.forkVariant shapes n f fieldPath [] optional s r v) := by
  have hselector (name : String) {r' : Resolution ι} (hr' : r'.Tracks ks) :=
    hr'.hasKeys_addField (SchemaBuilder.selectorField name (fieldPath.pushVariant f.name v.name)
      optional s f)
  have hforked : (r.addVariantSelection fieldPath (shapes s).typeIdentifier v.name).Tracks ks :=
    hr.ofFields rfl
  have hbelow (keyPath : KeyPath) :
      ((r.addVariantSelection fieldPath (shapes s).typeIdentifier v.name).addKeyPath keyPath).Tracks
        ks := hr.ofFields rfl
  have hmap (ss ls : List Tracked) : ks ++ (ss ++ ls) = ks ++ ss ++ ls :=
    (List.append_assoc ks ss ls).symm
  unfold SchemaBuilder.forkVariant forkKeys
  cases hrepr : b.reprOf shapes s with
  | flattened =>
    rw [hrepr] at h
    simp only [variantSelectors, EnumRepr.selectorName, Option.toList_none, List.map_nil,
      List.nil_append, List.map_id']
    exact haveKeys_inlineFork optional hforked (h trivial)
  | internallyTagged tag =>
    rw [hrepr] at hne h
    simp only [List.map_map, Function.comp_def, hmap]
    apply Outcome.bind (hselector tag (hbelow [tag]))
    · intro e he
      obtain ⟨ls, hls⟩ := List.exists_mem_of_ne_nil _ (hne trivial)
      exact ⟨_, List.mem_map_of_mem hls, he.mono (List.subset_append_left _ ls)⟩
    · exact fun r' hr' => haveKeys_inlineFork optional hr' (h trivial)
  | externallyTagged =>
    dsimp only
    apply Outcome.bind (hselector v.name (hbelow [v.name]))
    · exact fun e he => ⟨_, List.mem_cons_self, he⟩
    · exact fun r' hr' => haveKeys_nestedFork hr' (hkeep _ r')
  | adjacentlyTagged tag content =>
    dsimp only
    apply Outcome.bind (hselector tag (hbelow [tag]))
    · exact fun e he => ⟨_, List.mem_cons_self, he⟩
    · intro r' hr'
      have hcontent : (r'.addKeyPath [content]).Tracks _ := Resolution.Tracks.ofFields hr' rfl
      exact haveKeys_nestedFork hcontent (hkeep _ _)

theorem leadsTo_enum {n : ℕ} {f : Field ι} {ws : List ι} {t : ι} {en : EnumType ι}
    {path : FieldPath} {css : Variant ι → List (List Tracked)}
    (hunwraps : Unwraps shapes (flattenStart shapes f) ws t)
    (hty : (shapes t).ty = .user (.enum en)) (hn : ws.length < n)
    (hfork : ∀ v ∈ en.variants, ∀ r ks, r.Tracks ks → HaveKeys
      ((forkKeys (b.reprOf shapes t) v ((flattenPath path f ws).pushVariant f.name v.name)
        (css v)).map (ks ++ ·))
      (b.forkVariant shapes n f (flattenPath path f ws) [] (isOptionType (shapes f.shape)) t r v)) :
    LeadsTo shapes b (n + 1) path (en.variants.flatMap fun v => forkKeys (b.reprOf shapes t) v
      ((flattenPath path f ws).pushVariant f.name v.name) (css v)) (.flattened f) := by
  intro rs bss _ hrs
  rw [SchemaBuilder.analyzeFlattened_enum (hunwraps.withPath hn _) hty]
  apply MeetsEach.flatMapM
  apply hrs.imp
  intro r ks hr
  rw [List.map_flatMap]
  apply MeetsEach.flatMapM
  rw [List.forall₂_same]
  exact fun v hv => hfork v hv r ks hr

theorem leadsTo_leaf {n : ℕ} {f : Field ι} {ws : List ι} {t : ι} {path : FieldPath}
    (hunwraps : Unwraps shapes (flattenStart shapes f) ws t) (hleaf : ¬ IsAggregate shapes t)
    (hn : ws.length < n) :
    LeadsTo shapes b (n + 1) path [leafTracked shapes b f t (flattenPath path f ws)]
      (.flattened f) := by
  intro rs bss _ hrs
  rw [SchemaBuilder.analyzeFlattenedFieldIntoConfigs, unwrapOptionalFlatten_eq]
  dsimp only
  rw [hunwraps.withPath hn, ok_bind]
  dsimp only
  split
  · next st hty => exact absurd (.inl ⟨st, hty⟩) hleaf
  · next en hty => exact absurd (.inr ⟨en, hty⟩) hleaf
  · unfold leafTracked
    cases (shapes t).def with
    | map k v =>
      rw [extendKeys_nil]
      exact forall₂_tracks_map hrs fun r ks hr => hr.ofFields rfl
    | dynamicValue =>
      rw [extendKeys_nil]
      exact forall₂_tracks_map hrs fun r ks hr => hr.ofFields rfl
    | _ => exact haveKeys_addEach hrs _ rfl _

theorem leadsTo_newtype {n : ℕ} {v : Variant ι} {f : Field ι} {t : ι} {st : StructType ι}
    {path : FieldPath} {kss : List (List Tracked)} (hnew : newtypeField v = some f)
    (heffective : unwrapToEffectiveShape shapes (n + 1) f.shape = .ok t)
    (hty : (shapes t).ty = .user (.struct st))
    (h : LeadsTo shapes b n (path.pushField "0") kss (.fields st.fields)) :
    LeadsTo shapes b (n + 2) path kss (.variant v) := by
  change HaveKeys _ _
  rw [SchemaBuilder.analyzeVariantContent, hnew]
  dsimp only
  rw [heffective, ok_bind, hty]
  exact h.struct

theorem leadsTo_payload {n : ℕ} {v : Variant ι} {f : Field ι} {t : ι} {path : FieldPath}
    {kss : List (List Tracked)} (hnew : newtypeField v = some f)
    (heffective : unwrapToEffectiveShape shapes n f.shape = .ok t)
    (hty : ∀ st, (shapes t).ty ≠ .user (.struct st))
    (h : LeadsTo shapes b n path kss (.fields v.data.fields)) :
    LeadsTo shapes b (n + 1) path kss (.variant v) := by
  change HaveKeys _ _
  rw [SchemaBuilder.analyzeVariantContent, hnew]
  dsimp only
  rw [heffective, ok_bind]
  split
  · next st hst => exact absurd hst (hty st)
  · exact h.fromNew

theorem leadsTo_variant {n : ℕ} {v : Variant ι} {path : FieldPath} {kss : List (List Tracked)}
    (hnew : newtypeField v = none) (h : LeadsTo shapes b n path kss (.fields v.data.fields)) :
    LeadsTo shapes b (n + 1) path kss (.variant v) := by
  change HaveKeys _ _
  rw [SchemaBuilder.analyzeVariantContent, hnew]
  exact h.fromNew

theorem forkKeys_ne_nil {repr : EnumRepr} {v : Variant ι} {variantPath : FieldPath}
    {kss : List (List Tracked)} (h : repr.Inline → kss ≠ []) :
    forkKeys repr v variantPath kss ≠ [] := by
  by_cases hinline : repr.Inline
  · rw [forkKeys_inline hinline]
    exact fun hnil => h hinline (List.map_eq_nil_iff.mp hnil)
  · rw [forkKeys_nested hinline]
    exact List.cons_ne_nil _ _

theorem ListsKeys.ne_nil (htypes : FiniteTypes shapes) {part : Part ι} {path : FieldPath}
    {kss : List (List Tracked)} (h : ListsKeys shapes b part path kss) : kss ≠ [] := by
  induction h with
  | nil => exact List.cons_ne_nil _ _
  | plain _ _ ih => exact extendKeys_ne_nil (List.cons_ne_nil _ _) ih
  | flat _ _ _ ih₁ ih => exact extendKeys_ne_nil ih₁ ih
  | struct _ _ _ ih => exact ih
  | enum _ hty _ ih =>
    obtain ⟨v, hv⟩ := List.exists_mem_of_ne_nil _ (htypes.variants _ _ hty)
    obtain ⟨ks, hks⟩ := List.exists_mem_of_ne_nil _ (forkKeys_ne_nil fun hinline => ih hinline v hv)
    exact List.ne_nil_of_mem (List.mem_flatMap.mpr ⟨v, hv, hks⟩)
  | leaf => exact List.cons_ne_nil _ _
  | newtype _ _ _ _ ih => exact ih
  | payload _ _ _ _ ih => exact ih
  | variant _ _ ih => exact ih

/-- With enough fuel, the analysis of a part leads to the keys listed for it. -/
theorem ListsKeys.leads (htypes : FiniteTypes shapes) {part : Part ι} {path : FieldPath}
    {kss : List (List Tracked)} (h : ListsKeys shapes b part path kss) :
    ∀ᶠ n in atTop, LeadsTo shapes b n path kss part := by
  induction h with
  | nil => exact .of_forall fun n => leadsTo_nil n _
  | @plain f fs path kss hf hfs ih =>
    rw [← eventually_add_iff 1] at ih ⊢
    filter_upwards [(htypes.finite f.shape).collects, ih] with n hcollects hrest
    exact leadsTo_cons (List.cons_ne_nil _ _) (hfs.ne_nil htypes) (fieldLeadsTo_plain hf hcollects)
      hrest
  | flat hf hfirst hfs ih₁ ih =>
    rw [← eventually_add_iff 1] at ih ⊢
    filter_upwards [ih₁, ih] with n hfirst' hrest
    exact leadsTo_cons (hfirst.ne_nil htypes) (hfs.ne_nil htypes) (fieldLeadsTo_flat hf hfirst')
      hrest
  | @struct f path ws t st kss hunwraps hty _ ih =>
    rw [← eventually_add_iff 2]
    filter_upwards [eventually_ge_atTop ws.length, ih] with n hn hfields
    exact leadsTo_struct hunwraps hty hn hfields
  | @enum f path ws t en css hunwraps hty hcontents ih =>
    rw [← eventually_add_iff 2]
    have hvariants : ∀ᶠ n in atTop, ∀ v ∈ en.variants, (b.reprOf shapes t).Inline →
        LeadsTo shapes b (n + 1) ((flattenPath path f ws).pushVariant f.name v.name) (css v)
          (.variant v) := by
      apply (eventually_all_finite (List.finite_toSet _)).mpr
      intro v hv
      by_cases hinline : (b.reprOf shapes t).Inline
      · exact ((eventually_add_iff 1).mpr (ih hinline v hv)).mono fun n hn _ => hn
      · exact .of_forall fun n hinline' => absurd hinline' hinline
    filter_upwards [eventually_gt_atTop ws.length, (htypes.finite t).collectsOnly_variants hty,
      hvariants] with n hn honly hvariants
    apply leadsTo_enum hunwraps hty (Nat.lt_succ_of_lt hn)
    intro v hv r ks hr
    exact haveKeys_forkVariant hr (fun hinline => (hcontents hinline v hv).ne_nil htypes)
      (fun keyPrefix r => kept_variantOnly (honly v hv) keyPrefix r) (hvariants v hv)
  | @leaf f path ws t hunwraps hleaf =>
    rw [← eventually_add_iff 1]
    filter_upwards [eventually_gt_atTop ws.length] with n hn
    exact leadsTo_leaf hunwraps hleaf hn
  | newtype hnew heffective hty _ ih =>
    rw [← eventually_add_iff 2]
    filter_upwards [(eventually_add_iff 1).mpr heffective.eventually, ih] with n hunwrap hfields
    exact leadsTo_newtype hnew hunwrap hty hfields
  | payload hnew heffective hty _ ih =>
    rw [← eventually_add_iff 1]
    filter_upwards [heffective.eventually, ih] with n hunwrap hfields
    exact leadsTo_payload hnew hunwrap hty hfields
  | variant hnew _ ih =>
    rw [← eventually_add_iff 1]
    filter_upwards [ih] with n hfields
    exact leadsTo_variant hnew hfields

end Facet.Flatten
