import Facet.Flatten.ListChoices
import Facet.Flatten.OmittedBlocks

/-!
# Parts without keys

A part none of whose choices has a key leaves what the resolutions record as it is. It only repeats
each of them once for every choice.
-/

namespace Facet.Flatten

open Filter ExceptList

variable {ι : Type} {shapes : Shapes ι} {b : SchemaBuilder ι}

/-- In a flat schema the listed keys are those of the choices. -/
theorem ListsKeys.arises (hflat : b.format = .flat) {part : Part ι} {path : FieldPath}
    {kss : List (List Tracked)} (h : ListsKeys shapes b part path kss) :
    ∀ ks ∈ kss, ∃ ws, Arises shapes b part path ws ∧ tracked ws = ks := by
  have hfieldKey (f : Field ι) : b.fieldKey f = .flat f.effectiveName := by
    simp [SchemaBuilder.fieldKey, SchemaBuilder.category, hflat]
  induction h with
  | nil =>
    intro ks hks
    exact ⟨[], .nil, (List.mem_singleton.mp hks).symm⟩
  | @plain f fs path kss hf _ ih =>
    intro ks hks
    obtain ⟨as, has, ls, hls, rfl⟩ := mem_extendKeys.mp hks
    obtain ⟨ws, hws, rfl⟩ := ih ls hls
    refine ⟨_, .plain hf hws, ?_⟩
    rw [List.mem_singleton.mp has, hfieldKey]
    rfl
  | flat hf _ _ ih₁ ih =>
    intro ks hks
    obtain ⟨as, has, ls, hls, rfl⟩ := mem_extendKeys.mp hks
    obtain ⟨vs, hvs, rfl⟩ := ih₁ as has
    obtain ⟨ws, hws, rfl⟩ := ih ls hls
    exact ⟨_, .flat hf hvs hws, tracked_append vs ws⟩
  | struct hunwraps hty _ ih =>
    intro ks hks
    obtain ⟨ws, hws, heq⟩ := ih ks hks
    exact ⟨ws, .struct hunwraps hty hws, heq⟩
  | @enum f path ws t en css hunwraps hty _ ih =>
    intro ks hks
    obtain ⟨v, hv, hks⟩ := List.mem_flatMap.mp hks
    have hselectors (repr : EnumRepr) (place : FieldPath) :
        tracked (selectorKeys repr v.name place) = variantSelectors repr v.name place := by
      simp [tracked, selectorKeys, variantSelectors, WireKey.key]
    by_cases hinline : (b.reprOf shapes t).Inline
    · rw [forkKeys_inline hinline] at hks
      obtain ⟨ls, hls, rfl⟩ := List.mem_map.mp hks
      obtain ⟨us, hus, rfl⟩ := ih hinline v hv ls hls
      refine ⟨_, .inline hunwraps hty hinline hv hus, ?_⟩
      rw [tracked_append, hselectors]
    · rw [forkKeys_nested hinline, List.mem_singleton] at hks
      exact ⟨_, .nested hunwraps hty hinline hv, by rw [hselectors, hks]⟩
  | @leaf f path ws t hunwraps hleaf =>
    intro ks hks
    refine ⟨_, .leaf hunwraps hleaf, ?_⟩
    rw [List.mem_singleton.mp hks]
    unfold leafKeys leafTracked
    cases (shapes t).def with
    | map k v => rfl
    | dynamicValue => rfl
    | _ => simp [tracked, WireKey.key, hfieldKey]
  | newtype hnew heffective hty _ ih =>
    intro ks hks
    obtain ⟨ws, hws, heq⟩ := ih ks hks
    exact ⟨ws, .newtype hnew heffective hty hws, heq⟩
  | payload hnew heffective hty _ ih =>
    intro ks hks
    obtain ⟨ws, hws, heq⟩ := ih ks hks
    exact ⟨ws, .payload hnew heffective hty hws, heq⟩
  | variant hnew _ ih =>
    intro ks hks
    obtain ⟨ws, hws, heq⟩ := ih ks hks
    exact ⟨ws, .variant hnew hws, heq⟩

section Repeated

variable {css : List (List (FieldInfo ι))} {kss lss : List (List Tracked)}

/-- Every member once for each of some choices. -/
def repeated (kss : List (List Tracked)) (css : List (List (FieldInfo ι))) :
    List (List (FieldInfo ι)) :=
  css.flatMap fun c => kss.map fun _ => c

theorem mem_of_mem_repeated {c : List (FieldInfo ι)} (h : c ∈ repeated kss css) : c ∈ css := by
  obtain ⟨d, hd, hmem⟩ := List.mem_flatMap.mp h
  obtain ⟨-, -, rfl⟩ := List.mem_map.mp hmem
  exact hd

theorem repeated_ne_nil (hcss : css ≠ []) (hkss : kss ≠ []) : repeated kss css ≠ [] := by
  obtain ⟨c, hc⟩ := List.exists_mem_of_ne_nil _ hcss
  obtain ⟨ks, hks⟩ := List.exists_mem_of_ne_nil _ hkss
  exact List.ne_nil_of_mem (List.mem_flatMap.mpr ⟨c, hc, List.mem_map_of_mem hks⟩)

theorem repeated_of_length_eq_one (h : kss.length = 1) : repeated kss css = css := by
  obtain ⟨ks, rfl⟩ := List.length_eq_one_iff.mp h
  exact List.flatMap_singleton' css

theorem repeated_extendKeys : repeated (extendKeys kss lss) css = repeated lss (repeated kss css) := by
  simp only [repeated, extendKeys, List.flatMap_assoc, List.map_flatMap, List.flatMap_map, List.map_map,
    Function.comp_def]

@[simp] theorem repeated_singleton (c : List (FieldInfo ι)) :
    repeated kss [c] = kss.map fun _ => c := by
  simp [repeated]

end Repeated

/-- Where there are choices, one of them may account for an error. -/
theorem exists_mem_true {α : Type} {xs : List α} (h : xs ≠ []) : ∃ x ∈ xs, True := by
  obtain ⟨x, hx⟩ := List.exists_mem_of_ne_nil xs h
  exact ⟨x, hx, trivial⟩

variable (shapes b) in
/-- At this fuel the analysis of the part repeats what it starts from. -/
def Repeats (n : ℕ) (path : FieldPath) (kss : List (List Tracked)) : Part ι → Prop
  | .fields fs => ∀ rs css, css ≠ [] → List.Forall₂ Resolution.Records rs css →
      RecordsEach (repeated kss css) (fs.foldlM (fun configs f =>
        b.analyzeFieldIntoConfigs shapes n f path [] configs) rs)
  | .flattened f => ∀ rs css, css ≠ [] → List.Forall₂ Resolution.Records rs css →
      RecordsEach (repeated kss css) (b.analyzeFlattenedFieldIntoConfigs shapes n f path [] rs)
  | .variant v => RecordsEach (kss.map fun _ => []) (b.analyzeVariantContent shapes n v path [])

section Steps

variable {n : ℕ} {f : Field ι} {path : FieldPath} {kss : List (List Tracked)}

theorem Repeats.fromNew {fs : List (Field ι)} (h : Repeats shapes b n path kss (.fields fs)) :
    RecordsEach (kss.map fun _ => []) (fs.foldlM (fun configs f =>
      b.analyzeFieldIntoConfigs shapes n f path [] configs) [.new]) := by
  rw [← repeated_singleton]
  exact h [.new] [[]] (List.cons_ne_nil _ _) (.cons .new .nil)

/-- What records nothing is merged into a configuration once for each choice. -/
theorem recordsEach_mergeEach {r : Resolution ι} {c : List (FieldInfo ι)} (hr : r.Records c)
    {configs : List (Resolution ι)} (optional : Bool)
    (hconfigs : List.Forall₂ Resolution.Records configs (kss.map fun _ => [])) :
    RecordsEach (kss.map fun _ => c)
      (SchemaBuilder.mergeEach r (SchemaBuilder.markOptionalIf optional configs)) := by
  have hblank : ∀ config : Resolution ι, config.Records [] →
      Meets Resolution.Records (fun _ _ => True) c (orDuplicateField (r.merge config)) := by
    intro config hconfig
    have hmerge := hr.merge hconfig fun i _ j hj => absurd hj List.not_mem_nil
    cases hres : r.merge config with
    | ok r' =>
      rw [hres, List.append_nil] at hmerge
      exact hmerge.1
    | error e => trivial
  rw [List.forall₂_map_right_iff] at hconfigs
  apply MeetsEach.mapM
  unfold SchemaBuilder.markOptionalIf
  split
  · rw [List.forall₂_map_left_iff]
    exact hconfigs.imp fun config _ hconfig => hblank _ hconfig.markAllOptional
  · exact hconfigs.imp fun config _ hconfig => hblank _ hconfig

theorem repeats_flat {fs : List (Field ι)} {lss : List (List Tracked)} (hf : f.isFlattened = true)
    (hkss : kss ≠ []) (hlss : lss ≠ []) (hfirst : Repeats shapes b n path kss (.flattened f))
    (h : Repeats shapes b (n + 1) path lss (.fields fs)) :
    Repeats shapes b (n + 1) path (extendKeys kss lss) (.fields (f :: fs)) := by
  intro rs css hcss hrs
  rw [List.foldlM_cons, repeated_extendKeys, SchemaBuilder.analyzeFieldIntoConfigs, if_pos hf]
  have hne := repeated_ne_nil hcss hkss
  apply Outcome.bind (hfirst rs css hcss hrs)
  · exact fun _ _ => exists_mem_true (repeated_ne_nil hne hlss)
  · exact fun rs' hrs' => h rs' _ hne hrs'

theorem repeats_struct {ws : List ι} {t : ι} {st : StructType ι}
    (hunwraps : Unwraps shapes (flattenStart shapes f) ws t)
    (hty : (shapes t).ty = .user (.struct st)) (hn : ws.length ≤ n) (hkss : kss ≠ [])
    (h : Repeats shapes b n (flattenPath path f ws) kss (.fields st.fields)) :
    Repeats shapes b (n + 2) path kss (.flattened f) := by
  intro rs css hcss hrs
  rw [SchemaBuilder.analyzeFlattenedFieldIntoConfigs, unwrapOptionalFlatten_eq]
  dsimp only
  rw [hunwraps.withPath (Nat.lt_succ_of_le hn), ok_bind]
  dsimp only
  rw [hty]
  dsimp only
  rw [SchemaBuilder.analyzeStruct]
  apply Outcome.bind h.fromNew
  · exact fun _ _ => exists_mem_true (repeated_ne_nil hcss hkss)
  · intro configs hconfigs
    apply MeetsEach.flatMapM
    exact hrs.imp fun r c hr => recordsEach_mergeEach hr _ hconfigs

theorem repeats_enum {ws : List ι} {t : ι} {en : EnumType ι} {css : Variant ι → List (List Tracked)}
    (hunwraps : Unwraps shapes (flattenStart shapes f) ws t)
    (hty : (shapes t).ty = .user (.enum en)) (hrepr : b.reprOf shapes t = .flattened)
    (hn : ws.length < n) (hne : ∀ v ∈ en.variants, css v ≠ [])
    (h : ∀ v ∈ en.variants, Repeats shapes b n ((flattenPath path f ws).pushVariant f.name v.name)
      (css v) (.variant v)) :
    Repeats shapes b (n + 1) path (en.variants.flatMap css) (.flattened f) := by
  intro rs ds _ hrs
  rw [SchemaBuilder.analyzeFlattened_enum (hunwraps.withPath hn _) hty]
  apply MeetsEach.flatMapM
  apply hrs.imp
  intro r c hr
  rw [List.map_flatMap]
  apply MeetsEach.flatMapM
  rw [List.forall₂_same]
  intro v hv
  have hforked : (r.addVariantSelection (flattenPath path f ws) (shapes t).typeIdentifier
      v.name).Records c := ⟨hr.fields, hr.required⟩
  unfold SchemaBuilder.forkVariant
  simp only [hrepr]
  apply Outcome.bind (h v hv)
  · exact fun _ _ => exists_mem_true fun hnil => hne v hv (List.map_eq_nil_iff.mp hnil)
  · exact fun configs hconfigs => recordsEach_mergeEach hforked _ hconfigs

theorem repeats_leaf {ws : List ι} {t : ι} (hunwraps : Unwraps shapes (flattenStart shapes f) ws t)
    (hleaf : ¬ IsAggregate shapes t) (hn : ws.length < n) {ks : List Tracked}
    (hkeys : leafTracked shapes b f t (flattenPath path f ws) = []) :
    Repeats shapes b (n + 1) path [ks] (.flattened f) := by
  intro rs css _ hrs
  have hkept (cat : FieldCategory) (info : FieldInfo ι) :
      List.Forall₂ Resolution.Records (rs.map fun r => r.setCatchAllMap cat info) css := by
    rw [List.forall₂_map_left_iff]
    exact hrs.imp fun r c hr => ⟨hr.fields, hr.required⟩
  rw [repeated_of_length_eq_one rfl, SchemaBuilder.analyzeFlattenedFieldIntoConfigs,
    unwrapOptionalFlatten_eq]
  dsimp only
  rw [hunwraps.withPath hn, ok_bind]
  dsimp only
  split
  · next st hty => exact absurd (.inl ⟨st, hty⟩) hleaf
  · next en hty => exact absurd (.inr ⟨en, hty⟩) hleaf
  · unfold leafTracked at hkeys
    cases hdef : (shapes t).def with
    | map k v => exact hkept _ _
    | dynamicValue => exact hkept _ _
    | _ =>
      rw [hdef] at hkeys
      exact absurd hkeys (List.cons_ne_nil _ _)

theorem repeats_newtype {v : Variant ι} {t : ι} {st : StructType ι} (hnew : newtypeField v = some f)
    (heffective : unwrapToEffectiveShape shapes (n + 1) f.shape = .ok t)
    (hty : (shapes t).ty = .user (.struct st))
    (h : Repeats shapes b n (path.pushField "0") kss (.fields st.fields)) :
    Repeats shapes b (n + 2) path kss (.variant v) := by
  change RecordsEach _ _
  rw [SchemaBuilder.analyzeVariantContent, hnew]
  dsimp only
  rw [heffective, ok_bind, hty]
  dsimp only
  rw [SchemaBuilder.analyzeStruct]
  exact h.fromNew

theorem repeats_payload {v : Variant ι} {t : ι} (hnew : newtypeField v = some f)
    (heffective : unwrapToEffectiveShape shapes n f.shape = .ok t)
    (hty : ∀ st, (shapes t).ty ≠ .user (.struct st))
    (h : Repeats shapes b n path kss (.fields v.data.fields)) :
    Repeats shapes b (n + 1) path kss (.variant v) := by
  change RecordsEach _ _
  rw [SchemaBuilder.analyzeVariantContent, hnew]
  dsimp only
  rw [heffective, ok_bind]
  split
  · next st hst => exact absurd hst (hty st)
  · exact h.fromNew

theorem repeats_variant {v : Variant ι} (hnew : newtypeField v = none)
    (h : Repeats shapes b n path kss (.fields v.data.fields)) :
    Repeats shapes b (n + 1) path kss (.variant v) := by
  change RecordsEach _ _
  rw [SchemaBuilder.analyzeVariantContent, hnew]
  exact h.fromNew

end Steps

/-- Where every choice of some has no key, neither has any of those put together. -/
theorem forall_nil_of_extendKeys {kss lss : List (List Tracked)} (hkss : kss ≠ []) (hlss : lss ≠ [])
    (h : ∀ ks ∈ extendKeys kss lss, ks = []) : (∀ ks ∈ kss, ks = []) ∧ ∀ ls ∈ lss, ls = [] := by
  constructor
  · intro ks hks
    obtain ⟨ls, hls⟩ := List.exists_mem_of_ne_nil _ hlss
    exact (List.append_eq_nil_iff.mp (h _ (mem_extendKeys.mpr ⟨ks, hks, ls, hls, rfl⟩))).1
  · intro ls hls
    obtain ⟨ks, hks⟩ := List.exists_mem_of_ne_nil _ hkss
    exact (List.append_eq_nil_iff.mp (h _ (mem_extendKeys.mpr ⟨ks, hks, ls, hls, rfl⟩))).2

/-- Only the variants of an untagged enum can do without keys. -/
theorem flattened_of_forkKeys_nil {repr : EnumRepr} {v : Variant ι} {path : FieldPath}
    {kss : List (List Tracked)} (hkss : repr.Inline → kss ≠ [])
    (h : ∀ ks ∈ forkKeys repr v path kss, ks = []) : repr = .flattened := by
  have hselectors : variantSelectors repr v.name path = [] := by
    have hne : forkKeys repr v path kss ≠ [] := forkKeys_ne_nil hkss
    obtain ⟨ks, hks⟩ := List.exists_mem_of_ne_nil _ hne
    have hnil := h ks hks
    by_cases hinline : repr.Inline
    · rw [forkKeys_inline hinline] at hks
      obtain ⟨ls, -, rfl⟩ := List.mem_map.mp hks
      exact (List.append_eq_nil_iff.mp hnil).1
    · rw [forkKeys_nested hinline, List.mem_singleton] at hks
      rwa [hks] at hnil
  cases repr with
  | flattened => rfl
  | _ => exact absurd hselectors (List.cons_ne_nil _ _)

/-- With enough fuel, the analysis of a part without keys repeats what it starts from. -/
theorem ListsKeys.repeats (htypes : FiniteTypes shapes) {part : Part ι} {path : FieldPath}
    {kss : List (List Tracked)} (h : ListsKeys shapes b part path kss) (hnil : ∀ ks ∈ kss, ks = []) :
    ∀ᶠ n in atTop, Repeats shapes b n path kss part := by
  induction h with
  | nil =>
    apply Eventually.of_forall
    intro n rs css _ hrs
    rw [repeated_of_length_eq_one rfl]
    exact hrs
  | plain hf hfs ih =>
    have hone := (forall_nil_of_extendKeys (List.cons_ne_nil _ _) (hfs.ne_nil htypes) hnil).1
    exact absurd (hone _ List.mem_cons_self) (List.cons_ne_nil _ _)
  | flat hf hfirst hfs ih₁ ih =>
    obtain ⟨hnil₁, hnil⟩ :=
      forall_nil_of_extendKeys (hfirst.ne_nil htypes) (hfs.ne_nil htypes) hnil
    rw [← eventually_add_iff 1]
    filter_upwards [ih₁ hnil₁, (eventually_add_iff 1).mpr (ih hnil)] with n hn hrest
    exact repeats_flat hf (hfirst.ne_nil htypes) (hfs.ne_nil htypes) hn hrest
  | @struct f path ws t st kss hunwraps hty hfs ih =>
    rw [← eventually_add_iff 2]
    filter_upwards [eventually_ge_atTop ws.length, ih hnil] with n hn hfields
    exact repeats_struct hunwraps hty hn (hfs.ne_nil htypes) hfields
  | @enum f path ws t en css hunwraps hty hcontents ih =>
    have hfork : ∀ v ∈ en.variants, ∀ ks ∈ forkKeys (b.reprOf shapes t) v
        ((flattenPath path f ws).pushVariant f.name v.name) (css v), ks = [] :=
      fun v hv ks hks => hnil ks (List.mem_flatMap.mpr ⟨v, hv, hks⟩)
    obtain ⟨u, hu⟩ := List.exists_mem_of_ne_nil _ (htypes.variants _ _ hty)
    have hrepr : b.reprOf shapes t = .flattened :=
      flattened_of_forkKeys_nil (fun hinline => (hcontents hinline u hu).ne_nil htypes) (hfork u hu)
    have hinline : (b.reprOf shapes t).Inline := by
      rw [hrepr]
      trivial
    have hkeys (v : Variant ι) : forkKeys (b.reprOf shapes t) v
        ((flattenPath path f ws).pushVariant f.name v.name) (css v) = css v := by
      rw [hrepr]
      simp [forkKeys, variantSelectors, EnumRepr.selectorName]
    simp only [hkeys] at hfork ⊢
    have hall : ∀ᶠ n in atTop, ∀ v ∈ en.variants, Repeats shapes b n
        ((flattenPath path f ws).pushVariant f.name v.name) (css v) (.variant v) :=
      (eventually_all_finite (List.finite_toSet _)).mpr fun v hv => ih hinline v hv (hfork v hv)
    rw [← eventually_add_iff 1]
    filter_upwards [hall, eventually_gt_atTop ws.length] with n hvariants hn
    exact repeats_enum hunwraps hty hrepr hn (fun v hv => (hcontents hinline v hv).ne_nil htypes)
      hvariants
  | @leaf f path ws t hunwraps hleaf =>
    rw [← eventually_add_iff 1]
    filter_upwards [eventually_gt_atTop ws.length] with n hn
    exact repeats_leaf hunwraps hleaf hn (hnil _ List.mem_cons_self)
  | newtype hnew heffective hty _ ih =>
    rw [← eventually_add_iff 2]
    filter_upwards [(eventually_add_iff 1).mpr heffective.eventually, ih hnil] with n hunwrap hfields
    exact repeats_newtype hnew hunwrap hty hfields
  | payload hnew heffective hty _ ih =>
    rw [← eventually_add_iff 1]
    filter_upwards [heffective.eventually, ih hnil] with n hunwrap hfields
    exact repeats_payload hnew hunwrap hty hfields
  | variant hnew _ ih =>
    rw [← eventually_add_iff 1]
    filter_upwards [ih hnil] with n hfields
    exact repeats_variant hnew hfields

end Facet.Flatten
