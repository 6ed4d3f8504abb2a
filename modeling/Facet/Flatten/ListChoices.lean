import Facet.Flatten.ListFields
import Facet.Flatten.Recording
import Facet.Flatten.KeyAnswers

/-!
# Choices for flattened lists

A flattened list of enums is analysed as its element, so a resolution has one variant for each
list, and takes its name to be required.
-/

namespace Facet.Flatten

open ExceptList

variable {ι : Type} {shapes : Shapes ι} {b : SchemaBuilder ι}

section Choices

variable (shapes : Shapes ι) (b : SchemaBuilder ι)

def listElement (f : Field ι) : ι :=
  match (shapes f.shape).def with
  | .list e => e
  | _ => f.shape

/-- The variants of the enum that a flattened list holds. -/
def listVariants (f : Field ι) : List (Variant ι) :=
  match (shapes (listElement shapes f)).ty with
  | .user (.enum en) => en.variants
  | _ => []

/-- The field by which a resolution has this variant for a flattened list. -/
def listSelector (f : Field ι) (v : Variant ι) : FieldInfo ι :=
  SchemaBuilder.selectorField v.name ((flattenPath [] f [f.shape]).pushVariant f.name v.name) false
    (listElement shapes f) f

/-- What a field can be in a resolution. -/
def fieldInfos (f : Field ι) : List (FieldInfo ι) :=
  if f.isFlattened then (listVariants shapes f).map (listSelector shapes f)
  else [fieldKeyInfo shapes b [] f]

/-- Every list so far followed by each of some further members. -/
def appendEach {α : Type} (css : List (List α)) (xs : List α) : List (List α) :=
  css.flatMap fun c => xs.map fun x => c ++ [x]

/-- The resolutions of a struct, each with one member for each field. -/
def fieldChoices (fs : List (Field ι)) : List (List (FieldInfo ι)) :=
  (fs.map (fieldInfos shapes b)).foldl appendEach [[]]

end Choices

theorem mem_foldl_appendEach {α : Type} {xss : List (List α)} {css : List (List α)} {c : List α} :
    c ∈ xss.foldl appendEach css ↔
      ∃ d ∈ css, ∃ ys, List.Forall₂ (· ∈ ·) ys xss ∧ d ++ ys = c := by
  induction xss generalizing css with
  | nil => simp
  | cons xs xss ih =>
    rw [List.foldl_cons, ih]
    constructor
    · rintro ⟨_, hd, ys, hys, rfl⟩
      obtain ⟨d, hd', hmem⟩ := List.mem_flatMap.mp hd
      obtain ⟨x, hx, rfl⟩ := List.mem_map.mp hmem
      exact ⟨d, hd', x :: ys, .cons hx hys, by simp⟩
    · rintro ⟨d, hd, ys, hys, rfl⟩
      cases hys with
      | @cons x _ ys _ hx hys =>
        refine ⟨d ++ [x], ?_, ys, hys, by simp⟩
        exact List.mem_flatMap.mpr ⟨d, hd, List.mem_map_of_mem hx⟩

theorem nodup_appendEach {α : Type} {css : List (List α)} {xs : List α} (hcss : css.Nodup)
    (hxs : xs.Nodup) : (appendEach css xs).Nodup := by
  refine List.nodup_flatMap.mpr ⟨fun c _ => ?_, ?_⟩
  · exact hxs.map fun x y heq => by simpa using heq
  · apply hcss.imp
    intro c d hne e hc hd
    obtain ⟨x, -, rfl⟩ := List.mem_map.mp hc
    obtain ⟨y, -, heq⟩ := List.mem_map.mp hd
    exact hne (List.append_inj_left' heq rfl).symm

theorem nodup_foldl_appendEach {α : Type} {xss : List (List α)} {css : List (List α)}
    (hcss : css.Nodup) (hxss : ∀ xs ∈ xss, xs.Nodup) : (xss.foldl appendEach css).Nodup := by
  induction xss generalizing css with
  | nil => exact hcss
  | cons xs xss ih =>
    rw [List.foldl_cons]
    exact ih (nodup_appendEach hcss (hxss xs List.mem_cons_self))
      fun ys hys => hxss ys (List.mem_cons_of_mem xs hys)

theorem mem_fieldChoices {fs : List (Field ι)} {c : List (FieldInfo ι)} :
    c ∈ fieldChoices shapes b fs ↔ List.Forall₂ (fun i f => i ∈ fieldInfos shapes b f) c fs := by
  rw [fieldChoices, mem_foldl_appendEach]
  simp [List.forall₂_map_right_iff]

section Analysis

variable {f : Field ι} {e : ι} {en : EnumType ι}

theorem FlattensEnums.listElement_eq (h : FlattensEnums shapes f e en) :
    listElement shapes f = e := by
  simp [listElement, h.list]

theorem FlattensEnums.listVariants_eq (h : FlattensEnums shapes f e en) :
    listVariants shapes f = en.variants := by
  simp [listVariants, h.listElement_eq, h.element.ty]

theorem FlattensEnums.unwraps (h : FlattensEnums shapes f e en) :
    Unwraps shapes (flattenStart shapes f) [f.shape] e := by
  have hstart : flattenStart shapes f = f.shape := by
    simp [flattenStart, unwrapOptionType, h.list]
  rw [hstart]
  exact .layer h.inner (.done h.element.inner)

theorem FlattensEnums.not_option (h : FlattensEnums shapes f e en) :
    isOptionType (shapes f.shape) = false := by
  simp [isOptionType, h.list]

variable (shapes) in
/-- All flattened fields are lists of externally tagged enums. -/
def FlattensEnumLists (fs : List (Field ι)) : Prop :=
  ∀ f ∈ fs, f.isFlattened = true → ∃ e en, FlattensEnums shapes f e en

/-- The resolutions record the choices, unless the analysis stops. -/
abbrev RecordsEach (css : List (List (FieldInfo ι))) : Analysis (List (Resolution ι)) → Prop :=
  MeetsEach Resolution.Records (fun _ _ => True) css

/-- None of the choices has a field from this one. -/
def Apart (css : List (List (FieldInfo ι))) (f : Field ι) : Prop :=
  ∀ c ∈ css, ∀ i ∈ c, ¬ Under [] f i.path

theorem meets_addField {r : Resolution ι} {c : List (FieldInfo ι)} (hr : r.Records c)
    {info : FieldInfo ι} (hpath : ∀ i ∈ c, i.path ≠ info.path) :
    Meets Resolution.Records (fun _ _ => True) (c ++ [info]) (orDuplicateField (r.addField info)) := by
  have hfresh : ∀ i ∈ c, i.key = info.key → i.path ≠ info.path := fun i hi _ => hpath i hi
  have hadd := hr.addField hfresh
  cases hres : r.addField info with
  | ok r' =>
    rw [hres] at hadd
    exact hadd.1
  | error err => trivial

theorem ne_of_apart {css : List (List (FieldInfo ι))} (hcss : Apart css f) {c : List (FieldInfo ι)}
    (hc : c ∈ css) {q : FieldPath} (hq : Under [] f q) : ∀ i ∈ c, i.path ≠ q := by
  intro i hi heq
  exact hcss c hc i hi (heq ▸ hq)

theorem Resolution.Records.sameChoice {r r' : Resolution ι} {c : List (FieldInfo ι)}
    (h : r.Records c) (hsame : SameChoice r r') : r'.Records c where
  fields := by
    rw [hsame.fields]
    exact h.fields
  required := by
    rw [hsame.required]
    exact h.required

theorem forall₂_records_same {rs rs' : List (Resolution ι)} {css : List (List (FieldInfo ι))}
    (h : List.Forall₂ Resolution.Records rs css) (hsame : List.Forall₂ SameChoice rs rs') :
    List.Forall₂ Resolution.Records rs' css := by
  induction hsame generalizing css with
  | nil => exact h
  | cons hr _ ih =>
    cases h with
    | cons hrecords h => exact .cons (hrecords.sameChoice hr) (ih h)

theorem recordsEach_plain (hf : f.isFlattened = false) (n : ℕ) {rs : List (Resolution ι)}
    {css : List (List (FieldInfo ι))} (hrs : List.Forall₂ Resolution.Records rs css)
    (hne : css ≠ []) (hcss : Apart css f) :
    RecordsEach (appendEach css (fieldInfos shapes b f))
      (b.analyzeFieldIntoConfigs shapes (n + 1) f [] [] rs) := by
  have hinfos : appendEach css (fieldInfos shapes b f) =
      css.map (· ++ [fieldKeyInfo shapes b [] f]) := by
    simp [appendEach, fieldInfos, hf, List.map_eq_flatMap]
  rw [hinfos, SchemaBuilder.analyzeFieldIntoConfigs, if_neg (by simp [hf])]
  have hadd : RecordsEach (css.map (· ++ [fieldKeyInfo shapes b [] f]))
      (rs.mapM fun config => orDuplicateField (config.addField (fieldKeyInfo shapes b [] f)) >>=
        fun config => pure (config.addKeyPath ([] ++ [f.effectiveName]))) := by
    apply MeetsEach.mapM
    apply forall₂_imp_of_mem hrs
    intro r c hc hr
    have hunder : Under [] f (fieldKeyInfo shapes b [] f).path := List.prefix_rfl
    apply Outcome.bind (meets_addField hr (ne_of_apart hcss hc hunder))
    · exact fun _ _ => trivial
    · exact fun r' hr' => hr'.sameChoice (.addKeyPath r' _)
  apply Outcome.bind hadd
  · exact fun err h => h
  · intro rs' hrs'
    cases hcollect : collectNestedKeyPathsForShape shapes n f.shape ([] ++ [f.effectiveName]) rs' with
    | error err =>
      obtain ⟨c, hc⟩ := List.exists_mem_of_ne_nil css hne
      exact ⟨_, List.mem_map_of_mem hc, trivial⟩
    | ok rs'' =>
      have hnested : NestedKept SameChoice shapes n := nestedKept .sameChoice n
      exact forall₂_records_same hrs' ((hnested.shape f.shape _ rs').of_ok hcollect)

/-- One configuration and one variant of a flattened list. -/
theorem meets_listFork (h : FlattensEnums shapes f e en) (hauto : b.autoDetectEnumRepr = true)
    (n : ℕ) {r : Resolution ι} {css : List (List (FieldInfo ι))} {c : List (FieldInfo ι)}
    (hc : c ∈ css) (hcss : Apart css f) (hr : r.Records c) (v : Variant ι) :
    RecordsEach [c ++ [listSelector shapes f v]] (b.forkVariant shapes n f
      (flattenPath [] f [f.shape]) [] (isOptionType (shapes f.shape)) e r v) := by
  have hrepr : b.reprOf shapes e = .externallyTagged := by
    rw [SchemaBuilder.reprOf, hauto, if_pos rfl, h.tagged]
  have hbelow : ((r.addVariantSelection (flattenPath [] f [f.shape]) (shapes e).typeIdentifier
      v.name).addKeyPath [v.name]).Records c := ⟨hr.fields, hr.required⟩
  have hselector : SchemaBuilder.selectorField v.name ((flattenPath [] f [f.shape]).pushVariant f.name
      v.name) (isOptionType (shapes f.shape)) e f = listSelector shapes f v := by
    rw [listSelector, h.listElement_eq, h.not_option]
  have hunder : Under [] f (listSelector shapes f v).path :=
    (pushField_prefix_flattenPath [] f _).trans (List.prefix_append _ _)
  unfold SchemaBuilder.forkVariant
  simp only [hrepr, hselector, List.nil_append]
  apply Outcome.bind (meets_addField hbelow (ne_of_apart hcss hc hunder))
  · exact fun _ _ => ⟨_, List.mem_cons_self, trivial⟩
  · intro r' hr'
    cases hcollect : collectVariantFieldsKeyPathsOnly shapes n v [v.name] r' with
    | error err => exact ⟨_, List.mem_cons_self, trivial⟩
    | ok r'' =>
      have hkept := ((onlyKept .sameChoice n).variant v [v.name] r').of_ok hcollect
      exact List.Forall₂.cons (Resolution.Records.sameChoice hr' hkept) .nil

theorem recordsEach_list (h : FlattensEnums shapes f e en) (hauto : b.autoDetectEnumRepr = true)
    (n : ℕ) {rs : List (Resolution ι)} {css : List (List (FieldInfo ι))}
    (hrs : List.Forall₂ Resolution.Records rs css) (hne : css ≠ []) (hvariants : en.variants ≠ [])
    (hcss : Apart css f) :
    RecordsEach (appendEach css (fieldInfos shapes b f))
      (b.analyzeFlattenedFieldIntoConfigs shapes n f [] [] rs) := by
  have hinfos : appendEach css (fieldInfos shapes b f) =
      css.flatMap fun c => en.variants.flatMap fun v => [c ++ [listSelector shapes f v]] := by
    rw [fieldInfos, if_pos h.flattened, h.listVariants_eq]
    simp only [appendEach, List.map_map, Function.comp_def, ← List.map_eq_flatMap]
  have hfails (err : SchemaError) : RecordsEach (appendEach css (fieldInfos shapes b f))
      (.error err : Analysis (List (Resolution ι))) := by
    obtain ⟨c, hc⟩ := List.exists_mem_of_ne_nil css hne
    obtain ⟨v, hv⟩ := List.exists_mem_of_ne_nil _ hvariants
    rw [hinfos]
    exact ⟨_, List.mem_flatMap.mpr ⟨c, hc, List.mem_flatMap.mpr ⟨v, hv, List.mem_cons_self⟩⟩, trivial⟩
  cases n with
  | zero => exact hfails _
  | succ n =>
    cases hunwrap : unwrapTransparentWithPath shapes n (flattenStart shapes f)
      (FieldPath.pushField [] f.name) with
    | error err =>
      rw [SchemaBuilder.analyzeFlattenedFieldIntoConfigs, unwrapOptionalFlatten_eq]
      dsimp only
      rw [hunwrap]
      exact hfails err
    | ok unwrapped =>
      obtain ⟨t, fieldPath⟩ := unwrapped
      obtain ⟨ws, hunwraps, hpath⟩ := exists_unwraps_of_withPath hunwrap
      obtain ⟨rfl, rfl⟩ := hunwraps.unique h.unwraps
      replace hpath : fieldPath = flattenPath [] f [f.shape] := hpath
      subst hpath
      rw [SchemaBuilder.analyzeFlattened_enum hunwrap h.element.ty, hinfos]
      apply MeetsEach.flatMapM
      apply forall₂_imp_of_mem hrs
      intro r c hc hr
      apply MeetsEach.flatMapM
      rw [List.forall₂_same]
      exact fun v _ => meets_listFork h hauto n hc hcss hr v

theorem under_of_mem_fieldInfos {i : FieldInfo ι} (hi : i ∈ fieldInfos shapes b f) :
    Under [] f i.path := by
  unfold fieldInfos at hi
  split at hi
  · obtain ⟨v, -, rfl⟩ := List.mem_map.mp hi
    exact (pushField_prefix_flattenPath [] f _).trans (List.prefix_append _ _)
  · rw [List.mem_singleton.mp hi]
    exact List.prefix_rfl

theorem appendEach_ne_nil {α : Type} {css : List (List α)} {xs : List α} (hcss : css ≠ [])
    (hxs : xs ≠ []) : appendEach css xs ≠ [] := by
  obtain ⟨c, hc⟩ := List.exists_mem_of_ne_nil css hcss
  obtain ⟨x, hx⟩ := List.exists_mem_of_ne_nil xs hxs
  exact List.ne_nil_of_mem (List.mem_flatMap.mpr ⟨c, hc, List.mem_map_of_mem hx⟩)

theorem foldl_appendEach_ne_nil {α : Type} {css xss : List (List α)} (hcss : css ≠ [])
    (hxss : ∀ xs ∈ xss, xs ≠ []) : xss.foldl appendEach css ≠ [] := by
  induction xss generalizing css with
  | nil => exact hcss
  | cons xs xss ih =>
    rw [List.foldl_cons]
    exact ih (appendEach_ne_nil hcss (hxss xs List.mem_cons_self))
      fun ys hys => hxss ys (List.mem_cons_of_mem xs hys)

theorem fieldInfos_ne_nil (hlists : f.isFlattened = true → ∃ e en, FlattensEnums shapes f e en)
    (htypes : FiniteTypes shapes) : fieldInfos shapes b f ≠ [] := by
  unfold fieldInfos
  split
  · next hf =>
    obtain ⟨e, en, h⟩ := hlists hf
    rw [h.listVariants_eq]
    exact fun hnil => htypes.variants e en h.element.ty (List.map_eq_nil_iff.mp hnil)
  · exact List.cons_ne_nil _ _

theorem recordsEach_field (hlists : f.isFlattened = true → ∃ e en, FlattensEnums shapes f e en)
    (htypes : FiniteTypes shapes) (hauto : b.autoDetectEnumRepr = true) (n : ℕ)
    {rs : List (Resolution ι)} {css : List (List (FieldInfo ι))}
    (hrs : List.Forall₂ Resolution.Records rs css) (hne : css ≠ []) (hcss : Apart css f) :
    RecordsEach (appendEach css (fieldInfos shapes b f))
      (b.analyzeFieldIntoConfigs shapes n f [] [] rs) := by
  cases n with
  | zero =>
    obtain ⟨c, hc⟩ := List.exists_mem_of_ne_nil _
      (appendEach_ne_nil hne (fieldInfos_ne_nil (b := b) hlists htypes))
    exact ⟨c, hc, trivial⟩
  | succ n =>
    by_cases hf : f.isFlattened = true
    · obtain ⟨e, en, h⟩ := hlists hf
      rw [SchemaBuilder.analyzeFieldIntoConfigs, if_pos hf]
      exact recordsEach_list h hauto n hrs hne (htypes.variants e en h.element.ty) hcss
    · exact recordsEach_plain (Bool.eq_false_iff.mpr hf) n hrs hne hcss

end Analysis

end Facet.Flatten
