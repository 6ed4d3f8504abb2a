import Facet.Flatten.KeylessParts
import Facet.Flatten.ListNames

/-!
# Lists beside other flattened fields

Besides its lists of enums a struct may flatten lists of structs and untagged enums around lists of
structs. Where the elements have no keys, these fields only multiply the resolutions.
-/

namespace Facet.Flatten

open Filter ExceptList

variable {ι : Type} {shapes : Shapes ι} {b : SchemaBuilder ι}

section Kinds

variable (shapes : Shapes ι)

/-- A list whose elements are enums. -/
def holdsEnums (f : Field ι) : Bool :=
  match (shapes f.shape).ty, (shapes f.shape).def with
  | .user .opaqueTy, .list e =>
    match (shapes e).ty with
    | .user (.enum _) => true
    | _ => false
  | _, _ => false

/-- The field is not flattened, or it is a flattened list of enums. -/
def isListed (f : Field ι) : Bool := !f.isFlattened || holdsEnums shapes f

/-- The ordinary fields and the flattened lists of enums. -/
def listedFields (fs : List (Field ι)) : List (Field ι) := fs.filter (isListed shapes)

/-- A variant around a list, array or set of structs, or one without fields. -/
def HoldsStructs (v : Variant ι) : Prop :=
  v.data.fields = [] ∨ ∃ g e st, newtypeField v = some g ∧ IsContainer shapes g.shape e ∧
    IsStruct shapes e st

/-- A flattened list of externally tagged enums or of structs, or a flattened untagged enum around
containers of structs. -/
inductive FlattensContainer (f : Field ι) : Prop
  | enums {e : ι} {en : EnumType ι} : FlattensEnums shapes f e en → FlattensContainer f
  | structs {e : ι} {st : StructType ι} : FlattensStructs shapes f e st →
      (shapes f.shape).ty = .user .opaqueTy → FlattensContainer f
  | untagged {en : EnumType ι} : FlattensUntagged shapes f en →
      (∀ v ∈ en.variants, HoldsStructs shapes v) → FlattensContainer f

def FlattensContainers (fs : List (Field ι)) : Prop :=
  ∀ f ∈ fs, f.isFlattened = true → FlattensContainer shapes f

end Kinds

section Kinds

variable {f : Field ι} {fs : List (Field ι)}

theorem FlattensEnums.holdsEnums {e : ι} {en : EnumType ι} (h : FlattensEnums shapes f e en) :
    holdsEnums shapes f = true := by
  simp [Flatten.holdsEnums, h.outer, h.list, h.element.ty]

theorem FlattensStructs.not_holdsEnums {e : ι} {st : StructType ι}
    (h : FlattensStructs shapes f e st) : holdsEnums shapes f = false := by
  unfold Flatten.holdsEnums
  split
  · next t _ hlist =>
    cases h.list.symm.trans hlist
    simp [h.element.ty]
  · rfl

theorem FlattensUntagged.not_holdsEnums {en : EnumType ι} (h : FlattensUntagged shapes f en) :
    holdsEnums shapes f = false := by
  simp [Flatten.holdsEnums, h.enum.ty]

theorem flattened_of_not_listed (h : isListed shapes f = false) : f.isFlattened = true := by
  unfold isListed at h
  rw [Bool.or_eq_false_iff] at h
  simpa using h.1

theorem FlattensContainer.exists_enums (h : FlattensContainer shapes f)
    (hflat : f.isFlattened = true) (hlisted : isListed shapes f = true) :
    ∃ e en, FlattensEnums shapes f e en := by
  simp only [isListed, hflat, Bool.not_true, Bool.false_or] at hlisted
  cases h with
  | enums h => exact ⟨_, _, h⟩
  | structs h => exact absurd hlisted (by simp [h.not_holdsEnums])
  | untagged h => exact absurd hlisted (by simp [h.not_holdsEnums])

/-- Among the ordinary fields and lists of enums, all flattened fields are such lists. -/
theorem FlattensContainers.enumLists (h : FlattensContainers shapes fs) :
    FlattensEnumLists shapes (listedFields shapes fs) := by
  intro f hf hflat
  obtain ⟨hf, hlisted⟩ := List.mem_filter.mp hf
  exact (h f hf hflat).exists_enums hflat hlisted

/-- Where the elements have no keys, the other flattened fields have none. -/
theorem FlattensContainer.keyless (hauto : b.autoDetectEnumRepr = true) (hf : f ∈ fs)
    (hkeyless : KeylessElements shapes b fs) (h : FlattensContainer shapes f)
    (hlisted : isListed shapes f = false) {ks : List WireKey}
    (hks : Arises shapes b (.flattened f) [] ks) : ks = [] := by
  cases h with
  | enums h => exact absurd hlisted (by simp [isListed, h.holdsEnums])
  | structs h _ =>
    have hfields : ks ∈ arising shapes b (.flattened f) [] := hks
    rw [arising_struct h.unwraps h.element.ty] at hfields
    exact hkeyless _ _ (.list hf h) ks hfields
  | untagged h hvariants =>
    have hfork : ks ∈ arising shapes b (.flattened f) [] := hks
    rw [arising_enum h.unwraps h.enum.ty] at hfork
    obtain ⟨v, hv, hkeys⟩ := hfork
    rw [reprOf_untagged hauto h] at hkeys
    rcases hkeys with ⟨-, ls, hls, rfl⟩ | ⟨hnested, -⟩
    · have hempty : ls = [] := by
        rcases hvariants v hv with hfields | ⟨g, e, st, hnew, hcontainer, hstruct⟩
        · have hnew : newtypeField v = none := by simp [newtypeField, hfields]
          dsimp only at hls
          rw [arising_variant hnew, hfields, arising_nil] at hls
          exact hls
        · dsimp only at hls
          rw [arising_newtype hnew (effective_of_container hcontainer hstruct) hstruct.ty] at hls
          exact hkeyless _ _ (.variant hf h hv hnew hcontainer hstruct) ls hls
      rw [hempty]
      rfl
    · exact absurd trivial hnested

theorem Grounded.of_mem (h : Grounded shapes b (.fields fs)) (hf : f ∈ fs)
    (hflat : f.isFlattened = true) : Grounded shapes b (.flattened f) := by
  induction fs with
  | nil => exact absurd hf List.not_mem_nil
  | cons g fs ih =>
    cases h with
    | plain hg _ hrest =>
      rcases List.mem_cons.mp hf with rfl | hf
      · exact absurd hflat (by simp [hg])
      · exact ih hrest hf
    | flat hg hfirst hrest =>
      rcases List.mem_cons.mp hf with rfl | hf
      · exact hfirst
      · exact ih hrest hf

end Kinds

section Twinned

variable {α β : Type}

/-- Every member occurs more than once. -/
def Twinned (xs : List α) : Prop := ∀ x ∈ xs, List.Duplicate x xs

theorem Twinned.flatMap {xs : List α} (h : Twinned xs) (g : α → List β) : Twinned (xs.flatMap g) := by
  intro y hy
  obtain ⟨x, hx, hy⟩ := List.mem_flatMap.mp hy
  have htwice := (List.duplicate_iff_sublist.mp (h x hx)).flatMap g
  rw [List.flatMap_cons, List.flatMap_singleton] at htwice
  rw [List.duplicate_iff_sublist]
  have hone : [y].Sublist (g x) := List.singleton_sublist.mpr hy
  exact (hone.append hone).trans htwice

/-- Of two places of a member one is another than any given place. -/
theorem Twinned.exists_other {xs : List α} (h : Twinned xs) {i : ℕ} {x : α} (hx : xs[i]? = some x) :
    ∃ j, j ≠ i ∧ xs[j]? = some x := by
  obtain ⟨n, m, hlt, hn, hm⟩ :=
    List.duplicate_iff_exists_distinct_get.mp (h x (List.mem_of_getElem? hx))
  by_cases hni : (n : ℕ) = i
  · refine ⟨m, ?_, ?_⟩
    · rw [← hni]
      exact (Nat.ne_of_lt hlt).symm
    · rw [hm]
      exact List.getElem?_eq_getElem m.isLt
  · refine ⟨n, hni, ?_⟩
    rw [hn]
    exact List.getElem?_eq_getElem n.isLt

end Twinned

section Mixed

variable {fs : List (Field ι)} {kss : Field ι → List (List Tracked)}

variable (shapes b kss) in
/-- The choices so far, with one more field. -/
def combine (css : List (List (FieldInfo ι))) (f : Field ι) : List (List (FieldInfo ι)) :=
  if isListed shapes f then appendEach css (fieldInfos shapes b f) else repeated (kss f) css

/-- Fields that leave one choice each leave those of the other fields. -/
theorem foldl_combine_eq (hone : ∀ f ∈ fs, isListed shapes f = false → (kss f).length = 1)
    (css : List (List (FieldInfo ι))) : fs.foldl (combine shapes b kss) css =
      ((listedFields shapes fs).map (fieldInfos shapes b)).foldl appendEach css := by
  induction fs generalizing css with
  | nil => rfl
  | cons f fs ih =>
    have hrest := ih fun g hg => hone g (List.mem_cons_of_mem f hg)
    rw [List.foldl_cons, hrest]
    by_cases hlisted : isListed shapes f = true
    · have hfields : listedFields shapes (f :: fs) = f :: listedFields shapes fs :=
        List.filter_cons_of_pos hlisted
      rw [combine, if_pos hlisted, hfields]
      rfl
    · have hfields : listedFields shapes (f :: fs) = listedFields shapes fs :=
        List.filter_cons_of_neg hlisted
      rw [combine, if_neg hlisted, hfields,
        repeated_of_length_eq_one (hone f List.mem_cons_self (Bool.eq_false_iff.mpr hlisted))]

theorem Twinned.foldl_combine {css : List (List (FieldInfo ι))} (h : Twinned css) :
    Twinned (fs.foldl (combine shapes b kss) css) := by
  induction fs generalizing css with
  | nil => exact h
  | cons f fs ih =>
    apply ih
    unfold combine
    split
    · exact h.flatMap _
    · exact h.flatMap _

/-- A field that leaves several choices repeats each of the others. -/
theorem twinned_of_not_listed {f : Field ι} (hf : f ∈ fs) (hlisted : isListed shapes f = false)
    (hmany : 2 ≤ (kss f).length) (css : List (List (FieldInfo ι))) :
    Twinned (fs.foldl (combine shapes b kss) css) := by
  induction fs generalizing css with
  | nil => exact absurd hf List.not_mem_nil
  | cons g fs ih =>
    rcases List.mem_cons.mp hf with rfl | hf
    · have hcombine : combine shapes b kss css f = repeated (kss f) css :=
        if_neg (by simp [hlisted])
      rw [List.foldl_cons, hcombine]
      apply Twinned.foldl_combine
      intro c hc
      have hmem := mem_of_mem_repeated hc
      rw [List.duplicate_iff_sublist]
      have htwice : (List.replicate 2 c).Sublist ((kss f).map fun _ => c) := by
        rw [List.map_const']
        exact (List.replicate_sublist_replicate c).mpr hmany
      exact htwice.trans (List.sublist_flatten_of_mem (List.mem_map_of_mem hmem))
    · exact ih hf _

theorem combine_ne_nil (htypes : FiniteTypes shapes) {f : Field ι}
    (hlists : isListed shapes f = true → f.isFlattened = true → ∃ e en, FlattensEnums shapes f e en)
    (hkss : isListed shapes f = false → kss f ≠ []) {css : List (List (FieldInfo ι))} (hcss : css ≠ []) :
    combine shapes b kss css f ≠ [] := by
  unfold combine
  split
  · next hlisted => exact appendEach_ne_nil hcss (fieldInfos_ne_nil (hlists hlisted) htypes)
  · next hlisted => exact repeated_ne_nil hcss (hkss (Bool.eq_false_iff.mpr hlisted))

theorem foldl_combine_ne_nil (htypes : FiniteTypes shapes)
    (hlists : ∀ f ∈ fs, isListed shapes f = true → f.isFlattened = true →
      ∃ e en, FlattensEnums shapes f e en)
    (hkss : ∀ f ∈ fs, isListed shapes f = false → kss f ≠ []) {css : List (List (FieldInfo ι))}
    (hcss : css ≠ []) : fs.foldl (combine shapes b kss) css ≠ [] := by
  induction fs generalizing css with
  | nil => exact hcss
  | cons f fs ih =>
    apply ih (fun g hg => hlists g (List.mem_cons_of_mem f hg))
      fun g hg => hkss g (List.mem_cons_of_mem f hg)
    exact combine_ne_nil htypes (hlists f List.mem_cons_self) (hkss f List.mem_cons_self) hcss

theorem Apart.combine {css : List (List (FieldInfo ι))} {f g : Field ι} (hcss : Apart css g)
    (hne : f.name ≠ g.name) : Apart (combine shapes b kss css f) g := by
  intro c hc i hi hunder
  unfold Flatten.combine at hc
  split at hc
  · obtain ⟨d, hd, hmem⟩ := List.mem_flatMap.mp hc
    obtain ⟨j, hj, rfl⟩ := List.mem_map.mp hmem
    rcases List.mem_append.mp hi with hi | hi
    · exact hcss d hd i hi hunder
    · rw [List.mem_singleton.mp hi] at hunder
      exact hne ((under_of_mem_fieldInfos hj).name_eq hunder)
  · exact hcss c (mem_of_mem_repeated hc) i hi hunder

theorem recordsEach_mixed (htypes : FiniteTypes shapes) (hauto : b.autoDetectEnumRepr = true) {n : ℕ}
    (hlists : ∀ f ∈ fs, isListed shapes f = true → f.isFlattened = true →
      ∃ e en, FlattensEnums shapes f e en)
    (hkss : ∀ f ∈ fs, isListed shapes f = false → kss f ≠ [])
    (hrepeats : ∀ f ∈ fs, isListed shapes f = false → Repeats shapes b n [] (kss f) (.flattened f))
    (hnames : (fs.map Field.name).Nodup) {rs : List (Resolution ι)}
    {css : List (List (FieldInfo ι))} (hrs : List.Forall₂ Resolution.Records rs css)
    (hne : css ≠ []) (hcss : ∀ f ∈ fs, Apart css f) :
    RecordsEach (fs.foldl (combine shapes b kss) css) (fs.foldlM (fun configs f =>
      b.analyzeFieldIntoConfigs shapes (n + 1) f [] [] configs) rs) := by
  induction fs generalizing rs css with
  | nil => exact hrs
  | cons f fs ih =>
    rw [List.map_cons, List.nodup_cons] at hnames
    rw [List.foldl_cons, List.foldlM_cons]
    have hlist := hlists f List.mem_cons_self
    have hlists' := fun g hg => hlists g (List.mem_cons_of_mem f hg)
    have hkss' := fun g hg => hkss g (List.mem_cons_of_mem f hg)
    have hne' : combine shapes b kss css f ≠ [] :=
      combine_ne_nil htypes hlist (hkss f List.mem_cons_self) hne
    have hfirst : RecordsEach (combine shapes b kss css f)
        (b.analyzeFieldIntoConfigs shapes (n + 1) f [] [] rs) := by
      unfold combine
      by_cases hlisted : isListed shapes f = true
      · rw [if_pos hlisted]
        exact recordsEach_field (hlist hlisted) htypes hauto _ hrs hne (hcss f List.mem_cons_self)
      · have hother := Bool.eq_false_iff.mpr hlisted
        rw [if_neg hlisted, SchemaBuilder.analyzeFieldIntoConfigs,
          if_pos (flattened_of_not_listed hother)]
        exact hrepeats f List.mem_cons_self hother rs css hne hrs
    apply Outcome.bind hfirst
    · exact fun _ _ => exists_mem_true (foldl_combine_ne_nil htypes hlists' hkss' hne')
    · intro rs' hrs'
      apply ih hlists' hkss' (fun g hg => hrepeats g (List.mem_cons_of_mem f hg)) hnames.2 hrs' hne'
      intro g hg
      apply (hcss g (List.mem_cons_of_mem f hg)).combine
      intro heq
      exact hnames.1 (heq ▸ List.mem_map_of_mem hg)

end Mixed

/-- A schema's resolutions record one variant for each list of enums, and each such choice as often
as the other flattened fields leave choices. -/
theorem mixed_of_intoSchema (htypes : FiniteTypes shapes) (hwell : WellNamed shapes)
    (hflat : b.format = .flat) (hauto : b.autoDetectEnumRepr = true) {st : StructType ι}
    (hty : (shapes b.shape).ty = .user (.struct st))
    (hcontainers : FlattensContainers shapes st.fields)
    (hkeyless : KeylessElements shapes b st.fields) {n : ℕ} {schema : Schema ι}
    (hschema : b.intoSchema shapes n = .ok schema) :
    ∃ css, List.Forall₂ Resolution.Records schema.resolutions css ∧
      ((∀ f ∈ st.fields, isListed shapes f = false → OneChoice shapes b (.flattened f)) →
        css = fieldChoices shapes b (listedFields shapes st.fields)) ∧
      ((∃ f ∈ st.fields, isListed shapes f = false ∧ ¬ OneChoice shapes b (.flattened f)) →
        Twinned css) := by
  have hgrounded := GroundedRoot.of_intoSchema htypes hschema
  unfold GroundedRoot at hgrounded
  rw [hty] at hgrounded
  have hkeys : ∀ f ∈ st.fields, isListed shapes f = false →
      ∃ kss, ListsKeys shapes b (.flattened f) [] kss := fun f hf hlisted =>
    (hgrounded.of_mem hf (flattened_of_not_listed hlisted)).listsKeys []
  choose! kss hkss using hkeys
  have hlists : ∀ f ∈ st.fields, isListed shapes f = true → f.isFlattened = true →
      ∃ e en, FlattensEnums shapes f e en :=
    fun f hf hlisted hflattened => (hcontainers f hf hflattened).exists_enums hflattened hlisted
  have hrepeats : ∀ f ∈ st.fields, isListed shapes f = false →
      ∀ᶠ m in atTop, Repeats shapes b m [] (kss f) (.flattened f) := by
    intro f hf hlisted
    apply (hkss f hf hlisted).repeats htypes
    intro ks hks
    obtain ⟨ws, hws, rfl⟩ := (hkss f hf hlisted).arises hflat ks hks
    have hcontainer := hcontainers f hf (flattened_of_not_listed hlisted)
    rw [hcontainer.keyless hauto hf hkeyless hlisted hws]
    rfl
  have hall : ∀ᶠ m in atTop, ∀ f ∈ st.fields, isListed shapes f = false →
      Repeats shapes b m [] (kss f) (.flattened f) := by
    apply (eventually_all_finite (List.finite_toSet _)).mpr
    intro f hf
    by_cases hlisted : isListed shapes f = true
    · exact .of_forall fun m hother => absurd hlisted (by simp [hother])
    · exact (hrepeats f hf (Bool.eq_false_iff.mpr hlisted)).mono fun m hm _ => hm
  obtain ⟨m, hanalyze, hm⟩ :=
    (((eventually_add_iff 2).mpr (eventually_analyze_of_intoSchema hschema)).and hall).exists
  rw [analyze_struct hty, SchemaBuilder.analyzeStruct] at hanalyze
  have hrecords := recordsEach_mixed htypes hauto hlists
    (fun f hf hlisted => (hkss f hf hlisted).ne_nil htypes) hm (hwell.struct _ st hty)
    (.cons .new .nil) (List.cons_ne_nil _ []) fun f _ c hc i hi => by
      rw [List.mem_singleton.mp hc] at hi
      exact absurd hi List.not_mem_nil
  rw [hanalyze] at hrecords
  refine ⟨_, hrecords, ?_, ?_⟩
  · intro hone
    apply foldl_combine_eq
    exact fun f hf hlisted => ((hkss f hf hlisted).length_eq_one_iff htypes).mpr (hone f hf hlisted)
  · rintro ⟨f, hf, hlisted, hmany⟩
    rw [← (hkss f hf hlisted).length_eq_one_iff htypes] at hmany
    apply twinned_of_not_listed hf hlisted
    have hpos := List.length_pos_of_ne_nil ((hkss f hf hlisted).ne_nil htypes)
    omega

end Facet.Flatten
