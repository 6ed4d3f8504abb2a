import Facet.Flatten.ListChoices

/-!
# Names in choices for flattened lists

Reported names leave over the choices that have them all. Each list is on its own there: a choice
has the names exactly when each of its variants is one that the names allow.
-/

namespace Facet.Flatten

variable {ι : Type} {shapes : Shapes ι} {b : SchemaBuilder ι} {fs : List (Field ι)}

/-- One solution for each member of a list is one list of solutions. -/
theorem existsUnique_forall₂_iff {α β : Type} {R : β → α → Prop} {xs : List α} :
    (∃! ys, List.Forall₂ R ys xs) ↔ ∀ x ∈ xs, ∃! y, R y x := by
  induction xs with
  | nil => simp
  | cons x xs ih =>
    rw [List.forall_mem_cons, ← ih]
    constructor
    · rintro ⟨ys, hys, hunique⟩
      obtain ⟨y, ys, hy, hrest, rfl⟩ := List.forall₂_cons_right_iff.mp hys
      constructor
      · refine ⟨y, hy, fun y' hy' => ?_⟩
        exact (List.cons.inj (hunique (y' :: ys) (.cons hy' hrest))).1
      · refine ⟨ys, hrest, fun ys' hys' => ?_⟩
        exact (List.cons.inj (hunique (y :: ys') (.cons hy hys'))).2
    · rintro ⟨⟨y, hy, huniqueHead⟩, ys, hys, huniqueTail⟩
      refine ⟨y :: ys, .cons hy hys, fun zs hzs => ?_⟩
      obtain ⟨z, zs, hz, hrest, rfl⟩ := List.forall₂_cons_right_iff.mp hzs
      rw [huniqueHead z hz, huniqueTail zs hrest]

theorem fieldInfos_plain {f : Field ι} (hf : ¬ f.isFlattened = true) :
    fieldInfos shapes b f = [fieldKeyInfo shapes b [] f] := if_neg hf

theorem mem_fieldInfos_list {f : Field ι} (hf : f.isFlattened = true) {i : FieldInfo ι} :
    i ∈ fieldInfos shapes b f ↔ ∃ v ∈ listVariants shapes f, listSelector shapes f v = i := by
  rw [fieldInfos, if_pos hf, List.mem_map]

theorem field_of_mem_fieldInfos {f : Field ι} {i : FieldInfo ι} (hi : i ∈ fieldInfos shapes b f) :
    i.field = f := by
  by_cases hf : f.isFlattened = true
  · obtain ⟨v, -, rfl⟩ := (mem_fieldInfos_list hf).mp hi
    rfl
  · rw [fieldInfos_plain hf, List.mem_singleton] at hi
    rw [hi]
    rfl

section Members

variable {c : List (FieldInfo ι)} (hc : c ∈ fieldChoices shapes b fs)
include hc

theorem fields_of_choice : c.map FieldInfo.field = fs := by
  have h := mem_fieldChoices.mp hc
  induction h with
  | nil => rfl
  | cons hi _ ih =>
    rw [List.map_cons, field_of_mem_fieldInfos hi, ih (mem_fieldChoices.mpr ‹_›)]

theorem exists_member {f : Field ι} (hf : f ∈ fs) : ∃ i ∈ c, i ∈ fieldInfos shapes b f := by
  have h := mem_fieldChoices.mp hc
  induction h with
  | nil => exact absurd hf List.not_mem_nil
  | @cons i g c fs hi hrest ih =>
    rcases List.mem_cons.mp hf with rfl | hf
    · exact ⟨i, List.mem_cons_self, hi⟩
    · obtain ⟨j, hj, hjf⟩ := ih (mem_fieldChoices.mpr hrest) hf
      exact ⟨j, List.mem_cons_of_mem i hj, hjf⟩

theorem exists_field_of_member {i : FieldInfo ι} (hi : i ∈ c) :
    ∃ f ∈ fs, i ∈ fieldInfos shapes b f := by
  have h := mem_fieldChoices.mp hc
  induction h with
  | nil => exact absurd hi List.not_mem_nil
  | @cons j g c fs hj hrest ih =>
    rcases List.mem_cons.mp hi with rfl | hi
    · exact ⟨g, List.mem_cons_self, hj⟩
    · obtain ⟨f, hf, hif⟩ := ih (mem_fieldChoices.mpr hrest) hi
      exact ⟨f, List.mem_cons_of_mem g hf, hif⟩

end Members

theorem map_mem_fieldChoices {p : Field ι → FieldInfo ι}
    (hp : ∀ f ∈ fs, p f ∈ fieldInfos shapes b f) : fs.map p ∈ fieldChoices shapes b fs := by
  rw [mem_fieldChoices, List.forall₂_map_left_iff, List.forall₂_same]
  exact hp

theorem update_mem_fieldInfos [DecidableEq (Field ι)] {p : Field ι → FieldInfo ι}
    (hp : ∀ f ∈ fs, p f ∈ fieldInfos shapes b f) {g : Field ι} {i : FieldInfo ι}
    (hi : i ∈ fieldInfos shapes b g) :
    ∀ f ∈ fs, Function.update p g i f ∈ fieldInfos shapes b f := by
  intro f hf
  by_cases hfg : f = g
  · subst hfg
    rwa [Function.update_self]
  · rw [Function.update_of_ne hfg]
    exact hp f hf

section Picks

variable (hlists : FlattensEnumLists shapes fs) (htypes : FiniteTypes shapes)
include hlists htypes

theorem exists_pick [Nonempty (FieldInfo ι)] :
    ∃ p : Field ι → FieldInfo ι, ∀ f ∈ fs, p f ∈ fieldInfos shapes b f := by
  have hsome : ∀ f ∈ fs, ∃ i, i ∈ fieldInfos shapes b f := fun f hf =>
    List.exists_mem_of_ne_nil _ (fieldInfos_ne_nil (hlists f hf) htypes)
  choose! p hp using hsome
  exact ⟨p, hp⟩

theorem exists_choice_of_mem {f : Field ι} (hf : f ∈ fs) {i : FieldInfo ι}
    (hi : i ∈ fieldInfos shapes b f) : ∃ c ∈ fieldChoices shapes b fs, i ∈ c := by
  classical
  have hnonempty : Nonempty (FieldInfo ι) := ⟨i⟩
  obtain ⟨p, hp⟩ := exists_pick (b := b) hlists htypes
  refine ⟨_, map_mem_fieldChoices (update_mem_fieldInfos hp hi), ?_⟩
  exact List.mem_map.mpr ⟨f, hf, Function.update_self ..⟩

theorem exists_choice_of_mem₂ {f g : Field ι} (hf : f ∈ fs) (hg : g ∈ fs) (hne : f ≠ g)
    {i j : FieldInfo ι} (hi : i ∈ fieldInfos shapes b f) (hj : j ∈ fieldInfos shapes b g) :
    ∃ c ∈ fieldChoices shapes b fs, i ∈ c ∧ j ∈ c := by
  classical
  have hnonempty : Nonempty (FieldInfo ι) := ⟨i⟩
  obtain ⟨p, hp⟩ := exists_pick (b := b) hlists htypes
  have hboth := update_mem_fieldInfos (update_mem_fieldInfos hp hi) hj
  refine ⟨_, map_mem_fieldChoices hboth, ?_, ?_⟩
  · refine List.mem_map.mpr ⟨f, hf, ?_⟩
    rw [Function.update_of_ne hne, Function.update_self]
  · exact List.mem_map.mpr ⟨g, hg, Function.update_self ..⟩

theorem fieldChoices_ne_nil : fieldChoices shapes b fs ≠ [] := by
  apply foldl_appendEach_ne_nil (List.cons_ne_nil _ _)
  intro xs hxs
  obtain ⟨f, hf, rfl⟩ := List.mem_map.mp hxs
  exact fieldInfos_ne_nil (hlists f hf) htypes

end Picks

/-- The serialized name of a field that is not flattened. -/
def Ordinary (fs : List (Field ι)) (name : String) : Prop :=
  ∃ f ∈ fs, f.isFlattened = false ∧ f.effectiveName = name

variable (shapes) in
/-- The name of an ordinary field or of a variant in one of the lists. -/
def KnownName (fs : List (Field ι)) (name : String) : Prop :=
  Ordinary fs name ∨
    ∃ f ∈ fs, f.isFlattened = true ∧ ∃ v ∈ listVariants shapes f, v.name = name

/-- The choice has a field of this name. -/
def HasName (c : List (FieldInfo ι)) (name : String) : Prop := ∃ i ∈ c, i.serializedName = name

variable (shapes) in
/-- Among the variants of a list, the reported names that are not ordinary allow only this one. -/
def Allows (fs : List (Field ι)) (names : List String) (f : Field ι) (name : String) : Prop :=
  ∀ u ∈ listVariants shapes f, u.name ∈ names → ¬ Ordinary fs u.name → u.name = name

theorem hasName_of_ordinary {c : List (FieldInfo ι)} (hc : c ∈ fieldChoices shapes b fs)
    {name : String} (h : Ordinary fs name) : HasName c name := by
  obtain ⟨f, hf, hplain, rfl⟩ := h
  obtain ⟨i, hi, hif⟩ := exists_member hc hf
  rw [fieldInfos_plain (by simp [hplain]), List.mem_singleton] at hif
  exact ⟨i, hi, by rw [hif]; rfl⟩

/-- Two lists have no variant name in common. -/
def DistinctLists (shapes : Shapes ι) (fs : List (Field ι)) : Prop :=
  ∀ f ∈ fs, ∀ g ∈ fs, f.isFlattened = true → g.isFlattened = true →
    ∀ u ∈ listVariants shapes f, ∀ v ∈ listVariants shapes g, u.name = v.name → f = g

/-- A choice has all the names exactly when each of its variants is one that the names allow. -/
theorem forall_hasName_iff (hfs : fs.Nodup) (hdistinct : DistinctLists shapes fs)
    {names : List String} (hknown : ∀ name ∈ names, KnownName shapes fs name)
    {c : List (FieldInfo ι)} (hc : c ∈ fieldChoices shapes b fs) :
    (∀ name ∈ names, HasName c name) ↔
      ∀ i ∈ c, i.field.isFlattened = true → Allows shapes fs names i.field i.serializedName := by
  have heq {i j : FieldInfo ι} (hi : i ∈ c) (hj : j ∈ c) (h : i.field = j.field) : i = j :=
    List.inj_on_of_nodup_map (by rwa [fields_of_choice hc]) hi hj h
  constructor
  · intro hall i hi hflat u hu hname hordinary
    obtain ⟨j, hj, hjname⟩ := hall u.name hname
    obtain ⟨g, hg, hjg⟩ := exists_field_of_member hc hj
    obtain ⟨f, hf, hif⟩ := exists_field_of_member hc hi
    by_cases hgflat : g.isFlattened = true
    · obtain ⟨w, hw, rfl⟩ := (mem_fieldInfos_list hgflat).mp hjg
      have hfield := field_of_mem_fieldInfos hif
      subst hfield
      have hfg := hdistinct _ hf g hg hflat hgflat u hu w hw hjname.symm
      rw [heq hi hj hfg]
      exact hjname.symm
    · rw [fieldInfos_plain hgflat, List.mem_singleton] at hjg
      exact absurd ⟨g, hg, by simpa using hgflat, by rw [← hjname, hjg]; rfl⟩ hordinary
  · intro hall name hname
    by_cases hordinary : Ordinary fs name
    · exact hasName_of_ordinary hc hordinary
    · rcases hknown name hname with h | ⟨f, hf, hflat, u, hu, rfl⟩
      · exact absurd h hordinary
      · obtain ⟨i, hi, hif⟩ := exists_member hc hf
        have hfield := field_of_mem_fieldInfos hif
        subst hfield
        exact ⟨i, hi, (hall i hi hflat u hu hname hordinary).symm⟩

theorem existsUnique_choice_iff {P : FieldInfo ι → Prop} :
    (∃! c, c ∈ fieldChoices shapes b fs ∧ ∀ i ∈ c, P i) ↔
      ∀ f ∈ fs, ∃! i, P i ∧ i ∈ fieldInfos shapes b f := by
  rw [← existsUnique_forall₂_iff]
  simp only [List.forall₂_and_left, mem_fieldChoices, and_comm]

theorem existsUnique_plain_iff {f : Field ι} (hf : ¬ f.isFlattened = true) {P : FieldInfo ι → Prop} :
    (∃! i, P i ∧ i ∈ fieldInfos shapes b f) ↔ P (fieldKeyInfo shapes b [] f) := by
  rw [fieldInfos_plain hf]
  constructor
  · rintro ⟨i, ⟨hi, hmem⟩, -⟩
    rwa [List.mem_singleton.mp hmem] at hi
  · intro hP
    exact ⟨_, ⟨hP, List.mem_singleton_self _⟩, fun i hi => List.mem_singleton.mp hi.2⟩

theorem nodup_listVariants (hvariants : DistinctVariants shapes) (f : Field ι) :
    ((listVariants shapes f).map Variant.name).Nodup := by
  unfold listVariants
  split
  · next en hty => exact hvariants _ en hty
  · exact List.nodup_nil

theorem existsUnique_list_iff (hvariants : DistinctVariants shapes) {f : Field ι}
    (hf : f.isFlattened = true) {P : FieldInfo ι → Prop} :
    (∃! i, P i ∧ i ∈ fieldInfos shapes b f) ↔
      ∃! v, v ∈ listVariants shapes f ∧ P (listSelector shapes f v) := by
  have hinj {u v : Variant ι} (hu : u ∈ listVariants shapes f) (hv : v ∈ listVariants shapes f)
      (h : listSelector shapes f u = listSelector shapes f v) : u = v :=
    List.inj_on_of_nodup_map (nodup_listVariants hvariants f) hu hv
      (congrArg FieldInfo.serializedName h)
  constructor
  · rintro ⟨i, ⟨hi, hmem⟩, hunique⟩
    obtain ⟨v, hv, rfl⟩ := (mem_fieldInfos_list hf).mp hmem
    refine ⟨v, ⟨hv, hi⟩, fun u hu => ?_⟩
    exact hinj hu.1 hv (hunique _ ⟨hu.2, (mem_fieldInfos_list hf).mpr ⟨u, hu.1, rfl⟩⟩)
  · rintro ⟨v, ⟨hv, hPv⟩, hunique⟩
    refine ⟨_, ⟨hPv, (mem_fieldInfos_list hf).mpr ⟨v, hv, rfl⟩⟩, fun i hi => ?_⟩
    obtain ⟨u, hu, rfl⟩ := (mem_fieldInfos_list hf).mp hi.2
    rw [hunique u ⟨hu, hi.1⟩]

section Unique

variable (hfs : fs.Nodup) (hdistinct : DistinctLists shapes fs)
  (hvariants : DistinctVariants shapes) {names : List String}
  (hknown : ∀ name ∈ names, KnownName shapes fs name)
include hfs hdistinct hvariants hknown

theorem existsUnique_named_iff :
    (∃! c, c ∈ fieldChoices shapes b fs ∧ ∀ name ∈ names, HasName c name) ↔
      ∀ f ∈ fs, f.isFlattened = true →
        ∃! v, v ∈ listVariants shapes f ∧ Allows shapes fs names f v.name := by
  have hiff (c : List (FieldInfo ι)) :
      (c ∈ fieldChoices shapes b fs ∧ ∀ name ∈ names, HasName c name) ↔
        c ∈ fieldChoices shapes b fs ∧ ∀ i ∈ c, i.field.isFlattened = true →
          Allows shapes fs names i.field i.serializedName :=
    and_congr_right fun hc => forall_hasName_iff hfs hdistinct hknown hc
  rw [existsUnique_congr hiff, existsUnique_choice_iff]
  apply forall₂_congr
  intro f hf
  by_cases hflat : f.isFlattened = true
  · rw [existsUnique_list_iff hvariants hflat]
    simp only [hflat, true_imp_iff]
    exact existsUnique_congr fun v => and_congr_right fun _ => forall_prop_of_true hflat
  · rw [existsUnique_plain_iff hflat]
    exact iff_of_true (fun h => absurd h hflat) (fun h => absurd h hflat)

/-- Exactly one choice has all the names and requires no other. -/
theorem existsUnique_accepted_iff :
    (∃! c, c ∈ fieldChoices shapes b fs ∧ (∀ name ∈ names, HasName c name) ∧
        ∀ i ∈ c, i.required = true → i.serializedName ∈ names) ↔
      (∀ f ∈ fs, f.isFlattened = false → f.hasDefault = false →
        isOptionType (shapes f.shape) = false → f.effectiveName ∈ names) ∧
      ∀ f ∈ fs, f.isFlattened = true → ∃! v, v ∈ listVariants shapes f ∧ v.name ∈ names ∧
        Allows shapes fs names f v.name := by
  have hiff (c : List (FieldInfo ι)) :
      (c ∈ fieldChoices shapes b fs ∧ (∀ name ∈ names, HasName c name) ∧
          ∀ i ∈ c, i.required = true → i.serializedName ∈ names) ↔
        c ∈ fieldChoices shapes b fs ∧ ∀ i ∈ c, (i.required = true → i.serializedName ∈ names) ∧
          (i.field.isFlattened = true → Allows shapes fs names i.field i.serializedName) := by
    apply and_congr_right
    intro hc
    rw [forall_hasName_iff hfs hdistinct hknown hc, and_comm, ← forall₂_and]
  rw [existsUnique_congr hiff, existsUnique_choice_iff, ← forall₂_and]
  apply forall₂_congr
  intro f hf
  by_cases hflat : f.isFlattened = true
  · rw [existsUnique_list_iff hvariants hflat]
    have hselector (v : Variant ι) : (v ∈ listVariants shapes f ∧
        ((listSelector shapes f v).required = true → (listSelector shapes f v).serializedName ∈ names) ∧
          ((listSelector shapes f v).field.isFlattened = true →
            Allows shapes fs names (listSelector shapes f v).field
              (listSelector shapes f v).serializedName)) ↔
        v ∈ listVariants shapes f ∧ v.name ∈ names ∧ Allows shapes fs names f v.name :=
      and_congr_right fun _ => and_congr (forall_prop_of_true rfl) (forall_prop_of_true hflat)
    rw [existsUnique_congr hselector]
    simp [hflat]
  · rw [existsUnique_plain_iff hflat]
    simp [hflat, fieldKeyInfo]

end Unique

end Facet.Flatten
