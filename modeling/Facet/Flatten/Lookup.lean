import Facet.Flatten.Solver

/-!
# Looking keys up in a schema

The inverted indexes answer for every key with the resolutions that have a field of
that name, or of that category and name. A key without a name stands for a whole
category, and there the index answers for the first name it has in the category.
-/

namespace Facet.Flatten

open Std

variable {ι : Type}

/-- A category whose keys usually carry no name. -/
def FieldCategory.Unnamed (cat : FieldCategory) : Prop :=
  cat = .text ∨ cat = .tag ∨ cat = .elements

instance (cat : FieldCategory) : Decidable cat.Unnamed := inferInstanceAs (Decidable (_ ∨ _))

theorem compare_name_of_compare_domKey {cat : FieldCategory} {a b : String}
    (h : compare ((cat, a) : DomKey) (cat, b) = .lt) : compare a b = .lt := by
  have hthen : (compare cat cat).then (compare a b) = .lt := h
  simpa using hthen

theorem eq_of_compare_ne_gt {a b : String} (hab : compare a b ≠ .gt)
    (hba : compare b a ≠ .gt) : a = b := by
  have hswap : compare b a = (compare a b).swap := OrientedCmp.eq_swap
  cases h : compare a b with
  | lt => exact absurd (by rw [hswap, h]; rfl) hba
  | eq => exact Std.compare_eq_iff_eq.mp h
  | gt => exact absurd h hab

namespace Schema

variable (schema : Schema ι)

/-- The fields of resolution `i`. -/
def fieldsOf (i : ℕ) : List (FieldInfo ι) :=
  match schema.resolutions[i]? with
  | some config => config.fields.values
  | none => []

/-- What it means for a reported key to name a field. -/
def Matches (key : FieldKey) (info : FieldInfo ι) : Prop :=
  match schema.format, key with
  | .flat, key => info.serializedName = key.name
  | .dom, .flat name => info.category = .element ∧ info.serializedName = name
  | .dom, .dom cat name =>
    info.category = cat ∧ (info.serializedName = name ∨ cat.Unnamed ∧ name = "")

instance (key : FieldKey) (info : FieldInfo ι) : Decidable (schema.Matches key info) := by
  unfold Matches
  split <;> infer_instance

def HasMatch (key : FieldKey) (i : ℕ) : Prop := ∃ info ∈ schema.fieldsOf i, schema.Matches key info

instance (key : FieldKey) (i : ℕ) : Decidable (schema.HasMatch key i) :=
  inferInstanceAs (Decidable (∃ info ∈ schema.fieldsOf i, schema.Matches key info))

/-- Resolution `i` has the field of this category whose name is the first of all names
the schema has in the category. -/
def HasFirstOf (cat : FieldCategory) (i : ℕ) : Prop :=
  ∃ info ∈ schema.fieldsOf i, info.category = cat ∧
    ∀ j, ∀ other ∈ schema.fieldsOf j, other.category = cat →
      compare info.serializedName other.serializedName ≠ .gt

/-- What the inverted index finds for a key. -/
def LookedUp (key : FieldKey) (i : ℕ) : Prop :=
  match schema.format, key with
  | .dom, .dom cat name =>
    if cat.Unnamed ∧ name = "" then schema.HasFirstOf cat i else schema.HasMatch key i
  | _, _ => schema.HasMatch key i

theorem hasKey_iff {κ : Type} (keyOf : FieldInfo ι → κ) (k : κ) (i : ℕ) :
    HasKey keyOf schema.resolutions k i ↔ ∃ info ∈ schema.fieldsOf i, keyOf info = k := by
  unfold HasKey fieldsOf
  cases schema.resolutions[i]? <;> simp

variable {schema} (hs : schema = Schema.ofResolutions schema.shape schema.format schema.resolutions)
include hs

theorem fieldIndex_represents : schema.fieldToResolutions.Represents schema.resolutions.length
    fun name i => ∃ info ∈ schema.fieldsOf i, info.serializedName = name := by
  rw [hs]
  exact (buildIndex_represents FieldInfo.serializedName schema.resolutions).congr fun k i =>
    schema.hasKey_iff FieldInfo.serializedName k i

theorem domIndex_represents (hdom : schema.format = .dom) :
    schema.domFieldToResolutions.Represents schema.resolutions.length
      fun key i => ∃ info ∈ schema.fieldsOf i, (info.category, info.serializedName) = key := by
  rw [hs, ofResolutions, if_pos hdom]
  exact (buildIndex_represents _ schema.resolutions).congr fun k i =>
    schema.hasKey_iff (fun info => (info.category, info.serializedName)) k i

/-- The first entry of a category is that of its first name. -/
theorem firstEntry_isEntry (hdom : schema.format = .dom) (cat : FieldCategory) :
    IsEntry schema.resolutions.length (schema.HasFirstOf cat)
      ((schema.domFieldToResolutions.toList.find? fun e => e.1.1 = cat).map Prod.snd) := by
  have hindex := schema.domIndex_represents hs hdom
  cases hfind : schema.domFieldToResolutions.toList.find? fun e => e.1.1 = cat with
  | none =>
    refine .inl ⟨rfl, ?_⟩
    rintro i ⟨info, hinfo, hcat, _⟩
    rcases hindex (info.category, info.serializedName) with ⟨_, hno⟩ | ⟨s, hsome, _⟩
    · exact hno i ⟨info, hinfo, rfl⟩
    · have hmem := TreeMap.mem_toList_iff_getElem?_eq_some.mpr hsome
      simpa [hcat] using List.find?_eq_none.mp hfind _ hmem
  | some e =>
    obtain ⟨⟨cat', name⟩, set⟩ := e
    obtain ⟨hcat, before, after, hlist, hbefore⟩ := List.find?_eq_some_iff_append.mp hfind
    obtain rfl : cat' = cat := by simpa using hcat
    have hlookup : schema.domFieldToResolutions[((cat', name) : DomKey)]? = some set :=
      TreeMap.mem_toList_iff_getElem?_eq_some.mp (hlist ▸ by simp)
    -- no name of the category comes before `name`
    have hfirst : ∀ j, ∀ other ∈ schema.fieldsOf j, other.category = cat' →
        compare name other.serializedName ≠ .gt := by
      intro j other hother hothercat
      rcases hindex (other.category, other.serializedName) with ⟨_, hno⟩ | ⟨s, hsome, _⟩
      · exact absurd ⟨other, hother, rfl⟩ (hno j)
      · have hmem := TreeMap.mem_toList_iff_getElem?_eq_some.mpr hsome
        have hsorted := hlist ▸ TreeMap.ordered_keys_toList (t := schema.domFieldToResolutions)
        rw [hlist, List.mem_append, List.mem_cons] at hmem
        rcases hmem with hmem | hmem | hmem
        · simpa [hothercat] using hbefore _ hmem
        · obtain ⟨⟨_, rfl⟩, _⟩ := Prod.mk.inj hmem |>.imp_left Prod.mk.inj
          simp
        · have hlt := (List.pairwise_cons.mp (List.pairwise_append.mp hsorted).2.1).1 _ hmem
          rw [hothercat] at hlt
          rw [compare_name_of_compare_domKey hlt]
          decide
    rcases hindex (cat', name) with ⟨hnone, _⟩ | ⟨s, hsome, hvalid, hex, hmem⟩
    · exact absurd (hlookup.symm.trans hnone) (by simp)
    · obtain rfl : set = s := Option.some.inj (hlookup.symm.trans hsome)
      refine .inr ⟨set, rfl, hvalid, ?_, fun i => ?_⟩
      · obtain ⟨i, info, hinfo, hkey⟩ := hex
        obtain ⟨hic, hin⟩ := Prod.mk.inj hkey
        exact ⟨i, info, hinfo, hic, hin ▸ hfirst⟩
      · rw [hmem]
        constructor
        · rintro ⟨info, hinfo, hkey⟩
          obtain ⟨hic, hin⟩ := Prod.mk.inj hkey
          exact ⟨info, hinfo, hic, hin ▸ hfirst⟩
        · rintro ⟨info, hinfo, hic, hleast⟩
          obtain ⟨j, other, hother, hkey⟩ := hex
          obtain ⟨hoc, hon⟩ := Prod.mk.inj hkey
          exact ⟨info, hinfo, Prod.ext hic
            (eq_of_compare_ne_gt (hon ▸ hleast j other hother hoc) (hfirst i info hinfo hic))⟩

theorem resolutionsWithKey_isEntry (key : FieldKey) :
    IsEntry schema.resolutions.length (schema.LookedUp key) (schema.resolutionsWithKey key) := by
  unfold resolutionsWithKey LookedUp
  cases hformat : schema.format with
  | flat =>
    have hmatch : schema.HasMatch key = fun i =>
        ∃ info ∈ schema.fieldsOf i, info.serializedName = key.name := by
      funext i
      simp [HasMatch, Matches, hformat]
    cases key <;> exact hmatch ▸ schema.fieldIndex_represents hs _
  | dom =>
    have hindex := schema.domIndex_represents hs hformat
    cases key with
    | flat name =>
      have hmatch : schema.HasMatch (.flat name) = fun i =>
          ∃ info ∈ schema.fieldsOf i, (info.category, info.serializedName) = (.element, name) := by
        funext i
        simp [HasMatch, Matches, hformat]
      exact hmatch ▸ hindex (.element, name)
    | dom cat name =>
      by_cases hfirst : cat.Unnamed ∧ name = ""
      · have hsource : (cat = .text ∨ cat = .tag ∨ cat = .elements) ∧ name = "" := hfirst
        simp only [if_pos hfirst, if_pos hsource]
        exact schema.firstEntry_isEntry hs hformat cat
      · have hsource : ¬ ((cat = .text ∨ cat = .tag ∨ cat = .elements) ∧ name = "") := hfirst
        simp only [if_neg hfirst, if_neg hsource]
        have hmatch : schema.HasMatch (.dom cat name) = fun i =>
            ∃ info ∈ schema.fieldsOf i, (info.category, info.serializedName) = (cat, name) := by
          funext i
          simp [HasMatch, Matches, hformat, hfirst]
        exact hmatch ▸ hindex (cat, name)

end Schema

end Facet.Flatten
