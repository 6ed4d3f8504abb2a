import Facet.Flatten.SchemaBuilder

/-!
# Schemas and their inverted indexes

A schema keeps the resolutions of a type together with an index from field names, or
from pairs of category and name, to the resolutions that have such a field.
-/

namespace Facet.Flatten

open Std

variable {ι : Type}

section Index

variable {κ : Type} [Ord κ]

abbrev Index (κ : Type) [Ord κ] := TreeMap κ ResolutionSet

/-- The entry of the index with one more resolution in it. -/
def Index.add (n : ℕ) (index : Index κ) (entry : κ × ℕ) : Index κ :=
  index.insert entry.1 ((index.getD entry.1 (.empty n)).insert entry.2)

/-- Index every field of every resolution under the key `keyOf` gives it. -/
def buildIndex (keyOf : FieldInfo ι → κ) (resolutions : List (Resolution ι)) : Index κ :=
  resolutions.zipIdx.foldl (fun index (config, idx) =>
    config.fields.values.foldl (fun index info =>
      index.add resolutions.length (keyOf info, idx)) index) ∅

/-- A looked-up entry is the valid set of the resolutions in `P`, missing when there
are none. -/
def IsEntry (n : ℕ) (P : ℕ → Prop) (entry : Option ResolutionSet) : Prop :=
  (entry = none ∧ ∀ i, ¬ P i) ∨
    ∃ s, entry = some s ∧ s.Valid n ∧ (∃ i, P i) ∧ ∀ i, i ∈ s ↔ P i

def Index.Represents (index : Index κ) (n : ℕ) (P : κ → ℕ → Prop) : Prop :=
  ∀ k, IsEntry n (P k) index[k]?

variable [TransOrd κ]

theorem Index.represents_empty (n : ℕ) :
    (∅ : Index κ).Represents n (fun _ _ => False) := by
  intro k
  exact .inl ⟨TreeMap.getElem?_emptyc, fun _ h => h⟩

omit [TransOrd κ] in
theorem Index.Represents.congr {index : Index κ} {n : ℕ} {P Q : κ → ℕ → Prop}
    (h : index.Represents n P) (hPQ : ∀ k i, P k i ↔ Q k i) : index.Represents n Q := by
  have hfun : P = Q := by funext k i; exact propext (hPQ k i)
  exact hfun ▸ h

variable [LawfulEqOrd κ]

theorem Index.Represents.add {index : Index κ} {n : ℕ} {P : κ → ℕ → Prop}
    (h : index.Represents n P) (k : κ) {i : ℕ} (hi : i < n) :
    (index.add n (k, i)).Represents n (fun l j => (l = k ∧ j = i) ∨ P l j) := by
  have hentry : (index.getD k (.empty n)).Valid n ∧
      ∀ j, j ∈ index.getD k (.empty n) ↔ P k j := by
    rw [TreeMap.getD_eq_getD_getElem?]
    rcases h k with ⟨hnone, hP⟩ | ⟨s, hs, hvalid, _, hmem⟩
    · rw [hnone]
      refine ⟨ResolutionSet.empty_valid n, fun j => ?_⟩
      exact iff_of_false (ResolutionSet.notMem_empty n j) (hP j)
    · rw [hs]
      exact ⟨hvalid, hmem⟩
  intro l
  rw [Index.add, TreeMap.getElem?_insert]
  by_cases hl : k = l
  · subst hl
    simp only [ReflCmp.compare_self, if_true]
    refine .inr ⟨_, rfl, ResolutionSet.insert_valid hentry.1 hi, ⟨i, by simp⟩, ?_⟩
    intro j
    rw [ResolutionSet.mem_insert hentry.1 hi, hentry.2]
    simp
  · rw [if_neg (fun hc => hl (Std.compare_eq_iff_eq.mp hc))]
    simpa [Ne.symm hl] using h l

theorem Index.represents_foldl_add {n : ℕ} (entries : List (κ × ℕ))
    (hlt : ∀ e ∈ entries, e.2 < n) (index : Index κ) (P : κ → ℕ → Prop)
    (h : index.Represents n P) :
    (entries.foldl (Index.add n) index).Represents n
      (fun k i => P k i ∨ (k, i) ∈ entries) := by
  induction entries generalizing index P with
  | nil => exact h.congr (by simp)
  | cons e entries ih =>
    have hstep := h.add e.1 (hlt e (by simp))
    refine (ih (fun e he => hlt e (by simp [he])) _ _ hstep).congr fun k i => ?_
    rw [List.mem_cons, Prod.ext_iff]
    tauto

/-- A resolution has a field that the index files under `k`. -/
def HasKey (keyOf : FieldInfo ι → κ) (resolutions : List (Resolution ι)) (k : κ) (i : ℕ) :
    Prop :=
  ∃ config, resolutions[i]? = some config ∧ ∃ info ∈ config.fields.values, keyOf info = k

theorem buildIndex_represents (keyOf : FieldInfo ι → κ) (resolutions : List (Resolution ι)) :
    (buildIndex keyOf resolutions).Represents resolutions.length
      (HasKey keyOf resolutions) := by
  have hflat : buildIndex keyOf resolutions =
      (resolutions.zipIdx.flatMap fun ci => ci.1.fields.values.map
        fun info => (keyOf info, ci.2)).foldl (Index.add resolutions.length) ∅ := by
    rw [buildIndex, List.foldl_flatMap]
    simp only [List.foldl_map]
  rw [hflat]
  refine (Index.represents_foldl_add _ ?_ _ _ (Index.represents_empty _)).congr ?_
  · intro e he
    simp only [List.mem_flatMap, List.mem_map] at he
    obtain ⟨⟨config, i⟩, hci, info, _, rfl⟩ := he
    exact (List.mem_zipIdx' hci).1
  · intro k i
    simp only [List.mem_flatMap, List.mem_map, false_or, HasKey]
    constructor
    · rintro ⟨⟨config, j⟩, hci, info, hinfo, he⟩
      obtain ⟨rfl, rfl⟩ := Prod.mk.inj he
      exact ⟨config, List.mk_mem_zipIdx_iff_getElem?.mp hci, info, hinfo, rfl⟩
    · rintro ⟨config, hi, info, hinfo, rfl⟩
      exact ⟨(config, i), List.mk_mem_zipIdx_iff_getElem?.mpr hi, info, hinfo, rfl⟩

end Index

/-- The key of the DOM index; pairs are compared by category first. -/
abbrev DomKey := FieldCategory × String

instance : Ord DomKey := lexOrd

instance : TransOrd DomKey :=
  letI := lexOrd (α := FieldCategory) (β := String)
  inferInstanceAs (TransOrd (FieldCategory × String))

instance : LawfulEqOrd DomKey :=
  letI := lexOrd (α := FieldCategory) (β := String)
  inferInstanceAs (LawfulEqOrd (FieldCategory × String))

/-- Cached schema for a type that may contain flattened fields. -/
structure Schema (ι : Type) where
  shape : ι
  format : Format
  resolutions : List (Resolution ι)
  fieldToResolutions : Index String
  domFieldToResolutions : Index DomKey

/-- The second half of `into_schema`: index the resolutions. -/
def Schema.ofResolutions (shape : ι) (format : Format) (resolutions : List (Resolution ι)) :
    Schema ι where
  shape := shape
  format := format
  resolutions := resolutions
  fieldToResolutions := buildIndex FieldInfo.serializedName resolutions
  domFieldToResolutions :=
    if format = .dom then
      buildIndex (fun info => (info.category, info.serializedName)) resolutions
    else ∅

section Constructors

variable (shapes : Shapes ι) (n : ℕ)

def SchemaBuilder.intoSchema (b : SchemaBuilder ι) : Analysis (Schema ι) := do
  let resolutions ← b.analyze shapes n
  return Schema.ofResolutions b.shape b.format resolutions

def Schema.buildWithRepr (shape : ι) (repr : EnumRepr) : Analysis (Schema ι) :=
  SchemaBuilder.intoSchema shapes n { shape := shape, enumRepr := repr }

def Schema.build (shape : ι) : Analysis (Schema ι) :=
  Schema.buildWithRepr shapes n shape .flattened

def Schema.buildExternallyTagged (shape : ι) : Analysis (Schema ι) :=
  Schema.buildWithRepr shapes n shape .externallyTagged

def Schema.buildWithFormat (shape : ι) (format : Format) : Analysis (Schema ι) :=
  SchemaBuilder.intoSchema shapes n
    { shape := shape, enumRepr := .flattened, autoDetectEnumRepr := true, format := format }

def Schema.buildAuto (shape : ι) : Analysis (Schema ι) :=
  Schema.buildWithFormat shapes n shape .flat

def Schema.buildDom (shape : ι) : Analysis (Schema ι) :=
  Schema.buildWithFormat shapes n shape .dom

theorem SchemaBuilder.intoSchema_eq {b : SchemaBuilder ι} {schema : Schema ι}
    (h : b.intoSchema shapes n = .ok schema) :
    schema = Schema.ofResolutions schema.shape schema.format schema.resolutions := by
  unfold SchemaBuilder.intoSchema at h
  cases hr : b.analyze shapes n with
  | error e => simp [hr, bind, Except.bind] at h
  | ok resolutions =>
    simp only [hr, bind, Except.bind, pure, Except.pure, Except.ok.injEq] at h
    subst h
    rfl

theorem SchemaBuilder.analyze_of_intoSchema {b : SchemaBuilder ι} {schema : Schema ι}
    (h : b.intoSchema shapes n = .ok schema) : b.analyze shapes n = .ok schema.resolutions := by
  unfold SchemaBuilder.intoSchema at h
  cases hr : b.analyze shapes n with
  | error e => simp [hr, bind, Except.bind] at h
  | ok resolutions =>
    simp only [hr, bind, Except.bind, pure, Except.pure, Except.ok.injEq] at h
    rw [← h]
    rfl

end Constructors

end Facet.Flatten
