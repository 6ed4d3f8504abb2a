import Facet.Flatten.KeyAnswers
import Facet.Lib.ExceptList

/-!
# Satisfying an ambiguous key

After an ambiguous answer the deserializer reports which of the fields its value can satisfy.
The solver compares their shapes with those of all fields of a candidate, whatever their names.
-/

namespace Facet.Flatten

variable {ι : Type} [DecidableEq ι] (shapes : Shapes ι)

/-- A field of resolution `i` that matches the key has the shape. -/
def Schema.OwnShape (schema : Schema ι) (key : FieldKey) (i : ℕ) (shape : ι) : Prop :=
  ∃ info ∈ schema.fieldsOf i, schema.Matches key info ∧ info.valueShape = shape

instance (schema : Schema ι) (key : FieldKey) (i : ℕ) (shape : ι) :
    Decidable (schema.OwnShape key i shape) :=
  inferInstanceAs (Decidable (∃ info ∈ schema.fieldsOf i,
    schema.Matches key info ∧ info.valueShape = shape))

/-- The fields of an ambiguous answer. -/
def KeyResult.ambiguousFields : KeyResult ι → Option (List (FieldInfo ι × ℕ))
  | .ambiguous fields => some fields
  | _ => none

omit [DecidableEq ι] in
theorem KeyResult.eq_ambiguous {res : KeyResult ι} {fields : List (FieldInfo ι × ℕ)}
    (h : res.ambiguousFields = some fields) : res = .ambiguous fields := by
  cases res with
  | ambiguous fs => exact congrArg _ (Option.some.inj h)
  | unambiguous sh => cases h
  | solved idx => cases h
  | unknown => cases h

namespace Solver

omit [DecidableEq ι] in
theorem passes_values_iff (s : Solver ι) (p : FieldInfo ι → Bool) (i : ℕ) :
    s.Passes (fun config => config.fields.values.any p) i ↔
      ∃ info ∈ s.schema.fieldsOf i, p info := by
  unfold Passes Schema.fieldsOf
  cases s.schema.resolutions[i]? with
  | none => simp
  | some config => simp

/-- `satisfy` keeps the candidates with any field of a satisfied shape. -/
theorem mem_satisfy (s : Solver ι) (satisfied : List (FieldInfo ι)) (i : ℕ) :
    i ∈ (s.satisfy satisfied).2.candidates ↔ i ∈ s.candidates ∧
      ∃ info ∈ s.schema.fieldsOf i, info.valueShape ∈ satisfied.map FieldInfo.valueShape := by
  unfold satisfy satisfyShapes
  split_ifs with h
  · have hempty := ResolutionSet.notMem_empty s.schema.resolutions.length i
    simp only [h, List.not_mem_nil, and_false, exists_false, iff_false]
    exact hempty
  · dsimp only
    rw [mem_filterCandidates, passes_values_iff]
    simp only [decide_eq_true_eq]

/-- The fields reported as satisfied keep exactly the candidates whose own field for the key
has the shape of one of them; without such a field nothing matches. -/
structure SatisfiesExactly (s : Solver ι) (key : FieldKey) (fields : List (FieldInfo ι)) :
    Prop where
  kept : ∀ satisfied ⊆ fields, ∀ i, i ∈ (s.satisfy satisfied).2.candidates ↔
    i ∈ s.candidates ∧ ∃ info ∈ satisfied, s.schema.OwnShape key i info.valueShape
  nothing : (s.satisfy []).1 = .noMatch

section Ambiguous

variable {schema : Schema ι} {s : Solver ι}
  (hs : schema = Schema.ofResolutions schema.shape schema.format schema.resolutions)
  (h : WellFormed schema s) (key : FieldKey) {fields : List (FieldInfo ι × ℕ)}
  (hans : (s.seeKeyInternal shapes key).1 = .ambiguous fields)
include hs h hans

/-- An ambiguous answer leaves the candidates that the key is found in, and its fields have the
shapes stored under exactly this key. -/
theorem ambiguous_spec :
    (∀ i, i ∈ (s.seeKeyInternal shapes key).2.candidates ↔
      i ∈ s.candidates ∧ schema.LookedUp key i) ∧
    ∀ sh, sh ∈ (fields.map Prod.fst).map FieldInfo.valueShape ↔
      (s.seeKeyInternal shapes key).2.StoredShape key sh := by
  by_cases hfound : ∃ i ∈ s.candidates, schema.LookedUp key i
  · obtain ⟨hres, hmem⟩ := seeKeyInternal_of_found shapes hs h key hfound
    refine ⟨hmem, fun sh => ?_⟩
    have hwf := h.seeKey shapes hs key
    rw [hans] at hres
    have hmany : ¬ ∃ idx, ∀ i, i ∈ (s.seeKeyInternal shapes key).2.candidates ↔ i = idx := by
      rintro ⟨idx, hidx⟩
      have hclass := hres.trans (classify_of_single shapes hwf.valid key hidx)
      cases hclass
    have hshapes := (classify_of_many shapes hwf.valid key hmany).1
    rw [← hres] at hshapes
    rw [← ((s.seeKeyInternal shapes key).2.uniqueFields_shapes key).2 sh, ← hshapes,
      List.map_map]
    rfl
  · push Not at hfound
    have hunknown := (seeKeyInternal_of_missed shapes hs h key hfound).1
    rw [hans] at hunknown
    cases hunknown

/-- On a flat schema every candidate that is left has a field for the key. -/
theorem satisfiesExactly_iff_of_wellFormed (hflat : schema.format = .flat) :
    SatisfiesExactly (s.seeKeyInternal shapes key).2 key (fields.map Prod.fst) ↔
      ∀ i ∈ s.candidates, schema.HasMatch key i → ∀ info ∈ schema.fieldsOf i,
        s.ExactShape key info.valueShape → schema.OwnShape key i info.valueShape := by
  obtain ⟨hlooked, hshapes⟩ := ambiguous_spec shapes hs h key hans
  have hsch : (s.seeKeyInternal shapes key).2.schema = schema :=
    (seeKeyInternal_schema shapes s key).trans h.schema_eq
  have hmem : ∀ i, i ∈ (s.seeKeyInternal shapes key).2.candidates ↔
      i ∈ s.candidates ∧ s.schema.HasMatch key i := by
    intro i
    have hiff : schema.LookedUp key i ↔ schema.HasMatch key i := by
      simp only [Schema.LookedUp, hflat]
    rw [hlooked, hiff, h.schema_eq]
  have hstored : ∀ sh, sh ∈ (fields.map Prod.fst).map FieldInfo.valueShape ↔
      s.ExactShape key sh := by
    intro sh
    rw [hshapes, storedShape_iff_of_narrowed (hsch.trans h.schema_eq.symm) hmem]
  rw [h.schema_eq] at hmem
  constructor
  · intro hexact i hi hmatch info hinfo hsh
    obtain ⟨f, hf, hfsh⟩ := List.mem_map.mp ((hstored info.valueShape).mpr hsh)
    have hkept := hexact.kept [f] (List.cons_subset.mpr ⟨hf, List.nil_subset _⟩) i
    have hin : i ∈ ((s.seeKeyInternal shapes key).2.satisfy [f]).2.candidates := by
      rw [mem_satisfy, hsch]
      refine ⟨(hmem i).mpr ⟨hi, hmatch⟩, info, hinfo, ?_⟩
      rw [List.map_singleton, hfsh]
      exact List.mem_singleton.mpr rfl
    obtain ⟨g, hg, hown⟩ := (hkept.mp hin).2
    rw [List.mem_singleton.mp hg, hfsh, hsch] at hown
    exact hown
  · intro hothers
    refine ⟨fun satisfied hsub i => ?_, rfl⟩
    rw [mem_satisfy, hsch]
    refine and_congr_right fun hi => ⟨?_, ?_⟩
    · rintro ⟨info, hinfo, hin⟩
      obtain ⟨hcand, hmatch⟩ := (hmem i).mp hi
      obtain ⟨f, hf, hfsh⟩ := List.mem_map.mp hin
      have hsh := (hstored info.valueShape).mp (hfsh ▸ List.mem_map_of_mem (hsub hf))
      exact ⟨f, hf, hfsh ▸ hothers i hcand hmatch info hinfo hsh⟩
    · rintro ⟨f, hf, info, hinfo, -, hsh⟩
      exact ⟨info, hinfo, hsh ▸ List.mem_map_of_mem hf⟩

end Ambiguous

/-- In every state a solver for a flat schema can reach, satisfying an ambiguous key is exact
for every choice of the fields if and only if no candidate that has the key has, under another
name, a field of a shape that some candidate has for the key and it itself has not. -/
theorem satisfiesExactly_iff {n : ℕ} {b : SchemaBuilder ι} {schema : Schema ι}
    (hschema : b.intoSchema shapes n = .ok schema) (hflat : schema.format = .flat)
    {s : Solver ι} (hreach : Reachable shapes schema s) (key : FieldKey)
    {fields : List (FieldInfo ι × ℕ)}
    (hans : (s.seeKeyInternal shapes key).1 = .ambiguous fields) :
    SatisfiesExactly (s.seeKeyInternal shapes key).2 key (fields.map Prod.fst) ↔
      ∀ i ∈ s.candidates, schema.HasMatch key i → ∀ info ∈ schema.fieldsOf i,
        s.ExactShape key info.valueShape → schema.OwnShape key i info.valueShape :=
  have hs := SchemaBuilder.intoSchema_eq shapes n hschema
  satisfiesExactly_iff_of_wellFormed shapes hs (hreach.wellFormed shapes hs) key hans hflat

inductive ReadingType
  | reading
  | size
  | u8
  | u16
  deriving DecidableEq

/-- `struct Reading { #[facet(flatten)] size: Size }` where `Size` has the variants
`Small { value: u8, limit: u16 }` and `Large { value: u16, limit: u16 }`. -/
def readingShapes : Shapes ReadingType
  | .reading =>
    { ty := .user (.struct ⟨.struct, [{ name := "size", shape := .size, flatten := true }]⟩)
      «def» := .undefined }
  | .size =>
    { ty := .user (.enum ⟨[{ name := "Small", data := ⟨.struct,
          [{ name := "value", shape := .u8 }, { name := "limit", shape := .u16 }]⟩ },
        { name := "Large", data := ⟨.struct,
          [{ name := "value", shape := .u16 }, { name := "limit", shape := .u16 }]⟩ }],
        .u8⟩)
      «def» := .undefined
      typeIdentifier := "Size" }
  | .u8 => { ty := .primitive .numeric, «def» := .scalar, typeIdentifier := "u8" }
  | .u16 => { ty := .primitive .numeric, «def» := .scalar, typeIdentifier := "u16" }

/-- A `value` that does not fit `u8` leaves `Small`, because of its `limit`. -/
theorem reading_not_satisfiesExactly : ∃ schema fields,
    Schema.build readingShapes 10 .reading = .ok schema ∧
    ((Solver.new schema).seeKey readingShapes "value").1 = .ambiguous fields ∧
    ¬ SatisfiesExactly ((Solver.new schema).seeKey readingShapes "value").2 (.flat "value")
      (fields.map Prod.fst) := by
  have heval : (Schema.build readingShapes 10 .reading).toOption.any fun schema =>
      ((Solver.new schema).seeKey readingShapes "value").1.ambiguousFields.any fun fields =>
        (fields.map Prod.fst).any fun f => f.valueShape = .u16 ∧
          0 ∈ (((Solver.new schema).seeKey readingShapes "value").2.satisfy [f]).2.candidates ∧
          ¬ ((Solver.new schema).seeKey readingShapes "value").2.schema.OwnShape
            (.flat "value") 0 .u16 := by decide
  obtain ⟨schema, hschema, heval⟩ := ExceptList.exists_of_any heval
  obtain ⟨fields, hfields, heval⟩ := (Option.any_eq_true _ _).mp heval
  obtain ⟨f, hf, heval⟩ := List.any_eq_true.mp heval
  obtain ⟨hsh, hkept, hown⟩ := of_decide_eq_true heval
  refine ⟨schema, fields, hschema, KeyResult.eq_ambiguous hfields, ?_⟩
  intro hexact
  have hsub : [f] ⊆ fields.map Prod.fst := List.cons_subset.mpr ⟨hf, List.nil_subset _⟩
  obtain ⟨-, g, hg, hgown⟩ := (hexact.kept [f] hsub 0).mp hkept
  rw [List.mem_singleton.mp hg, hsh] at hgown
  exact hown hgown

theorem satisfiesExactly_iff_reading : ∃ schema fields,
    Schema.build readingShapes 10 .reading = .ok schema ∧
    ((Solver.new schema).seeKey readingShapes "value").1 = .ambiguous fields ∧
    (SatisfiesExactly ((Solver.new schema).seeKey readingShapes "value").2 (.flat "value")
      (fields.map Prod.fst) ↔
      ∀ i ∈ (Solver.new schema).candidates, schema.HasMatch (.flat "value") i →
        ∀ info ∈ schema.fieldsOf i,
          (Solver.new schema).ExactShape (.flat "value") info.valueShape →
            schema.OwnShape (.flat "value") i info.valueShape) := by
  have heval : (Schema.build readingShapes 10 .reading).toOption.any fun schema =>
      (schema.format = .flat : Bool) &&
        ((Solver.new schema).seeKey readingShapes "value").1.ambiguousFields.isSome := by decide
  obtain ⟨schema, hschema, heval⟩ := ExceptList.exists_of_any heval
  obtain ⟨hflat, hsome⟩ := Bool.and_eq_true_iff.mp heval
  obtain ⟨fields, hfields⟩ := Option.isSome_iff_exists.mp hsome
  have hans := KeyResult.eq_ambiguous hfields
  exact ⟨schema, fields, hschema, hans,
    satisfiesExactly_iff readingShapes hschema (of_decide_eq_true hflat) .new (.flat "value") hans⟩

end Solver

end Facet.Flatten
