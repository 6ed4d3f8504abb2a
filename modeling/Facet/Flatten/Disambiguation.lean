import Mathlib.Data.List.Count
import Facet.Flatten.KeyRuns

/-!
# What the fields of an ambiguity error are worth

Where several resolutions remain that have all their required fields, `finish` names the fields
that could tell them apart. Reporting one of these fields rules one of the resolutions out for
good and keeps another; where there is no such field, the resolutions cannot be told apart by any
further keys.
-/

namespace Facet.Flatten

open Std

variable {ι : Type}

theorem mem_insertNames {names : TreeSet String} {infos : List (FieldInfo ι)} {name : String} :
    name ∈ infos.foldl (fun names info => names.insert info.serializedName) names ↔
      name ∈ names ∨ ∃ info ∈ infos, info.serializedName = name := by
  induction infos generalizing names with
  | nil => simp
  | cons info infos ih =>
    rw [List.foldl_cons, ih, TreeSet.mem_insert, Std.compare_eq_iff_eq, or_assoc, or_left_comm]
    simp only [List.mem_cons, exists_eq_or_imp]

theorem mem_allFields {names : TreeSet String} {configs : List (Resolution ι)} {name : String} :
    name ∈ configs.foldl (fun names config =>
        config.fields.values.foldl (fun names info => names.insert info.serializedName) names)
        names ↔
      name ∈ names ∨ ∃ config ∈ configs, ∃ info ∈ config.fields.values,
        info.serializedName = name := by
  induction configs generalizing names with
  | nil => simp
  | cons config configs ih =>
    rw [List.foldl_cons, ih, mem_insertNames, or_assoc]
    simp only [List.mem_cons, exists_eq_or_imp]

theorem isSome_fieldByName (config : Resolution ι) (name : String) :
    (config.fieldByName name).isSome ↔ ∃ info ∈ config.fields.values, info.serializedName = name := by
  rw [Resolution.fieldByName, List.find?_isSome]
  simp

/-- The fields that some of the resolutions have and others have not. -/
theorem mem_findDisambiguatingFields {configs : List (Resolution ι)} {name : String} :
    name ∈ findDisambiguatingFields configs ↔
      (∃ config ∈ configs, (config.fieldByName name).isSome) ∧
        ∃ config ∈ configs, ¬ (config.fieldByName name).isSome := by
  unfold findDisambiguatingFields
  split
  · rename_i hlen
    constructor
    · intro h
      cases h
    · intro hex
      obtain ⟨⟨config, hconfig, hsome⟩, config', hconfig', hnot⟩ := hex
      obtain ⟨c, rfl⟩ : ∃ c, configs = [c] := by
        have hpos := List.length_pos_of_mem hconfig
        exact List.length_eq_one_iff.mp (by omega)
      rw [List.mem_singleton.mp hconfig] at hsome
      rw [List.mem_singleton.mp hconfig'] at hnot
      exact absurd hsome hnot
  · dsimp only
    rw [List.mem_filter, TreeSet.mem_toList, mem_allFields]
    simp only [Bool.and_eq_true, decide_eq_true_eq, List.countP_pos_iff, List.countP_lt_length_iff,
      Bool.not_eq_true]
    constructor
    · exact fun h => h.2
    · intro h
      refine ⟨.inr ?_, h⟩
      obtain ⟨⟨config, hconfig, hsome⟩, _⟩ := h
      exact ⟨config, hconfig, (isSome_fieldByName config name).mp hsome⟩

namespace Solver

variable {schema : Schema ι} {s : Solver ι}

/-- The solver works on the schema, and its candidates are resolutions of it. -/
structure On (schema : Schema ι) (s : Solver ι) : Prop where
  schema_eq : s.schema = schema
  valid : s.candidates.Valid schema.resolutions.length

theorem On.new (schema : Schema ι) : On schema (Solver.new schema) where
  schema_eq := rfl
  valid := ResolutionSet.full_valid _

/-- A key keeps the candidates that contain it, if there are any. -/
theorem On.mem_narrowed (hs : schema.FlatIndexed) (h : On schema s) (key : FieldKey) (i : ℕ) :
    i ∈ s.narrowed key ↔ i ∈ s.candidates ∧
      ((∃ r ∈ s.candidates.iter, schema.Contains r key.name) → schema.Contains i key.name) := by
  have hlookup : s.schema.resolutionsWithKey key = schema.fieldToResolutions[key.name]? := by
    rw [h.schema_eq, hs.resolutionsWithKey_eq]
  rcases hs.index key.name with ⟨hnone, hno⟩ | ⟨set, hsome, hset, _, hmem⟩
  · have hsame : s.narrowed key = s.candidates := by simp only [narrowed, hlookup, hnone]
    rw [hsame]
    constructor
    · intro hi
      refine ⟨hi, ?_⟩
      intro hex
      obtain ⟨r, _, hr⟩ := hex
      exact absurd hr (hno r)
    · exact fun hi => hi.1
  · by_cases hmeet : ∃ r ∈ s.candidates.iter, schema.Contains r key.name
    · obtain ⟨r, hr, hcontains⟩ := hmeet
      rw [Solver.mem_narrowed h.valid hset (hlookup.trans hsome)
        ((s.candidates.mem_iter r).mp hr) ((hmem r).mpr hcontains), hmem]
      constructor
      · exact fun hi => ⟨hi.1, fun _ => hi.2⟩
      · exact fun hi => ⟨hi.1, hi.2 ⟨r, hr, hcontains⟩⟩
    · have hsame : s.narrowed key = s.candidates := by
        have hapart : ¬ s.candidates.intersects set := by
          rw [ResolutionSet.intersects_iff h.valid hset]
          intro hex
          obtain ⟨r, hr, hrset⟩ := hex
          exact hmeet ⟨r, (s.candidates.mem_iter r).mpr hr, (hmem r).mp hrset⟩
        simp only [narrowed, hlookup, hsome, hapart]
        rfl
      rw [hsame]
      exact ⟨fun hi => ⟨hi, fun hr => absurd hr hmeet⟩, fun hi => hi.1⟩

theorem On.seeKeyInternal [DecidableEq ι] (shapes : Shapes ι) (hs : schema.FlatIndexed)
    (h : On schema s) (key : FieldKey) : On schema (s.seeKeyInternal shapes key).2 where
  schema_eq := (seeKeyInternal_schema shapes s key).trans h.schema_eq
  valid := by
    rw [seeKeyInternal_candidates]
    apply narrowed_valid h.valid
    intro set hset
    rw [h.schema_eq, hs.resolutionsWithKey_eq] at hset
    rcases hs.index key.name with ⟨hnone, _⟩ | ⟨set', hsome, hvalid, _, _⟩
    · rw [hnone] at hset
      cases hset
    · rw [hsome] at hset
      cases hset
      exact hvalid

section Runs

variable [DecidableEq ι] (shapes : Shapes ι)

theorem On.seeKeys (hs : schema.FlatIndexed) (h : On schema s) (keys : List FieldKey) :
    On schema (s.seeKeys shapes keys) := by
  induction keys generalizing s with
  | nil => exact h
  | cons key keys ih => exact ih (h.seeKeyInternal shapes hs key)

theorem On.mem_of_mem_seeKeys (hs : schema.FlatIndexed) (h : On schema s)
    {keys : List FieldKey} {i : ℕ} (hi : i ∈ (s.seeKeys shapes keys).candidates) :
    i ∈ s.candidates := by
  induction keys generalizing s with
  | nil => exact hi
  | cons key keys ih =>
    have hstep := ih (h.seeKeyInternal shapes hs key) hi
    rw [seeKeyInternal_candidates] at hstep
    exact ((h.mem_narrowed hs key i).mp hstep).1

theorem seenKeys_subset_seeKeys (keys : List FieldKey) {k : FieldKey} (hk : k ∈ s.seenKeys) :
    k ∈ (s.seeKeys shapes keys).seenKeys := by
  induction keys generalizing s with
  | nil => exact hk
  | cons key keys ih =>
    apply ih
    rw [seeKeyInternal_seenKeys, TreeSet.mem_insert]
    exact .inr hk

omit [DecidableEq ι] in
theorem mem_viable {i : ℕ} : i ∈ s.viable ↔ i ∈ s.candidates ∧
    ∃ config, s.schema.resolutions[i]? = some config ∧
      ∀ f ∈ config.requiredFieldNames, ∃ k ∈ s.seenKeys, k.name = f := by
  rw [viable, List.mem_filter, ResolutionSet.mem_iter]
  apply and_congr_right
  intro _
  cases s.schema.resolutions[i]? with
  | none => simp
  | some config =>
    simp only [requiredSeen, List.all_eq_true, TreeSet.mem_toList, List.any_eq_true, beq_iff_eq,
      Option.some.injEq, exists_eq_left']

/-- A viable resolution stays viable as long as it stays a candidate. -/
theorem On.mem_viable_seeKeys (hs : schema.FlatIndexed) (h : On schema s)
    (keys : List FieldKey) {i : ℕ} (hi : i ∈ s.viable) :
    i ∈ (s.seeKeys shapes keys).viable ↔ i ∈ (s.seeKeys shapes keys).candidates := by
  obtain ⟨_, config, hconfig, hrequired⟩ := mem_viable.mp hi
  rw [mem_viable, (h.seeKeys shapes hs keys).schema_eq, ← h.schema_eq]
  constructor
  · exact fun h => h.1
  · intro hcandidate
    refine ⟨hcandidate, config, hconfig, ?_⟩
    intro f hf
    obtain ⟨k, hk, hname⟩ := hrequired f hf
    exact ⟨k, seenKeys_subset_seeKeys shapes keys hk, hname⟩

end Runs

/-- The resolutions that the error is about. -/
def viableConfigs (s : Solver ι) : List (Resolution ι) :=
  s.viable.filterMap fun idx => s.schema.resolutions[idx]?

theorem fields_of_finish_ambiguous {candidates fields : List String}
    (h : s.finish = .error (.ambiguous candidates fields)) :
    fields = findDisambiguatingFields s.viableConfigs := by
  unfold finish at h
  dsimp only at h
  split_ifs at h
  · cases h
  · split at h
    · cases h
    · cases h
    · injection h with h
      injection h with _ hfields
      exact hfields.symm

theorem On.exists_viableConfigs (h : On schema s) (name : String) (b : Bool) :
    (∃ config ∈ s.viableConfigs, (config.fieldByName name).isSome = b) ↔
      ∃ i ∈ s.viable, decide (schema.Contains i name) = b := by
  have hsame (i : ℕ) (config : Resolution ι) (hi : schema.resolutions[i]? = some config) :
      (config.fieldByName name).isSome = decide (schema.Contains i name) := by
    rw [Bool.eq_iff_iff, decide_eq_true_iff, isSome_fieldByName, Schema.Contains, Schema.fieldsOf,
      hi]
  constructor
  · intro hex
    obtain ⟨config, hconfig, hb⟩ := hex
    obtain ⟨i, hi, hlookup⟩ := List.mem_filterMap.mp hconfig
    rw [h.schema_eq] at hlookup
    exact ⟨i, hi, (hsame i config hlookup).symm.trans hb⟩
  · intro hex
    obtain ⟨i, hi, hb⟩ := hex
    obtain ⟨_, config, hlookup, _⟩ := mem_viable.mp hi
    have hmem : config ∈ s.viableConfigs := List.mem_filterMap.mpr ⟨i, hi, hlookup⟩
    rw [h.schema_eq] at hlookup
    exact ⟨config, hmem, (hsame i config hlookup).trans hb⟩

/-- The fields of the error are those on which the viable resolutions differ. -/
theorem On.mem_fields (h : On schema s) {candidates fields : List String}
    (hfinish : s.finish = .error (.ambiguous candidates fields)) (name : String) :
    name ∈ fields ↔ (∃ i ∈ s.viable, schema.Contains i name) ∧
      ∃ i ∈ s.viable, ¬ schema.Contains i name := by
  have hsome := h.exists_viableConfigs name true
  have hnone := h.exists_viableConfigs name false
  simp only [decide_eq_true_eq, decide_eq_false_iff_not] at hsome hnone
  rw [fields_of_finish_ambiguous hfinish, mem_findDisambiguatingFields, hsome, ← hnone]
  simp only [Bool.not_eq_true]

section Separation

variable [DecidableEq ι] (shapes : Shapes ι)

/-- A field of the error rules a viable resolution out for good, and leaves one viable. -/
theorem On.field_separates (hs : schema.FlatIndexed) (h : On schema s)
    {candidates fields : List String}
    (hfinish : s.finish = .error (.ambiguous candidates fields)) {name : String}
    (hname : name ∈ fields) :
    ∃ kept ∈ s.viable, ∃ ruled ∈ s.viable, kept ∈ (s.seeKeys shapes [.flat name]).viable ∧
      ∀ more, ruled ∉ (s.seeKeys shapes (.flat name :: more)).candidates := by
  obtain ⟨⟨kept, hkept, hhas⟩, ruled, hruled, hnot⟩ := (h.mem_fields hfinish name).mp hname
  have hmem (i : ℕ) : i ∈ (s.seeKeyInternal shapes (.flat name)).2.candidates ↔
      i ∈ s.candidates ∧ ((∃ r ∈ s.candidates.iter, schema.Contains r name) →
        schema.Contains i name) := by
    rw [seeKeyInternal_candidates]
    exact h.mem_narrowed hs (.flat name) i
  have hcandidate : kept ∈ s.candidates := (mem_viable.mp hkept).1
  refine ⟨kept, hkept, ruled, hruled, ?_, ?_⟩
  · rw [h.mem_viable_seeKeys shapes hs _ hkept]
    exact (hmem kept).mpr ⟨hcandidate, fun _ => hhas⟩
  · intro more hback
    have hstill := (h.seeKeyInternal shapes hs (.flat name)).mem_of_mem_seeKeys shapes hs hback
    apply hnot
    exact ((hmem ruled).mp hstill).2 ⟨kept, (s.candidates.mem_iter kept).mpr hcandidate, hhas⟩

/-- Keys that no field of the error names treat resolutions alike that contain the same of them. -/
theorem On.alike_seeKeys (hs : schema.FlatIndexed) (h : On schema s) {i j : ℕ}
    (hij : i ∈ s.candidates ↔ j ∈ s.candidates) {keys : List FieldKey}
    (hkeys : ∀ k ∈ keys, schema.Contains i k.name ↔ schema.Contains j k.name) :
    i ∈ (s.seeKeys shapes keys).candidates ↔ j ∈ (s.seeKeys shapes keys).candidates := by
  induction keys generalizing s with
  | nil => exact hij
  | cons key keys ih =>
    have hstep : i ∈ (s.seeKeyInternal shapes key).2.candidates ↔
        j ∈ (s.seeKeyInternal shapes key).2.candidates := by
      rw [seeKeyInternal_candidates, h.mem_narrowed hs, h.mem_narrowed hs, hij,
        hkeys key List.mem_cons_self]
    apply ih (h.seeKeyInternal shapes hs key) hstep
    intro k hk
    exact hkeys k (List.mem_cons_of_mem key hk)

/-- Without a key that names a field of the error, the viable resolutions stay together. -/
theorem On.viable_together (hs : schema.FlatIndexed) (h : On schema s)
    {candidates fields : List String}
    (hfinish : s.finish = .error (.ambiguous candidates fields)) {keys : List FieldKey}
    (hkeys : ∀ k ∈ keys, k.name ∉ fields) {i j : ℕ} (hi : i ∈ s.viable) (hj : j ∈ s.viable) :
    i ∈ (s.seeKeys shapes keys).viable ↔ j ∈ (s.seeKeys shapes keys).viable := by
  rw [h.mem_viable_seeKeys shapes hs keys hi, h.mem_viable_seeKeys shapes hs keys hj]
  have hij : i ∈ s.candidates ↔ j ∈ s.candidates :=
    iff_of_true (mem_viable.mp hi).1 (mem_viable.mp hj).1
  apply h.alike_seeKeys shapes hs hij
  intro k hk
  have hnot := hkeys k hk
  rw [h.mem_fields hfinish] at hnot
  constructor
  · intro hcontains
    by_contra hno
    exact hnot ⟨⟨i, hi, hcontains⟩, j, hj, hno⟩
  · intro hcontains
    by_contra hno
    exact hnot ⟨⟨j, hj, hcontains⟩, i, hi, hno⟩

/-- After any keys on a flat schema, each field that an ambiguity error names settles part of
the ambiguity, and no further keys settle it without one of these fields. -/
theorem ambiguous_fields_settle {n : ℕ} {b : SchemaBuilder ι} {schema : Schema ι}
    (hschema : b.intoSchema shapes n = .ok schema) (hformat : schema.format = .flat)
    (keys : List FieldKey) {candidates fields : List String}
    (hfinish : ((Solver.new schema).seeKeys shapes keys).finish =
      .error (.ambiguous candidates fields)) :
    let s := (Solver.new schema).seeKeys shapes keys
    (∀ name ∈ fields, ∃ kept ∈ s.viable, ∃ ruled ∈ s.viable,
      kept ∈ (s.seeKeys shapes [.flat name]).viable ∧
        ∀ more, ruled ∉ (s.seeKeys shapes (.flat name :: more)).candidates) ∧
    ∀ more : List FieldKey, (∀ k ∈ more, k.name ∉ fields) → ∀ r ∈ s.viable,
      (s.seeKeys shapes more).finish ≠ .ok r := by
  intro s
  have hs : schema.FlatIndexed := .of_intoSchema hschema hformat
  have h : On schema s := (On.new schema).seeKeys shapes hs keys
  constructor
  · intro name hname
    exact h.field_separates shapes hs hfinish hname
  · intro more hmore r hr hok
    have hvalid := (h.seeKeys shapes hs more).valid
    have hviable : (s.seeKeys shapes more).viable = [r] := (finish_ok_iff hvalid r).mp hok
    have htwo := (finish_ambiguous_iff h.valid).mp ⟨candidates, fields, hfinish⟩
    obtain ⟨i, j, hij, hi, hj⟩ := (two_le_length_iff_of_nodup s.viable_nodup).mp htwo
    have honly (k : ℕ) (hk : k ∈ s.viable) : k = r := by
      have hstays := (h.viable_together shapes hs hfinish hmore hr hk).mp (by simp [hviable])
      simpa [hviable] using hstays
    exact hij ((honly i hi).trans (honly j hj).symm)

inductive MirrorType
  | mirror
  | kind
  | string
  deriving DecidableEq

/-- `struct Mirror { #[facet(flatten)] kind: MirrorKind }` where `MirrorKind` has the variants
`Http { url }` and `Git { url, #[facet(default)] branch }`. -/
def mirrorShapes : Shapes MirrorType
  | .mirror =>
    { ty := .user (.struct ⟨.struct, [{ name := "kind", shape := .kind, flatten := true }]⟩)
      «def» := .undefined }
  | .kind =>
    { ty := .user (.enum ⟨[{ name := "Http", data := ⟨.struct, [{ name := "url", shape := .string }]⟩ },
        { name := "Git",
          data := ⟨.struct, [{ name := "url", shape := .string },
            { name := "branch", shape := .string, default := some .fromTrait }]⟩ }],
        .u8⟩)
      «def» := .undefined
      typeIdentifier := "MirrorKind" }
  | .string => { ty := .user .opaqueTy, «def» := .scalar, typeIdentifier := "String" }

def mirrorBuilder : SchemaBuilder MirrorType := { shape := .mirror, enumRepr := .flattened }

/-- The fields named by an ambiguity error. -/
def ambiguityFields : Except SolverError ℕ → Option (List String)
  | .error (.ambiguous _ fields) => some fields
  | _ => none

theorem exists_of_ambiguityFields {outcome : Except SolverError ℕ} {fields : List String}
    (h : ambiguityFields outcome = some fields) :
    ∃ candidates, outcome = .error (.ambiguous candidates fields) := by
  unfold ambiguityFields at h
  split at h
  · rename_i candidates _
    obtain rfl := Option.some.inj h
    exact ⟨candidates, rfl⟩
  · cases h

/-- `url` alone is ambiguous, and no further keys tell the variants apart but `branch`. -/
theorem ambiguous_fields_settle_mirror : ∃ schema,
    mirrorBuilder.intoSchema mirrorShapes 10 = .ok schema ∧
    ∀ more : List FieldKey, (∀ k ∈ more, k.name ∉ ["branch"]) →
      ∀ r ∈ ((Solver.new schema).seeKeys mirrorShapes [.flat "url"]).viable,
        (((Solver.new schema).seeKeys mirrorShapes [.flat "url"]).seeKeys mirrorShapes more).finish ≠
          .ok r := by
  have heval : (mirrorBuilder.intoSchema mirrorShapes 10).toOption.any fun schema =>
      decide (schema.format = .flat ∧ ambiguityFields
        ((Solver.new schema).seeKeys mirrorShapes [.flat "url"]).finish = some ["branch"]) := by
    decide
  cases hschema : mirrorBuilder.intoSchema mirrorShapes 10 with
  | error e => simp [hschema, Except.toOption] at heval
  | ok schema =>
    obtain ⟨hformat, hfields⟩ : schema.format = .flat ∧ ambiguityFields
        ((Solver.new schema).seeKeys mirrorShapes [.flat "url"]).finish = some ["branch"] := by
      simpa [hschema, Except.toOption] using heval
    obtain ⟨candidates, hfinish⟩ := exists_of_ambiguityFields hfields
    exact ⟨schema, rfl, (ambiguous_fields_settle mirrorShapes hschema hformat _ hfinish).2⟩

end Separation

end Solver

end Facet.Flatten
