import Facet.Flatten.Lookup

/-!
# Runs of the solver on flat schemas

Reporting keys one after another keeps exactly the resolutions that contain every
indexed key, as long as there is one. `finish` then decides among them by the
required fields.
-/

namespace Facet.Flatten

open Std

variable {ι : Type} [DecidableEq ι] (shapes : Shapes ι)

namespace Schema

/-- Resolution `i` has a field of this serialized name. -/
def Contains (schema : Schema ι) (i : ℕ) (name : String) : Prop :=
  ∃ info ∈ schema.fieldsOf i, info.serializedName = name

/-- The name occurs in the inverted index. -/
def Indexed (schema : Schema ι) (name : String) : Prop :=
  name ∈ schema.fieldToResolutions

instance (schema : Schema ι) (i : ℕ) (name : String) : Decidable (schema.Contains i name) :=
  inferInstanceAs (Decidable (∃ info ∈ schema.fieldsOf i, info.serializedName = name))

instance (schema : Schema ι) (name : String) : Decidable (schema.Indexed name) :=
  inferInstanceAs (Decidable (name ∈ schema.fieldToResolutions))

/-- All required field names of resolution `i` are among the reported keys. -/
def RequiredIn (schema : Schema ι) (keys : List FieldKey) (i : ℕ) : Prop :=
  ∃ config, schema.resolutions[i]? = some config ∧
    ∀ f ∈ config.requiredFieldNames, ∃ k ∈ keys, k.name = f

/-- Resolution `i` contains every reported key that the schema knows. -/
def ContainsAll (schema : Schema ι) (keys : List FieldKey) (i : ℕ) : Prop :=
  i < schema.resolutions.length ∧ ∀ k ∈ keys, schema.Indexed k.name → schema.Contains i k.name

instance (schema : Schema ι) (keys : List FieldKey) (i : ℕ) :
    Decidable (schema.ContainsAll keys i) :=
  inferInstanceAs (Decidable (_ ∧ _))

/-- Resolution `i` is one that `finish` may return. -/
def Accepts (schema : Schema ι) (keys : List FieldKey) (i : ℕ) : Prop :=
  schema.ContainsAll keys i ∧ schema.RequiredIn keys i

/-- What the rest of the development uses of `into_schema` for flat schemas. -/
structure FlatIndexed (schema : Schema ι) : Prop where
  format : schema.format = .flat
  index : schema.fieldToResolutions.Represents schema.resolutions.length
    fun name i => schema.Contains i name

omit [DecidableEq ι] in
theorem FlatIndexed.of_intoSchema {shapes : Shapes ι} {n : ℕ} {b : SchemaBuilder ι}
    {schema : Schema ι} (h : b.intoSchema shapes n = .ok schema)
    (hformat : schema.format = .flat) : schema.FlatIndexed := by
  exact ⟨hformat, schema.fieldIndex_represents (SchemaBuilder.intoSchema_eq shapes n h)⟩

end Schema

namespace Schema.FlatIndexed

omit [DecidableEq ι]

variable {schema : Schema ι} (hs : schema.FlatIndexed)
include hs

/-- A flat schema looks keys up by name, whatever their category. -/
theorem resolutionsWithKey_eq (key : FieldKey) :
    schema.resolutionsWithKey key = schema.fieldToResolutions[key.name]? := by
  unfold Schema.resolutionsWithKey
  rw [hs.format]
  cases key <;> rfl

theorem indexed_iff (name : String) : schema.Indexed name ↔ ∃ i, schema.Contains i name := by
  rw [Schema.Indexed, ← TreeMap.isSome_getElem?_iff_mem]
  rcases hs.index name with ⟨hnone, hno⟩ | ⟨s, hsome, _, hex, _⟩
  · simp [hnone, hno]
  · simp [hsome, hex]

end Schema.FlatIndexed

namespace Solver

/-- Report a sequence of keys. -/
def seeKeys (s : Solver ι) (keys : List FieldKey) : Solver ι :=
  keys.foldl (fun s key => (s.seeKeyInternal shapes key).2) s

theorem seeKeyInternal_schema (s : Solver ι) (key : FieldKey) :
    (s.seeKeyInternal shapes key).2.schema = s.schema := by
  unfold seeKeyInternal
  dsimp only
  split
  · rfl
  · split_ifs <;> rfl

theorem seeKeyInternal_seenKeys (s : Solver ι) (key : FieldKey) :
    (s.seeKeyInternal shapes key).2.seenKeys = s.seenKeys.insert key := by
  unfold seeKeyInternal
  dsimp only
  split
  · rfl
  · split_ifs <;> rfl

/-- The candidates after a key. -/
def narrowed (s : Solver ι) (key : FieldKey) : ResolutionSet :=
  match s.schema.resolutionsWithKey key with
  | none => s.candidates
  | some set => if s.candidates.intersects set then s.candidates.intersectWith set
    else s.candidates

theorem seeKeyInternal_candidates (s : Solver ι) (key : FieldKey) :
    (s.seeKeyInternal shapes key).2.candidates = s.narrowed key := by
  unfold seeKeyInternal narrowed
  dsimp only
  cases s.schema.resolutionsWithKey key with
  | none => rfl
  | some set => dsimp only; split_ifs <;> rfl

section Narrowed

omit [DecidableEq ι]

variable {s : Solver ι} {n : ℕ} (hvalid : s.candidates.Valid n) {key : FieldKey}
include hvalid

theorem narrowed_valid (hset : ∀ set, s.schema.resolutionsWithKey key = some set → set.Valid n) :
    (s.narrowed key).Valid n := by
  unfold narrowed
  split
  · exact hvalid
  · next set hlookup =>
    split_ifs
    · exact ResolutionSet.intersectWith_valid hvalid (hset set hlookup)
    · exact hvalid

/-- Narrowing keeps the candidates in the entry of the key when there is one. -/
theorem mem_narrowed {set : ResolutionSet} (hset : set.Valid n)
    (hlookup : s.schema.resolutionsWithKey key = some set) {r : ℕ} (hr : r ∈ s.candidates)
    (hrset : r ∈ set) (i : ℕ) : i ∈ s.narrowed key ↔ i ∈ s.candidates ∧ i ∈ set := by
  have hmeet : s.candidates.intersects set :=
    (ResolutionSet.intersects_iff hvalid hset).mpr ⟨r, hr, hrset⟩
  simp only [narrowed, hlookup, hmeet, if_true]
  exact ResolutionSet.mem_intersectWith hvalid hset i

end Narrowed

/-- The invariant of a run: the keys reported so far and what they leave over. -/
structure RunInv (schema : Schema ι) (s : Solver ι) (keys : List FieldKey) : Prop where
  schema_eq : s.schema = schema
  valid : s.candidates.Valid schema.resolutions.length
  seen : ∀ k, k ∈ s.seenKeys ↔ k ∈ keys
  mem : ∀ i, i ∈ s.candidates ↔ schema.ContainsAll keys i

omit [DecidableEq ι] in
theorem RunInv.new (schema : Schema ι) : RunInv schema (Solver.new schema) [] where
  schema_eq := rfl
  valid := ResolutionSet.full_valid _
  seen k := by simp [Solver.new]
  mem i := by simp [Solver.new, ResolutionSet.mem_full, Schema.ContainsAll]

/-- One reported key. The branch that leaves the candidates alone is not taken for an
indexed key, because the candidate `r` contains it. -/
theorem RunInv.seeKeyInternal {schema : Schema ι} (hs : schema.FlatIndexed) {s : Solver ι}
    {keys : List FieldKey} (h : RunInv schema s keys) (key : FieldKey) {r : ℕ}
    (hr : r ∈ s.candidates) (hkey : schema.Indexed key.name → schema.Contains r key.name) :
    RunInv schema (s.seeKeyInternal shapes key).2 (keys ++ [key]) := by
  have hlookup : s.schema.resolutionsWithKey key = schema.fieldToResolutions[key.name]? := by
    rw [h.schema_eq, hs.resolutionsWithKey_eq]
  have hcand : (s.narrowed key).Valid schema.resolutions.length ∧ ∀ i, i ∈ s.narrowed key ↔
      i ∈ s.candidates ∧ (schema.Indexed key.name → schema.Contains i key.name) := by
    rcases hs.index key.name with ⟨hnone, hno⟩ | ⟨set, hsome, hset, hex, hmem⟩
    · have hsame : s.narrowed key = s.candidates := by simp only [narrowed, hlookup, hnone]
      have hnot : ¬ schema.Indexed key.name := fun hi =>
        (hs.indexed_iff key.name).mp hi |>.elim hno
      rw [hsame]
      exact ⟨h.valid, fun i => by simp [hnot]⟩
    · have hindexed : schema.Indexed key.name := (hs.indexed_iff key.name).mpr hex
      refine ⟨narrowed_valid h.valid fun set' hset' => ?_, fun i => ?_⟩
      · obtain rfl : set = set' := by simpa [hlookup, hsome] using hset'
        exact hset
      · rw [mem_narrowed h.valid hset (hlookup.trans hsome) hr ((hmem r).mpr (hkey hindexed)),
          hmem]
        simp [hindexed]
  refine ⟨(seeKeyInternal_schema shapes s key).trans h.schema_eq, ?_, ?_, ?_⟩
  · rw [seeKeyInternal_candidates]
    exact hcand.1
  · intro k
    rw [seeKeyInternal_seenKeys, TreeSet.mem_insert, h.seen, Std.compare_eq_iff_eq]
    simp [or_comm, eq_comm]
  · intro i
    rw [seeKeyInternal_candidates, hcand.2, h.mem]
    simp only [Schema.ContainsAll, List.mem_append, List.mem_singleton, or_imp, forall_and, forall_eq, and_assoc]

theorem RunInv.seeKeys {schema : Schema ι} (hs : schema.FlatIndexed) {s : Solver ι}
    {done keys : List FieldKey} (h : RunInv schema s done) {r : ℕ} (hr : r ∈ s.candidates)
    (hkeys : ∀ k ∈ keys, schema.Indexed k.name → schema.Contains r k.name) :
    RunInv schema (s.seeKeys shapes keys) (done ++ keys) := by
  induction keys generalizing s done with
  | nil => simpa [Solver.seeKeys] using h
  | cons key keys ih =>
    have hkey := hkeys key (by simp)
    have hstep := h.seeKeyInternal shapes hs key hr hkey
    have hr' : r ∈ (s.seeKeyInternal shapes key).2.candidates := by
      rw [hstep.mem]
      obtain ⟨hlt, hdone⟩ := (h.mem r).mp hr
      refine ⟨hlt, fun k hk => ?_⟩
      rcases List.mem_append.mp hk with hk | hk
      · exact hdone k hk
      · obtain rfl := List.mem_singleton.mp hk
        exact hkey
    have hrest := ih hstep hr' (fun k hk => hkeys k (by simp [hk]))
    rwa [List.append_assoc] at hrest

section Finish

omit [DecidableEq ι]

variable {s : Solver ι} {n : ℕ} (hvalid : s.candidates.Valid n)

theorem viable_nodup (s : Solver ι) : s.viable.Nodup := s.candidates.iter_nodup.filter _

theorem viable_eq_nil_of_isEmpty (hvalid : s.candidates.Valid n)
    (h : s.candidates.isEmpty) : s.viable = [] := by
  refine List.eq_nil_iff_forall_not_mem.mpr fun i hi => ?_
  exact hvalid.isEmpty_iff.mp h i ((s.candidates.mem_iter i).mp (List.mem_filter.mp hi).1)

include hvalid

theorem finish_ok_iff (r : ℕ) : s.finish = .ok r ↔ s.viable = [r] := by
  unfold finish
  dsimp only
  split_ifs with hempty
  · simp [viable_eq_nil_of_isEmpty hvalid hempty]
  · split <;> simp_all

theorem finish_ambiguous_iff :
    (∃ c d, s.finish = .error (.ambiguous c d)) ↔ 2 ≤ s.viable.length := by
  unfold finish
  dsimp only
  split_ifs with hempty
  · simp [viable_eq_nil_of_isEmpty hvalid hempty]
  · split
    · simp_all
    · simp_all
    · next hnil hone =>
      match hv : s.viable with
      | [] => exact absurd hv hnil
      | [a] => exact absurd hv (hone a)
      | a :: b :: l => simp

theorem finish_noMatch_iff :
    (∃ i u, s.finish = .error (.noMatch i u)) ↔ s.viable = [] := by
  unfold finish
  dsimp only
  split_ifs with hempty
  · simp [viable_eq_nil_of_isEmpty hvalid hempty]
  · split <;> simp_all

end Finish

omit [DecidableEq ι] in
theorem RunInv.mem_viable {schema : Schema ι} {s : Solver ι} {keys : List FieldKey}
    (h : RunInv schema s keys) (i : ℕ) : i ∈ s.viable ↔ schema.Accepts keys i := by
  have hseen : ∀ f, (s.seenKeys.toList.any fun k => k.name == f) ↔ ∃ k ∈ keys, k.name = f := by
    intro f
    simp only [List.any_eq_true, TreeSet.mem_toList, beq_iff_eq, h.seen]
  rw [viable, List.mem_filter, ResolutionSet.mem_iter, h.mem, h.schema_eq, Schema.Accepts]
  refine and_congr_right fun _ => ?_
  cases hi : schema.resolutions[i]? with
  | none => simp [Schema.RequiredIn, hi]
  | some config =>
    simp only [Schema.RequiredIn, hi, requiredSeen, List.all_eq_true, TreeSet.mem_toList, hseen,
      Option.some.injEq, exists_eq_left']

/-- A list without repetitions is determined by its elements when there is only one. -/
theorem eq_singleton_iff_of_nodup {l : List ℕ} (h : l.Nodup) (r : ℕ) :
    l = [r] ↔ ∀ i, i ∈ l ↔ i = r := by
  constructor
  · rintro rfl i
    exact List.mem_singleton
  · intro hmem
    have hperm : l.Perm [r] := (List.perm_ext_iff_of_nodup h (List.nodup_singleton r)).mpr
      fun i => by rw [hmem, List.mem_singleton]
    exact List.perm_singleton.mp hperm

theorem two_le_length_iff_of_nodup {l : List ℕ} (h : l.Nodup) :
    2 ≤ l.length ↔ ∃ i j, i ≠ j ∧ i ∈ l ∧ j ∈ l := by
  constructor
  · match l, h with
    | [], _ => simp
    | [a], _ => simp
    | a :: b :: l, h => exact fun _ => ⟨a, b, by simp_all, by simp, by simp⟩
  · rintro ⟨i, j, hij, hi, hj⟩
    match l with
    | [] => simp at hi
    | [a] =>
      obtain rfl := List.mem_singleton.mp hi
      exact absurd (List.mem_singleton.mp hj).symm hij
    | a :: b :: l => simp

/-- After any keys that some resolution can explain, the candidates are the
resolutions that explain them, and `finish` decides among these by required fields. -/
theorem seeKeys_finish {n : ℕ} {b : SchemaBuilder ι} {schema : Schema ι}
    (hschema : b.intoSchema shapes n = .ok schema) (hformat : schema.format = .flat)
    (keys : List FieldKey) (hexplained : ∃ r, schema.ContainsAll keys r) :
    let s := (Solver.new schema).seeKeys shapes keys
    (∀ i, i ∈ s.candidates ↔ schema.ContainsAll keys i) ∧
    (∀ r, s.finish = .ok r ↔ ∀ i, schema.Accepts keys i ↔ i = r) ∧
    ((∃ c d, s.finish = .error (.ambiguous c d)) ↔
      ∃ i j, i ≠ j ∧ schema.Accepts keys i ∧ schema.Accepts keys j) ∧
    ((∃ i u, s.finish = .error (.noMatch i u)) ↔ ∀ i, ¬ schema.Accepts keys i) := by
  intro s
  obtain ⟨r, hr⟩ := hexplained
  have hstart : r ∈ (Solver.new schema).candidates := (ResolutionSet.mem_full _ r).mpr hr.1
  have hinv : RunInv schema s keys := by
    simpa using (RunInv.new schema).seeKeys shapes (.of_intoSchema hschema hformat) hstart hr.2
  refine ⟨hinv.mem, fun r => ?_, ?_, ?_⟩
  · rw [finish_ok_iff hinv.valid, eq_singleton_iff_of_nodup s.viable_nodup]
    simp only [hinv.mem_viable]
  · rw [finish_ambiguous_iff hinv.valid, two_le_length_iff_of_nodup s.viable_nodup]
    simp only [hinv.mem_viable]
  · rw [finish_noMatch_iff hinv.valid, List.eq_nil_iff_forall_not_mem]
    simp only [hinv.mem_viable]

/-- `struct Source { #[facet(flatten)] kind: SourceKind }` where `SourceKind` has the
variants `Http { url }` and `Git { url, branch }`. -/
def sourceShapes : Shapes (Fin 3) := ![
  { ty := .user (.struct ⟨.struct, [{ name := "kind", shape := 1, flatten := true }]⟩)
    «def» := .undefined },
  { ty := .user (.enum ⟨[{ name := "Http", data := ⟨.struct, [{ name := "url", shape := 2 }]⟩ },
      { name := "Git",
        data := ⟨.struct, [{ name := "url", shape := 2 }, { name := "branch", shape := 2 }]⟩ }],
      .u8⟩)
    «def» := .undefined
    typeIdentifier := "SourceKind" },
  { ty := .user .opaqueTy, «def» := .scalar, typeIdentifier := "String" }]

def sourceBuilder : SchemaBuilder (Fin 3) := { shape := 0, enumRepr := .flattened }

/-- Both variants explain `url`, and only `Http` has all its required fields. -/
theorem seeKeys_finish_source : ∃ schema,
    sourceBuilder.intoSchema sourceShapes 10 = .ok schema ∧
    ∀ r, ((Solver.new schema).seeKeys sourceShapes [.flat "url", .flat "extra"]).finish = .ok r ↔
      ∀ i, schema.Accepts [.flat "url", .flat "extra"] i ↔ i = r := by
  have heval : (sourceBuilder.intoSchema sourceShapes 10).toOption.any fun schema =>
      decide (schema.format = .flat ∧
        schema.ContainsAll [.flat "url", .flat "extra"] 0) := by decide
  cases hschema : sourceBuilder.intoSchema sourceShapes 10 with
  | error e => simp [hschema, Except.toOption] at heval
  | ok schema =>
    obtain ⟨hformat, hall⟩ : schema.format = .flat ∧
        schema.ContainsAll [.flat "url", .flat "extra"] 0 := by
      simpa [hschema, Except.toOption] using heval
    exact ⟨schema, rfl, (seeKeys_finish sourceShapes hschema hformat _ ⟨0, hall⟩).2.1⟩

end Solver

end Facet.Flatten
