import Facet.Flatten.Reachable

/-!
# Answers to reported keys

A reported key is looked up twice: the inverted index narrows the candidates, and the
answer is then classified by the fields stored under exactly that key. The two lookups
do not agree on tag and variant-name fields, which are stored as elements in every
format, nor on keys without a name.
-/

namespace Facet.Flatten

open Std

variable {ι : Type} [DecidableEq ι] (shapes : Shapes ι)

omit [DecidableEq ι] in
theorem Resolution.fieldByKey_eq (r : Resolution ι) (key : FieldKey) :
    r.fieldByKey key = r.fields[key]? := by
  unfold fieldByKey
  cases hkey : r.fields[key]? with
  | none =>
    rw [List.findSome?_eq_none_iff]
    rintro ⟨k, v⟩ hmem
    have hk := TreeMap.mem_toList_iff_getElem?_eq_some.mp hmem
    dsimp only
    split_ifs with h
    · subst h; simp [hkey] at hk
    · rfl
  | some info =>
    have hmem := TreeMap.mem_toList_iff_getElem?_eq_some.mpr hkey
    have hsome : (r.fields.toList.findSome? fun e => if e.1 = key then some e.2 else none).isSome :=
      List.findSome?_isSome_iff.mpr ⟨_, hmem, by simp⟩
    obtain ⟨v, hv⟩ := Option.isSome_iff_exists.mp hsome
    obtain ⟨⟨k, v'⟩, hk, hval⟩ := List.exists_of_findSome?_eq_some hv
    dsimp only at hval
    split_ifs at hval with h
    · subst h
      have := TreeMap.mem_toList_iff_getElem?_eq_some.mp hk
      rw [hv, ← hval, ← hkey, this]

/-- The shapes a result offers for the value of the key. -/
def KeyResult.valueShapes : KeyResult ι → List ι
  | .unambiguous shape => [shape]
  | .ambiguous fields => fields.map fun f => f.1.valueShape
  | .solved _ => []
  | .unknown => []

/-- The result says which shapes the value may have. -/
def KeyResult.Typed : KeyResult ι → Prop
  | .unambiguous _ => True
  | .ambiguous _ => True
  | .solved _ => False
  | .unknown => False

def KeyResult.isUnknown : KeyResult ι → Bool
  | .unknown => true
  | _ => false

omit [DecidableEq ι] in
theorem KeyResult.eq_unknown_of_isUnknown {res : KeyResult ι} (h : res.isUnknown = true) :
    res = .unknown := by
  cases res with
  | unknown => rfl
  | unambiguous shape => cases h
  | ambiguous fields => cases h
  | solved idx => cases h

namespace Solver

theorem pushUnique_shapes (fields : List (FieldInfo ι)) (info : FieldInfo ι)
    (h : (fields.map FieldInfo.valueShape).Nodup) :
    ((pushUnique fields info).map FieldInfo.valueShape).Nodup ∧
      ∀ sh, sh ∈ (pushUnique fields info).map FieldInfo.valueShape ↔
        sh ∈ fields.map FieldInfo.valueShape ∨ sh = info.valueShape := by
  unfold pushUnique
  split_ifs with hany
  · refine ⟨h, fun sh => ⟨.inl, ?_⟩⟩
    rintro (hsh | rfl)
    · exact hsh
    · simpa using hany
  · have hnew : info.valueShape ∉ fields.map FieldInfo.valueShape := by simpa using hany
    refine ⟨?_, by simp⟩
    rw [List.map_append, List.nodup_append]
    refine ⟨h, List.nodup_singleton _, fun a ha b hb hab => hnew ?_⟩
    obtain rfl : b = info.valueShape := by simpa using hb
    exact hab ▸ ha

theorem foldl_pushUnique_shapes (infos fields : List (FieldInfo ι))
    (h : (fields.map FieldInfo.valueShape).Nodup) :
    ((infos.foldl pushUnique fields).map FieldInfo.valueShape).Nodup ∧
      ∀ sh, sh ∈ (infos.foldl pushUnique fields).map FieldInfo.valueShape ↔
        sh ∈ fields.map FieldInfo.valueShape ∨ sh ∈ infos.map FieldInfo.valueShape := by
  induction infos generalizing fields with
  | nil => exact ⟨h, by simp⟩
  | cons info infos ih =>
    obtain ⟨hstep, hmem⟩ := pushUnique_shapes fields info h
    obtain ⟨hnodup, hrest⟩ := ih _ hstep
    refine ⟨hnodup, fun sh => ?_⟩
    rw [List.foldl_cons, hrest, hmem, List.map_cons, List.mem_cons, or_assoc]

/-- Some candidate stores a field of shape `sh` under exactly this key. -/
def StoredShape (s : Solver ι) (key : FieldKey) (sh : ι) : Prop :=
  ∃ i ∈ s.candidates, ∃ config, s.schema.resolutions[i]? = some config ∧
    ∃ info, config.fields[key]? = some info ∧ info.valueShape = sh

theorem uniqueFields_shapes (s : Solver ι) (key : FieldKey) :
    ((s.uniqueFields key).map FieldInfo.valueShape).Nodup ∧
      ∀ sh, sh ∈ (s.uniqueFields key).map FieldInfo.valueShape ↔ s.StoredShape key sh := by
  obtain ⟨hnodup, hmem⟩ := foldl_pushUnique_shapes
    (s.configs.filterMap fun config => config.fieldByKey key) [] List.nodup_nil
  refine ⟨hnodup, fun sh => (hmem sh).trans ?_⟩
  simp only [List.map_nil, List.not_mem_nil, false_or, List.mem_map, List.mem_filterMap,
    configs, Resolution.fieldByKey_eq, ResolutionSet.mem_iter, StoredShape]
  constructor
  · rintro ⟨info, ⟨config, ⟨i, hi, hconfig⟩, hinfo⟩, hsh⟩
    exact ⟨i, hi, config, hconfig, info, hinfo, hsh⟩
  · rintro ⟨i, hi, config, hconfig, info, hinfo, hsh⟩
    exact ⟨info, ⟨config, ⟨i, hi, hconfig⟩, hinfo⟩, hsh⟩

theorem classify_of_single {s : Solver ι} {n : ℕ} (hvalid : s.candidates.Valid n)
    (key : FieldKey) {idx : ℕ} (h : ∀ i, i ∈ s.candidates ↔ i = idx) :
    s.classify shapes key = .solved idx := by
  obtain ⟨hlen, hfirst⟩ := (hvalid.len_eq_one_iff idx).mpr h
  simp only [classify, hlen, hfirst]

/-- With several candidates left, the answer is made of the stored shapes. -/
theorem classify_of_many {s : Solver ι} {n : ℕ} (hvalid : s.candidates.Valid n)
    (key : FieldKey) (h : ¬ ∃ idx, ∀ i, i ∈ s.candidates ↔ i = idx) :
    (s.classify shapes key).valueShapes = (s.uniqueFields key).map FieldInfo.valueShape ∧
      ((s.classify shapes key).Typed ↔ s.uniqueFields key ≠ []) ∧
      ∀ idx, s.classify shapes key ≠ .solved idx := by
  unfold classify
  split
  · next idx hlen hfirst =>
    exact absurd ⟨idx, (hvalid.len_eq_one_iff idx).mp ⟨hlen, hfirst⟩⟩ h
  · split <;> simp_all [KeyResult.valueShapes, KeyResult.Typed]

/-- What a deserializer may conclude from an answer `res` to a key reported in the state
`s`, which led to the state `t`. -/
structure KeyAnswer (s : Solver ι) (key : FieldKey) (res : KeyResult ι) (t : Solver ι) :
    Prop where
  unknown_iff : res = .unknown ↔ ∀ i ∈ s.candidates, ¬ s.schema.HasMatch key i
  unchanged : res = .unknown → t.candidates = s.candidates
  narrowed : (∃ i ∈ s.candidates, s.schema.HasMatch key i) →
    ∀ i, i ∈ t.candidates ↔ i ∈ s.candidates ∧ s.schema.HasMatch key i
  solved : (∃ i ∈ s.candidates, s.schema.HasMatch key i) →
    ∀ idx, res = .solved idx ↔ ∀ i, i ∈ t.candidates ↔ i = idx
  typed : (∃ i ∈ s.candidates, s.schema.HasMatch key i) →
    (¬ ∃ idx, ∀ i, i ∈ t.candidates ↔ i = idx) →
    res.Typed ∧ res.valueShapes.Nodup ∧ ∀ sh, sh ∈ res.valueShapes ↔
      ∃ i ∈ t.candidates, ∃ info ∈ s.schema.fieldsOf i,
        s.schema.Matches key info ∧ info.valueShape = sh

/-- A matching candidate has a field of shape `sh` that matches the key. -/
def MatchingShape (s : Solver ι) (key : FieldKey) (sh : ι) : Prop :=
  ∃ i ∈ s.candidates, ∃ info ∈ s.schema.fieldsOf i, s.schema.Matches key info ∧
    info.valueShape = sh

/-- A matching candidate stores a field of shape `sh` under exactly this key. -/
def ExactShape (s : Solver ι) (key : FieldKey) (sh : ι) : Prop :=
  ∃ i ∈ s.candidates, s.schema.HasMatch key i ∧
    ∃ config, s.schema.resolutions[i]? = some config ∧
      ∃ info, config.fields[key]? = some info ∧ info.valueShape = sh

/-- The two lookups of a key agree: the index finds every candidate that matches, and
unless only one does, the fields stored under exactly this key have all the shapes that
matching fields have. -/
def LookupsAgree (s : Solver ι) (key : FieldKey) : Prop :=
  (∀ i ∈ s.candidates, ¬ s.schema.HasMatch key i) ∨
    (∀ i ∈ s.candidates, s.schema.HasMatch key i → s.schema.LookedUp key i) ∧
      ((∃ idx, ∀ i, (i ∈ s.candidates ∧ s.schema.HasMatch key i) ↔ i = idx) ∨
        ∀ sh, s.ExactShape key sh ↔ s.MatchingShape key sh)

section SeeKey

variable {schema : Schema ι} {s : Solver ι}
  (hs : schema = Schema.ofResolutions schema.shape schema.format schema.resolutions)
  (h : WellFormed schema s) (key : FieldKey)
include hs h

theorem seeKeyInternal_of_missed (hmiss : ∀ i ∈ s.candidates, ¬ schema.LookedUp key i) :
    (s.seeKeyInternal shapes key).1 = .unknown ∧
      (s.seeKeyInternal shapes key).2.candidates = s.candidates := by
  have hentry := schema.resolutionsWithKey_isEntry hs key
  unfold seeKeyInternal
  dsimp only
  rw [h.schema_eq]
  rcases hentry with ⟨hnone, _⟩ | ⟨set, hsome, hset, _, hmem⟩
  · simp [hnone]
  · have hmeet : ¬ s.candidates.intersects set := by
      rw [ResolutionSet.intersects_iff h.valid hset]
      rintro ⟨i, hi, hiset⟩
      exact hmiss i hi ((hmem i).mp hiset)
    simp [hsome, hmeet]

theorem seeKeyInternal_of_found (hfound : ∃ i ∈ s.candidates, schema.LookedUp key i) :
    (s.seeKeyInternal shapes key).1 = (s.seeKeyInternal shapes key).2.classify shapes key ∧
      ∀ i, i ∈ (s.seeKeyInternal shapes key).2.candidates ↔
        i ∈ s.candidates ∧ schema.LookedUp key i := by
  obtain ⟨r, hr, hrkey⟩ := hfound
  rcases schema.resolutionsWithKey_isEntry hs key with ⟨_, hno⟩ | ⟨set, hsome, hset, _, hmem⟩
  · exact absurd hrkey (hno r)
  · have hlookup : s.schema.resolutionsWithKey key = some set := h.schema_eq ▸ hsome
    have hmeet : s.candidates.intersects set :=
      (ResolutionSet.intersects_iff h.valid hset).mpr ⟨r, hr, (hmem r).mpr hrkey⟩
    constructor
    · simp [seeKeyInternal, hlookup, hmeet]
    · intro i
      rw [seeKeyInternal_candidates,
        mem_narrowed h.valid hset hlookup hr ((hmem r).mpr hrkey), hmem]

omit [DecidableEq ι] hs h in
theorem lookedUp_hasMatch {i : ℕ} (hi : schema.LookedUp key i) : schema.HasMatch key i := by
  unfold Schema.LookedUp at hi
  cases hformat : schema.format <;> cases key <;> simp only [hformat] at hi
  · exact hi
  · exact hi
  · exact hi
  · split_ifs at hi with hfirst
    · obtain ⟨info, hinfo, hcat, _⟩ := hi
      exact ⟨info, hinfo, by simp [Schema.Matches, hformat, hcat, hfirst]⟩
    · exact hi

end SeeKey

section Narrowed

omit [DecidableEq ι]

variable {s t : Solver ι} {key : FieldKey} (hschema : t.schema = s.schema)
  (hmem : ∀ i, i ∈ t.candidates ↔ i ∈ s.candidates ∧ s.schema.HasMatch key i)
include hmem

include hschema in
theorem storedShape_iff_of_narrowed (sh : ι) : t.StoredShape key sh ↔ s.ExactShape key sh := by
  simp only [StoredShape, ExactShape, hmem, hschema, and_assoc]

theorem matchingShape_iff_of_narrowed (sh : ι) :
    (∃ i ∈ t.candidates, ∃ info ∈ s.schema.fieldsOf i,
      s.schema.Matches key info ∧ info.valueShape = sh) ↔ s.MatchingShape key sh := by
  simp only [MatchingShape, hmem]
  constructor
  · rintro ⟨i, ⟨hi, _⟩, hfield⟩
    exact ⟨i, hi, hfield⟩
  · rintro ⟨i, hi, info, hinfo, hmatch, hsh⟩
    exact ⟨i, ⟨hi, info, hinfo, hmatch⟩, info, hinfo, hmatch, hsh⟩

end Narrowed

section Iff

variable {schema : Schema ι} {s : Solver ι}
  (hs : schema = Schema.ofResolutions schema.shape schema.format schema.resolutions)
  (h : WellFormed schema s) (key : FieldKey)
include hs h

/-- A key that some candidate matches, when the index finds all candidates that do. -/
theorem keyAnswer_iff_of_found (hmatch : ∃ i ∈ s.candidates, s.schema.HasMatch key i)
    (hfound : ∀ i ∈ s.candidates, s.schema.HasMatch key i → s.schema.LookedUp key i) :
    KeyAnswer s key (s.seeKeyInternal shapes key).1 (s.seeKeyInternal shapes key).2 ↔
      (∃ idx, ∀ i, (i ∈ s.candidates ∧ s.schema.HasMatch key i) ↔ i = idx) ∨
        ∀ sh, s.ExactShape key sh ↔ s.MatchingShape key sh := by
  obtain ⟨r, hr, hrmatch⟩ := hmatch
  have hsch := h.schema_eq
  obtain ⟨hres, hlooked⟩ := seeKeyInternal_of_found shapes hs h key
    ⟨r, hr, hsch ▸ hfound r hr hrmatch⟩
  have hwf := h.seeKey shapes hs key
  rw [hres]
  generalize (s.seeKeyInternal shapes key).2 = t at hlooked hwf
  have hmem : ∀ i, i ∈ t.candidates ↔ i ∈ s.candidates ∧ s.schema.HasMatch key i := fun i => by
    rw [hlooked, ← hsch]
    exact and_congr_right fun hi => ⟨lookedUp_hasMatch key, hfound i hi⟩
  have hschema : t.schema = s.schema := hwf.schema_eq.trans hsch.symm
  have hsome : ∃ i ∈ s.candidates, s.schema.HasMatch key i := ⟨r, hr, hrmatch⟩
  have hnot : ¬ ∀ i ∈ s.candidates, ¬ s.schema.HasMatch key i := fun hno => hno r hr hrmatch
  by_cases hsingle : ∃ idx, ∀ i, i ∈ t.candidates ↔ i = idx
  · obtain ⟨idx, hidx⟩ := hsingle
    have hclass : t.classify shapes key = .solved idx :=
      classify_of_single shapes hwf.valid key hidx
    refine iff_of_true ?_ (.inl ⟨idx, fun i => (hmem i).symm.trans (hidx i)⟩)
    rw [hclass]
    refine ⟨by simp [hnot], by simp, fun _ => hmem, fun _ idx' => ?_, fun _ hns => ?_⟩
    · constructor
      · rintro ⟨rfl⟩
        exact hidx
      · intro hidx'
        rw [(hidx' idx).mp ((hidx idx).mpr rfl)]
    · exact absurd ⟨idx, hidx⟩ hns
  · obtain ⟨hshapes, htyped, hunsolved⟩ := classify_of_many shapes hwf.valid key hsingle
    obtain ⟨hnodup, hstored⟩ := t.uniqueFields_shapes key
    have hnotsingle : ¬ ∃ idx, ∀ i, (i ∈ s.candidates ∧ s.schema.HasMatch key i) ↔ i = idx :=
      fun ⟨idx, hidx⟩ => hsingle ⟨idx, fun i => (hmem i).trans (hidx i)⟩
    rw [or_iff_right hnotsingle]
    constructor
    · intro hans sh
      rw [← storedShape_iff_of_narrowed hschema hmem, ← hstored, ← hshapes,
        (hans.typed hsome hsingle).2.2, matchingShape_iff_of_narrowed hmem]
    · intro hagree
      have hall : ∀ sh, sh ∈ (t.classify shapes key).valueShapes ↔ s.MatchingShape key sh :=
        fun sh => by rw [hshapes, hstored, storedShape_iff_of_narrowed hschema hmem, hagree]
      have hne : (t.classify shapes key).Typed := by
        obtain ⟨info, hinfo, himatch⟩ := hrmatch
        have hsh := (hall info.valueShape).mpr ⟨r, hr, info, hinfo, himatch, rfl⟩
        rw [htyped]
        intro hnil
        simp [hshapes, hnil] at hsh
      have hknown : t.classify shapes key ≠ .unknown := fun hu => by simp [hu, KeyResult.Typed] at hne
      refine ⟨by simp [hknown, hnot], fun hu => absurd hu hknown, fun _ => hmem, fun _ idx => ?_,
        fun _ _ => ⟨hne, hshapes ▸ hnodup, fun sh => ?_⟩⟩
      · exact iff_of_false (hunsolved idx) fun hidx => hsingle ⟨idx, hidx⟩
      · rw [hall, matchingShape_iff_of_narrowed hmem]

/-- A key is answered as its name promises exactly when the two lookups agree on it. -/
theorem keyAnswer_iff_of_wellFormed :
    KeyAnswer s key (s.seeKeyInternal shapes key).1 (s.seeKeyInternal shapes key).2 ↔
      s.LookupsAgree key := by
  have hsch := h.schema_eq
  by_cases hmatch : ∃ i ∈ s.candidates, s.schema.HasMatch key i
  · have hnot : ¬ ∀ i ∈ s.candidates, ¬ s.schema.HasMatch key i := by
      simpa using hmatch
    rw [LookupsAgree, or_iff_right hnot]
    by_cases hfound : ∀ i ∈ s.candidates, s.schema.HasMatch key i → s.schema.LookedUp key i
    · rw [and_iff_right hfound]
      exact keyAnswer_iff_of_found shapes hs h key hmatch hfound
    · refine iff_of_false (fun hans => hfound fun i hi himatch => ?_) (fun hc => hfound hc.1)
      by_cases hlooked : ∃ j ∈ s.candidates, schema.LookedUp key j
      · have hmem := (seeKeyInternal_of_found shapes hs h key hlooked).2 i
        rw [hsch]
        exact (hmem.mp ((hans.narrowed hmatch i).mpr ⟨hi, himatch⟩)).2
      · push Not at hlooked
        have hunknown := (seeKeyInternal_of_missed shapes hs h key hlooked).1
        exact absurd himatch (hans.unknown_iff.mp hunknown i hi)
  · push Not at hmatch
    have hmiss : ∀ i ∈ s.candidates, ¬ schema.LookedUp key i := fun i hi hlooked =>
      hmatch i hi (hsch ▸ lookedUp_hasMatch key hlooked)
    obtain ⟨hunknown, hsame⟩ := seeKeyInternal_of_missed shapes hs h key hmiss
    refine iff_of_true ?_ (.inl hmatch)
    exact ⟨iff_of_true hunknown hmatch, fun _ => hsame,
      fun ⟨i, hi, hm⟩ => absurd hm (hmatch i hi), fun ⟨i, hi, hm⟩ => absurd hm (hmatch i hi),
      fun ⟨i, hi, hm⟩ => absurd hm (hmatch i hi)⟩

end Iff

/-- In every state a solver can reach, a key is answered as its name promises exactly
when the two lookups of the key agree. -/
theorem keyAnswer_iff {n : ℕ} {b : SchemaBuilder ι} {schema : Schema ι}
    (hschema : b.intoSchema shapes n = .ok schema) {s : Solver ι}
    (hreach : Reachable shapes schema s) (key : FieldKey) :
    KeyAnswer s key (s.seeKeyInternal shapes key).1 (s.seeKeyInternal shapes key).2 ↔
      s.LookupsAgree key :=
  have hs := SchemaBuilder.intoSchema_eq shapes n hschema
  keyAnswer_iff_of_wellFormed shapes hs (hreach.wellFormed shapes hs) key

inductive EventType
  | event
  | body
  | u32
  deriving DecidableEq

/-- `struct Event { #[facet(flatten)] body: Body }` where `Body` is tagged by `type` and
has the variants `Click { x }` and `Key { code }`. -/
def eventShapes : Shapes EventType
  | .event =>
    { ty := .user (.struct ⟨.struct, [{ name := "body", shape := .body, flatten := true }]⟩)
      «def» := .undefined }
  | .body =>
    { ty := .user (.enum ⟨[{ name := "Click", data := ⟨.struct, [{ name := "x", shape := .u32 }]⟩ },
        { name := "Key", data := ⟨.struct, [{ name := "code", shape := .u32 }]⟩ }],
        .u8⟩)
      «def» := .undefined
      typeIdentifier := "Body"
      tag := some "type" }
  | .u32 => { ty := .primitive .numeric, «def» := .scalar, typeIdentifier := "u32" }

/-- Both variants have the tag, but the first tag reported is answered `Unknown`. -/
theorem seeKey_tag_not_keyAnswer : ∃ schema,
    Schema.buildAuto eventShapes 10 .event = .ok schema ∧
    ¬ KeyAnswer (Solver.new schema) (.flat "type")
      ((Solver.new schema).seeKey eventShapes "type").1
      ((Solver.new schema).seeKey eventShapes "type").2 := by
  have heval : (Schema.buildAuto eventShapes 10 .event).toOption.any fun schema =>
      decide (((Solver.new schema).seeKey eventShapes "type").1.isUnknown ∧
        0 ∈ (Solver.new schema).candidates ∧ schema.HasMatch (.flat "type") 0) := by decide
  cases hschema : Schema.buildAuto eventShapes 10 .event with
  | error e => simp [hschema, Except.toOption] at heval
  | ok schema =>
    obtain ⟨hunknown, hcand, hmatch⟩ : ((Solver.new schema).seeKey eventShapes "type").1.isUnknown ∧
        0 ∈ (Solver.new schema).candidates ∧ schema.HasMatch (.flat "type") 0 := by
      simpa [hschema, Except.toOption] using heval
    have hres := KeyResult.eq_unknown_of_isUnknown hunknown
    exact ⟨schema, rfl, fun hans => hans.unknown_iff.mp hres 0 hcand hmatch⟩

/-- A field key of the same type is answered as promised. -/
theorem keyAnswer_iff_event : ∃ schema,
    Schema.buildAuto eventShapes 10 .event = .ok schema ∧
    (KeyAnswer (Solver.new schema) (.flat "x")
      ((Solver.new schema).seeKey eventShapes "x").1
      ((Solver.new schema).seeKey eventShapes "x").2 ↔
        (Solver.new schema).LookupsAgree (.flat "x")) := by
  have heval : (Schema.buildAuto eventShapes 10 .event).toOption.isSome := by decide
  cases hschema : Schema.buildAuto eventShapes 10 .event with
  | error e => simp [hschema, Except.toOption] at heval
  | ok schema =>
    exact ⟨schema, rfl, keyAnswer_iff eventShapes hschema .new (.flat "x")⟩

end Solver

end Facet.Flatten
