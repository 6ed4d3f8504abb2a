import Facet.Flatten.ProbeAnswers
import Facet.Flatten.TypedAnalysis

/-!
# Probing nested keys

A key path is known from the analysis, which follows flattened fields and the contents of variants,
but the shape at the path is looked up by a walk that only enters the structs of the fields it
meets. Probing is exact where the walk leads to every type the path has.
-/

namespace Facet.Flatten

variable {ι : Type}

section Straight

variable (shapes : Shapes ι)

/-- Each key is the name of a field of a struct, and no field before it has that name. -/
inductive Straight : ι → KeyPath → ι → Prop
  | done {s : ι} : Straight s [] s
  | field {s t : ι} {st : StructType ι} {f : Field ι} {key : String} {keys : KeyPath} :
      (shapes s).ty = .user (.struct st) →
      st.fields.find? (fun f => f.effectiveName == key) = some f →
      Straight f.shape keys t → Straight s (key :: keys) t

/-- From the type of the resolution's field for the first key, the other keys lead straight to
`t`: not into a flattened field, the contents of a variant or a wrapper. -/
def StraightIn (config : Resolution ι) : KeyPath → ι → Prop
  | [], _ => False
  | top :: rest, t => ∃ info, config.fieldByName top = some info ∧
      Straight shapes info.valueShape rest t

variable {shapes}

theorem straight_iff {s t : ι} {keys : KeyPath} : Straight shapes s keys t ↔
    keys.foldlM (fun shape key => Solver.getFieldShape shapes shape key) s = some t := by
  induction keys generalizing s with
  | nil =>
    constructor
    · rintro ⟨⟩
      rfl
    · rintro ⟨⟩
      exact .done
  | cons key keys ih =>
    rw [List.foldlM_cons, Option.bind_eq_bind, Option.bind_eq_some_iff]
    constructor
    · rintro (_ | ⟨hty, hfind, h⟩)
      refine ⟨_, ?_, ih.mp h⟩
      simp only [Solver.getFieldShape, hty, hfind, Option.map_some]
    · rintro ⟨u, hu, h⟩
      unfold Solver.getFieldShape at hu
      split at hu
      · next st hty =>
        obtain ⟨f, hf, rfl⟩ := Option.map_eq_some_iff.mp hu
        exact .field hty hf (ih.mpr h)
      · cases hu

theorem straightIn_iff {config : Resolution ι} {keys : KeyPath} {t : ι} :
    StraightIn shapes config keys t ↔ Solver.getShapeAtPath shapes config keys = some t := by
  cases keys with
  | nil => exact ⟨False.elim, fun h => by cases h⟩
  | cons top rest =>
    rw [Solver.getShapeAtPath, Option.bind_eq_bind, Option.bind_eq_some_iff]
    simp only [StraightIn, straight_iff]

end Straight

namespace Solver

variable [DecidableEq ι] (shapes : Shapes ι)

/-- The shapes at a path are those found with a candidate each. -/
theorem getShapesAtPath_eq (s : Solver ι) (path : KeyPath) :
    s.getShapesAtPath shapes path = (s.foundAtPath shapes path).map Prod.fst := by
  have hentries : s.configs.filterMap (fun config => getShapeAtPath shapes config path) =
      (s.configs.filterMap fun config =>
        (getShapeAtPath shapes config path).map (·, config)).map Prod.fst := by
    rw [List.map_filterMap]
    congr 1
    funext config
    rw [Option.map_map, show Prod.fst ∘ (fun sh : ι => (sh, config)) = id from rfl, Option.map_id]
    rfl
  have hloop (entries found : List (ι × Resolution ι)) :
      (entries.map Prod.fst).foldl
        (fun found shape => if shape ∈ found then found else found ++ [shape])
        (found.map Prod.fst) = (entries.foldl pushUniqueShape found).map Prod.fst := by
    induction entries generalizing found with
    | nil => rfl
    | cons e entries ih =>
      rw [List.map_cons, List.foldl_cons, List.foldl_cons, ← ih]
      congr 1
      have hany : (found.any fun x => decide (x.1 = e.1)) = true ↔ e.1 ∈ found.map Prod.fst := by
        simp only [List.any_eq_true, decide_eq_true_eq, List.mem_map]
      unfold pushUniqueShape
      by_cases hmem : e.1 ∈ found.map Prod.fst
      · rw [if_pos hmem, if_pos (hany.mpr hmem)]
      · rw [if_neg hmem, if_neg fun h => hmem (hany.mp h), List.map_append, List.map_singleton]
  rw [getShapesAtPath, foundAtPath, hentries]
  exact hloop _ []

theorem mem_getShapesAtPath (s : Solver ι) (path : KeyPath) (sh : ι) :
    sh ∈ s.getShapesAtPath shapes path ↔ s.ShapeAtPath shapes path sh := by
  rw [getShapesAtPath_eq, mem_foundAtPath]

theorem mem_satisfyAtPath (s : Solver ι) (path : KeyPath) (satisfied : List ι) (i : ℕ) :
    i ∈ (s.satisfyAtPath shapes path satisfied).2.candidates ↔ i ∈ s.candidates ∧
      ∃ config, s.schema.resolutions[i]? = some config ∧
        ∃ sh ∈ satisfied, getShapeAtPath shapes config path = some sh := by
  unfold satisfyAtPath
  split_ifs with hnil
  · have hempty := ResolutionSet.notMem_empty s.schema.resolutions.length i
    simp only [hnil, List.not_mem_nil, false_and, exists_false, and_false, iff_false]
    exact hempty
  · dsimp only
    rw [mem_filterCandidates]
    refine and_congr_right fun _ => exists_congr fun config => and_congr_right fun _ => ?_
    cases hshape : getShapeAtPath shapes config path with
    | none => simp [hshape]
    | some sh => simp [hshape]

/-- Resolution `i` has a field of this type at the path. -/
def TypeAt (s : Solver ι) (b : SchemaBuilder ι) (path : KeyPath) (sh : ι) (i : ℕ) : Prop :=
  ∃ config, s.schema.resolutions[i]? = some config ∧
    TypedIn shapes b config.variantSelections path sh

/-- Probing a key path leaves the candidates that know it, finds exactly the types the path has in
them, answers by their number unless one candidate is left, and lets them be told apart by the
type. -/
structure NestedProbeExact (s : Solver ι) (b : SchemaBuilder ι) (path : KeyPath) (key : String) :
    Prop where
  candidates : ∀ i, i ∈ (s.probeKey shapes path key).2.candidates ↔
    i ∈ s.candidates ∧ s.schema.Knows (path ++ [key]) i
  unknown : (s.probeKey shapes path key).1 = .unknown →
    ∀ i, i ∉ (s.probeKey shapes path key).2.candidates
  types : ∀ sh, sh ∈ (s.probeKey shapes path key).2.getShapesAtPath shapes (path ++ [key]) ↔
    ∃ i ∈ (s.probeKey shapes path key).2.candidates, s.TypeAt shapes b (path ++ [key]) sh i
  unambiguous : (¬ ∃ idx, ∀ i, i ∈ (s.probeKey shapes path key).2.candidates ↔ i = idx) →
    ∀ sh, (s.probeKey shapes path key).1 = .unambiguous sh ↔
      (s.probeKey shapes path key).2.getShapesAtPath shapes (path ++ [key]) = [sh]
  ambiguous : (¬ ∃ idx, ∀ i, i ∈ (s.probeKey shapes path key).2.candidates ↔ i = idx) →
    ∀ scores, (∃ fields, (s.probeKey shapes path key).1 = .ambiguous fields ∧
        fields.map Prod.snd = scores) ↔
      2 ≤ scores.length ∧ ((s.probeKey shapes path key).2.getShapesAtPath shapes
        (path ++ [key])).map (fun sh => specificityScore (shapes sh)) = scores
  satisfied : ∀ shs i, i ∈ ((s.probeKey shapes path key).2.satisfyAtPath shapes (path ++ [key])
      shs).2.candidates ↔
    i ∈ (s.probeKey shapes path key).2.candidates ∧
      ∃ sh ∈ shs, s.TypeAt shapes b (path ++ [key]) sh i

omit [DecidableEq ι] in
theorem answerFound_eq_unknown {top : String} {found : List (ι × Resolution ι)}
    (h : answerFound shapes top found = .unknown) : found = [] := by
  rcases found with _ | ⟨e, _ | ⟨e', found⟩⟩
  · rfl
  · cases h
  · cases h

omit [DecidableEq ι] in
theorem answerFound_eq_unambiguous_iff {top : String} {found : List (ι × Resolution ι)} {sh : ι} :
    answerFound shapes top found = .unambiguous sh ↔ found.map Prod.fst = [sh] := by
  rcases found with _ | ⟨e, _ | ⟨e', found⟩⟩
  · simp [answerFound]
  · simp [answerFound]
  · simp [answerFound]

omit [DecidableEq ι] in
/-- An entry for every shape that was found, if every candidate there has the first key. -/
theorem answerFound_ambiguous_iff {top : String} {found : List (ι × Resolution ι)}
    (htop : ∀ e ∈ found, (e.2.fieldByName top).isSome) (scores : List ℕ) :
    (∃ fields, answerFound shapes top found = .ambiguous fields ∧ fields.map Prod.snd = scores) ↔
      2 ≤ scores.length ∧
        (found.map Prod.fst).map (fun sh => specificityScore (shapes sh)) = scores := by
  have hscores : (found.filterMap fun e => (e.2.fieldByName top).map
      (·, specificityScore (shapes e.1))).map Prod.snd =
        (found.map Prod.fst).map fun sh => specificityScore (shapes sh) := by
    induction found with
    | nil => rfl
    | cons e found ih =>
      obtain ⟨info, hinfo⟩ := Option.isSome_iff_exists.mp (htop e List.mem_cons_self)
      rw [List.filterMap_cons, hinfo]
      simp only [Option.map_some, List.map_cons]
      rw [ih fun e' he' => htop e' (List.mem_cons_of_mem e he')]
  rcases found with _ | ⟨e, _ | ⟨e', found⟩⟩
  · simp only [answerFound, reduceCtorEq, false_and, exists_false, List.map_nil, false_iff, not_and]
    rintro hlen rfl
    simp at hlen
  · simp only [answerFound, reduceCtorEq, false_and, exists_false, List.map_cons, List.map_nil,
      false_iff, not_and]
    rintro hlen rfl
    simp at hlen
  · constructor
    · rintro ⟨fields, hfields, rfl⟩
      cases hfields
      rw [← hscores]
      refine ⟨?_, rfl⟩
      rw [hscores]
      simp
    · rintro ⟨-, rfl⟩
      exact ⟨_, rfl, hscores⟩

section Exact

variable {schema : Schema ι} {s : Solver ι} {b : SchemaBuilder ι} (h : WellFormed schema s)
  (path : KeyPath) (key : String)
include h

/-- Unless one candidate is left, the answer is made of the shapes found. -/
theorem probeKey_of_not_single
    (hmany : ¬ ∃ idx, ∀ i, i ∈ (s.probeKey shapes path key).2.candidates ↔ i = idx) :
    (s.probeKey shapes path key).1 = answerFound shapes (path.head?.getD key)
      ((s.probeKey shapes path key).2.foundAtPath shapes (path ++ [key])) := by
  have hvalid := (h.probeKey shapes path key).valid
  by_cases hsome : ∃ i, i ∈ (s.probeKey shapes path key).2.candidates
  · exact probeKey_of_many shapes rfl hvalid hsome hmany
  · push Not at hsome
    have hempty : (s.probeKey shapes path key).2.foundAtPath shapes (path ++ [key]) = [] := by
      apply List.map_eq_nil_iff.mp
      apply List.eq_nil_iff_forall_not_mem.mpr
      intro sh hsh
      obtain ⟨i, hi, -⟩ := (mem_foundAtPath shapes _ _ sh).mp hsh
      exact hsome i hi
    rw [probeKey_of_none shapes rfl hvalid hsome, hempty]
    rfl

omit h in
/-- A candidate that was found at a path has a field for the first key. -/
theorem fieldByName_isSome_of_found {t : Solver ι} {e : ι × Resolution ι}
    (he : e ∈ t.foundAtPath shapes (path ++ [key])) :
    (e.2.fieldByName (path.head?.getD key)).isSome := by
  have hshape := straightIn_iff.mpr (getShapeAtPath_of_found shapes he)
  cases path with
  | nil =>
    obtain ⟨info, hinfo, -⟩ := hshape
    exact Option.isSome_iff_exists.mpr ⟨info, hinfo⟩
  | cons top rest =>
    obtain ⟨info, hinfo, -⟩ := hshape
    exact Option.isSome_iff_exists.mpr ⟨info, hinfo⟩

theorem nestedProbe_iff_of_wellFormed (htyped : ∀ config ∈ s.schema.resolutions, ∀ keys,
      config.hasKeyPath keys → ∃ t, TypedIn shapes b config.variantSelections keys t) :
    NestedProbeExact shapes s b path key ↔
      ∀ i ∈ s.candidates, ∀ config, s.schema.resolutions[i]? = some config →
        config.hasKeyPath (path ++ [key]) →
          ∀ sh, TypedIn shapes b config.variantSelections (path ++ [key]) sh →
            StraightIn shapes config (path ++ [key]) sh := by
  have hschema : (s.probeKey shapes path key).2.schema = s.schema := by rw [probeKey_snd]
  have hmem := mem_probeKey shapes s path key
  constructor
  · intro hexact i hi config hconfig hknown sh hsh
    have hleft := (hmem i).mpr ⟨hi, config, hconfig, hknown⟩
    have hkept := (hexact.satisfied [sh] i).mpr
      ⟨hleft, sh, List.mem_singleton_self sh, config, hconfig, hsh⟩
    obtain ⟨-, config', hconfig', sh', hsh', hlookup⟩ := (mem_satisfyAtPath shapes _ _ _ i).mp hkept
    rw [hschema, hconfig] at hconfig'
    cases hconfig'
    rw [List.mem_singleton.mp hsh'] at hlookup
    exact straightIn_iff.mpr hlookup
  · intro hstraight
    have hagree : ∀ i ∈ (s.probeKey shapes path key).2.candidates, ∀ sh,
        s.TypeAt shapes b (path ++ [key]) sh i ↔ ∃ config, s.schema.resolutions[i]? = some config ∧
          getShapeAtPath shapes config (path ++ [key]) = some sh := by
      intro i hi sh
      obtain ⟨hold, config₀, hconfig₀, hknown⟩ := (hmem i).mp hi
      constructor
      · rintro ⟨config, hconfig, hsh⟩
        rw [hconfig₀] at hconfig
        cases hconfig
        exact ⟨config₀, hconfig₀,
          straightIn_iff.mp (hstraight i hold config₀ hconfig₀ hknown sh hsh)⟩
      · rintro ⟨config, hconfig, hlookup⟩
        rw [hconfig₀] at hconfig
        cases hconfig
        obtain ⟨t, ht⟩ := htyped config₀ (List.mem_of_getElem? hconfig₀) _ hknown
        have hlookup' := straightIn_iff.mp (hstraight i hold config₀ hconfig₀ hknown t ht)
        rw [hlookup] at hlookup'
        exact ⟨config₀, hconfig₀, Option.some.inj hlookup' ▸ ht⟩
    have htypes : ∀ sh, sh ∈ (s.probeKey shapes path key).2.getShapesAtPath shapes (path ++ [key]) ↔
        ∃ i ∈ (s.probeKey shapes path key).2.candidates,
          s.TypeAt shapes b (path ++ [key]) sh i := by
      intro sh
      rw [mem_getShapesAtPath, ShapeAtPath, hschema]
      exact exists_congr fun i => and_congr_right fun hi => (hagree i hi sh).symm
    refine ⟨hmem, ?_, htypes, ?_, ?_, ?_⟩
    · intro hunknown i hi
      by_cases hsingle : ∃ idx, ∀ i, i ∈ (s.probeKey shapes path key).2.candidates ↔ i = idx
      · obtain ⟨idx, hidx⟩ := hsingle
        rw [probeKey_of_single shapes rfl (h.probeKey shapes path key).valid hidx] at hunknown
        cases hunknown
      · rw [probeKey_of_not_single shapes h path key hsingle] at hunknown
        obtain ⟨-, config, hconfig, hknown⟩ := (hmem i).mp hi
        obtain ⟨t, ht⟩ := htyped config (List.mem_of_getElem? hconfig) _ hknown
        have hfound := (htypes t).mpr ⟨i, hi, config, hconfig, ht⟩
        rw [getShapesAtPath_eq, answerFound_eq_unknown shapes hunknown] at hfound
        exact absurd hfound List.not_mem_nil
    · intro hmany sh
      rw [probeKey_of_not_single shapes h path key hmany, answerFound_eq_unambiguous_iff,
        getShapesAtPath_eq]
    · intro hmany scores
      rw [probeKey_of_not_single shapes h path key hmany, getShapesAtPath_eq]
      exact answerFound_ambiguous_iff shapes
        (fun e he => fieldByName_isSome_of_found shapes path key he) scores
    · intro shs i
      rw [mem_satisfyAtPath, hschema]
      refine and_congr_right fun hi => ?_
      constructor
      · rintro ⟨config, hconfig, sh, hsh, hlookup⟩
        exact ⟨sh, hsh, (hagree i hi sh).mpr ⟨config, hconfig, hlookup⟩⟩
      · rintro ⟨sh, hsh, htype⟩
        obtain ⟨config, hconfig, hlookup⟩ := (hagree i hi sh).mp htype
        exact ⟨config, hconfig, sh, hsh, hlookup⟩

end Exact

/-- In every state a solver can reach, probing a nested key is exact if and only if, in every
candidate that knows the path, the keys lead straight to every type the path has. -/
theorem nestedProbe_iff {n : ℕ} {b : SchemaBuilder ι} {schema : Schema ι}
    (hschema : b.intoSchema shapes n = .ok schema) {s : Solver ι}
    (hreach : Reachable shapes schema s) (path : KeyPath) (key : String) :
    NestedProbeExact shapes s b path key ↔
      ∀ i ∈ s.candidates, ∀ config, s.schema.resolutions[i]? = some config →
        config.hasKeyPath (path ++ [key]) →
          ∀ sh, TypedIn shapes b config.variantSelections (path ++ [key]) sh →
            StraightIn shapes config (path ++ [key]) sh := by
  have hs := SchemaBuilder.intoSchema_eq shapes n hschema
  have h := hreach.wellFormed shapes hs
  apply nestedProbe_iff_of_wellFormed shapes h
  rw [h.schema_eq]
  exact analyze_typed (SchemaBuilder.analyze_of_intoSchema shapes n hschema)

inductive ContainerType
  | container
  | payloadKind
  | smallPayload
  | largePayload
  | smallSize
  | largeSize
  | u8
  | u16
  deriving DecidableEq

/-- `struct Container { #[facet(flatten)] inner: PayloadKind }`, where `PayloadKind` has the
variants `Small { payload: SmallPayload }` and `Large { payload: LargePayload }`, and both payloads
have a flattened field `size`: a struct with the field `value`, of type `u8` or `u16`. -/
def containerShapes : Shapes ContainerType
  | .container =>
    { ty := .user (.struct ⟨.struct, [{ name := "inner", shape := .payloadKind, flatten := true }]⟩)
      «def» := .undefined }
  | .payloadKind =>
    { ty := .user (.enum ⟨[{ name := "Small", data := ⟨.struct,
          [{ name := "payload", shape := .smallPayload }]⟩ },
        { name := "Large", data := ⟨.struct, [{ name := "payload", shape := .largePayload }]⟩ }],
        .u8⟩)
      «def» := .undefined
      typeIdentifier := "PayloadKind" }
  | .smallPayload =>
    { ty := .user (.struct ⟨.struct, [{ name := "size", shape := .smallSize, flatten := true }]⟩)
      «def» := .undefined }
  | .largePayload =>
    { ty := .user (.struct ⟨.struct, [{ name := "size", shape := .largeSize, flatten := true }]⟩)
      «def» := .undefined }
  | .smallSize =>
    { ty := .user (.struct ⟨.struct, [{ name := "value", shape := .u8 }]⟩), «def» := .undefined }
  | .largeSize =>
    { ty := .user (.struct ⟨.struct, [{ name := "value", shape := .u16 }]⟩), «def» := .undefined }
  | .u8 => { ty := .primitive .numeric, «def» := .scalar, typeIdentifier := "u8" }
  | .u16 => { ty := .primitive .numeric, «def» := .scalar, typeIdentifier := "u16" }

def containerBuilder : SchemaBuilder ContainerType where
  shape := .container
  enumRepr := .flattened

theorem nestedProbe_iff_container : ∃ schema,
    containerBuilder.intoSchema containerShapes 10 = .ok schema ∧
    (NestedProbeExact containerShapes (Solver.new schema) containerBuilder ["payload"]
        "value" ↔
      ∀ i ∈ (Solver.new schema).candidates, ∀ config,
        (Solver.new schema).schema.resolutions[i]? = some config →
          config.hasKeyPath (["payload"] ++ ["value"]) →
            ∀ sh, TypedIn containerShapes containerBuilder config.variantSelections
              (["payload"] ++ ["value"]) sh →
                StraightIn containerShapes config (["payload"] ++ ["value"]) sh) := by
  have heval : (containerBuilder.intoSchema containerShapes 10).toOption.isSome := by decide
  cases hschema : containerBuilder.intoSchema containerShapes 10 with
  | error e => simp [hschema, Except.toOption] at heval
  | ok schema =>
    exact ⟨schema, rfl, nestedProbe_iff containerShapes hschema .new ["payload"] "value"⟩

/-- Both variants have `payload.value`, of different types, but the key is answered `Unknown`. -/
theorem container_not_nestedProbeExact : ∃ schema,
    containerBuilder.intoSchema containerShapes 10 = .ok schema ∧
    ¬ NestedProbeExact containerShapes (Solver.new schema) containerBuilder ["payload"]
      "value" := by
  have heval : (containerBuilder.intoSchema containerShapes 10).toOption.any fun schema => decide
      (((Solver.new schema).probeKey containerShapes ["payload"] "value").1.isUnknown ∧
        0 ∈ ((Solver.new schema).probeKey containerShapes ["payload"]
          "value").2.candidates) := by decide
  obtain ⟨schema, hschema, heval⟩ := ExceptList.exists_of_any heval
  obtain ⟨hunknown, hleft⟩ := of_decide_eq_true heval
  refine ⟨schema, hschema, fun hexact => hexact.unknown ?_ 0 hleft⟩
  revert hunknown
  cases ((Solver.new schema).probeKey containerShapes ["payload"] "value").1 with
  | unknown => exact fun _ => rfl
  | unambiguous sh => exact fun h => by cases h
  | ambiguous fields => exact fun h => by cases h
  | solved idx => exact fun h => by cases h

end Solver

end Facet.Flatten
