import Facet.Flatten.KeyAnswers
import Facet.Lib.ExceptList

/-!
# Answers to probed keys

A probed key is looked up among the known paths, and its answer is made of the shapes that a walk
from the field of its first key finds. At the root this differs from reporting the key: another
table is consulted, a key nobody has drops every candidate, and the key is not recorded.
-/

namespace Facet.Flatten

open Std

variable {ι : Type} [DecidableEq ι] (shapes : Shapes ι)

/-- Resolution `i` has the key path among the known ones. -/
def Schema.Knows (schema : Schema ι) (path : KeyPath) (i : ℕ) : Prop :=
  ∃ config, schema.resolutions[i]? = some config ∧ config.hasKeyPath path = true

namespace Solver

/-- The loop that collects the shapes at a path, each with the first candidate that has it. -/
def foundAtPath (s : Solver ι) (path : KeyPath) : List (ι × Resolution ι) :=
  (s.configs.filterMap fun config =>
    (getShapeAtPath shapes config path).map (·, config)).foldl pushUniqueShape []

/-- What the loop has collected: every shape once, each with a candidate that has it. -/
structure Collects (entries found : List (ι × Resolution ι)) : Prop where
  nodup : (found.map Prod.fst).Nodup
  subset : found ⊆ entries
  complete : ∀ sh ∈ entries.map Prod.fst, sh ∈ found.map Prod.fst

omit [DecidableEq ι] in
theorem Collects.mem_iff {entries found : List (ι × Resolution ι)} (h : Collects entries found)
    (sh : ι) : sh ∈ found.map Prod.fst ↔ sh ∈ entries.map Prod.fst :=
  ⟨fun hsh => List.map_subset _ h.subset hsh, h.complete sh⟩

theorem Collects.push {entries found : List (ι × Resolution ι)} (h : Collects entries found)
    (e : ι × Resolution ι) : Collects (entries ++ [e]) (pushUniqueShape found e) := by
  unfold pushUniqueShape
  split_ifs with hany
  · refine ⟨h.nodup, fun x hx => List.mem_append_left _ (h.subset hx), fun sh hsh => ?_⟩
    rw [List.map_append, List.mem_append] at hsh
    rcases hsh with hsh | hsh
    · exact h.complete sh hsh
    · rw [List.map_singleton, List.mem_singleton] at hsh
      obtain ⟨x, hx, hfst⟩ := List.any_eq_true.mp hany
      rw [hsh, ← of_decide_eq_true hfst]
      exact List.mem_map_of_mem hx
  · have hnew : e.1 ∉ found.map Prod.fst := by
      intro hmem
      obtain ⟨x, hx, hfst⟩ := List.mem_map.mp hmem
      exact hany (List.any_eq_true.mpr ⟨x, hx, decide_eq_true hfst⟩)
    refine ⟨?_, ?_, fun sh hsh => ?_⟩
    · rw [List.map_append, List.map_singleton, List.nodup_append]
      refine ⟨h.nodup, List.nodup_singleton _, fun a ha b hb hab => hnew ?_⟩
      rw [List.mem_singleton.mp hb] at hab
      exact hab ▸ ha
    · intro x hx
      rcases List.mem_append.mp hx with hx | hx
      · exact List.mem_append_left _ (h.subset hx)
      · exact List.mem_append_right _ hx
    · rw [List.map_append, List.mem_append] at hsh ⊢
      exact hsh.imp_left (h.complete sh)

theorem collects_foldl (entries : List (ι × Resolution ι)) :
    Collects entries (entries.foldl pushUniqueShape []) := by
  induction entries using List.reverseRecOn with
  | nil => exact ⟨List.nodup_nil, List.Subset.refl _, fun _ h => h⟩
  | append_singleton entries e ih =>
    rw [List.foldl_concat]
    exact ih.push e

/-- Some candidate has a field of this shape at the path. -/
def ShapeAtPath (s : Solver ι) (path : KeyPath) (sh : ι) : Prop :=
  ∃ i ∈ s.candidates, ∃ config, s.schema.resolutions[i]? = some config ∧
    getShapeAtPath shapes config path = some sh

omit [DecidableEq ι] in
theorem mem_configs (s : Solver ι) (config : Resolution ι) :
    config ∈ s.configs ↔ ∃ i ∈ s.candidates, s.schema.resolutions[i]? = some config := by
  simp only [configs, List.mem_filterMap, ResolutionSet.mem_iter]

theorem foundAtPath_nodup (s : Solver ι) (path : KeyPath) :
    ((s.foundAtPath shapes path).map Prod.fst).Nodup := (collects_foldl _).nodup

theorem getShapeAtPath_of_found {s : Solver ι} {path : KeyPath} {e : ι × Resolution ι}
    (he : e ∈ s.foundAtPath shapes path) : getShapeAtPath shapes e.2 path = some e.1 := by
  obtain ⟨config, -, hmap⟩ := List.mem_filterMap.mp ((collects_foldl _).subset he)
  obtain ⟨sh, hsh, rfl⟩ := Option.map_eq_some_iff.mp hmap
  exact hsh

theorem mem_foundAtPath (s : Solver ι) (path : KeyPath) (sh : ι) :
    sh ∈ (s.foundAtPath shapes path).map Prod.fst ↔ s.ShapeAtPath shapes path sh := by
  rw [foundAtPath, (collects_foldl _).mem_iff]
  simp only [List.mem_map, List.mem_filterMap, mem_configs, ShapeAtPath,
    Option.map_eq_some_iff]
  constructor
  · rintro ⟨e, ⟨config, ⟨i, hi, hconfig⟩, x, hx, rfl⟩, rfl⟩
    exact ⟨i, hi, config, hconfig, hx⟩
  · rintro ⟨i, hi, config, hconfig, hsh⟩
    exact ⟨(sh, config), ⟨config, ⟨i, hi, hconfig⟩, sh, hsh, rfl⟩, rfl⟩

/-- The answer for the shapes found at a path that starts with the key `top`. -/
def answerFound (top : String) : List (ι × Resolution ι) → KeyResult ι
  | [] => .unknown
  | [(shape, _)] => .unambiguous shape
  | found => .ambiguous (found.filterMap fun (shape, config) =>
      (config.fieldByName top).map (·, specificityScore (shapes shape)))

theorem probeKey_snd (s : Solver ι) (path : KeyPath) (key : String) :
    (s.probeKey shapes path key).2 =
      { s with candidates := s.filterCandidates fun config => config.hasKeyPath (path ++ [key]) } := by
  unfold probeKey
  dsimp only
  split_ifs
  · rfl
  · split
    · rfl
    · split <;> rfl

theorem mem_probeKey (s : Solver ι) (path : KeyPath) (key : String) (i : ℕ) :
    i ∈ (s.probeKey shapes path key).2.candidates ↔
      i ∈ s.candidates ∧ s.schema.Knows (path ++ [key]) i := by
  rw [probeKey_snd, mem_filterCandidates]
  rfl

section Answer

variable {s t : Solver ι} {n : ℕ} {path : KeyPath} {key : String}
  (ht : (s.probeKey shapes path key).2 = t) (hvalid : t.candidates.Valid n)
include ht hvalid

theorem probeKey_of_none (hnone : ∀ i, i ∉ t.candidates) :
    (s.probeKey shapes path key).1 = .unknown := by
  rw [probeKey_snd] at ht
  subst ht
  have hempty := hvalid.isEmpty_iff.mpr hnone
  unfold probeKey
  dsimp only at hempty ⊢
  rw [if_pos hempty]

theorem probeKey_of_single {idx : ℕ} (h : ∀ i, i ∈ t.candidates ↔ i = idx) :
    (s.probeKey shapes path key).1 = .solved idx := by
  rw [probeKey_snd] at ht
  subst ht
  obtain ⟨hlen, hfirst⟩ := (hvalid.len_eq_one_iff idx).mpr h
  have hne := fun he => hvalid.isEmpty_iff.mp he idx ((h idx).mpr rfl)
  unfold probeKey
  dsimp only at hlen hfirst hne ⊢
  rw [if_neg hne, hlen, hfirst]
  rfl

theorem probeKey_of_many (hsome : ∃ i, i ∈ t.candidates)
    (hmany : ¬ ∃ idx, ∀ i, i ∈ t.candidates ↔ i = idx) :
    (s.probeKey shapes path key).1 =
      answerFound shapes (path.head?.getD key) (t.foundAtPath shapes (path ++ [key])) := by
  rw [probeKey_snd] at ht
  subst ht
  obtain ⟨i, hi⟩ := hsome
  have hne := fun he => hvalid.isEmpty_iff.mp he i hi
  unfold probeKey
  dsimp only at hne ⊢
  rw [if_neg hne]
  split
  · next idx hlen hfirst => exact absurd ⟨idx, (hvalid.len_eq_one_iff idx).mp ⟨hlen, hfirst⟩⟩ hmany
  · unfold foundAtPath
    generalize List.foldl (pushUniqueShape (ι := ι)) [] _ = found
    rcases found with _ | ⟨e, _ | ⟨e', found⟩⟩ <;> rfl

end Answer

omit [DecidableEq ι] in
theorem getShapeAtPath_singleton (config : Resolution ι) (name : String) :
    getShapeAtPath shapes config [name] = (config.fieldByName name).map FieldInfo.valueShape := by
  rw [getShapeAtPath]
  cases config.fieldByName name <;> rfl

/-- The result is made of these shapes. -/
def Offers (shapes : List ι) : KeyResult ι → Prop
  | .unknown => shapes = []
  | .unambiguous sh => shapes = [sh]
  | .ambiguous fields => 2 ≤ shapes.length ∧ fields.map (fun f => f.1.valueShape) = shapes
  | .solved _ => False

theorem offers_answerFound (s : Solver ι) (name : String) :
    Offers ((s.foundAtPath shapes [name]).map Prod.fst)
      (answerFound shapes name (s.foundAtPath shapes [name])) := by
  have hfield : ∀ e ∈ s.foundAtPath shapes [name],
      (e.2.fieldByName name).map FieldInfo.valueShape = some e.1 := by
    intro e he
    rw [← getShapeAtPath_singleton shapes]
    exact getShapeAtPath_of_found shapes he
  generalize s.foundAtPath shapes [name] = found at hfield ⊢
  have hmap : (found.filterMap fun e => (e.2.fieldByName name).map
      (·, specificityScore (shapes e.1))).map (fun f => f.1.valueShape) = found.map Prod.fst := by
    induction found with
    | nil => rfl
    | cons e found ih =>
      obtain ⟨info, hinfo, hsh⟩ := Option.map_eq_some_iff.mp (hfield e (List.mem_cons_self ..))
      rw [List.filterMap_cons, hinfo]
      simp only [Option.map_some, List.map_cons, hsh]
      rw [ih fun e' he' => hfield e' (List.mem_cons_of_mem _ he')]
  rcases found with _ | ⟨e, _ | ⟨e', found⟩⟩
  · rfl
  · rfl
  · exact ⟨by simp, hmap⟩

/-- Two results of the same kind, with the same shapes or the same solution. -/
def SameAnswer : KeyResult ι → KeyResult ι → Prop
  | .unambiguous a, .unambiguous b => a = b
  | .ambiguous fs, .ambiguous gs =>
    ∀ sh, sh ∈ fs.map (fun f => f.1.valueShape) ↔ sh ∈ gs.map (fun f => f.1.valueShape)
  | .solved i, .solved j => i = j
  | .unknown, .unknown => True
  | _, _ => False

omit [DecidableEq ι] in
/-- Answers made of shapes are the same when the shapes are. -/
theorem sameAnswer_iff_of_offers {res res' : KeyResult ι} {xs ys : List ι} (hx : Offers xs res)
    (hy : Offers ys res') (hxs : xs.Nodup) (hys : ys.Nodup) :
    SameAnswer res res' ↔ ∀ sh, sh ∈ xs ↔ sh ∈ ys := by
  constructor
  · intro h
    cases res <;> cases res' <;> simp_all [Offers, SameAnswer]
  · intro h
    have hlength : xs.length = ys.length := ((List.perm_ext_iff_of_nodup hxs hys).mpr h).length_eq
    cases res <;> cases res' <;> simp_all [Offers, SameAnswer] <;> omega

theorem offers_classify {t : Solver ι} {n : ℕ} (hvalid : t.candidates.Valid n) (key : FieldKey)
    (hmany : ¬ ∃ idx, ∀ i, i ∈ t.candidates ↔ i = idx) :
    Offers ((t.uniqueFields key).map FieldInfo.valueShape) (t.classify shapes key) := by
  unfold classify
  split
  · next idx hlen hfirst => exact absurd ⟨idx, (hvalid.len_eq_one_iff idx).mp ⟨hlen, hfirst⟩⟩ hmany
  · rcases t.uniqueFields key with _ | ⟨info, _ | ⟨info', infos⟩⟩
    · rfl
    · rfl
    · exact ⟨by simp, by simp⟩

/-- Reporting a key and probing it at the root do the same: the same candidates are left, the
answers agree, and `finish` takes the key for reported in both cases. -/
structure SameAtRoot (s : Solver ι) (name : String) : Prop where
  candidates : ∀ i, i ∈ (s.seeKey shapes name).2.candidates ↔
    i ∈ (s.probeKey shapes [] name).2.candidates
  answer : SameAnswer (s.seeKey shapes name).1 (s.probeKey shapes [] name).1
  seen : ∃ key ∈ (s.seeKey shapes name).2.seenKeys, key.name = name
  probed : ∃ key ∈ (s.probeKey shapes [] name).2.seenKeys, key.name = name

/-- The first field of this name in a candidate that knows the key has the shape. -/
def NamedShape (s : Solver ι) (name : String) (sh : ι) : Prop :=
  ∃ i ∈ s.candidates, s.schema.Knows [name] i ∧ ∃ config, s.schema.resolutions[i]? = some config ∧
    (config.fieldByName name).map FieldInfo.valueShape = some sh

/-- The known paths and the index select the same candidates, and unless only one is left, the
first fields of that name have the shapes stored under the key. Or nobody has a field for the
key, and there are candidates, all of which know it nevertheless, or none at all. -/
def RootLookupsAgree (s : Solver ι) (name : String) : Prop :=
  ((∃ i ∈ s.candidates, s.schema.HasMatch (.flat name) i) ∧
    (∀ i ∈ s.candidates, s.schema.HasMatch (.flat name) i ↔ s.schema.Knows [name] i) ∧
    ((∃ idx, ∀ i, (i ∈ s.candidates ∧ s.schema.HasMatch (.flat name) i) ↔ i = idx) ∨
      ∀ sh, s.ExactShape (.flat name) sh ↔ s.NamedShape name sh)) ∨
  ((∀ i ∈ s.candidates, ¬ s.schema.HasMatch (.flat name) i ∧ s.schema.Knows [name] i) ∧
    ¬ ∃ idx, ∀ i, i ∈ s.candidates ↔ i = idx)

section Root

variable {schema : Schema ι} {s : Solver ι}
  (hs : schema = Schema.ofResolutions schema.shape schema.format schema.resolutions)
  (h : WellFormed schema s) (hflat : schema.format = .flat) (name : String)
include hs h hflat

omit hs [DecidableEq ι] in
/-- A candidate without a field of that name has no shape there. -/
theorem fieldByName_eq_none {i : ℕ} (hno : ¬ s.schema.HasMatch (.flat name) i)
    {config : Resolution ι} (hconfig : s.schema.resolutions[i]? = some config) :
    config.fieldByName name = none := by
  cases hfield : config.fieldByName name with
  | none => rfl
  | some info =>
    have hmem := List.mem_of_find?_eq_some hfield
    have hname := List.find?_some hfield
    refine absurd ⟨info, ?_, ?_⟩ hno
    · rw [Schema.fieldsOf, hconfig]
      exact hmem
    · simp only [Schema.Matches, h.schema_eq, hflat]
      exact eq_of_beq hname

theorem sameAtRoot_iff_of_match (hmatch : ∃ i ∈ s.candidates, s.schema.HasMatch (.flat name) i) :
    ((∀ i, i ∈ (s.seeKey shapes name).2.candidates ↔
        i ∈ (s.probeKey shapes [] name).2.candidates) ∧
      SameAnswer (s.seeKey shapes name).1 (s.probeKey shapes [] name).1) ↔
    (∀ i ∈ s.candidates, s.schema.HasMatch (.flat name) i ↔ s.schema.Knows [name] i) ∧
      ((∃ idx, ∀ i, (i ∈ s.candidates ∧ s.schema.HasMatch (.flat name) i) ↔ i = idx) ∨
        ∀ sh, s.ExactShape (.flat name) sh ↔ s.NamedShape name sh) := by
  have hlookup : ∀ i, schema.LookedUp (.flat name) i ↔ s.schema.HasMatch (.flat name) i := by
    intro i
    rw [h.schema_eq]
    simp only [Schema.LookedUp, hflat]
  have hfound : ∃ i ∈ s.candidates, schema.LookedUp (.flat name) i := by
    obtain ⟨i, hi, him⟩ := hmatch
    exact ⟨i, hi, (hlookup i).mpr him⟩
  obtain ⟨hres, hlooked⟩ := seeKeyInternal_of_found shapes hs h (.flat name) hfound
  have ht : ∀ i, i ∈ (s.seeKey shapes name).2.candidates ↔
      i ∈ s.candidates ∧ s.schema.HasMatch (.flat name) i := by
    intro i
    rw [seeKey, hlooked, hlookup]
  have hu := mem_probeKey shapes s [] name
  have htv : (s.seeKey shapes name).2.candidates.Valid _ :=
    (h.seeKey shapes hs (.flat name)).valid
  have huv := (h.probeKey shapes [] name).valid
  have htschema : (s.seeKey shapes name).2.schema = s.schema := seeKeyInternal_schema shapes s _
  have huschema : (s.probeKey shapes [] name).2.schema = s.schema := by rw [probeKey_snd]
  have hsame : (∀ i, i ∈ (s.seeKey shapes name).2.candidates ↔
        i ∈ (s.probeKey shapes [] name).2.candidates) ↔
      ∀ i ∈ s.candidates, s.schema.HasMatch (.flat name) i ↔ s.schema.Knows [name] i := by
    simp only [ht, hu, List.nil_append, and_congr_right_iff]
  rw [hsame]
  refine and_congr_right fun hknows => ?_
  have hut := fun i => (hsame.mpr hknows i).symm
  by_cases hsingle : ∃ idx, ∀ i, i ∈ (s.seeKey shapes name).2.candidates ↔ i = idx
  · obtain ⟨idx, hidx⟩ := hsingle
    have hclass : (s.seeKey shapes name).1 = .solved idx :=
      hres.trans (classify_of_single shapes htv (.flat name) hidx)
    have hprobe : (s.probeKey shapes [] name).1 = .solved idx :=
      probeKey_of_single shapes rfl huv fun i => (hut i).trans (hidx i)
    rw [hclass, hprobe]
    exact iff_of_true rfl (.inl ⟨idx, fun i => (ht i).symm.trans (hidx i)⟩)
  · have hnot : ¬ ∃ idx, ∀ i, (i ∈ s.candidates ∧ s.schema.HasMatch (.flat name) i) ↔ i = idx :=
      fun ⟨idx, hidx⟩ => hsingle ⟨idx, fun i => (ht i).trans (hidx i)⟩
    have hmany : ¬ ∃ idx, ∀ i, i ∈ (s.probeKey shapes [] name).2.candidates ↔ i = idx :=
      fun ⟨idx, hidx⟩ => hsingle ⟨idx, fun i => (hut i).symm.trans (hidx i)⟩
    have hsome : ∃ i, i ∈ (s.probeKey shapes [] name).2.candidates := by
      obtain ⟨i, hi, him⟩ := hmatch
      exact ⟨i, (hut i).mpr ((ht i).mpr ⟨hi, him⟩)⟩
    have hsee : (s.seeKey shapes name).1 = (s.seeKey shapes name).2.classify shapes (.flat name) :=
      hres
    have hprobe : (s.probeKey shapes [] name).1 =
        answerFound shapes name ((s.probeKey shapes [] name).2.foundAtPath shapes [name]) :=
      probeKey_of_many shapes rfl huv hsome hmany
    rw [or_iff_right hnot, hsee, hprobe, sameAnswer_iff_of_offers (offers_classify shapes htv _ hsingle)
        (offers_answerFound shapes _ name) ((uniqueFields_shapes _ _).1)
        (foundAtPath_nodup shapes _ _)]
    refine forall_congr' fun sh => ?_
    rw [(uniqueFields_shapes _ _).2, storedShape_iff_of_narrowed htschema ht,
      mem_foundAtPath]
    simp only [ShapeAtPath, huschema, hu, NamedShape, getShapeAtPath_singleton, and_assoc,
      List.nil_append]

theorem sameAtRoot_iff_of_noMatch (hno : ∀ i ∈ s.candidates, ¬ s.schema.HasMatch (.flat name) i) :
    ((∀ i, i ∈ (s.seeKey shapes name).2.candidates ↔
        i ∈ (s.probeKey shapes [] name).2.candidates) ∧
      SameAnswer (s.seeKey shapes name).1 (s.probeKey shapes [] name).1) ↔
    (∀ i ∈ s.candidates, ¬ s.schema.HasMatch (.flat name) i ∧ s.schema.Knows [name] i) ∧
      ¬ ∃ idx, ∀ i, i ∈ s.candidates ↔ i = idx := by
  have hmiss : ∀ i ∈ s.candidates, ¬ schema.LookedUp (.flat name) i := by
    intro i hi hlooked
    exact hno i hi (h.schema_eq ▸ lookedUp_hasMatch _ hlooked)
  obtain ⟨hunknown, hsame⟩ := seeKeyInternal_of_missed shapes hs h (.flat name) hmiss
  have hu := mem_probeKey shapes s [] name
  have huv := (h.probeKey shapes [] name).valid
  have hsee : (s.seeKey shapes name).1 = .unknown := hunknown
  have hcand : (s.seeKey shapes name).2.candidates = s.candidates := hsame
  rw [hsee, hcand]
  have hknows : (∀ i, i ∈ s.candidates ↔ i ∈ (s.probeKey shapes [] name).2.candidates) ↔
      ∀ i ∈ s.candidates, ¬ s.schema.HasMatch (.flat name) i ∧ s.schema.Knows [name] i := by
    simp only [hu, List.nil_append]
    exact ⟨fun hiff i hi => ⟨hno i hi, ((hiff i).mp hi).2⟩,
      fun hall i => ⟨fun hi => ⟨hi, (hall i hi).2⟩, And.left⟩⟩
  rw [hknows]
  refine and_congr_right fun hall => ?_
  have hut := hknows.mpr hall
  constructor
  · rintro hans ⟨idx, hidx⟩
    rw [probeKey_of_single shapes rfl huv fun i => (hut i).symm.trans (hidx i)] at hans
    exact hans
  · intro hmany
    have hprobe : (s.probeKey shapes [] name).1 = .unknown := by
      by_cases hsome : ∃ i, i ∈ (s.probeKey shapes [] name).2.candidates
      · rw [probeKey_of_many shapes rfl huv hsome fun ⟨idx, hidx⟩ =>
          hmany ⟨idx, fun i => (hut i).trans (hidx i)⟩]
        have hempty : ((s.probeKey shapes [] name).2.foundAtPath shapes [name]).map Prod.fst = [] := by
          refine List.eq_nil_iff_forall_not_mem.mpr fun sh hsh => ?_
          obtain ⟨i, hi, config, hconfig, hshape⟩ := (mem_foundAtPath shapes _ _ sh).mp hsh
          have hconfig' : s.schema.resolutions[i]? = some config := by
            rw [probeKey_snd] at hconfig
            exact hconfig
          have hnone := fieldByName_eq_none h hflat name (hno i ((hut i).mpr hi)) hconfig'
          rw [getShapeAtPath_singleton, hnone] at hshape
          cases hshape
        rw [List.nil_append, List.map_eq_nil_iff.mp hempty]
        rfl
      · push Not at hsome
        exact probeKey_of_none shapes rfl huv hsome
    rw [hprobe]
    trivial

theorem sameAtRoot_iff_of_wellFormed : SameAtRoot shapes s name ↔
    (∃ key ∈ s.seenKeys, key.name = name) ∧ s.RootLookupsAgree name := by
  have hseen : ∃ key ∈ (s.seeKey shapes name).2.seenKeys, key.name = name := by
    refine ⟨.flat name, ?_, rfl⟩
    rw [seeKey, seeKeyInternal_seenKeys]
    simp
  have hprobed : (∃ key ∈ (s.probeKey shapes [] name).2.seenKeys, key.name = name) ↔
      ∃ key ∈ s.seenKeys, key.name = name := by rw [probeKey_snd]
  have hagree : ((∀ i, i ∈ (s.seeKey shapes name).2.candidates ↔
        i ∈ (s.probeKey shapes [] name).2.candidates) ∧
      SameAnswer (s.seeKey shapes name).1 (s.probeKey shapes [] name).1) ↔
        s.RootLookupsAgree name := by
    by_cases hmatch : ∃ i ∈ s.candidates, s.schema.HasMatch (.flat name) i
    · rw [sameAtRoot_iff_of_match shapes hs h hflat name hmatch, RootLookupsAgree,
        and_iff_right hmatch]
      refine (or_iff_left ?_).symm
      rintro ⟨hno, -⟩
      obtain ⟨i, hi, him⟩ := hmatch
      exact (hno i hi).1 him
    · have hno := hmatch
      push Not at hno
      rw [sameAtRoot_iff_of_noMatch shapes hs h hflat name hno, RootLookupsAgree]
      exact (or_iff_right fun hc => hmatch hc.1).symm
  constructor
  · intro hsame
    exact ⟨hprobed.mp hsame.probed, hagree.mp ⟨hsame.candidates, hsame.answer⟩⟩
  · rintro ⟨hbefore, hroot⟩
    obtain ⟨hcandidates, hanswer⟩ := hagree.mpr hroot
    exact ⟨hcandidates, hanswer, hseen, hprobed.mpr hbefore⟩

end Root

/-- In every state a solver for a flat schema can reach, reporting a key and probing it at the
root do the same if and only if a key of that name was recorded before and the two lookups
agree. -/
theorem sameAtRoot_iff {n : ℕ} {b : SchemaBuilder ι} {schema : Schema ι}
    (hschema : b.intoSchema shapes n = .ok schema) (hflat : schema.format = .flat)
    {s : Solver ι} (hreach : Reachable shapes schema s) (name : String) :
    SameAtRoot shapes s name ↔
      (∃ key ∈ s.seenKeys, key.name = name) ∧ s.RootLookupsAgree name :=
  have hs := SchemaBuilder.intoSchema_eq shapes n hschema
  sameAtRoot_iff_of_wellFormed shapes hs (hreach.wellFormed shapes hs) hflat name

theorem sameAtRoot_iff_event : ∃ schema,
    Schema.buildAuto eventShapes 10 .event = .ok schema ∧
    (SameAtRoot eventShapes (Solver.new schema) "x" ↔
      (∃ key ∈ (Solver.new schema).seenKeys, key.name = "x") ∧
        (Solver.new schema).RootLookupsAgree "x") := by
  have heval : (Schema.buildAuto eventShapes 10 .event).toOption.any fun schema =>
      schema.format = .flat := by decide
  obtain ⟨schema, hschema, hflat⟩ := ExceptList.exists_of_any heval
  exact ⟨schema, hschema,
    sameAtRoot_iff eventShapes hschema (of_decide_eq_true hflat) .new "x"⟩

/-- A field key is not recorded when it is probed, and a key that nobody has, recorded before,
drops every candidate. -/
theorem event_not_sameAtRoot : ∃ schema,
    Schema.buildAuto eventShapes 10 .event = .ok schema ∧
    ¬ SameAtRoot eventShapes (Solver.new schema) "x" ∧
    ¬ SameAtRoot eventShapes ((Solver.new schema).markSeen (.flat "extra")) "extra" := by
  have heval : (Schema.buildAuto eventShapes 10 .event).toOption.any fun schema => decide
      (0 ∈ (((Solver.new schema).markSeen (.flat "extra")).seeKey eventShapes "extra").2.candidates ∧
        0 ∉ (((Solver.new schema).markSeen (.flat "extra")).probeKey eventShapes []
          "extra").2.candidates) := by decide
  obtain ⟨schema, hschema, heval⟩ := ExceptList.exists_of_any heval
  obtain ⟨hkept, hdropped⟩ := of_decide_eq_true heval
  refine ⟨schema, hschema, fun hsame => ?_, fun hsame => hdropped ((hsame.candidates 0).mp hkept)⟩
  obtain ⟨key, hkey, -⟩ := hsame.probed
  rw [probeKey_snd] at hkey
  exact TreeSet.not_mem_emptyc hkey

end Solver

end Facet.Flatten
