import Facet.Flatten.KeyRuns

/-!
# Reachable solver states

Whatever operations a deserializer calls, and in whatever order, the solver keeps its
schema and a valid candidate set.
-/

namespace Facet.Flatten

open Std

variable {ι : Type} [DecidableEq ι] (shapes : Shapes ι)

namespace Solver

section Filter

omit [DecidableEq ι]

variable {s : Solver ι} (p : Resolution ι → Bool)

def Passes (s : Solver ι) (p : Resolution ι → Bool) (i : ℕ) : Prop :=
  ∃ config, s.schema.resolutions[i]? = some config ∧ p config

theorem keepIf_spec {kept : ResolutionSet} (hkept : kept.Valid s.schema.resolutions.length)
    (idx : ℕ) : (s.keepIf p kept idx).Valid s.schema.resolutions.length ∧
      ∀ i, i ∈ s.keepIf p kept idx ↔ i ∈ kept ∨ i = idx ∧ s.Passes p i := by
  have hstay : ¬ s.Passes p idx → ∀ i, i ∈ kept ↔ i ∈ kept ∨ i = idx ∧ s.Passes p i := by
    refine fun hnot i => ⟨.inl, ?_⟩
    rintro (hi | ⟨rfl, hp⟩)
    · exact hi
    · exact absurd hp hnot
  unfold keepIf
  cases hidx : s.schema.resolutions[idx]? with
  | none => exact ⟨hkept, hstay fun ⟨config, hc, _⟩ => by simp [hidx] at hc⟩
  | some config =>
    have hlt : idx < s.schema.resolutions.length := (List.getElem?_eq_some_iff.mp hidx).1
    dsimp only
    split_ifs with hp
    · refine ⟨ResolutionSet.insert_valid hkept hlt, fun i => ?_⟩
      rw [ResolutionSet.mem_insert hkept hlt, or_comm]
      exact or_congr_right ⟨fun h => ⟨h, h ▸ ⟨config, hidx, hp⟩⟩, And.left⟩
    · exact ⟨hkept, hstay fun ⟨config', hc, hp'⟩ =>
        hp (Option.some.inj (hidx.symm.trans hc) ▸ hp')⟩

theorem foldl_keepIf_spec (idxs : List ℕ) {kept : ResolutionSet}
    (hkept : kept.Valid s.schema.resolutions.length) :
    (idxs.foldl (s.keepIf p) kept).Valid s.schema.resolutions.length ∧
      ∀ i, i ∈ idxs.foldl (s.keepIf p) kept ↔ i ∈ kept ∨ i ∈ idxs ∧ s.Passes p i := by
  induction idxs generalizing kept with
  | nil => exact ⟨hkept, by simp⟩
  | cons idx idxs ih =>
    obtain ⟨hstep, hmem⟩ := keepIf_spec p hkept idx
    obtain ⟨hvalid, hrest⟩ := ih hstep
    refine ⟨hvalid, fun i => ?_⟩
    rw [List.foldl_cons, hrest, hmem, List.mem_cons, or_and_right, or_assoc]

theorem filterCandidates_valid : (s.filterCandidates p).Valid s.schema.resolutions.length :=
  (foldl_keepIf_spec p _ (ResolutionSet.empty_valid _)).1

theorem mem_filterCandidates (i : ℕ) : i ∈ s.filterCandidates p ↔
    i ∈ s.candidates ∧ s.Passes p i := by
  rw [filterCandidates, (foldl_keepIf_spec p _ (ResolutionSet.empty_valid _)).2,
    ResolutionSet.mem_iter]
  simp [ResolutionSet.notMem_empty]

end Filter

/-- The states a solver can get into. -/
inductive Reachable (schema : Schema ι) : Solver ι → Prop
  | new : Reachable schema (Solver.new schema)
  | seeKey {s : Solver ι} (key : FieldKey) :
      Reachable schema s → Reachable schema (s.seeKeyInternal shapes key).2
  | satisfyShapes {s : Solver ι} (satisfied : List ι) :
      Reachable schema s → Reachable schema (s.satisfyShapes satisfied).2
  | satisfyAtPath {s : Solver ι} (path : KeyPath) (satisfied : List ι) :
      Reachable schema s → Reachable schema (s.satisfyAtPath shapes path satisfied).2
  | hintVariant {s : Solver ι} (variantName : String) :
      Reachable schema s → Reachable schema (s.hintVariant variantName).2
  | hintVariantForTag {s : Solver ι} (tagFieldName variantName : String) :
      Reachable schema s →
        Reachable schema (s.hintVariantForTag shapes tagFieldName variantName).2
  | markSeen {s : Solver ι} (key : FieldKey) :
      Reachable schema s → Reachable schema (s.markSeen key)
  | probeKey {s : Solver ι} (path : KeyPath) (key : String) :
      Reachable schema s → Reachable schema (s.probeKey shapes path key).2

/-- What every operation preserves. -/
structure WellFormed (schema : Schema ι) (s : Solver ι) : Prop where
  schema_eq : s.schema = schema
  valid : s.candidates.Valid schema.resolutions.length

section Preserve

variable {schema : Schema ι} {s : Solver ι}

omit [DecidableEq ι] in
theorem WellFormed.filter (h : WellFormed schema s) (p : Resolution ι → Bool) :
    WellFormed schema { s with candidates := s.filterCandidates p } :=
  ⟨h.schema_eq, h.schema_eq ▸ filterCandidates_valid p⟩

omit [DecidableEq ι] in
theorem WellFormed.clear (h : WellFormed schema s) :
    WellFormed schema { s with candidates := .empty s.schema.resolutions.length } :=
  ⟨h.schema_eq, h.schema_eq ▸ ResolutionSet.empty_valid _⟩

theorem WellFormed.seeKey
    (hs : schema = Schema.ofResolutions schema.shape schema.format schema.resolutions)
    (h : WellFormed schema s) (key : FieldKey) :
    WellFormed schema (s.seeKeyInternal shapes key).2 := by
  refine ⟨(seeKeyInternal_schema shapes s key).trans h.schema_eq, ?_⟩
  rw [seeKeyInternal_candidates]
  refine narrowed_valid h.valid fun set hset => ?_
  rw [h.schema_eq] at hset
  rcases schema.resolutionsWithKey_isEntry hs key with ⟨hnone, _⟩ | ⟨set', hsome, hvalid, _⟩
  · simp [hnone] at hset
  · exact Option.some.inj (hset.symm.trans hsome) ▸ hvalid

theorem WellFormed.satisfyShapes (h : WellFormed schema s) (satisfied : List ι) :
    WellFormed schema (s.satisfyShapes satisfied).2 := by
  unfold Solver.satisfyShapes
  split_ifs
  · exact h.clear
  · exact h.filter _

theorem WellFormed.satisfyAtPath (h : WellFormed schema s) (path : KeyPath)
    (satisfied : List ι) : WellFormed schema (s.satisfyAtPath shapes path satisfied).2 := by
  unfold Solver.satisfyAtPath
  split_ifs
  · exact h.clear
  · exact h.filter _

omit [DecidableEq ι] in
theorem WellFormed.hintVariant (h : WellFormed schema s) (variantName : String) :
    WellFormed schema (s.hintVariant variantName).2 := by
  unfold Solver.hintVariant
  dsimp only
  split_ifs
  · exact h
  · exact h.filter _

omit [DecidableEq ι] in
theorem WellFormed.hintVariantForTag (h : WellFormed schema s)
    (tagFieldName variantName : String) :
    WellFormed schema (s.hintVariantForTag shapes tagFieldName variantName).2 := by
  unfold Solver.hintVariantForTag
  dsimp only
  split_ifs
  · exact h.hintVariant variantName
  · exact h

theorem WellFormed.probeKey (h : WellFormed schema s) (path : KeyPath) (key : String) :
    WellFormed schema (s.probeKey shapes path key).2 := by
  have hfilter := h.filter fun config => config.hasKeyPath (path ++ [key])
  unfold Solver.probeKey
  dsimp only
  split_ifs
  · exact hfilter
  · split
    · exact hfilter
    · split <;> exact hfilter

theorem Reachable.wellFormed
    (hs : schema = Schema.ofResolutions schema.shape schema.format schema.resolutions)
    (h : Reachable shapes schema s) : WellFormed schema s := by
  induction h with
  | new => exact ⟨rfl, ResolutionSet.full_valid _⟩
  | seeKey key _ ih => exact ih.seeKey shapes hs key
  | satisfyShapes satisfied _ ih => exact ih.satisfyShapes satisfied
  | satisfyAtPath path satisfied _ ih => exact ih.satisfyAtPath shapes path satisfied
  | hintVariant name _ ih => exact ih.hintVariant name
  | hintVariantForTag tag name _ ih => exact ih.hintVariantForTag shapes tag name
  | markSeen key _ ih => exact ⟨ih.schema_eq, ih.valid⟩
  | probeKey path key _ ih => exact ih.probeKey shapes path key

end Preserve

end Solver

end Facet.Flatten
