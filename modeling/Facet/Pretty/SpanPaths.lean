import Facet.Pretty.Measuring
import Facet.Pretty.SpanRuns

/-!
# Every value has its span

Whether the spans that `format_peek_with_spans` returns are those of the values: each value's path
leads to the place where the value was written, and no two values share a path.
-/

namespace Facet.Pretty

open Filter MarkedText OptionState Relation Utf8

variable {ι ν : Type}

/-- The spans are those of the values that the rendering consists of, the value itself included. -/
structure SpansRight (r : Marked PartStep) (text : String) (spans : Path → Option FieldSpan) :
    Prop where
  text_eq : text = r.text
  /-- A value is recorded under its path, around the bytes written for it. -/
  recorded : ∀ mark ∈ r.whole.marks, IsValue mark.label →
    (∃ key, spans (pathOf [] mark.label) = some ⟨key, (mark.start, mark.stop)⟩) ∧
      slice text.toList mark.start mark.stop = some mark.text.toList
  /-- Values below a value are within its span. -/
  nested : ∀ mark ∈ r.whole.marks, ∀ outer ∈ r.whole.marks, outer.label <+: mark.label →
    outer.start ≤ mark.start ∧ mark.stop ≤ outer.stop
  /-- Values that are reached in different ways have different paths. -/
  apart : ∀ mark ∈ r.whole.marks, ∀ mark' ∈ r.whole.marks, IsValue mark.label →
    IsValue mark'.label → pathOf [] mark.label = pathOf [] mark'.label → mark.label = mark'.label

/-- No part that ends after a value, be it another value or a part of a map key, has the path of
that value. -/
def PathsApart (r : Marked PartStep) : Prop :=
  r.whole.marks.Pairwise fun mark later =>
    IsValue mark.label → pathOf [] later.label ≠ pathOf [] mark.label

theorem lastAt_eq_none_iff {p : Path} {es : List (Path × (ℕ × ℕ))} :
    lastAt p es = none ↔ ∀ e ∈ es, e.1 ≠ p := by
  induction es with
  | nil => simp [lastAt]
  | cons e es ih =>
    rw [lastAt, Option.or_eq_none_iff, ih, List.forall_mem_cons, and_comm]
    simp

theorem exists_mem_of_lastAt {p : Path} {es : List (Path × (ℕ × ℕ))} {value : ℕ × ℕ}
    (h : lastAt p es = some value) : (p, value) ∈ es := by
  induction es with
  | nil => cases h
  | cons e es ih =>
    rw [lastAt, Option.or_eq_some_iff] at h
    rcases h with h | ⟨-, h⟩
    · exact List.mem_cons_of_mem e (ih h)
    · split_ifs at h with hp
      cases h
      rw [← hp]
      exact List.mem_cons_self

theorem lastAt_entries_of_split {front back : List (Mark PartStep)} {mark : Mark PartStep}
    (hback : ∀ later ∈ back, pathOf [] later.label ≠ pathOf [] mark.label) :
    lastAt (pathOf [] mark.label) (entries [] 0 (front ++ mark :: back)) =
      some (mark.start, mark.stop) := by
  have hnone : lastAt (pathOf [] mark.label) (entries [] 0 back) = none := by
    apply lastAt_eq_none_iff.mpr
    intro e he
    obtain ⟨later, hlater, rfl⟩ := List.mem_map.mp he
    exact hback later hlater
  have hcons : entries [] 0 (mark :: back) =
      (pathOf [] mark.label, (0 + mark.start, 0 + mark.stop)) :: entries [] 0 back := rfl
  rw [entries_append, lastAt_append, hcons, lastAt, hnone]
  simp

theorem exists_last {marks : List (Mark PartStep)} {p : Path}
    (h : ∃ later ∈ marks, pathOf [] later.label = p) :
    ∃ last ∈ marks, pathOf [] last.label = p ∧
      lastAt p (entries [] 0 marks) = some (last.start, last.stop) := by
  obtain ⟨later, hlater, hp⟩ := h
  cases hlast : lastAt p (entries [] 0 marks) with
  | none =>
    have hne := lastAt_eq_none_iff.mp hlast _ (List.mem_map_of_mem hlater)
    exact absurd hp hne
  | some value =>
    obtain ⟨last, hmem, heq⟩ := List.mem_map.mp (exists_mem_of_lastAt hlast)
    cases heq
    exact ⟨last, hmem, rfl, by simp⟩

section

variable {r : Marked PartStep} {st' : PrintState ν}

theorem IsValue.of_prefix {steps steps' : List PartStep} (h : IsValue steps)
    (hway : steps' <+: steps) : IsValue steps' :=
  fun i hi => h i (hway.subset hi)

theorem PathsApart.apart (h : PathsApart r) {mark mark' : Mark PartStep}
    (hmark : mark ∈ r.whole.marks) (hmark' : mark' ∈ r.whole.marks) (hvalue : IsValue mark.label)
    (hvalue' : IsValue mark'.label) (hpath : pathOf [] mark.label = pathOf [] mark'.label) :
    mark.label = mark'.label := by
  let R (a b : Mark PartStep) : Prop :=
    IsValue a.label → IsValue b.label → pathOf [] a.label = pathOf [] b.label → a.label = b.label
  have hsymm : Std.Symm R := ⟨fun a b hab hb ha hba => (hab ha hb hba.symm).symm⟩
  have hpairs : r.whole.marks.Pairwise R := by
    apply h.imp
    intro a b hab ha _ heq
    exact absurd heq.symm (hab ha)
  exact hpairs.forall_of_forall (fun _ _ _ _ _ => rfl) hmark hmark' hvalue hvalue' hpath

/-- What a run has recorded is right if the paths are apart. -/
theorem PathsApart.spansRight (h : PathsApart r) (hfit : Fitting r)
    (hprints : Prints r [] {} st') {key : ℕ × ℕ}
    (hroot : st'.spans [] = some ⟨key, (0, st'.output.utf8ByteSize)⟩) :
    SpansRight r st'.output st'.spans := by
  have htext : st'.output = r.text := hprints.output.trans String.empty_append
  have hwhole := hfit.fits.whole hfit.heads
  refine ⟨htext, ?_, hwhole.contained, fun mark hmark mark' hmark' => h.apart hmark hmark'⟩
  intro mark hmark hvalue
  refine ⟨?_, htext ▸ hwhole.slice_eq hmark⟩
  rcases List.mem_append.mp hmark with hin | hself
  · obtain ⟨front, back, hsplit⟩ := List.append_of_mem hin
    have hpairs := h
    rw [PathsApart, Marked.whole, hsplit, List.append_assoc, List.cons_append] at hpairs
    have hlater := (List.pairwise_cons.mp (List.pairwise_append.mp hpairs).2.1).1
    have hne : pathOf [] mark.label ≠ [] :=
      (hlater ⟨[], 0, r.text⟩ (by simp) hvalue).symm
    have hrecorded := hprints.spans (pathOf [] mark.label) hne hne
    have hlast : lastAt (pathOf [] mark.label) (entries [] 0 r.marks) =
        some (mark.start, mark.stop) := by
      rw [hsplit]
      apply lastAt_entries_of_split
      exact fun later hmem => hlater later (List.mem_append_left _ hmem) hvalue
    unfold Recorded at hrecorded
    have hzero : ({} : PrintState ν).output.utf8ByteSize = 0 := rfl
    rw [hzero, hlast] at hrecorded
    exact hrecorded
  · rw [List.mem_singleton.mp hself]
    refine ⟨key, hroot.trans ?_⟩
    simp [Mark.stop, htext]

/-- A pair in the list of all marks, the second one not the whole itself. -/
theorem exists_split {mark later : Mark PartStep} (hsub : [mark, later].Sublist r.whole.marks) :
    ∃ front back, r.marks = front ++ mark :: back ∧ (later ∈ back ∨ later.label = []) := by
  obtain ⟨start, rest, hmarks, hmem, hlater⟩ := List.cons_sublist_iff.mp hsub
  obtain ⟨front, middle, rfl⟩ := List.append_of_mem hmem
  have hlater : later ∈ rest := List.singleton_sublist.mp hlater
  obtain rfl | ⟨init, last, rfl⟩ := List.eq_nil_or_concat rest
  · cases hlater
  · rw [List.concat_eq_append] at hmarks hlater
    rw [← List.append_assoc] at hmarks
    obtain ⟨hinit, hlast⟩ := List.append_inj' hmarks rfl
    refine ⟨front, middle ++ init, ?_, ?_⟩
    · rw [hinit, List.append_assoc, List.cons_append]
    · rcases List.mem_append.mp hlater with hlater | hlater
      · exact .inl (List.mem_append_right _ hlater)
      · right
        rw [List.mem_singleton.mp hlater, ← List.singleton_inj.mp hlast]

/-- Where a later part has the path of a value, the value's span is not the recorded one. -/
theorem SpansRight.pathsApart {text : String} (h : SpansRight r text st'.spans)
    (hfit : Fitting r) (hprints : Prints r [] {} st') {key : ℕ × ℕ}
    (hroot : st'.spans [] = some ⟨key, (0, st'.output.utf8ByteSize)⟩) : PathsApart r := by
  apply List.pairwise_iff_forall_sublist.mpr
  intro mark later hsub hvalue hpath
  obtain ⟨⟨key', hspan⟩, -⟩ := h.recorded mark (hsub.subset List.mem_cons_self) hvalue
  obtain ⟨front, back, hsplit, hlater⟩ := exists_split hsub
  by_cases hnil : pathOf [] mark.label = []
  · -- the whole is recorded there, and it begins before its parts
    have hpos := hfit.isOpen mark (by simp [hsplit])
    rw [hnil, hroot] at hspan
    simp only [Option.some.injEq, FieldSpan.mk.injEq, Prod.mk.injEq] at hspan
    omega
  · have hback : ∃ later ∈ back, pathOf [] later.label = pathOf [] mark.label := by
      rcases hlater with hlater | hlater
      · exact ⟨later, hlater, hpath⟩
      · rw [hlater] at hpath
        exact absurd hpath.symm hnil
    obtain ⟨last, hlast, hlastPath, hrecord⟩ := exists_last hback
    have hrecorded := hprints.spans _ hnil hnil
    have hcons : entries [] 0 r.marks = entries [] 0 (front ++ [mark]) ++ entries [] 0 back := by
      rw [← entries_append, hsplit, List.append_assoc, List.singleton_append]
    have hzero : ({} : PrintState ν).output.utf8ByteSize = 0 := rfl
    unfold Recorded at hrecorded
    rw [hzero, hcons, lastAt_append, hrecord, Option.some_or] at hrecorded
    obtain ⟨key'', hspan'⟩ := hrecorded
    rw [hspan] at hspan'
    have hpair := hfit.fits.ordered
    rw [hsplit, List.pairwise_append, List.pairwise_cons] at hpair
    rcases hpair.2.1.1 last hlast with hway | hbefore
    · -- then the last one is a value too, with the label of the mark
      have hlastIn : last ∈ r.marks := by simp [hsplit, hlast]
      have hlabel := h.apart mark (hsub.subset List.mem_cons_self) last
        (List.mem_append_left _ hlastIn) hvalue (hvalue.of_prefix hway) hlastPath.symm
      have hnodup := hfit.fits.nodup
      rw [hsplit, List.map_append, List.map_cons, List.nodup_append, List.nodup_cons] at hnodup
      exact hnodup.2.1.1 (hlabel ▸ List.mem_map_of_mem hlast)
    · simp only [Option.some.injEq, FieldSpan.mk.injEq, Prod.mk.injEq, Mark.stop] at hspan' hbefore
      omega

end

theorem utf8ByteSize_spaces (n : ℕ) : (times n ' ').utf8ByteSize = n := by
  have hone : ' '.utf8Size = 1 := rfl
  rw [times, ← byteLen_toList, String.toList_ofList]
  induction n with
  | zero => rfl
  | succ n ih => rw [List.replicate_succ, byteLen, ih, hone, Nat.add_comm]

section

variable [DecidableEq ι] [DecidableEq ν] (P : Program ι ν) (pp : PrettyPrinter ι)
  (m : Memory ι ν) (fuel : ℕ) (root : ν)

/-- The rendering that spans are recorded for: without colors. -/
def renderPlain : Option (Marked PartStep) :=
  render P { pp with useColors := false } m fuel [] root 0 0 false

/-- The most bytes that a `String` holds; pushing more to it panics. -/
def stringMax : ℕ := 2 ^ 63 - 1

/-- The recursion ends with a text that a `String` holds, and the spans are those of the values. -/
def SpansValues : Prop :=
  ∃ r text spans, renderPlain P pp m fuel root = some r ∧
    formatPeekWithSpans P pp m fuel root = some (text, spans) ∧ text.utf8ByteSize ≤ stringMax ∧
    SpansRight r text spans

/-- The text of the value fits into a `String`, and no paths are confused in it. -/
def RendersApart : Prop :=
  ∃ r, renderPlain P pp m fuel root = some r ∧ r.text.utf8ByteSize ≤ stringMax ∧ PathsApart r

end

section

variable [DecidableEq ι] [DecidableEq ν] {P : Program ι ν} {pp : PrettyPrinter ι}
  {m : Memory ι ν} {root : ν}

/-- For a run that ends, the spans are right exactly if the text fits and the paths are apart. -/
theorem spansValues_iff {fuel : ℕ}
    (hacyclic : Unrepeated P { pp with useColors := false } m (.spanned, root))
    (hends : (formatPeekWithSpans P pp m fuel root).isSome) :
    SpansValues P pp m fuel root ↔ RendersApart P pp m fuel root := by
  obtain ⟨⟨text, spans⟩, hrun⟩ := Option.isSome_iff_exists.mp hends
  obtain ⟨⟨u, st'⟩, hst', heq⟩ := Option.map_eq_some_iff.mp hrun
  cases heq
  obtain ⟨r, hr, hprints, key, hroot⟩ :=
    prints_formatUnified hacyclic (fun _ _ => rfl) hst'
  have hfit := render_fits hr
  constructor
  · rintro ⟨r', text, spans, hr', hrun', hsize, hright⟩
    rw [renderPlain, hr] at hr'
    cases hr'
    rw [hrun] at hrun'
    cases hrun'
    exact ⟨r, hr, hright.text_eq ▸ hsize, hright.pathsApart hfit hprints hroot⟩
  · rintro ⟨r', hr', hsize, hapart⟩
    rw [renderPlain, hr] at hr'
    cases hr'
    have hright := hapart.spansRight hfit hprints hroot
    exact ⟨r, st'.output, st'.spans, hr, hrun, hright.text_eq ▸ hsize, hright⟩

theorem eventually_formatPeekWithSpans [Finite ν]
    (hchunk : ChunkinessTerminates P { pp with useColors := false } m (.spanned, root))
    (hacyclic : Unrepeated P { pp with useColors := false } m (.spanned, root)) :
    ∀ᶠ fuel in atTop, (formatPeekWithSpans P pp m fuel root).isSome := by
  filter_upwards [eventually_cleanAt hchunk hacyclic] with fuel hclean
  obtain ⟨u, st', hrun, -⟩ :=
    hclean [] [] 0 0 false (fun _ => none) (fun _ _ => ⟨rfl, List.not_mem_nil⟩) {} rfl
  rw [formatPeekWithSpans, Option.isSome_map]
  exact Option.isSome_of_mem hrun

theorem chunkinessTerminates_of_formatPeekWithSpans {fuel : ℕ}
    (hacyclic : Unrepeated P { pp with useColors := false } m (.spanned, root))
    (hends : (formatPeekWithSpans P pp m fuel root).isSome) :
    ChunkinessTerminates P { pp with useColors := false } m (.spanned, root) := by
  obtain ⟨result, hresult⟩ := Option.isSome_iff_exists.mp hends
  obtain ⟨⟨u, st'⟩, hrun, -⟩ := Option.map_eq_some_iff.mp hresult
  have hshows := endsOnlyIf_formatUnified (V := fun _ => none) fuel [] [] hacyclic
    (fun _ _ => rfl) 0 0 false
  exact (hshows {} u st' rfl hrun).2

/-- No `String` holds a line that is indented by `usize::MAX` spaces, and the fields of a struct are
on such lines. -/
theorem not_rendersApart_of_indented (hindent : pp.indentSize = usizeMax)
    {u : ν} (hu : Innermost P m root u) (hproxy : (P.shapes (m.view u).shape).proxy = none)
    {ty : StructType ι} (harm : unifiedArm P (P.shapes (m.view u).shape) = .struct ty)
    (hkind : ty.kind = .struct) (hfields : ty.fields ≠ []) (fuel : ℕ) :
    ¬RendersApart P pp m fuel root := by
  rintro ⟨r, hr, hsize, -⟩
  cases fuel with
  | zero => cases hr
  | succ fuel =>
    obtain ⟨w, hw, hr⟩ := Option.bind_eq_some_iff.mp hr
    obtain ⟨u', hu', hr⟩ := Option.bind_eq_some_iff.mp hr
    obtain ⟨ps, hps, hr⟩ := Option.bind_eq_some_iff.mp hr
    cases hu.unique (innermost_of_derefPointers hw (innermost_of_innermostPeek hu'))
    rw [unifiedPieces, hproxy] at hps
    simp only [unifiedLayout, harm, Option.some.injEq] at hps
    obtain ⟨field, fields, hcons⟩ := List.exists_cons_of_ne_nil hfields
    have hline : (.text ("\n" ++ times (1 * usizeMax) ' ') : SpanPiece ι ν) ∈ ps := by
      rw [← hps, unifiedStruct, hkind, unifiedStructFields, hcons]
      simp [newlineToOutput, hindent]
    have hle := size_le_of_renderPieces hr hline
    rw [String.utf8ByteSize_append, utf8ByteSize_spaces] at hle
    have hless : stringMax < 1 * usizeMax := by decide
    omega

end

/-- `struct Pair(u8, BTreeMap<Id, u8>)` with `struct Id(u8)`. -/
def pairProgram : Program (Fin 6) (Fin 6) where
  shapes
    | 0 =>
      { ty := .user (.struct ⟨.tupleStruct,
          [{ name := "0", shape := 2 }, { name := "1", shape := 1 }]⟩)
        «def» := .undefined
        typeName := "Pair" }
    | 1 => { ty := .user .opaqueTy, «def» := .map 3 2, typeName := "BTreeMap<Id, u8>" }
    | 2 => { ty := .primitive .numeric, «def» := .scalar, typeName := "u8", isDisplay := true }
    | 3 =>
      { ty := .user (.struct ⟨.tupleStruct, [{ name := "0", shape := 2 }]⟩)
        «def» := .undefined
        typeName := "Id" }
    | _ => { ty := .user .opaqueTy, «def» := .scalar }
  stringShape := 4
  u8Shape := 2
  constPtrShape := 5
  valueId _ := "0x1000"
  escapeDebug s := s

/-- `Pair(7, BTreeMap::from([(Id(2), 3)]))` -/
def pairMemory : Memory (Fin 6) (Fin 6) where
  view
    | 0 => { shape := 0, field := fun i => if i = 0 then 1 else 2 }
    | 1 => { shape := 2, field := fun _ => 1, display := "7" }
    | 2 => { shape := 1, field := fun _ => 2, entries := [(3, 5)] }
    | 3 => { shape := 3, field := fun _ => 4 }
    | 4 => { shape := 2, field := fun _ => 4, display := "2" }
    | 5 => { shape := 2, field := fun _ => 5, display := "3" }
  convertOut _ _ := .error ""

def pairRank : Fin 6 → ℕ := fun v => [3, 0, 2, 1, 0, 0].getD v 0

theorem pair_unrepeated (root : Site (Fin 6)) :
    Unrepeated pairProgram { useColors := false } pairMemory root := by
  have hlook : ∀ v, lookThrough pairProgram pairMemory v = none := by decide
  have hplain : ∀ v, ∀ e ∈ siteSubjects pairProgram { useColors := false } pairMemory (.plain, v),
      e.2.2 = none ∧ pairRank e.2.1 < pairRank v := by decide
  have hspanned : ∀ v,
      ∀ e ∈ siteSubjects pairProgram { useColors := false } pairMemory (.spanned, v),
        e.2.2 = none ∧ pairRank e.2.1 < pairRank v := by decide
  apply unrepeated_of_rank pairRank
  intro x y hstep
  cases hstep with
  | @through mode v w hv =>
    rw [hlook v] at hv
    cases hv
  | @part mode mode' v s w hv hs hw =>
    have hfacts : s.2 = none ∧ pairRank s.1 < pairRank v := by
      cases mode with
      | plain => exact hplain v _ hs
      | spanned => exact hspanned v _ hs
    rw [Subject.target, hfacts.1] at hw
    cases hw
    exact hfacts.2

end Facet.Pretty
