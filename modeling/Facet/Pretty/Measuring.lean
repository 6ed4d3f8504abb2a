import Facet.Pretty.Chunkiness
import Facet.Pretty.CleanRuns

/-!
# What printing has measured

A printer asks for the measure of a shape before it lays a list or a map out. So where printing a
value without cycles ends, the measure has ended for all values that the printer has come to.
-/

namespace Facet.Pretty

open Filter OptionState Relation

variable {ι ν : Type}

theorem shapeChunkiness_isSome_of_le {S : Shapes ι} {fuel fuel' : ℕ} (hle : fuel ≤ fuel') {s : ι}
    (h : (shapeChunkiness S fuel s).isSome) : (shapeChunkiness S fuel' s).isSome := by
  induction fuel generalizing fuel' s with
  | zero => cases h
  | succ fuel ih =>
    obtain ⟨fuel', rfl⟩ : ∃ k, fuel' = k + 1 := ⟨fuel' - 1, by omega⟩
    rw [shapeChunkiness_succ_isSome] at h ⊢
    exact fun t ht => ih (by omega) (h t ht)

/-- If the step ends from a state with the given visited map, it has put the map back and the
proposition holds. -/
abbrev EndsOnlyIf {α : Type} (V : ν → Option ℕ) (C : Prop) (step : Print ν α) : Prop :=
  Shows (fun st => st.visited = V) C step

section Steps

variable {V : ν → Option ℕ} {C : Prop} {P : Program ι ν} {m : Memory ι ν}

theorem endsOnlyIf_write (text : String) : EndsOnlyIf V True (write text : Print ν Unit) :=
  .modify fun _ => id

theorem endsOnlyIf_recordFieldSpan (path : Path) (key value : ℕ × ℕ) :
    EndsOnlyIf V True (recordFieldSpan path key value : Print ν Unit) :=
  .modify fun _ => id

theorem endsOnlyIf_position : EndsOnlyIf V True (position : Print ν ℕ) := by
  intro st n st' hst hrun
  cases hrun
  exact ⟨hst, trivial⟩

theorem endsOnlyIf_spanOf {step : Print ν Unit} (h : EndsOnlyIf V C step) :
    EndsOnlyIf V C (spanOf step) := by
  apply Shows.bind_right endsOnlyIf_position
  intro start
  apply Shows.bind_left h
  intro _
  exact .bind_left endsOnlyIf_position fun stop => .pure _

theorem endsOnlyIf_formatCall {fmt : Formatter ν} {c : Call ι ν} {C : ν → Prop}
    (h : ∀ w, Subject.target P m c.subject = some w →
      EndsOnlyIf V (C w) (fmt w c.formatDepth c.typeDepth c.short)) :
    EndsOnlyIf V (∀ w, Subject.target P m c.subject = some w → C w) (formatCall P m fmt c) := by
  unfold formatCall
  simp only [Subject.target, Call.subject] at h ⊢
  cases hp : c.proxy with
  | none =>
    simp only [hp] at h
    exact (h c.value rfl).mono (by simp)
  | some p =>
    simp only [hp] at h
    dsimp only
    split
    · next hsized =>
      simp only [hsized, if_true] at h
      cases hconv : m.convertOut c.value p with
      | ok w =>
        exact (h w (by simp [hconv, Except.toOption])).mono (by simp [Except.toOption])
      | error msg => exact (endsOnlyIf_write _).mono (by simp [Except.toOption])
    · exact (endsOnlyIf_write _).mono (by simp)

theorem endsOnlyIf_guarded [DecidableEq ν] {above : List ν} {v : ν} {td : ℕ} {cycle : ℕ → String}
    {body : Print ν Unit} (hV : V v = none)
    (hbody : EndsOnlyIf (Function.update V v (some td)) C body) :
    EndsOnlyIf V C (guarded above v td cycle body) := by
  intro st u st'' hst hrun
  subst hst
  obtain ⟨before, s, hget, hrun⟩ := bind_some.1 hrun
  cases hget
  obtain ⟨_, s, hmark, hrun⟩ := bind_some.1 hrun
  cases hmark
  obtain ⟨_, st', hin, hrun⟩ := bind_some.1 hrun
  cases hrun
  simp only [hV] at hin
  obtain ⟨hvisited, hC⟩ := hbody _ _ _ rfl hin
  refine ⟨?_, hC⟩
  show Function.update st'.visited v none = st.visited
  rw [hvisited, Function.update_idem, ← hV, Function.update_eq_self]

end Steps

section Sites

variable [DecidableEq ι] {P : Program ι ν} {pp : PrettyPrinter ι} {m : Memory ι ν} {u v : ν}
  {mode : Mode}

/-- Where a pointer or a wrapper is looked through, there is no other way on. -/
theorem Innermost.reaches (h : Innermost P m v u) {y : Site ν}
    (hy : ReflTransGen (Step P pp m) (mode, v) y) (hlook : Pretty.lookThrough P m y.2 = none) :
    ReflTransGen (Step P pp m) (mode, u) y := by
  induction h with
  | here => exact hy
  | @through v w u hv _ ih =>
    obtain rfl | ⟨z, hz, hzy⟩ := ReflTransGen.cases_head hy
    · rw [hv] at hlook
      cases hlook
    · cases hz with
      | through hw =>
        rw [hv] at hw
        cases hw
        exact ih hzy
      | part hnone =>
        rw [hv] at hnone
        cases hnone

theorem ChunkinessTerminates.of_innermost (h : ChunkinessTerminates P pp m (mode, u))
    (hu : Innermost P m v u) : ChunkinessTerminates P pp m (mode, v) :=
  fun x hx hlook => h x (hu.reaches hx hlook) hlook

theorem ChunkinessTerminates.of_parts
    (hown : ∀ s, Measured P pp m (mode, u) s →
      ∀ᶠ fuel in atTop, (shapeChunkiness P.shapes fuel s).isSome)
    (hparts : ∀ y, Step P pp m (mode, u) y → ChunkinessTerminates P pp m y) :
    ChunkinessTerminates P pp m (mode, u) := by
  intro x hx hlook
  obtain rfl | ⟨y, hy, hyx⟩ := ReflTransGen.cases_head hx
  · exact hown
  · exact hparts y hy x hyx hlook

omit [DecidableEq ι] in
theorem eventually_of_isSome {fuel : ℕ} {s : ι} (h : (shapeChunkiness P.shapes fuel s).isSome) :
    ∀ᶠ fuel in atTop, (shapeChunkiness P.shapes fuel s).isSome := by
  filter_upwards [eventually_ge_atTop fuel] with fuel' hle
  exact shapeChunkiness_isSome_of_le hle h

theorem measured_of_pieces {fuel fd td : ℕ} {short : Bool} {ps : List (Piece ι ν)}
    (hps : pieces P pp m fuel u fd td short = some ps) {s : ι}
    (h : Measured P pp m (.plain, u) s) :
    ∀ᶠ fuel in atTop, (shapeChunkiness P.shapes fuel s).isSome := by
  cases h with
  | list hproxy harm hitems hbytes =>
    simp only [pieces, hproxy, layout, harm, formatListLike, List.isEmpty_iff, hitems, if_false,
      hbytes] at hps
    obtain ⟨chunkiness, hsome, -⟩ := Option.bind_eq_some_iff.mp hps
    exact eventually_of_isSome (Option.isSome_of_mem hsome)
  | map hproxy harm =>
    simp only [pieces, hproxy, layout, harm] at hps
    obtain ⟨chunkiness, hsome, -⟩ := Option.bind_eq_some_iff.mp hps
    exact eventually_of_isSome (Option.isSome_of_mem hsome)

theorem measured_of_unifiedPieces {fuel fd td : ℕ} {short : Bool} {path : Path}
    {ps : List (SpanPiece ι ν)} (hps : unifiedPieces P pp m fuel u fd td short path = some ps)
    {s : ι} (h : Measured P pp m (.spanned, u) s) :
    ∀ᶠ fuel in atTop, (shapeChunkiness P.shapes fuel s).isSome := by
  cases h with
  | spannedList hproxy harm =>
    simp only [unifiedPieces, hproxy, unifiedLayout, harm] at hps
    obtain ⟨chunkiness, hsome, -⟩ := Option.bind_eq_some_iff.mp hps
    exact eventually_of_isSome (Option.isSome_of_mem hsome)

end Sites

section Runs

variable [DecidableEq ι] [DecidableEq ν] {P : Program ι ν} {pp : PrettyPrinter ι} {m : Memory ι ν}
  {v : ν} {V : ν → Option ℕ}

/-- By induction on the budget. Without cycles no value is found in the visited map, so every call
runs its body. -/
theorem endsOnlyIf_formatPeekInternal (fuel : ℕ) (above : List ν)
    (hx : Unrepeated P pp m (.plain, v))
    (hV : ∀ y, ReflTransGen (Step P pp m) (.plain, v) y → V y.2 = none) (fd td : ℕ)
    (short : Bool) :
    EndsOnlyIf V (ChunkinessTerminates P pp m (.plain, v))
      (formatPeekInternal P pp m fuel above v fd td short) := by
  induction fuel generalizing above v fd td short V with
  | zero =>
    intro st a st' _ hrun
    cases hrun
  | succ fuel ih =>
    apply Shows.lift_bind
    intro w hw
    apply Shows.lift_bind
    intro u hu
    have hinner := innermost_of_derefPointers hw (innermost_of_innermostPeek hu)
    have hdesc := hinner.descends pp .plain
    have hfree : ∀ z, ReflTransGen (Step P pp m) (.plain, u) z → V z.2 = none ∧ z.2 ∉ [] :=
      fun z hz => ⟨hV z (hdesc.trans hz), List.not_mem_nil⟩
    have hunrep := hx.descends hdesc
    have hbody : EndsOnlyIf (Function.update V u (some td))
        (ChunkinessTerminates P pp m (.plain, u))
        (do
          let ps ← pieces P pp m fuel u fd td short
          ps.forM (runPiece P m (formatPeekInternal P pp m fuel (u :: above)))) := by
      apply Shows.lift_bind
      intro ps hps
      apply (Shows.forM (C := fun p : Piece ι ν => ∀ s, p.subject = some s → ∀ w,
        Subject.target P m s = some w → ChunkinessTerminates P pp m (.plain, w)) ?_).mono
      · intro hparts
        apply ChunkinessTerminates.of_parts fun s => measured_of_pieces hps
        intro y hy
        cases hy with
        | through hlook =>
          rw [hinner.lookThrough] at hlook
          cases hlook
        | part _ hs hw =>
          obtain ⟨s, hs, heq⟩ := List.mem_map.mp hs
          cases heq
          rw [← subjects_pieces P pp m hps] at hs
          obtain ⟨p, hp, hsubject⟩ := List.mem_filterMap.mp hs
          exact hparts p hp _ hsubject _ hw
      · intro p hp
        cases p with
        | text s =>
          apply (endsOnlyIf_write s).mono
          rintro - s ⟨⟩
        | call c =>
          have hstep {w : ν} (hw : Subject.target P m c.subject = some w) :
              Step P pp m (.plain, u) (.plain, w) :=
            .part hinner.lookThrough (subject_mem_siteSubjects_plain hps hp) hw
          apply (endsOnlyIf_formatCall fun w hw => ih (u :: above)
            (hunrep.descends (.single (hstep hw))) ?_ _ _ _).mono
          · rintro h s ⟨⟩
            exact h
          · exact fun z hz => (parts_free td hunrep hfree (hstep hw) z hz).1
    exact (endsOnlyIf_guarded (hfree _ .refl).1 hbody).mono fun h => h.of_innermost hinner

theorem endsOnlyIf_formatKey (fuel : ℕ) (above : List ν) (hx : Unrepeated P pp m (.plain, v)) :
    EndsOnlyIf V (ChunkinessTerminates P pp m (.plain, v)) (formatKey P pp m fuel above v) := by
  intro st a st' hst hrun
  obtain ⟨⟨u, inner⟩, s, hkey, hrun⟩ := bind_some.1 hrun
  obtain ⟨hkey', rfl⟩ := lift_some.1 hkey
  cases hrun
  have hends := endsOnlyIf_formatPeekInternal (V := fun _ => none) fuel above hx
    (fun _ _ => rfl) 0 0 false
  exact ⟨hst, (hends {} u inner rfl hkey').2⟩

omit [DecidableEq ι] [DecidableEq ν] in
theorem endsOnlyIf_runSpanPiece {fmt : Path → Formatter ν} {key : ν → Print ν String}
    {p : SpanPiece ι ν} {C : Site ν → Prop}
    (hfmt : ∀ s ∈ p.subjects, ∀ w, Subject.target P m s.2 = some w → s.1 = .spanned →
      ∀ path fd td short, EndsOnlyIf V (C (.spanned, w)) (fmt path w fd td short))
    (hkey : ∀ s ∈ p.subjects, ∀ w, Subject.target P m s.2 = some w → s.1 = .plain →
      EndsOnlyIf V (C (.plain, w)) (key w)) :
    EndsOnlyIf V (∀ s ∈ p.subjects, ∀ w, Subject.target P m s.2 = some w → C (s.1, w))
      (runSpanPiece P m fmt key p) := by
  have hcall (c : Call ι ν) (hc : (Mode.spanned, c.subject) ∈ p.subjects) (path : Path) :
      EndsOnlyIf V (∀ w, Subject.target P m c.subject = some w → C (.spanned, w))
        (formatCall P m (fmt path) c) :=
    endsOnlyIf_formatCall fun w hw => hfmt _ hc w hw rfl path _ _ _
  have hone {c : Call ι ν} (h : ∀ w, Subject.target P m c.subject = some w → C (.spanned, w)) :
      ∀ s ∈ [((.spanned, c.subject) : SiteSubject ι ν)], ∀ w,
        Subject.target P m s.2 = some w → C (s.1, w) := by
    intro s hs
    cases List.mem_singleton.mp hs
    exact h
  cases p with
  | text s => exact (endsOnlyIf_write s).mono (by simp [SpanPiece.subjects])
  | call path c => exact (hcall c (List.mem_singleton_self _) path).mono hone
  | elem path c =>
    apply Shows.bind_left
      (endsOnlyIf_spanOf ((hcall c (List.mem_singleton_self _) path).mono hone))
    exact fun span => endsOnlyIf_recordFieldSpan path span span
  | field path name c =>
    apply Shows.bind_right (endsOnlyIf_spanOf (endsOnlyIf_write name))
    intro key
    apply Shows.bind_right (endsOnlyIf_write ": ")
    intro _
    apply Shows.bind_left
      (endsOnlyIf_spanOf ((hcall c (List.mem_singleton_self _) path).mono hone))
    exact fun value => endsOnlyIf_recordFieldSpan path key value
  | entry path k value =>
    have hk := hkey (.plain, direct k.value) (by simp [SpanPiece.subjects]) k.value rfl rfl
    have hk' := endsOnlyIf_spanOf (hcall k (by simp [SpanPiece.subjects]) [])
    have hv (text : String) :=
      endsOnlyIf_spanOf (hcall value (by simp [SpanPiece.subjects]) (path ++ [.key text]))
    have hrun := hk'.bind fun keySpan =>
      Shows.bind_right (endsOnlyIf_write ": ") fun _ =>
        hk.bind fun text =>
          (hv text).bind_left fun valueSpan =>
            endsOnlyIf_recordFieldSpan (path ++ [.key text]) keySpan valueSpan
    apply hrun.mono
    rintro ⟨hspanned, hplain, hvalue⟩ s hs w hw
    simp only [SpanPiece.subjects, List.mem_cons, List.not_mem_nil, or_false] at hs
    obtain rfl | rfl | rfl := hs
    · exact hspanned w hw
    · cases hw
      exact hplain
    · exact hvalue w hw

theorem endsOnlyIf_formatUnified (fuel : ℕ) (above : List ν) (path : Path)
    (hx : Unrepeated P pp m (.spanned, v))
    (hV : ∀ y, ReflTransGen (Step P pp m) (.spanned, v) y → V y.2 = none) (fd td : ℕ)
    (short : Bool) :
    EndsOnlyIf V (ChunkinessTerminates P pp m (.spanned, v))
      (formatUnified P pp m fuel above path v fd td short) := by
  induction fuel generalizing above path v fd td short V with
  | zero =>
    intro st a st' _ hrun
    cases hrun
  | succ fuel ih =>
    apply Shows.lift_bind
    intro w hw
    apply Shows.lift_bind
    intro u hu
    have hinner := innermost_of_derefPointers hw (innermost_of_innermostPeek hu)
    have hdesc := hinner.descends pp .spanned
    have hunrep := hx.descends hdesc
    have hfree : ∀ z, ReflTransGen (Step P pp m) (.spanned, u) z → V z.2 = none ∧ z.2 ∉ [] :=
      fun z hz => ⟨hV z (hdesc.trans hz), List.not_mem_nil⟩
    have hbody : EndsOnlyIf (Function.update V u (some td))
        (ChunkinessTerminates P pp m (.spanned, u))
        (do
          let ps ← unifiedPieces P pp m fuel u fd td short path
          ps.forM (runSpanPiece P m (formatUnified P pp m fuel (u :: above))
            (formatKey P pp m fuel (u :: above)))) := by
      apply Shows.lift_bind
      intro ps hps
      apply (Shows.forM (C := fun p : SpanPiece ι ν => ∀ s ∈ p.subjects, ∀ w,
        Subject.target P m s.2 = some w → ChunkinessTerminates P pp m (s.1, w)) ?_).mono
      · intro hparts
        apply ChunkinessTerminates.of_parts fun s => measured_of_unifiedPieces hps
        intro y hy
        cases hy with
        | through hlook =>
          rw [hinner.lookThrough] at hlook
          cases hlook
        | part _ hs hw =>
          simp only [siteSubjects] at hs
          rw [← spanSubjects_unifiedPieces P pp m hps] at hs
          obtain ⟨p, hp, hs⟩ := List.mem_flatMap.mp hs
          exact hparts p hp _ hs _ hw
      · intro p hp
        have hstep {s : SiteSubject ι ν} (hs : s ∈ p.subjects) {w : ν}
            (hw : Subject.target P m s.2 = some w) : Step P pp m (.spanned, u) (s.1, w) :=
          .part hinner.lookThrough (subjects_subset_siteSubjects_spanned hps hp hs) hw
        apply endsOnlyIf_runSpanPiece
        · rintro ⟨mode, s⟩ hs w hw rfl path fd td short
          exact ih (u :: above) path (hunrep.descends (.single (hstep hs hw)))
            (fun z hz => (parts_free _ hunrep hfree (hstep hs hw) z hz).1) fd td short
        · rintro ⟨mode, s⟩ hs w hw rfl
          exact endsOnlyIf_formatKey fuel (u :: above) (hunrep.descends (.single (hstep hs hw)))
    have hguarded : EndsOnlyIf V (ChunkinessTerminates P pp m (.spanned, v))
        (guarded above u td (unifiedCycleText P m u) _) :=
      (endsOnlyIf_guarded (hfree _ .refl).1 hbody).mono fun h => h.of_innermost hinner
    exact (endsOnlyIf_spanOf hguarded).bind_left fun span =>
      endsOnlyIf_recordFieldSpan path span span

end Runs

end Facet.Pretty
