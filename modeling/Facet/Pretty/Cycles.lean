import Facet.Pretty.CleanRuns

/-!
# Formatting cyclic values

The branch that writes the cycle marker takes the value out of the visited map although
it is still being formatted. So formatting keeps its map, and is known to end, exactly
for the values that have no cycle below them; a node with two references to itself is
formatted forever.
-/

namespace Facet.Pretty

open Filter OptionState Relation

variable {ι ν : Type}

/-- Records of finished calls are only added. -/
def Grows (st st' : PrintState ν) : Prop := st.visits <+: st'.visits

theorem grows_frame : Frame (fun _ : PrintState ν => True) Grows where
  refl st := List.prefix_refl st.visits
  trans := List.IsPrefix.trans
  stable _ _ := trivial

/-- All calls finished so far were clean. -/
def AllClean (st : PrintState ν) : Prop := ∀ x ∈ st.visits, x.Clean

theorem AllClean.of_grows {st st' : PrintState ν} (h : AllClean st') (hg : Grows st st') :
    AllClean st :=
  fun x hx => h x (hg.subset hx)

section Grows

variable {P : Program ι ν} {m : Memory ι ν}

theorem write_grows (text : String) : Keeps Grows (write text : Print ν Unit) :=
  .modify fun st => List.prefix_refl st.visits

theorem recordFieldSpan_grows (path : Path) (key value : ℕ × ℕ) :
    Keeps Grows (recordFieldSpan path key value : Print ν Unit) :=
  .modify fun st => List.prefix_refl st.visits

theorem position_grows : Keeps Grows (position : Print ν ℕ) := by
  rintro st _ _ ⟨⟩
  exact List.prefix_refl st.visits

theorem spanOf_grows {step : Print ν Unit} (h : Keeps Grows step) : Keeps Grows (spanOf step) :=
  .bind grows_frame position_grows fun _ =>
    .bind grows_frame h fun _ => .bind grows_frame position_grows fun _ => .pure grows_frame _

theorem formatCall_grows {fmt : Formatter ν} (h : ∀ w fd td short, Keeps Grows (fmt w fd td short))
    (c : Call ι ν) : Keeps Grows (formatCall P m fmt c) := by
  unfold formatCall
  split
  · exact h _ _ _ _
  · split
    · split
      · exact h _ _ _ _
      · exact write_grows _
    · exact write_grows _

theorem guarded_grows [DecidableEq ν] {above : List ν} {v : ν} {td : ℕ} {cycle : ℕ → String}
    {body : Print ν Unit} (h : Keeps Grows body) : Keeps Grows (guarded above v td cycle body) := by
  intro st u st'' hrun
  obtain ⟨before, s, hget, hrun⟩ := bind_some.1 hrun
  cases hget
  obtain ⟨_, s, hmark, hrun⟩ := bind_some.1 hrun
  cases hmark
  obtain ⟨_, st', hbody, hrun⟩ := bind_some.1 hrun
  cases hrun
  have hst' : Grows { st with visited := Function.update st.visited v (some td) } st' := by
    cases hv : st.visited v with
    | some prev =>
      simp only [hv] at hbody
      exact write_grows _ _ _ _ hbody
    | none =>
      simp only [hv] at hbody
      exact h _ _ _ hbody
  exact List.IsPrefix.trans hst' (List.prefix_append _ _)

/-- A guarded call in a clean run has found its value unmarked and run its body. -/
theorem guarded_inv [DecidableEq ν] {above : List ν} {v : ν} {td : ℕ} {cycle : ℕ → String}
    {body : Print ν Unit} {st st'' : PrintState ν} {u : Unit}
    (hrun : guarded above v td cycle body st = some (u, st'')) (hclean : AllClean st'') :
    v ∉ above ∧ ∃ s u s', body s = some (u, s') ∧ Grows s' st'' := by
  obtain ⟨before, s, hget, hrun⟩ := bind_some.1 hrun
  cases hget
  obtain ⟨_, s, hmark, hrun⟩ := bind_some.1 hrun
  cases hmark
  obtain ⟨w, st', hbody, hrun⟩ := bind_some.1 hrun
  cases hrun
  have hlast := hclean _ (List.mem_append_right _ (List.mem_singleton_self _))
  cases hv : st.visited v with
  | some prev =>
    -- the marker's branch has removed a mark that was there before
    have hafter := congrFun hlast.1 v
    simp [hv] at hafter
  | none =>
    simp only [hv] at hbody
    refine ⟨fun hmem => ?_, _, w, st', hbody, List.prefix_append _ _⟩
    have hmarked := hlast.2 hmem
    simp [hv] at hmarked

theorem formatCall_inv {fmt : Formatter ν} {c : Call ι ν} {s s' : PrintState ν} {u : Unit} {w : ν}
    (hrun : formatCall P m fmt c s = some (u, s'))
    (hw : Subject.target P m c.subject = some w) :
    fmt w c.formatDepth c.typeDepth c.short s = some (u, s') := by
  unfold formatCall at hrun
  simp only [Subject.target, Call.subject] at hw
  cases hp : c.proxy with
  | none =>
    simp only [hp] at hrun hw
    cases hw
    exact hrun
  | some p =>
    simp only [hp] at hrun hw
    split at hw
    · next hsized =>
      cases hconv : m.convertOut c.value p with
      | ok proxy =>
        simp only [hconv, Except.toOption] at hw
        cases hw
        simpa only [hsized, hconv, if_true] using hrun
      | error msg => simp [hconv, Except.toOption] at hw
    · cases hw

theorem runSpanPiece_grows {fmt : Path → Formatter ν} {formatKey : ν → Print ν String}
    (h : ∀ path w fd td short, Keeps Grows (fmt path w fd td short))
    (hkey : ∀ key, Keeps Grows (formatKey key)) (p : SpanPiece ι ν) :
    Keeps Grows (runSpanPiece P m fmt formatKey p) := by
  have hcall (path : Path) (c : Call ι ν) : Keeps Grows (formatCall P m (fmt path) c) :=
    formatCall_grows (h path) c
  cases p with
  | text s => exact write_grows s
  | call path c => exact hcall path c
  | elem path c =>
    exact .bind grows_frame (spanOf_grows (hcall path c)) fun span =>
      recordFieldSpan_grows path span span
  | field path name c =>
    refine .bind grows_frame (spanOf_grows (write_grows name)) fun key => ?_
    refine .bind grows_frame (write_grows _) fun _ => ?_
    exact .bind grows_frame (spanOf_grows (hcall path c)) fun value =>
      recordFieldSpan_grows path key value
  | entry path key value =>
    refine .bind grows_frame (spanOf_grows (hcall [] key)) fun keySpan => ?_
    refine .bind grows_frame (write_grows _) fun _ => ?_
    refine .bind grows_frame (hkey key.value) fun text => ?_
    exact .bind grows_frame (spanOf_grows (hcall _ value)) fun valueSpan =>
      recordFieldSpan_grows _ keySpan valueSpan

variable [DecidableEq ι] [DecidableEq ν] {pp : PrettyPrinter ι}

theorem formatPeekInternal_grows (fuel : ℕ) (above : List ν) (v : ν) (fd td : ℕ) (short : Bool) :
    Keeps Grows (formatPeekInternal P pp m fuel above v fd td short) := by
  induction fuel generalizing above v fd td short with
  | zero => rintro _ _ _ ⟨⟩
  | succ fuel ih =>
    refine .bind grows_frame (.lift grows_frame _) fun w => ?_
    refine .bind grows_frame (.lift grows_frame _) fun u => guarded_grows ?_
    refine .bind grows_frame (.lift grows_frame _) fun ps => .forM grows_frame fun p _ => ?_
    cases p with
    | text s => exact write_grows s
    | call c => exact formatCall_grows (fun w fd td short => ih _ w fd td short) c

theorem formatKey_grows (fuel : ℕ) (above : List ν) (key : ν) :
    Keeps Grows (formatKey P pp m fuel above key) := by
  refine .bind grows_frame (.lift grows_frame _) fun r => ?_
  exact .bind grows_frame (.modify fun st => List.prefix_append _ _) fun _ => .pure grows_frame _

theorem formatUnified_grows (fuel : ℕ) (above : List ν) (path : Path) (v : ν) (fd td : ℕ)
    (short : Bool) : Keeps Grows (formatUnified P pp m fuel above path v fd td short) := by
  induction fuel generalizing above path v fd td short with
  | zero => rintro _ _ _ ⟨⟩
  | succ fuel ih =>
    refine .bind grows_frame (.lift grows_frame _) fun w => ?_
    refine .bind grows_frame (.lift grows_frame _) fun u => ?_
    refine .bind grows_frame (spanOf_grows (guarded_grows ?_)) fun span =>
      recordFieldSpan_grows path span span
    refine .bind grows_frame (.lift grows_frame _) fun ps => .forM grows_frame fun p _ => ?_
    exact runSpanPiece_grows (fun path w fd td short => ih _ path w fd td short)
      (formatKey_grows fuel _) p

end Grows

section Cyclic

variable [DecidableEq ι] [DecidableEq ν]
variable (P : Program ι ν) (pp : PrettyPrinter ι) (m : Memory ι ν)

/-- Somewhere in a clean run the site has been formatted, below the given values. -/
def FormattedCleanly (fuel : ℕ) (above : List ν) (x : Site ν) : Prop :=
  ∃ path fd td short st st', formatSite P pp m fuel above x path fd td short st = some ((), st') ∧
    AllClean st'

/-- Nothing below the site is being formatted already, and nothing comes again. -/
def FreshBelow (above : List ν) (x : Site ν) : Prop :=
  (∀ y, ReflTransGen (Step P pp m) x y → lookThrough P m y.2 = none → y.2 ∉ above) ∧
    Unrepeated P pp m x

variable {P pp m}

theorem formattedCleanly_call (mode : Mode) (path : Path) {fuel : ℕ} {above : List ν}
    {c : Call ι ν} {w : ν} {s s' : PrintState ν} (hw : Subject.target P m c.subject = some w)
    (hrun : formatCall P m
      (fun v fd td short => formatSite P pp m fuel above (mode, v) path fd td short) c s
        = some ((), s')) (hclean : AllClean s') :
    FormattedCleanly P pp m fuel above (mode, w) :=
  ⟨path, _, _, _, s, s', formatCall_inv hrun hw, hclean⟩

/-- A value that was formatted cleanly is innermost somewhere, was not being formatted, and
its parts were formatted cleanly below it. -/
theorem formattedCleanly_plain {fuel : ℕ} {above : List ν} {v : ν}
    (h : FormattedCleanly P pp m (fuel + 1) above (.plain, v)) :
    ∃ u, Innermost P m v u ∧ u ∉ above ∧
      ∀ y, Step P pp m (.plain, u) y → FormattedCleanly P pp m fuel (u :: above) y := by
  obtain ⟨path, fd, td, short, st, st', hrun, hclean⟩ := h
  obtain ⟨w, s, hw, hrun⟩ := bind_some.1 hrun
  obtain ⟨u, s, hu, hrun⟩ := bind_some.1 hrun
  have hinner := innermost_of_derefPointers (lift_some.1 hw).1
    (innermost_of_innermostPeek (lift_some.1 hu).1)
  obtain ⟨hnotin, s, _, s', hbody, hgrows⟩ := guarded_inv hrun hclean
  obtain ⟨ps, t, hps, hbody⟩ := bind_some.1 hbody
  refine ⟨u, hinner, hnotin, fun y hy => ?_⟩
  cases hy with
  | through hlook => rw [hinner.lookThrough] at hlook; cases hlook
  | part _ hs hw =>
    simp only [siteSubjects, List.mem_map, Prod.mk.injEq] at hs
    obtain ⟨subj, hsubj, rfl, rfl⟩ := hs
    rw [← subjects_pieces P pp m (lift_some.1 hps).1] at hsubj
    obtain ⟨p, hp, hpsubj⟩ := List.mem_filterMap.1 hsubj
    obtain ⟨r, _, r', hpiece, hgrows'⟩ := forM_some grows_frame
      (f := runPiece P m (formatPeekInternal P pp m fuel (u :: above))) (fun p _ => by
        cases p with
        | text s => exact write_grows s
        | call c => exact formatCall_grows (formatPeekInternal_grows fuel _) c) hbody p hp
    cases p with
    | text s => cases hpsubj
    | call c =>
      cases hpsubj
      exact formattedCleanly_call .plain [] hw hpiece
        (hclean.of_grows (grows_frame.trans hgrows' hgrows))

omit [DecidableEq ν] in
theorem spanOf_inv {step : Print ν Unit} {s s' : PrintState ν} {span : ℕ × ℕ}
    (h : spanOf step s = some (span, s')) : step s = some ((), s') := by
  obtain ⟨start, t, hstart, h⟩ := bind_some.1 h
  cases hstart
  obtain ⟨⟨⟩, t, hstep, h⟩ := bind_some.1 h
  obtain ⟨stop, t', hstop, h⟩ := bind_some.1 h
  cases hstop
  cases h
  exact hstep

theorem formatKey_inv {fuel : ℕ} {above : List ν} {key : ν} {s s' : PrintState ν} {text : String}
    (h : formatKey P pp m fuel above key s = some (text, s')) (hclean : AllClean s') :
    FormattedCleanly P pp m fuel above (.plain, key) := by
  obtain ⟨⟨⟨⟩, st⟩, t, hrun, h⟩ := bind_some.1 h
  obtain ⟨hst, -⟩ := lift_some.1 hrun
  cases h
  exact ⟨[], 0, 0, false, {}, st, hst, fun x hx => hclean x (List.mem_append_right _ hx)⟩

theorem runSpanPiece_inv {fuel : ℕ} {above : List ν} {p : SpanPiece ι ν} {s s' : PrintState ν}
    (hrun : runSpanPiece P m (formatUnified P pp m fuel above) (formatKey P pp m fuel above) p s
      = some ((), s')) (hclean : AllClean s') {mode : Mode} {subj : Subject ι ν} {w : ν}
    (hs : (mode, subj) ∈ p.subjects) (hw : Subject.target P m subj = some w) :
    FormattedCleanly P pp m fuel above (mode, w) := by
  have hgrows (path : Path) (c : Call ι ν) :
      Keeps Grows (formatCall P m (formatUnified P pp m fuel above path) c) :=
    formatCall_grows (formatUnified_grows fuel above path) c
  cases p with
  | text s => cases hs
  | call path c =>
    cases List.mem_singleton.1 hs
    exact formattedCleanly_call .spanned _ hw hrun hclean
  | elem path c =>
    cases List.mem_singleton.1 hs
    obtain ⟨span, t, hspan, hrun⟩ := bind_some.1 hrun
    have ht := hclean.of_grows (recordFieldSpan_grows path span span _ _ _ hrun)
    exact formattedCleanly_call .spanned _ hw (spanOf_inv hspan) ht
  | field path name c =>
    cases List.mem_singleton.1 hs
    obtain ⟨key, t₁, -, hrun⟩ := bind_some.1 hrun
    obtain ⟨_, t₂, -, hrun⟩ := bind_some.1 hrun
    obtain ⟨value, t₃, hvalue, hrun⟩ := bind_some.1 hrun
    have ht := hclean.of_grows (recordFieldSpan_grows path key value _ _ _ hrun)
    exact formattedCleanly_call .spanned _ hw (spanOf_inv hvalue) ht
  | entry path key value =>
    obtain ⟨keySpan, t₁, hkey, hrun⟩ := bind_some.1 hrun
    obtain ⟨_, t₂, hcolon, hrun⟩ := bind_some.1 hrun
    obtain ⟨text, t₃, htext, hrun⟩ := bind_some.1 hrun
    obtain ⟨valueSpan, t₄, hvalue, hrun⟩ := bind_some.1 hrun
    -- what was clean in the end was clean after every step on the way
    have h₄ := hclean.of_grows (recordFieldSpan_grows _ keySpan valueSpan _ _ _ hrun)
    have h₃ := h₄.of_grows (spanOf_grows (hgrows _ value) _ _ _ hvalue)
    have h₂ := h₃.of_grows (formatKey_grows fuel above key.value _ _ _ htext)
    have h₁ := h₂.of_grows (write_grows _ _ _ _ hcolon)
    simp only [SpanPiece.subjects, List.mem_cons, List.not_mem_nil, or_false,
      Prod.mk.injEq] at hs
    rcases hs with ⟨rfl, rfl⟩ | ⟨rfl, rfl⟩ | ⟨rfl, rfl⟩
    · exact formattedCleanly_call .spanned _ hw (spanOf_inv hkey) h₁
    · cases hw
      exact formatKey_inv htext h₃
    · exact formattedCleanly_call .spanned _ hw (spanOf_inv hvalue) h₄

theorem formattedCleanly_spanned {fuel : ℕ} {above : List ν} {v : ν}
    (h : FormattedCleanly P pp m (fuel + 1) above (.spanned, v)) :
    ∃ u, Innermost P m v u ∧ u ∉ above ∧
      ∀ y, Step P pp m (.spanned, u) y → FormattedCleanly P pp m fuel (u :: above) y := by
  obtain ⟨path, fd, td, short, st, st', hrun, hclean⟩ := h
  obtain ⟨w, s, hw, hrun⟩ := bind_some.1 hrun
  obtain ⟨u, s, hu, hrun⟩ := bind_some.1 hrun
  have hinner := innermost_of_derefPointers (lift_some.1 hw).1
    (innermost_of_innermostPeek (lift_some.1 hu).1)
  obtain ⟨span, s₁, hspan, hrun⟩ := bind_some.1 hrun
  have hclean₁ := hclean.of_grows (recordFieldSpan_grows path span span _ _ _ hrun)
  obtain ⟨hnotin, s, _, s', hbody, hgrows⟩ := guarded_inv (spanOf_inv hspan) hclean₁
  obtain ⟨ps, t, hps, hbody⟩ := bind_some.1 hbody
  refine ⟨u, hinner, hnotin, fun y hy => ?_⟩
  cases hy with
  | through hlook => rw [hinner.lookThrough] at hlook; cases hlook
  | part _ hs hw =>
    simp only [siteSubjects] at hs
    rw [← spanSubjects_unifiedPieces P pp m (lift_some.1 hps).1] at hs
    obtain ⟨p, hp, hpsubj⟩ := List.mem_flatMap.1 hs
    obtain ⟨r, _, r', hpiece, hgrows'⟩ := forM_some grows_frame
      (fun p _ => runSpanPiece_grows (fun path w fd td short =>
        formatUnified_grows fuel (u :: above) path w fd td short)
        (formatKey_grows fuel (u :: above)) p) hbody p hp
    exact runSpanPiece_inv hpiece (hclean₁.of_grows (grows_frame.trans hgrows' hgrows)) hpsubj hw

omit [DecidableEq ν] in
theorem freshBelow_of_parts {above : List ν} {mode : Mode} {u v : ν} (hinner : Innermost P m v u)
    (hnotin : u ∉ above)
    (hparts : ∀ y, Step P pp m (mode, u) y → FreshBelow P pp m (u :: above) y) :
    FreshBelow P pp m above (mode, v) := by
  induction hinner with
  | @here v hlook =>
    have hbelow (y : Site ν) (hy : TransGen (Step P pp m) (mode, v) y) :
        (lookThrough P m y.2 = none → y.2 ∉ v :: above) ∧ Unrepeated P pp m y := by
      obtain ⟨z, hz, hzy⟩ := TransGen.head'_iff.1 hy
      obtain ⟨hfresh, hunrep⟩ := hparts z hz
      exact ⟨hfresh y hzy, hunrep.descends hzy⟩
    constructor
    · intro y hy hnone
      cases reflTransGen_iff_eq_or_transGen.1 hy with
      | inl heq =>
        subst heq
        exact hnotin
      | inr hy => exact fun hmem => (hbelow y hy).1 hnone (List.mem_cons_of_mem v hmem)
    · intro y hy z hz
      cases reflTransGen_iff_eq_or_transGen.1 hy with
      | inl heq =>
        subst heq
        intro heq
        have hnone : lookThrough P m z.2 = none := by rw [heq]; exact hlook
        exact (hbelow z hz).1 hnone (by rw [heq]; exact List.mem_cons_self)
      | inr hy => exact (hbelow y hy).2 y .refl z hz
  | @through v w u hlook _ ih =>
    obtain ⟨hfresh, hunrep⟩ := ih hnotin hparts
    -- a pointer or a wrapper has a single way on
    have hnext {y : Site ν} (hy : Step P pp m (mode, v) y) : y = (mode, w) := by
      cases hy with
      | through h =>
        rw [hlook] at h
        cases h
        rfl
      | part h => rw [hlook] at h; cases h
    have hbelow {y : Site ν} (hy : TransGen (Step P pp m) (mode, v) y) :
        ReflTransGen (Step P pp m) (mode, w) y := by
      obtain ⟨z, hz, hzy⟩ := TransGen.head'_iff.1 hy
      rw [hnext hz] at hzy
      exact hzy
    constructor
    · intro y hy hnone
      cases reflTransGen_iff_eq_or_transGen.1 hy with
      | inl heq =>
        subst heq
        rw [hlook] at hnone
        cases hnone
      | inr hy => exact hfresh y (hbelow hy) hnone
    · intro y hy z hz
      cases reflTransGen_iff_eq_or_transGen.1 hy with
      | inl heq =>
        subst heq
        intro heq
        -- coming back to the pointer means coming back to what it points to
        have hagain : Step P pp m z (z.1, w) := by
          obtain ⟨mode', v'⟩ := z
          cases heq
          exact .through hlook
        exact hunrep (mode, w) .refl (z.1, w) (.tail' (hbelow hz) hagain) rfl
      | inr hy => exact hunrep y (hbelow hy) z hz

/-- A site that was formatted cleanly has nothing below it that comes again. -/
theorem FormattedCleanly.freshBelow {fuel : ℕ} {above : List ν} {x : Site ν}
    (h : FormattedCleanly P pp m fuel above x) : FreshBelow P pp m above x := by
  induction fuel generalizing above x with
  | zero =>
    obtain ⟨mode, v⟩ := x
    obtain ⟨path, fd, td, short, st, st', hrun, -⟩ := h
    cases mode <;> cases hrun
  | succ fuel ih =>
    obtain ⟨mode, v⟩ := x
    cases mode with
    | plain =>
      obtain ⟨u, hinner, hnotin, hparts⟩ := formattedCleanly_plain h
      exact freshBelow_of_parts hinner hnotin fun y hy => ih (hparts y hy)
    | spanned =>
      obtain ⟨u, hinner, hnotin, hparts⟩ := formattedCleanly_spanned h
      exact freshBelow_of_parts hinner hnotin fun y hy => ih (hparts y hy)

end Cyclic

section EntryPoints

variable [DecidableEq ι] [DecidableEq ν]
variable (P : Program ι ν) (pp : PrettyPrinter ι) (m : Memory ι ν)

/-- Formatting the site from scratch ends; in every call a value that is being formatted
higher up gets the cycle marker, and the visited map is put back. -/
def FormatsCyclesCleanly (x : Site ν) : Prop :=
  ∀ᶠ fuel in atTop, ∃ st, formatSite P pp m fuel [] x [] 0 0 false {} = some ((), st) ∧
    AllClean st ∧ st.visited = fun _ => none

/-- Formatting ends and keeps its visited map exactly for the values that do not come again
below themselves. -/
theorem formatsCyclesCleanly_iff [Finite ν] {x : Site ν} (hchunk : ChunkinessTerminates P pp m x) :
    FormatsCyclesCleanly P pp m x ↔ Unrepeated P pp m x := by
  constructor
  · intro h
    obtain ⟨fuel, st, hrun, hclean, -⟩ := h.exists
    have hx : FormattedCleanly P pp m fuel [] x := ⟨[], 0, 0, false, {}, st, hrun, hclean⟩
    exact hx.freshBelow.2
  · intro h
    filter_upwards [eventually_cleanAt hchunk h] with fuel hfuel
    obtain ⟨_, st, hrun, hvis, new, hnew, hclean⟩ :=
      hfuel [] [] 0 0 false (fun _ => none) (fun y _ => ⟨rfl, by simp⟩) {} rfl
    refine ⟨st, hrun, fun r hr => hclean r ?_, hvis⟩
    rw [hnew] at hr
    simpa using hr

end EntryPoints

section Link

inductive LinkType
  | node
  | link
  | string
  | u8
  | address
  deriving DecidableEq

inductive LinkValue
  | node
  | left
  | right
  deriving DecidableEq

def linkProgram : Program LinkType LinkValue where
  shapes
    | .node =>
      { ty := .user (.struct ⟨.struct, [{ name := "left", shape := .link },
          { name := "right", shape := .link }]⟩)
        «def» := .undefined
        typeName := "Node" }
    | .link => { ty := .pointer (.reference .node), «def» := .pointer (some .node) }
    | _ => { ty := .user .opaqueTy, «def» := .scalar }
  stringShape := .string
  u8Shape := .u8
  constPtrShape := .address
  valueId _ := "Node@0x1000"
  escapeDebug s := s

/-- `static NODE: Node = Node { left: &NODE, right: &NODE };` -/
def linkMemory : Memory LinkType LinkValue where
  view
    | .node => { shape := .node, field := fun i => if i = 0 then .left else .right }
    | _ => { shape := .link, field := fun _ => .node, pointee := some .node }
  convertOut _ _ := .error ""

theorem linkProgram_chunkiness (root : Site LinkValue) :
    ChunkinessTerminates linkProgram {} linkMemory root := by
  rintro ⟨mode, v⟩ - - s h
  cases h with
  | list _ harm | map _ harm | spannedList _ harm => cases v <;> cases harm

instance : Finite LinkValue :=
  Finite.of_injective (fun v => match v with | .node => (0 : Fin 3) | .left => 1 | .right => 2) (by
    rintro ⟨⟩ ⟨⟩ h <;> first | rfl | cases h)

inductive SharedType
  | pair
  | reference
  | u8
  | string
  | address
  deriving DecidableEq

inductive SharedValue
  | pair
  | first
  | second
  | byte
  deriving DecidableEq

/-- A pair of the type `(&u8, &u8)`. -/
def sharedProgram : Program SharedType SharedValue where
  shapes
    | .pair =>
      { ty := .user (.struct ⟨.tuple, [{ name := "0", shape := .reference },
          { name := "1", shape := .reference }]⟩)
        «def» := .undefined
        typeName := "(&u8, &u8)" }
    | .reference =>
      { ty := .pointer (.reference .u8), «def» := .pointer (some .u8), typeName := "&u8" }
    | .u8 => { ty := .primitive .numeric, «def» := .scalar, typeName := "u8", isDisplay := true }
    | _ => { ty := .user .opaqueTy, «def» := .scalar }
  stringShape := .string
  u8Shape := .u8
  constPtrShape := .address
  valueId _ := "u8@0x1000"
  escapeDebug s := s

/-- Both references are to the same byte. -/
def sharedMemory : Memory SharedType SharedValue where
  view
    | .pair => { shape := .pair, field := fun i => if i = 0 then .first else .second }
    | .byte => { shape := .u8, field := fun _ => .byte, display := "7" }
    | _ => { shape := .reference, field := fun _ => .byte, pointee := some .byte }
  convertOut _ _ := .error ""

theorem sharedProgram_chunkiness (root : Site SharedValue) :
    ChunkinessTerminates sharedProgram {} sharedMemory root := by
  rintro ⟨mode, v⟩ - - s h
  cases h with
  | list _ harm | map _ harm | spannedList _ harm => cases v <;> cases harm

def sharedRank : SharedValue → ℕ
  | .pair => 2
  | .first | .second => 1
  | .byte => 0

instance : Finite SharedValue :=
  Finite.of_injective (fun v => match v with
    | .pair => (0 : Fin 4) | .first => 1 | .second => 2 | .byte => 3) (by
      rintro ⟨⟩ ⟨⟩ h <;> first | rfl | cases h)

theorem shared_unrepeated : Unrepeated sharedProgram {} sharedMemory (.plain, .pair) := by
  have hlook : ∀ v w, lookThrough sharedProgram sharedMemory v = some w →
      sharedRank w < sharedRank v := by
    intro v w
    cases v <;> cases w <;> decide
  have hparts : ∀ mode v, ∀ e ∈ siteSubjects sharedProgram {} sharedMemory (mode, v),
      e.2.2 = none ∧ sharedRank e.2.1 < sharedRank v := by
    intro mode v
    cases mode <;> cases v <;> decide
  apply unrepeated_of_rank sharedRank
  intro x y hstep
  cases hstep with
  | through hv => exact hlook _ _ hv
  | part _ hs hw =>
    obtain ⟨hnone, hless⟩ := hparts _ _ _ hs
    rw [Subject.target, hnone] at hw
    cases hw
    exact hless

/-- A node with references to itself is not formatted cleanly, two references to one byte are. -/
theorem formatsCyclesCleanly_iff_shared :
    (FormatsCyclesCleanly linkProgram {} linkMemory (.plain, .node) ↔
        Unrepeated linkProgram {} linkMemory (.plain, .node)) ∧
      FormatsCyclesCleanly sharedProgram {} sharedMemory (.plain, .pair) :=
  ⟨formatsCyclesCleanly_iff linkProgram {} linkMemory (linkProgram_chunkiness _),
    (formatsCyclesCleanly_iff sharedProgram {} sharedMemory (sharedProgram_chunkiness _)).mpr
      shared_unrepeated⟩

theorem linkInnermost {v u : LinkValue} (h : Innermost linkProgram linkMemory v u) : u = .node := by
  have hnone := h.lookThrough
  cases u <;> first | rfl | cases hnone

theorem guarded_unmarks {ν : Type} [DecidableEq ν] {above : List ν} {v : ν} {td : ℕ}
    {cycle : ℕ → String} {body : Print ν Unit} {st st' : PrintState ν} {u : Unit}
    (h : guarded above v td cycle body st = some (u, st')) : st'.visited v = none := by
  obtain ⟨before, s, hget, h⟩ := bind_some.1 h
  obtain ⟨_, s', hmark, h⟩ := bind_some.1 h
  obtain ⟨_, t, hbody, h⟩ := bind_some.1 h
  cases h
  exact Function.update_self v none t.visited

theorem linkRun_unmarks {fuel : ℕ} {above : List LinkValue} {v : LinkValue} {fd td : ℕ}
    {short : Bool} {st st' : PrintState LinkValue}
    (h : formatPeekInternal linkProgram {} linkMemory fuel above v fd td short st
      = some ((), st')) : st'.visited .node = none := by
  cases fuel with
  | zero => cases h
  | succ fuel =>
    obtain ⟨w, s, hw, h⟩ := bind_some.1 h
    obtain ⟨u, s, hu, h⟩ := bind_some.1 h
    have hnode := linkInnermost (innermost_of_innermostPeek (lift_some.1 hu).1)
    subst hnode
    exact guarded_unmarks h

/-- With the node unmarked, formatting a reference to it does not end. -/
def LinkDiverges (fuel : ℕ) : Prop :=
  ∀ above v fd td short (st : PrintState LinkValue), st.visited .node = none →
    formatPeekInternal linkProgram {} linkMemory fuel above v fd td short st = none

section Runs

variable {fuel : ℕ} {above : List LinkValue} {u : Unit}

theorem linkCall_run {c : Call LinkType LinkValue} {st st' : PrintState LinkValue}
    (hc : c.proxy = none)
    (h : runPiece linkProgram linkMemory (formatPeekInternal linkProgram {} linkMemory fuel above)
      (.call c) st = some (u, st')) :
    formatPeekInternal linkProgram {} linkMemory fuel above c.value c.formatDepth c.typeDepth
      c.short st = some (u, st') :=
  formatCall_inv (P := linkProgram) (m := linkMemory) h (by simp [Subject.target, Call.subject, hc])

theorem linkPieces_unmarked (hdiv : LinkDiverges fuel) {ps : List (Piece LinkType LinkValue)}
    (hproxy : ∀ s ∈ subjects ps, s.2 = none) (hps : subjects ps ≠ [])
    {st st' : PrintState LinkValue} (hst : st.visited .node = none) :
    ps.forM (runPiece linkProgram linkMemory
      (formatPeekInternal linkProgram {} linkMemory fuel above)) st ≠ some (u, st') := by
  induction ps generalizing st with
  | nil => exact absurd rfl hps
  | cons p ps ih =>
    intro hrun
    obtain ⟨_, t, hp, h⟩ := bind_some.1 hrun
    cases p with
    | text s =>
      cases hp
      refine ih hproxy hps ?_ h
      exact hst
    | call c =>
      have hcall := linkCall_run (hproxy c.subject List.mem_cons_self) hp
      rw [hdiv _ _ _ _ _ _ hst] at hcall
      cases hcall

theorem linkPieces_twice (hdiv : LinkDiverges fuel) {ps : List (Piece LinkType LinkValue)}
    (hproxy : ∀ s ∈ subjects ps, s.2 = none) (hps : 2 ≤ (subjects ps).length)
    {st st' : PrintState LinkValue} :
    ps.forM (runPiece linkProgram linkMemory
      (formatPeekInternal linkProgram {} linkMemory fuel above)) st ≠ some (u, st') := by
  induction ps generalizing st with
  | nil => cases hps
  | cons p ps ih =>
    intro hrun
    obtain ⟨_, t, hp, h⟩ := bind_some.1 hrun
    cases p with
    | text s => exact ih hproxy hps h
    | call c =>
      have hcall := linkCall_run (hproxy c.subject List.mem_cons_self) hp
      have hmore : subjects ps ≠ [] := by
        intro hnil
        simp [hnil] at hps
      exact linkPieces_unmarked hdiv (fun s hs => hproxy s (List.mem_cons_of_mem _ hs)) hmore
        (linkRun_unmarks hcall) h

end Runs

theorem linkDiverges (fuel : ℕ) : LinkDiverges fuel := by
  induction fuel with
  | zero => exact fun _ _ _ _ _ _ _ => rfl
  | succ fuel ih =>
    intro above v fd td short st hst
    rw [Option.eq_none_iff_forall_ne_some]
    rintro ⟨⟨⟩, st'⟩ h
    obtain ⟨w, s, hw, h⟩ := bind_some.1 h
    obtain ⟨u, s', hu, h⟩ := bind_some.1 h
    obtain ⟨-, rfl⟩ := lift_some.1 hw
    obtain ⟨hpeek, rfl⟩ := lift_some.1 hu
    have hnode := linkInnermost (innermost_of_innermostPeek hpeek)
    subst hnode
    obtain ⟨before, s, hget, h⟩ := bind_some.1 h
    cases hget
    obtain ⟨_, s', hmark, h⟩ := bind_some.1 h
    obtain ⟨⟨⟩, t, hbody, h⟩ := bind_some.1 h
    simp only [hst] at hbody
    obtain ⟨ps, t', hps, hbody⟩ := bind_some.1 hbody
    have hsubjects := subjects_pieces linkProgram {} linkMemory (lift_some.1 hps).1
    have hlinks : valueSubjects linkProgram {} linkMemory .node
        = [(.left, none), (.right, none)] := rfl
    rw [hlinks] at hsubjects
    exact linkPieces_twice ih (by simp [hsubjects]) (by simp [hsubjects]) hbody

theorem node_not_formatsCyclesCleanly :
    ¬FormatsCyclesCleanly linkProgram {} linkMemory (.plain, .node) := by
  intro h
  obtain ⟨fuel, st, hrun, -⟩ := h.exists
  have hnone := linkDiverges fuel [] .node 0 0 false {} rfl
  rw [show formatSite linkProgram {} linkMemory fuel [] (.plain, .node) [] 0 0 false
    = formatPeekInternal linkProgram {} linkMemory fuel [] .node 0 0 false from rfl, hnone] at hrun
  cases hrun

end Link

end Facet.Pretty
