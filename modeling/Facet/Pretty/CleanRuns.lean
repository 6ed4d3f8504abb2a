import Facet.Lib.OptionState
import Facet.Pretty.Descent
import Mathlib.Data.Set.Finite.List
import Mathlib.Order.WellFounded
import Mathlib.Order.Filter.Finite

/-!
# Clean runs

The visited map is meant to hold the values that are being formatted higher up. A call
is clean when it puts the map back and does not enter such a value again. Values that do
not come again below themselves are formatted by clean calls only.
-/

namespace Facet.Pretty

open Filter OptionState Relation

variable {ι ν : Type}

/-- Following pointers and wrappers from the first value ends at the second one. -/
inductive Innermost (P : Program ι ν) (m : Memory ι ν) : ν → ν → Prop
  | here {v} (h : lookThrough P m v = none) : Innermost P m v v
  | through {v w u} (h : lookThrough P m v = some w) (hu : Innermost P m w u) :
      Innermost P m v u

section Innermost

variable {P : Program ι ν} {m : Memory ι ν} {u v w : ν}

theorem Innermost.lookThrough (h : Innermost P m v u) : lookThrough P m u = none := by
  induction h with
  | here h => exact h
  | through _ _ ih => exact ih

theorem Innermost.innermostPeek (h : Innermost P m v u) :
    ∀ᶠ fuel in atTop, innermostPeek P m fuel v = some u := by
  induction h with
  | here h =>
    rw [← eventually_add_iff 1]
    exact Eventually.of_forall fun fuel => by simp [Pretty.innermostPeek, h]
  | through h _ ih =>
    rw [← eventually_add_iff 1]
    filter_upwards [ih] with fuel hfuel
    simp [Pretty.innermostPeek, h, hfuel]

/-- The loop over pointers stops somewhere on the way to the innermost value. -/
theorem Innermost.derefPointers (h : Innermost P m v u) :
    ∃ w, (∀ᶠ fuel in atTop, derefPointers P m fuel v = some w) ∧ Innermost P m w u := by
  induction h with
  | @here v h =>
    refine ⟨v, ?_, .here h⟩
    rw [← eventually_add_iff 1]
    have hborrow : borrowInner P m v = none := by
      cases hb : borrowInner P m v with
      | none => rfl
      | some w => simp [lookThrough_of_borrowInner hb] at h
    exact Eventually.of_forall fun fuel => by simp [Pretty.derefPointers, hborrow]
  | @through v w u h hu ih =>
    cases hb : borrowInner P m v with
    | none =>
      refine ⟨v, ?_, .through h hu⟩
      rw [← eventually_add_iff 1]
      exact Eventually.of_forall fun fuel => by simp [Pretty.derefPointers, hb]
    | some w' =>
      have hw : w' = w := by
        rw [lookThrough_of_borrowInner hb] at h
        exact Option.some.inj h
      subst hw
      obtain ⟨x, hx, hxu⟩ := ih
      refine ⟨x, ?_, hxu⟩
      rw [← eventually_add_iff 1]
      filter_upwards [hx] with fuel hfuel
      simp [Pretty.derefPointers, hb, hfuel]

theorem Innermost.unique {u' : ν} (h : Innermost P m v u) (h' : Innermost P m v u') : u = u' := by
  induction h with
  | here hnone =>
    cases h' with
    | here => rfl
    | through hlook => rw [hnone] at hlook; cases hlook
  | through hlook _ ih =>
    cases h' with
    | here hnone => rw [hnone] at hlook; cases hlook
    | through hlook' h' =>
      rw [hlook] at hlook'
      cases hlook'
      exact ih h'

theorem innermost_of_innermostPeek {fuel : ℕ} (h : innermostPeek P m fuel v = some u) :
    Innermost P m v u := by
  induction fuel generalizing v with
  | zero => cases h
  | succ fuel ih =>
    simp only [innermostPeek] at h
    split at h
    · next w hw => exact .through hw (ih h)
    · next hnone =>
      cases h
      exact .here hnone

theorem innermost_of_derefPointers {fuel : ℕ} (h : derefPointers P m fuel v = some w)
    (hu : Innermost P m w u) : Innermost P m v u := by
  induction fuel generalizing v with
  | zero => cases h
  | succ fuel ih =>
    simp only [derefPointers] at h
    split at h
    · next x hx => exact .through (lookThrough_of_borrowInner hx) (ih h)
    · cases h
      exact hu

variable [DecidableEq ι]

theorem Innermost.descends (pp : PrettyPrinter ι) (mode : Mode) (h : Innermost P m v u) :
    ReflTransGen (Step P pp m) (mode, v) (mode, u) := by
  induction h with
  | here _ => exact .refl
  | through h _ ih => exact .head (.through h) ih

end Innermost

/-- The visited map was put back, and a value that is being formatted higher up got the
cycle marker instead of being entered again. -/
def Visit.Clean (x : Visit ν) : Prop :=
  x.after = x.before ∧ (x.value ∈ x.above → x.marked = true)

/-- The visited map is as before, and the calls finished in between were clean. -/
def Extends (st st' : PrintState ν) : Prop :=
  st'.visited = st.visited ∧ ∃ new, st'.visits = st.visits ++ new ∧ ∀ x ∈ new, x.Clean

theorem Extends.refl (st : PrintState ν) : Extends st st := ⟨rfl, [], by simp, by simp⟩

theorem Extends.trans {st st' st'' : PrintState ν} (h : Extends st st') (h' : Extends st' st'') :
    Extends st st'' := by
  obtain ⟨hvis, new, hnew, hclean⟩ := h
  obtain ⟨hvis', new', hnew', hclean'⟩ := h'
  refine ⟨hvis'.trans hvis, new ++ new', by rw [hnew', hnew, List.append_assoc], ?_⟩
  intro x hx
  exact (List.mem_append.1 hx).elim (hclean x) (hclean' x)

theorem extends_frame (V : ν → Option ℕ) :
    Frame (fun st : PrintState ν => st.visited = V) Extends where
  refl := Extends.refl
  trans := Extends.trans
  stable hV h := h.1.trans hV

/-- From every state with the given visited map the step succeeds cleanly. -/
abbrev CleanFrom {α : Type} (V : ν → Option ℕ) (step : Print ν α) : Prop :=
  Succeeds (fun st => st.visited = V) Extends step

section Clean

variable {V : ν → Option ℕ} {P : Program ι ν} {m : Memory ι ν}

theorem clean_write (text : String) : CleanFrom V (write text : Print ν Unit) :=
  .modify fun _ _ => ⟨rfl, [], by simp, by simp⟩

theorem clean_recordFieldSpan (path : Path) (key value : ℕ × ℕ) :
    CleanFrom V (recordFieldSpan path key value : Print ν Unit) :=
  .modify fun _ _ => ⟨rfl, [], by simp, by simp⟩

theorem clean_position : CleanFrom V (position : Print ν ℕ) :=
  fun st _ => ⟨_, st, rfl, Extends.refl st⟩

theorem clean_spanOf {step : Print ν Unit} (h : CleanFrom V step) : CleanFrom V (spanOf step) :=
  .bind (extends_frame V) clean_position fun _ =>
    .bind (extends_frame V) h fun _ =>
      .bind (extends_frame V) clean_position fun _ => .pure (extends_frame V) _

theorem clean_formatCall {fmt : Formatter ν} {c : Call ι ν}
    (h : ∀ w, Subject.target P m c.subject = some w →
      CleanFrom V (fmt w c.formatDepth c.typeDepth c.short)) :
    CleanFrom V (formatCall P m fmt c) := by
  unfold formatCall
  simp only [Subject.target, Call.subject] at h
  cases hp : c.proxy with
  | none => exact h c.value (by simp [hp])
  | some p =>
    dsimp only
    split
    · next hsized =>
      cases hconv : m.convertOut c.value p with
      | ok w => exact h w (by simp [hp, hsized, hconv, Except.toOption])
      | error msg => exact clean_write _
    · exact clean_write _

theorem clean_guarded [DecidableEq ν] {above : List ν} {v : ν} {td : ℕ} {cycle : ℕ → String}
    {body : Print ν Unit} (hV : V v = none) (habove : v ∉ above)
    (hbody : CleanFrom (Function.update V v (some td)) body) :
    CleanFrom V (guarded above v td cycle body) := by
  intro st hst
  subst hst
  obtain ⟨u, st', hrun, hvis, new, hnew, hclean⟩ :=
    hbody { st with visited := Function.update st.visited v (some td) } rfl
  have hafter : Function.update st'.visited v none = st.visited := by
    rw [hvis, Function.update_idem, ← hV, Function.update_eq_self]
  refine ⟨u, { st' with
    visited := Function.update st'.visited v none
    visits := st'.visits ++ [⟨v, above, false, st.visited, Function.update st'.visited v none⟩] },
    ?_, hafter, new ++ [⟨v, above, false, st.visited, Function.update st'.visited v none⟩], ?_, ?_⟩
  · refine bind_some.2 ⟨st, st, rfl, bind_some.2 ⟨⟨⟩, _, rfl, bind_some.2 ⟨u, st', ?_, ?_⟩⟩⟩
    · simpa only [hV] using hrun
    · simp only [hV]
      rfl
  · simp [hnew]
  · intro x hx
    rcases List.mem_append.1 hx with hx | hx
    · exact hclean x hx
    · cases List.mem_singleton.1 hx
      exact ⟨hafter, fun h => absurd h habove⟩

end Clean

section Layouts

variable [DecidableEq ι] {P : Program ι ν} {pp : PrettyPrinter ι} {m : Memory ι ν}

variable (P pp m) in
/-- The shape's size is asked for when the value is laid out: it is the element of a list or the key
of a map. -/
inductive Measured : Site ν → ι → Prop
  | list {v elem} (hproxy : (P.shapes (m.view v).shape).proxy = none)
      (harm : arm P (P.shapes (m.view v).shape) = .listLike elem) (hitems : (m.view v).items ≠ [])
      (hbytes : ¬(elem = P.u8Shape ∧ pp.listU8AsBytes)) : Measured (.plain, v) elem
  | map {v k} (hproxy : (P.shapes (m.view v).shape).proxy = none)
      (harm : arm P (P.shapes (m.view v).shape) = .map k) : Measured (.plain, v) k
  | spannedList {v elem} (hproxy : (P.shapes (m.view v).shape).proxy = none)
      (harm : unifiedArm P (P.shapes (m.view v).shape) = .listLike elem) :
      Measured (.spanned, v) elem

variable (P pp m) in
/-- The measure of shapes ends wherever a printer asks for it that starts at the site. -/
def ChunkinessTerminates (root : Site ν) : Prop :=
  ∀ x, ReflTransGen (Step P pp m) root x → lookThrough P m x.2 = none →
    ∀ s, Measured P pp m x s → ∀ᶠ fuel in atTop, (shapeChunkiness P.shapes fuel s).isSome

theorem pieces_isSome {v : ν}
    (h : ∀ s, Measured P pp m (.plain, v) s →
      ∀ᶠ fuel in atTop, (shapeChunkiness P.shapes fuel s).isSome) :
    ∀ᶠ fuel in atTop, ∀ fd td short, (pieces P pp m fuel v fd td short).isSome := by
  unfold pieces
  cases hproxy : (P.shapes (m.view v).shape).proxy with
  | some p => exact Eventually.of_forall fun fuel fd td short => rfl
  | none =>
    unfold layout
    cases harm : arm P (P.shapes (m.view v).shape) with
    | listLike elem =>
      by_cases hasked : (m.view v).items ≠ [] ∧ ¬(elem = P.u8Shape ∧ pp.listU8AsBytes)
      · filter_upwards [h elem (.list hproxy harm hasked.1 hasked.2)] with fuel hfuel fd td short
        obtain ⟨n, hn⟩ := Option.isSome_iff_exists.1 hfuel
        simp [formatListLike, hn, hasked]
      · refine Eventually.of_forall fun fuel fd td short => ?_
        simp only [formatListLike]
        split
        · rfl
        · next hempty =>
          rw [if_pos (by simpa [List.isEmpty_iff.not.1 hempty] using hasked)]
          rfl
    | map k =>
      filter_upwards [h k (.map hproxy harm)] with fuel hfuel fd td short
      obtain ⟨n, hn⟩ := Option.isSome_iff_exists.1 hfuel
      simp [formatMap, hn]
    | scalar =>
      refine Eventually.of_forall fun fuel fd td short => ?_
      dsimp only
      split <;> rfl
    | _ => exact Eventually.of_forall fun fuel fd td short => rfl

theorem unifiedPieces_isSome {v : ν}
    (h : ∀ s, Measured P pp m (.spanned, v) s →
      ∀ᶠ fuel in atTop, (shapeChunkiness P.shapes fuel s).isSome) :
    ∀ᶠ fuel in atTop, ∀ fd td short path,
      (unifiedPieces P pp m fuel v fd td short path).isSome := by
  unfold unifiedPieces
  cases hproxy : (P.shapes (m.view v).shape).proxy with
  | some p => exact Eventually.of_forall fun fuel fd td short path => rfl
  | none =>
    simp only [unifiedLayout]
    cases harm : unifiedArm P (P.shapes (m.view v).shape) with
    | listLike elem =>
      filter_upwards [h elem (.spannedList hproxy harm)] with fuel hfuel fd td short path
      obtain ⟨n, hn⟩ := Option.isSome_iff_exists.1 hfuel
      simp [hn]
    | scalar =>
      refine Eventually.of_forall fun fuel fd td short path => ?_
      dsimp only
      split <;> rfl
    | _ => exact Eventually.of_forall fun fuel fd td short path => rfl

theorem subject_mem_siteSubjects_plain {fuel : ℕ} {u : ν} {fd td : ℕ} {short : Bool}
    {ps : List (Piece ι ν)} (hps : pieces P pp m fuel u fd td short = some ps) {c : Call ι ν}
    (hc : .call c ∈ ps) : (.plain, c.subject) ∈ siteSubjects P pp m (.plain, u) := by
  simp only [siteSubjects, List.mem_map]
  refine ⟨c.subject, ?_, rfl⟩
  rw [← subjects_pieces P pp m hps]
  exact List.mem_filterMap.2 ⟨_, hc, rfl⟩

theorem subjects_subset_siteSubjects_spanned {fuel : ℕ} {u : ν} {fd td : ℕ} {short : Bool}
    {path : Path} {ps : List (SpanPiece ι ν)}
    (hps : unifiedPieces P pp m fuel u fd td short path = some ps) {p : SpanPiece ι ν}
    (hp : p ∈ ps) {s : SiteSubject ι ν} (hs : s ∈ p.subjects) :
    s ∈ siteSubjects P pp m (.spanned, u) := by
  simp only [siteSubjects]
  rw [← spanSubjects_unifiedPieces P pp m hps]
  exact List.mem_flatMap.2 ⟨p, hp, hs⟩

end Layouts

section Acyclic

variable [DecidableEq ι] [DecidableEq ν]
variable (P : Program ι ν) (pp : PrettyPrinter ι) (m : Memory ι ν)

/-- The recursion that formats a site; without spans the path is not used. -/
def formatSite (fuel : ℕ) (above : List ν) (x : Site ν) (path : Path) (formatDepth typeDepth : ℕ)
    (short : Bool) : Print ν Unit :=
  match x.1 with
  | .plain => formatPeekInternal P pp m fuel above x.2 formatDepth typeDepth short
  | .spanned => formatUnified P pp m fuel above path x.2 formatDepth typeDepth short

/-- The site is formatted cleanly wherever nothing below it is being formatted. -/
def CleanAt (fuel : ℕ) (x : Site ν) : Prop :=
  ∀ above path fd td short (V : ν → Option ℕ),
    (∀ y, ReflTransGen (Step P pp m) x y → V y.2 = none ∧ y.2 ∉ above) →
      CleanFrom V (formatSite P pp m fuel above x path fd td short)

variable {P pp m}

/-- The conditions under which the parts of an innermost value are formatted. -/
theorem parts_free (td : ℕ) {x y : Site ν} {above : List ν} {V : ν → Option ℕ}
    (hx : Unrepeated P pp m x)
    (hV : ∀ z, ReflTransGen (Step P pp m) x z → V z.2 = none ∧ z.2 ∉ above)
    (hy : Step P pp m x y) :
    ∀ z, ReflTransGen (Step P pp m) y z →
      Function.update V x.2 (some td) z.2 = none ∧ z.2 ∉ x.2 :: above := by
  intro z hz
  have hne : z.2 ≠ x.2 := hx x .refl z (.head' hy hz)
  obtain ⟨hnone, hnotin⟩ := hV z (.head hy hz)
  rw [Function.update_of_ne hne]
  exact ⟨hnone, by simp [hne, hnotin]⟩

theorem formatPeekInternal_clean {fuel : ℕ} {v u : ν} (hx : Unrepeated P pp m (.plain, u))
    (hu : lookThrough P m u = none)
    (hderef : ∃ w, derefPointers P m fuel v = some w ∧ innermostPeek P m fuel w = some u)
    (hpieces : ∀ fd td short, (pieces P pp m fuel u fd td short).isSome)
    (hparts : ∀ y, Step P pp m (.plain, u) y → CleanAt P pp m fuel y)
    {above : List ν} {V : ν → Option ℕ}
    (hV : ∀ z, ReflTransGen (Step P pp m) (.plain, u) z → V z.2 = none ∧ z.2 ∉ above)
    (fd td : ℕ) (short : Bool) :
    CleanFrom V (formatPeekInternal P pp m (fuel + 1) above v fd td short) := by
  obtain ⟨w, hw, hwu⟩ := hderef
  obtain ⟨ps, hps⟩ := Option.isSome_iff_exists.1 (hpieces fd td short)
  obtain ⟨hnone, hnotin⟩ := hV (.plain, u) .refl
  refine .lift_bind hw (.lift_bind hwu (clean_guarded hnone hnotin (.lift_bind hps ?_)))
  apply Succeeds.forM (extends_frame _)
  intro p hp
  cases p with
  | text s => exact clean_write s
  | call c =>
    apply clean_formatCall
    intro w hw
    have hstep := Step.part hu (subject_mem_siteSubjects_plain hps hp) hw
    exact hparts _ hstep (u :: above) [] _ _ _ _ (parts_free _ hx hV hstep)

theorem formatKey_clean {fuel : ℕ} {key : ν} {above : List ν}
    (hkey : CleanAt P pp m fuel (.plain, key))
    (habove : ∀ z, ReflTransGen (Step P pp m) (.plain, key) z → z.2 ∉ above)
    {V : ν → Option ℕ} : CleanFrom V (formatKey P pp m fuel above key) := by
  intro st _
  obtain ⟨u, st', hrun, -, new, hnew, hclean⟩ :=
    hkey above [] 0 0 false (fun _ => none) (fun z hz => ⟨rfl, habove z hz⟩) {} rfl
  refine ⟨st'.output, { st with visits := st.visits ++ st'.visits }, ?_, rfl, st'.visits, rfl, ?_⟩
  · exact bind_some.2 ⟨(u, st'), st, lift_some.2 ⟨hrun, rfl⟩, rfl⟩
  · intro x hx
    rw [hnew] at hx
    exact hclean x (by simpa using hx)

theorem formatUnified_clean {fuel : ℕ} {v u : ν} (hx : Unrepeated P pp m (.spanned, u))
    (hu : lookThrough P m u = none)
    (hderef : ∃ w, derefPointers P m fuel v = some w ∧ innermostPeek P m fuel w = some u)
    (hpieces : ∀ fd td short path, (unifiedPieces P pp m fuel u fd td short path).isSome)
    (hparts : ∀ y, Step P pp m (.spanned, u) y → CleanAt P pp m fuel y)
    {above : List ν} {V : ν → Option ℕ}
    (hV : ∀ z, ReflTransGen (Step P pp m) (.spanned, u) z → V z.2 = none ∧ z.2 ∉ above)
    (path : Path) (fd td : ℕ) (short : Bool) :
    CleanFrom V (formatUnified P pp m (fuel + 1) above path v fd td short) := by
  obtain ⟨w, hw, hwu⟩ := hderef
  obtain ⟨ps, hps⟩ := Option.isSome_iff_exists.1 (hpieces fd td short path)
  obtain ⟨hnone, hnotin⟩ := hV (.spanned, u) .refl
  have hframe := extends_frame (Function.update V u (some td))
  have hcall (c : Call ι ν) (hc : (Mode.spanned, c.subject) ∈ siteSubjects P pp m (.spanned, u))
      (path : Path) : CleanFrom (Function.update V u (some td))
        (formatCall P m (formatUnified P pp m fuel (u :: above) path) c) := by
    apply clean_formatCall
    intro w hw
    have hstep := Step.part hu hc hw
    exact hparts _ hstep (u :: above) path _ _ _ _ (parts_free _ hx hV hstep)
  refine .lift_bind hw (.lift_bind hwu ?_)
  refine .bind (extends_frame V) (clean_spanOf (clean_guarded hnone hnotin (.lift_bind hps ?_)))
    fun span => clean_recordFieldSpan path span span
  apply Succeeds.forM hframe
  intro p hp
  have hsub {s} (hs : s ∈ p.subjects) := subjects_subset_siteSubjects_spanned hps hp hs
  cases p with
  | text s => exact clean_write s
  | call path c => exact hcall c (hsub (List.mem_singleton_self _)) path
  | elem path c =>
    apply Succeeds.bind hframe (clean_spanOf (hcall c (hsub (List.mem_singleton_self _)) path))
    intro span
    exact clean_recordFieldSpan path span span
  | field path name c =>
    apply Succeeds.bind hframe (clean_spanOf (clean_write name))
    intro key
    apply Succeeds.bind hframe (clean_write _)
    intro _
    apply Succeeds.bind hframe (clean_spanOf (hcall c (hsub (List.mem_singleton_self _)) path))
    intro value
    exact clean_recordFieldSpan path key value
  | entry path key value =>
    have hkey := hsub (s := (.spanned, key.subject)) (by simp [SpanPiece.subjects])
    have hplain := hsub (s := (.plain, direct key.value)) (by simp [SpanPiece.subjects])
    have hvalue := hsub (s := (.spanned, value.subject)) (by simp [SpanPiece.subjects])
    have hstep : Step P pp m (.spanned, u) (.plain, key.value) := Step.part hu hplain rfl
    apply Succeeds.bind hframe (clean_spanOf (hcall key hkey []))
    intro keySpan
    apply Succeeds.bind hframe (clean_write _)
    intro _
    apply Succeeds.bind hframe (formatKey_clean (hparts _ hstep) fun z hz =>
      (parts_free td hx hV hstep z hz).2)
    intro text
    apply Succeeds.bind hframe (clean_spanOf (hcall value hvalue _))
    intro valueSpan
    exact clean_recordFieldSpan _ keySpan valueSpan

omit [DecidableEq ν] in
/-- Where every step lowers a rank, no value comes again below itself. -/
theorem unrepeated_of_rank (rank : ν → ℕ) (h : ∀ x y, Step P pp m x y → rank y.2 < rank x.2)
    (root : Site ν) : Unrepeated P pp m root := by
  have hbelow {x y : Site ν} (hxy : TransGen (Step P pp m) x y) : rank y.2 < rank x.2 := by
    induction hxy with
    | single hstep => exact h _ _ hstep
    | tail _ hstep ih => exact (h _ _ hstep).trans ih
  intro x _ y hxy heq
  have hless := hbelow hxy
  rw [heq] at hless
  exact lt_irrefl _ hless

instance : Finite Mode :=
  Finite.of_injective (fun mode => mode = .plain) (by
    rintro ⟨⟩ ⟨⟩ h <;> simp_all)

omit [DecidableEq ν] in
/-- Below a value without repetitions, going down is well founded. -/
theorem Unrepeated.wellFounded [Finite ν] {root : Site ν} (h : Unrepeated P pp m root) :
    WellFounded fun y x : Site ν =>
      ReflTransGen (Step P pp m) root x ∧ TransGen (Step P pp m) x y := by
  have : IsTrans (Site ν) fun y x : Site ν =>
      ReflTransGen (Step P pp m) root x ∧ TransGen (Step P pp m) x y :=
    ⟨fun _ _ _ hyx hxw => ⟨hxw.1, hxw.2.trans hyx.2⟩⟩
  have : Std.Irrefl fun y x : Site ν =>
      ReflTransGen (Step P pp m) root x ∧ TransGen (Step P pp m) x y :=
    ⟨fun x hx => h x hx.1 x hx.2 rfl⟩
  exact Finite.wellFounded_of_trans_of_irrefl _

omit [DecidableEq ν] in
/-- Below a value without repetitions every pointer and wrapper leads somewhere. -/
theorem Unrepeated.innermost [Finite ν] {root : Site ν} (h : Unrepeated P pp m root) :
    ∃ u, Innermost P m root.2 u := by
  have key (x : Site ν) : ReflTransGen (Step P pp m) root x → ∃ u, Innermost P m x.2 u := by
    induction x using h.wellFounded.induction with
    | _ x ih =>
      obtain ⟨mode, v⟩ := x
      intro hx
      cases hv : lookThrough P m v with
      | none => exact ⟨v, .here hv⟩
      | some w =>
        have hstep : Step P pp m (mode, v) (mode, w) := .through hv
        obtain ⟨u, hu⟩ := ih (mode, w) ⟨hx, .single hstep⟩ (hx.tail hstep)
        exact ⟨u, .through hv hu⟩
  exact key root .refl

/-- A value that does not come again below itself is formatted cleanly. -/
theorem eventually_cleanAt [Finite ν] {root : Site ν} (hchunk : ChunkinessTerminates P pp m root)
    (h : Unrepeated P pp m root) : ∀ᶠ fuel in atTop, CleanAt P pp m fuel root := by
  have key (x : Site ν) : ReflTransGen (Step P pp m) root x →
      ∀ᶠ fuel in atTop, CleanAt P pp m fuel x := by
    induction x using h.wellFounded.induction with
    | _ x ih =>
      obtain ⟨mode, v⟩ := x
      intro hx
      have hunrep := h.descends hx
      obtain ⟨u, hu⟩ := hunrep.innermost
      obtain ⟨w, hw, hwu⟩ := hu.derefPointers
      have hdesc := hu.descends pp mode
      -- the parts are finitely many, so one budget is enough for all of them
      have hparts : ∀ᶠ fuel in atTop, ∀ y, Step P pp m (mode, u) y → CleanAt P pp m fuel y := by
        have hall : ∀ᶠ fuel in atTop, ∀ s ∈ siteSubjects P pp m (mode, u), ∀ w,
            Subject.target P m s.2 = some w → CleanAt P pp m fuel (s.1, w) := by
          refine (eventually_all_finite (List.finite_toSet _)).2 fun s hs => ?_
          cases ht : Subject.target P m s.2 with
          | none => exact Eventually.of_forall fun _ _ h => by cases h
          | some w =>
            have hstep : Step P pp m (mode, u) (s.1, w) := .part hu.lookThrough hs ht
            filter_upwards [ih (s.1, w) ⟨hx, .tail' hdesc hstep⟩ (hx.trans (hdesc.tail hstep))]
              with fuel hfuel w' hw'
            cases hw'
            exact hfuel
        filter_upwards [hall] with fuel hfuel y hy
        cases hy with
        | through hlook => rw [hu.lookThrough] at hlook; cases hlook
        | part _ hs hw => exact hfuel _ hs _ hw
      have hmeasured := hchunk (mode, u) (hx.trans hdesc) hu.lookThrough
      have hVu {above : List ν} {V : ν → Option ℕ}
          (hV : ∀ y, ReflTransGen (Step P pp m) (mode, v) y → V y.2 = none ∧ y.2 ∉ above) :
          ∀ z, ReflTransGen (Step P pp m) (mode, u) z → V z.2 = none ∧ z.2 ∉ above :=
        fun z hz => hV z (hdesc.trans hz)
      rw [← eventually_add_iff 1]
      cases mode with
      | plain =>
        filter_upwards [hw, hwu.innermostPeek, hparts, pieces_isSome hmeasured]
          with fuel hderef hpeek hparts hpieces above path fd td short V hV
        exact formatPeekInternal_clean (hunrep.descends hdesc) hu.lookThrough ⟨w, hderef, hpeek⟩
          hpieces hparts (hVu hV) fd td short
      | spanned =>
        filter_upwards [hw, hwu.innermostPeek, hparts, unifiedPieces_isSome hmeasured]
          with fuel hderef hpeek hparts hpieces above path fd td short V hV
        exact formatUnified_clean (hunrep.descends hdesc) hu.lookThrough ⟨w, hderef, hpeek⟩
          hpieces hparts (hVu hV) path fd td short
  exact key root .refl

end Acyclic

end Facet.Pretty
