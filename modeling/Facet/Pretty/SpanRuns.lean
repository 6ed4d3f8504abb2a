import Facet.Pretty.Rendering

/-!
# Runs that record spans

A run of `format_peek_with_spans` on a value without cycles writes the rendering of the value, and
records the positions of the parts in the order in which they end. A later record under the same
path replaces an earlier one.
-/

namespace Facet.Pretty

open MarkedText OptionState Relation

variable {ι ν : Type}

/-- The position that the last record under the path gives. -/
def lastAt (p : Path) : List (Path × (ℕ × ℕ)) → Option (ℕ × ℕ)
  | [] => none
  | e :: es => (lastAt p es).or (if e.1 = p then some e.2 else none)

theorem lastAt_append (p : Path) (es es' : List (Path × (ℕ × ℕ))) :
    lastAt p (es ++ es') = (lastAt p es').or (lastAt p es) := by
  induction es with
  | nil => simp [lastAt]
  | cons e es ih => rw [List.cons_append, lastAt, ih, lastAt, Option.or_assoc]

/-- The paths and positions of the marks, for a text that begins at `n`. -/
def entries (above : Path) (n : ℕ) (marks : List (Mark PartStep)) : List (Path × (ℕ × ℕ)) :=
  marks.map fun mark => (pathOf above mark.label, (n + mark.start, n + mark.stop))

theorem entries_append (above : Path) (n : ℕ) (marks marks' : List (Mark PartStep)) :
    entries above n (marks ++ marks') = entries above n marks ++ entries above n marks' :=
  List.map_append

theorem entries_shift (above : Path) (n k : ℕ) (marks : List (Mark PartStep)) :
    entries above n (marks.map (Mark.shift k)) = entries above (n + k) marks := by
  simp [entries, Function.comp_def, Mark.shift, Mark.stop, Nat.add_assoc]

theorem entries_part (above segments : Path) (n i : ℕ) (marks : List (Mark PartStep)) :
    entries above n (marks.map (Mark.below (.part i segments))) =
      entries (above ++ segments) n marks := by
  simp [entries, Function.comp_def, Mark.below, Mark.stop, pathOf]

theorem entries_key (above : Path) (n i : ℕ) (marks : List (Mark PartStep)) :
    entries above n (marks.map (Mark.below (.key i))) = entries [] n marks := by
  simp [entries, Function.comp_def, Mark.below, Mark.stop, pathOf]

theorem entries_inside (above : Path) (n i : ℕ) (marks : List (Mark PartStep)) :
    entries above n (marks.map (Mark.below (.inside i))) = entries above n marks := by
  simp [entries, Function.comp_def, Mark.below, Mark.stop, pathOf]

/-- Under the path, the records are what the map of spans was changed by. -/
def Recorded (p : Path) (es : List (Path × (ℕ × ℕ))) (spans spans' : Path → Option FieldSpan) :
    Prop :=
  match lastAt p es with
  | none => spans' p = spans p
  | some value => ∃ key, spans' p = some ⟨key, value⟩

theorem Recorded.of_eq_none {p : Path} {es : List (Path × (ℕ × ℕ))}
    {spans spans' : Path → Option FieldSpan} (hlast : lastAt p es = none)
    (h : spans' p = spans p) : Recorded p es spans spans' := by
  rw [Recorded, hlast]
  exact h

theorem Recorded.of_eq_some {p : Path} {es : List (Path × (ℕ × ℕ))} {key value : ℕ × ℕ}
    {spans spans' : Path → Option FieldSpan} (hlast : lastAt p es = some value)
    (h : spans' p = some ⟨key, value⟩) : Recorded p es spans spans' := by
  rw [Recorded, hlast]
  exact ⟨key, h⟩

theorem Recorded.trans {p : Path} {es es' : List (Path × (ℕ × ℕ))}
    {spans spans' spans'' : Path → Option FieldSpan} (h : Recorded p es spans spans')
    (h' : Recorded p es' spans' spans'') : Recorded p (es ++ es') spans spans'' := by
  unfold Recorded at *
  rw [lastAt_append]
  cases hlast' : lastAt p es' with
  | none =>
    rw [hlast'] at h'
    cases hlast : lastAt p es with
    | none =>
      rw [hlast] at h
      exact h'.trans h
    | some value =>
      rw [hlast] at h
      obtain ⟨key, hkey⟩ := h
      exact ⟨key, h'.trans hkey⟩
  | some value =>
    rw [hlast'] at h'
    exact h'

/-- Between the states the rendering was written and its parts were recorded. What stands under
the path of the value itself and under the empty path is left open. -/
structure Prints (r : Marked PartStep) (above : Path) (st st' : PrintState ν) : Prop where
  output : st'.output = st.output ++ r.text
  visited : st'.visited = st.visited
  spans : ∀ p, p ≠ [] → p ≠ above →
    Recorded p (entries above st.output.utf8ByteSize r.marks) st.spans st'.spans

section

variable {r s : Marked PartStep} {above : Path} {st st' st'' : PrintState ν}

theorem Prints.append (h : Prints r above st st') (h' : Prints s above st' st'') :
    Prints (r.append s) above st st'' where
  output := by rw [h'.output, h.output, Marked.append, String.append_assoc]
  visited := h'.visited.trans h.visited
  spans := by
    intro p hp hne
    have hrecorded := (h.spans p hp hne).trans (h'.spans p hp hne)
    rw [h.output, String.utf8ByteSize_append, ← entries_shift, ← entries_append] at hrecorded
    exact hrecorded

theorem prints_write {text : String} {u : Unit} (h : write text st = some (u, st')) :
    Prints (.ofText text) above st st' := by
  cases h
  exact ⟨rfl, rfl, fun _ _ _ => rfl⟩

/-- The payload of an option is printed under the same path. -/
theorem Prints.inside (h : Prints r above st st') (i : ℕ) :
    Prints (r.inside (.inside i)) above st st' where
  output := h.output
  visited := h.visited
  spans := by
    intro p hp hne
    rw [Marked.inside, entries_inside]
    exact h.spans p hp hne

theorem Prints.key (h : Prints r [] st st') (i : ℕ) :
    Prints (r.inside (.key i)) above st st' where
  output := h.output
  visited := h.visited
  spans := by
    intro p hp _
    rw [Marked.inside, entries_key]
    exact h.spans p hp hp

theorem Prints.part {segments : Path} (h : Prints r (above ++ segments) st st') (i : ℕ)
    {key value : ℕ × ℕ} {u : Unit}
    (hvalue : value = (st.output.utf8ByteSize, st'.output.utf8ByteSize))
    (hrecord : recordFieldSpan (above ++ segments) key value st' = some (u, st'')) :
    Prints (r.part (.part i segments)) above st st'' := by
  cases hrecord
  refine ⟨h.output, h.visited, ?_⟩
  intro p hp _
  rw [Marked.part, Marked.inside, entries_part, Marked.whole, entries_append]
  by_cases heq : p = above ++ segments
  · subst heq
    have hlast : lastAt (above ++ segments)
        (entries (above ++ segments) st.output.utf8ByteSize r.marks ++
          entries (above ++ segments) st.output.utf8ByteSize [⟨[], 0, r.text⟩]) = some value := by
      rw [lastAt_append]
      simp [lastAt, entries, pathOf, Mark.stop, hvalue, h.output]
    exact .of_eq_some hlast (Function.update_self ..)
  · have hlast : lastAt p (entries (above ++ segments) st.output.utf8ByteSize
        [⟨[], 0, r.text⟩]) = none := by
      simp [lastAt, entries, pathOf, Ne.symm heq]
    exact (h.spans p hp heq).trans (.of_eq_none hlast (Function.update_of_ne heq ..))

theorem Prints.of_same (h : Prints r above st st') (houtput : st.output = st''.output)
    (hvisited : st.visited = st''.visited) (hspans : st.spans = st''.spans) :
    Prints r above st'' st' where
  output := houtput ▸ h.output
  visited := hvisited ▸ h.visited
  spans := by
    rw [← houtput, ← hspans]
    exact h.spans

theorem spanOf_some {step : Print ν Unit} {span : ℕ × ℕ} :
    spanOf step st = some (span, st') ↔ ∃ u, step st = some (u, st') ∧
      span = (st.output.utf8ByteSize, st'.output.utf8ByteSize) := by
  unfold spanOf position
  constructor
  · intro h
    obtain ⟨start, mid, hstart, h⟩ := bind_some.mp h
    cases hstart
    obtain ⟨u, mid, hstep, h⟩ := bind_some.mp h
    cases h
    exact ⟨u, hstep, rfl⟩
  · rintro ⟨u, hstep, rfl⟩
    exact bind_some.mpr ⟨_, st, rfl, bind_some.mpr ⟨u, st', hstep, rfl⟩⟩

end

section

variable {P : Program ι ν} {m : Memory ι ν} {above : Path} {st st' : PrintState ν} {u : Unit}
  {V : ν → Option ℕ}

/-- What is printed by steps that print the same from every state with the visited map. -/
def PrintsFrom (V : ν → Option ℕ) (above : Path) (step : Print ν Unit)
    (rendering : Option (Marked PartStep)) : Prop :=
  ∀ st u st', st.visited = V → step st = some (u, st') →
    ∃ r, rendering = some r ∧ Prints r above st st'

theorem prints_formatCall {fmt : Formatter ν} {c : Call ι ν}
    {rendering : ν → ℕ → ℕ → Bool → Option (Marked PartStep)}
    (h : ∀ w, Subject.target P m c.subject = some w →
      PrintsFrom V above (fmt w c.formatDepth c.typeDepth c.short)
        (rendering w c.formatDepth c.typeDepth c.short)) :
    PrintsFrom V above (formatCall P m fmt c) (renderCall P m rendering c) := by
  intro st u st' hst hrun
  unfold formatCall at hrun
  unfold renderCall
  simp only [Subject.target, Call.subject] at h
  cases hp : c.proxy with
  | none =>
    rw [hp] at hrun
    exact h c.value (by simp [hp]) st u st' hst hrun
  | some p =>
    rw [hp] at hrun
    dsimp only at hrun ⊢
    split_ifs at hrun ⊢ with hsized
    · cases hconv : m.convertOut c.value p with
      | ok w =>
        rw [hconv] at hrun
        exact h w (by simp [hp, hsized, hconv, Except.toOption]) st u st' hst hrun
      | error msg =>
        rw [hconv] at hrun
        exact ⟨_, rfl, prints_write hrun⟩
    · exact ⟨_, rfl, prints_write hrun⟩

/-- The text of the key is found out without a trace in the output. -/
def KeyTextIs (formatKey : ν → Print ν String) (text : ν → Option String) : Prop :=
  ∀ key st t st', formatKey key st = some (t, st') →
    text key = some t ∧ st'.output = st.output ∧ st'.visited = st.visited ∧ st'.spans = st.spans

theorem prints_piece {fmt : Path → Formatter ν} {formatKey : ν → Print ν String}
    {call : Call ι ν → Option (Marked PartStep)} {text : ν → Option String} {p : SpanPiece ι ν}
    (hcall : ∀ c, (Mode.spanned, c.subject) ∈ p.subjects → ∀ path,
      PrintsFrom V path (formatCall P m (fmt path) c) (call c))
    (hkey : KeyTextIs formatKey text) (hown : p.Own) (i : ℕ) :
    PrintsFrom V above (runSpanPiece P m fmt formatKey (p.under above))
      (renderPiece call text i p) := by
  intro st u st' hst hrun
  cases p with
  | text s => exact ⟨_, rfl, prints_write hrun⟩
  | call segments c =>
    have hsegments : segments = [] := hown
    subst hsegments
    have hrun : formatCall P m (fmt (above ++ [])) c st = some (u, st') := hrun
    rw [List.append_nil] at hrun
    obtain ⟨r, hr, hprints⟩ := hcall c (List.mem_singleton_self _) above st u st' hst hrun
    exact ⟨_, by simp [renderPiece, hr], hprints.inside i⟩
  | elem segments c =>
    obtain ⟨span, mid, hspan, hrecord⟩ := bind_some.mp hrun
    obtain ⟨u', hstep, rfl⟩ := spanOf_some.mp hspan
    obtain ⟨r, hr, hprints⟩ := hcall c (List.mem_singleton_self _) _ st u' mid hst hstep
    exact ⟨_, by simp [renderPiece, hr], hprints.part i rfl hrecord⟩
  | field segments name c =>
    obtain ⟨key, st₁, hkeySpan, hrun⟩ := bind_some.mp hrun
    obtain ⟨u₁, hname, rfl⟩ := spanOf_some.mp hkeySpan
    obtain ⟨u₂, st₂, hcolon, hrun⟩ := bind_some.mp hrun
    obtain ⟨value, st₃, hvalue, hrecord⟩ := bind_some.mp hrun
    obtain ⟨u₃, hstep, rfl⟩ := spanOf_some.mp hvalue
    cases hname
    cases hcolon
    obtain ⟨r, hr, hprints⟩ :=
      hcall c (List.mem_singleton_self _) _ _ u₃ st₃ (by exact hst) hstep
    refine ⟨_, by simp [renderPiece, hr]; rfl, ?_⟩
    apply Prints.append ?_ (hprints.part i rfl hrecord)
    exact ⟨by simp [Marked.ofText, String.append_assoc], rfl, fun _ _ _ => rfl⟩
  | entry segments key value =>
    obtain ⟨keySpan, st₁, hkeySpan, hrun⟩ := bind_some.mp hrun
    obtain ⟨u₁, hkeyStep, rfl⟩ := spanOf_some.mp hkeySpan
    obtain ⟨u₂, st₂, hcolon, hrun⟩ := bind_some.mp hrun
    obtain ⟨t, st₃, htext, hrun⟩ := bind_some.mp hrun
    obtain ⟨valueSpan, st₄, hvalue, hrecord⟩ := bind_some.mp hrun
    obtain ⟨u₄, hvalueStep, rfl⟩ := spanOf_some.mp hvalue
    obtain ⟨rk, hrk, hkeyPrints⟩ :=
      hcall key (by simp [SpanPiece.subjects]) [] st u₁ st₁ hst hkeyStep
    have hcolonPrints : Prints (.ofText ": ") above st₁ st₂ := prints_write hcolon
    obtain ⟨ht, houtput, hvisited, hspans⟩ := hkey key.value st₂ t st₃ htext
    have hst₃ : st₃.visited = V := by
      rw [hvisited, hcolonPrints.visited, hkeyPrints.visited, hst]
    obtain ⟨rv, hrv, hvaluePrints⟩ :=
      hcall value (by simp [SpanPiece.subjects]) _ st₃ u₄ st₄ hst₃ hvalueStep
    rw [List.append_assoc] at hvaluePrints hrecord
    have hpart := (hvaluePrints.part i rfl hrecord).of_same houtput hvisited hspans
    refine ⟨_, by simp [renderPiece, hrk, ht, hrv]; rfl, ?_⟩
    exact ((hkeyPrints.key i).append hcolonPrints).append hpart

theorem prints_pieces {fmt : Path → Formatter ν} {formatKey : ν → Print ν String}
    {call : Call ι ν → Option (Marked PartStep)} {text : ν → Option String}
    {ps : List (SpanPiece ι ν)}
    (hcall : ∀ p ∈ ps, ∀ c, (Mode.spanned, c.subject) ∈ p.subjects → ∀ path,
      PrintsFrom V path (formatCall P m (fmt path) c) (call c))
    (hkey : KeyTextIs formatKey text) (hown : ∀ p ∈ ps, p.Own) (i : ℕ) :
    PrintsFrom V above ((ps.map (SpanPiece.under above)).forM (runSpanPiece P m fmt formatKey))
      (renderPieces call text i ps) := by
  induction ps generalizing i with
  | nil =>
    intro st u st' _ hrun
    cases hrun
    exact ⟨_, rfl, ⟨String.append_empty.symm, rfl, fun _ _ _ => rfl⟩⟩
  | cons p ps ih =>
    intro st u st' hst hrun
    obtain ⟨u₁, mid, hp, hps⟩ := bind_some.mp hrun
    rw [List.forall_mem_cons] at hcall hown
    obtain ⟨r, hr, hprints⟩ := prints_piece hcall.1 hkey hown.1 i st u₁ mid hst hp
    obtain ⟨s, hs, hrest⟩ :=
      ih hcall.2 hown.2 (i + 1) mid u st' (hprints.visited.trans hst) hps
    exact ⟨_, by simp [renderPieces, hr, hs], hprints.append hrest⟩

/-- The guard lets a value through that is not being formatted. -/
theorem guarded_some [DecidableEq ν] {values : List ν} {v : ν} {td : ℕ} {cycle : ℕ → String}
    {body : Print ν Unit} (hv : st.visited v = none)
    (h : guarded values v td cycle body st = some (u, st')) :
    ∃ u₁ mid, body { st with visited := Function.update st.visited v (some td) } = some (u₁, mid) ∧
      st'.output = mid.output ∧ st'.spans = mid.spans ∧
      st'.visited = Function.update mid.visited v none := by
  obtain ⟨before, st₁, hget, h⟩ := bind_some.mp h
  cases hget
  obtain ⟨u₁, st₂, hset, h⟩ := bind_some.mp h
  cases hset
  obtain ⟨u₂, mid, hbody, h⟩ := bind_some.mp h
  simp only [hv] at hbody
  cases h
  exact ⟨u₂, mid, hbody, rfl, rfl, rfl⟩

variable [DecidableEq ι] [DecidableEq ν] {pp : PrettyPrinter ι}

theorem keyTextIs_formatKey (fuel : ℕ) (values : List ν) :
    KeyTextIs (formatKey P pp m fuel values) (keyText P pp m fuel values) := by
  intro key st t st' h
  obtain ⟨⟨u, inner⟩, mid, hlift, h⟩ := bind_some.mp h
  obtain ⟨hrun, rfl⟩ := lift_some.mp hlift
  cases h
  exact ⟨by rw [keyText, hrun]; rfl, rfl, rfl, rfl⟩

/-- A value without cycles is printed as it renders, and recorded as a whole at last. -/
theorem prints_formatUnified {fuel : ℕ} {values : List ν} {path : Path} {v : ν} {fd td : ℕ}
    {short : Bool} (hv : Unrepeated P pp m (.spanned, v))
    (hfree : ∀ y, ReflTransGen (Step P pp m) (.spanned, v) y → st.visited y.2 = none)
    (h : formatUnified P pp m fuel values path v fd td short st = some (u, st')) :
    ∃ r, render P pp m fuel values v fd td short = some r ∧ Prints r path st st' ∧
      ∃ key, st'.spans path = some ⟨key, (st.output.utf8ByteSize, st'.output.utf8ByteSize)⟩ := by
  induction fuel generalizing values path v fd td short st u st' with
  | zero => cases h
  | succ fuel ih =>
    obtain ⟨w, st₁, hlift, h⟩ := bind_some.mp h
    obtain ⟨hderef, rfl⟩ := lift_some.mp hlift
    obtain ⟨inner, st₁, hlift, h⟩ := bind_some.mp h
    obtain ⟨hpeek, rfl⟩ := lift_some.mp hlift
    obtain ⟨span, st₂, hspan, hrecord⟩ := bind_some.mp h
    obtain ⟨u₂, hguarded, rfl⟩ := spanOf_some.mp hspan
    have hinner := innermost_of_derefPointers hderef (innermost_of_innermostPeek hpeek)
    have hdesc := hinner.descends pp .spanned
    have hinnerUnrepeated := hv.descends hdesc
    obtain ⟨u₃, mid, hbody, houtput, hspans, hvisited⟩ :=
      guarded_some (hfree (.spanned, inner) hdesc) hguarded
    obtain ⟨ps, st₃, hlift, hpieces⟩ := bind_some.mp hbody
    obtain ⟨hps, rfl⟩ := lift_some.mp hlift
    rw [unifiedPieces_under, Option.map_eq_some_iff] at hps
    obtain ⟨ps, hps, rfl⟩ := hps
    have hcall : ∀ p ∈ ps, ∀ c, (Mode.spanned, c.subject) ∈ p.subjects → ∀ path,
        PrintsFrom (Function.update st.visited inner (some td)) path
          (formatCall P m (formatUnified P pp m fuel (inner :: values) path) c)
          (renderCall P m (render P pp m fuel (inner :: values)) c) := by
      intro p hp c hc path
      apply prints_formatCall
      intro w hw st₄ u st₅ hst hrun
      have hstep := Step.part hinner.lookThrough
        (subjects_subset_siteSubjects_spanned hps hp hc) hw
      have hbelow : ∀ z, ReflTransGen (Step P pp m) (.spanned, w) z → st₄.visited z.2 = none := by
        intro z hz
        rw [hst]
        have hnone : ∀ z, ReflTransGen (Step P pp m) (.spanned, inner) z →
            st.visited z.2 = none ∧ z.2 ∉ ([] : List ν) :=
          fun z hz => ⟨hfree z (hdesc.trans hz), List.not_mem_nil⟩
        exact (parts_free td hinnerUnrepeated hnone hstep z hz).1
      obtain ⟨r, hr, hprints, -⟩ := ih (hinnerUnrepeated.descends (.single hstep)) hbelow hrun
      exact ⟨r, hr, hprints⟩
    obtain ⟨r, hr, hprints⟩ := prints_pieces hcall (keyTextIs_formatKey fuel (inner :: values))
      (spaced_pieces P pp m hps).own 0 _ u₃ mid rfl hpieces
    refine ⟨r, by simp [render, hderef, hpeek, hps, hr], ?_, ?_⟩
    · cases hrecord
      constructor
      · exact houtput.trans hprints.output
      · have hnone : st.visited inner = none := hfree (.spanned, inner) hdesc
        have hmid : mid.visited = Function.update st.visited inner (some td) := hprints.visited
        simp only
        rw [hvisited, hmid, Function.update_idem, ← hnone, Function.update_eq_self]
      · intro p hp hne
        have hrecorded := hprints.spans p hp hne
        rw [← hspans] at hrecorded
        unfold Recorded at hrecorded ⊢
        simp only [Function.update_of_ne hne]
        exact hrecorded
    · cases hrecord
      exact ⟨_, Function.update_self ..⟩

end

end Facet.Pretty
