import Facet.Path.Visits

/-!
# The callbacks of a walk

What a visitor is called with, in order: calls nest, a skipped shape is left at once, and
nothing is called after a stop. A visitor that always recurses is handed every trail that
repeats no shape before its end.
-/

namespace Facet.Path

variable {ι : Type}

/-- A callback, with what the visitor decided. -/
inductive Event (ι : Type)
  | enter (path : List PathStep) (shape : ι) (decision : VisitDecision)
  | leave (path : List PathStep) (shape : ι)
  deriving DecidableEq

/-- The visitor that also notes down its callbacks. -/
def Visitor.recording {σ : Type} (visitor : Visitor ι σ) : Visitor ι (σ × List (Event ι)) where
  enter path shape s :=
    let entry := visitor.enter path shape s.1
    (entry.1, entry.2, s.2 ++ [.enter path shape entry.1])
  leave path shape s := (visitor.leave path shape s.1, s.2 ++ [.leave path shape])

section Recording

variable {σ : Type} (visitor : Visitor ι σ) (path : List PathStep) (shape : ι)

theorem Visitor.recording_enter (s : σ × List (Event ι)) :
    visitor.recording.enter path shape s =
      ((visitor.enter path shape s.1).1, (visitor.enter path shape s.1).2,
        s.2 ++ [.enter path shape (visitor.enter path shape s.1).1]) := rfl

theorem Visitor.recording_leave (s : σ × List (Event ι)) :
    visitor.recording.leave path shape s =
      (visitor.leave path shape s.1, s.2 ++ [.leave path shape]) := rfl

end Recording

/-- Callbacks in the order a walk can make them, and how it ends: shapes side by side, each
left after what is below it, until the visitor stops the walk. -/
inductive Logged : Outcome → List (Event ι) → Prop
  | done : Logged .completed []
  | stop (path : List PathStep) (shape : ι) : Logged .stopped [.enter path shape .stop]
  | skip (path : List PathStep) (shape : ι) {outcome : Outcome} {rest : List (Event ι)}
      (h : Logged outcome rest) :
      Logged outcome (.enter path shape .skipChildren :: .leave path shape :: rest)
  | node (path : List PathStep) (shape : ι) {outcome : Outcome} {inner rest : List (Event ι)}
      (hinner : Logged .completed inner) (h : Logged outcome rest) :
      Logged outcome (.enter path shape .recurse :: (inner ++ .leave path shape :: rest))
  | broken (path : List PathStep) (shape : ι) {inner : List (Event ι)}
      (hinner : Logged .stopped inner) :
      Logged .stopped (.enter path shape .recurse :: inner)

theorem Logged.append {outcome : Outcome} {log rest : List (Event ι)}
    (h : Logged .completed log) (hrest : Logged outcome rest) : Logged outcome (log ++ rest) := by
  generalize ho : Outcome.completed = o at h
  induction h with
  | done => exact hrest
  | stop path shape => cases ho
  | skip path shape _ ih => exact .skip path shape (ih ho)
  | node path shape hinner _ _ ih =>
    rw [List.cons_append, List.append_assoc, List.cons_append]
    exact .node path shape hinner (ih ho)
  | broken path shape _ _ => cases ho

section Order

variable [DecidableEq ι]

/-- Match each leave with the last enter that is still open; the open ones are left over. -/
def nest : List (Event ι) → List (List PathStep × ι) → Option (List (List PathStep × ι))
  | [], pending => some pending
  | .enter path shape _ :: log, pending => nest log ((path, shape) :: pending)
  | .leave path shape :: log, pending =>
    match pending with
    | [] => none
    | top :: pending => if top = (path, shape) then nest log pending else none

theorem nest_append (log rest : List (Event ι)) (pending : List (List PathStep × ι)) :
    nest (log ++ rest) pending = (nest log pending).bind (nest rest) := by
  induction log generalizing pending with
  | nil => rfl
  | cons event log ih =>
    cases event with
    | enter path shape decision => exact ih _
    | leave path shape =>
      cases pending with
      | nil => rfl
      | cons top pending =>
        by_cases htop : top = (path, shape)
        · simp [nest, htop, ih]
        · simp [nest, htop]

/-- Every leave closes the last open enter, and a completed walk leaves none open. -/
theorem Logged.nest {outcome : Outcome} {log : List (Event ι)} (h : Logged outcome log)
    (pending : List (List PathStep × ι)) :
    ∃ left, Path.nest log pending = some (left ++ pending) ∧
      (outcome = .completed → left = []) := by
  induction h generalizing pending with
  | done => exact ⟨[], rfl, fun _ => rfl⟩
  | stop path shape => exact ⟨[(path, shape)], rfl, by simp⟩
  | skip path shape _ ih =>
    obtain ⟨left, hleft, hnil⟩ := ih pending
    exact ⟨left, by simp [Path.nest, hleft], hnil⟩
  | node path shape _ _ ihinner ih =>
    obtain ⟨inner, hinner, hnone⟩ := ihinner ((path, shape) :: pending)
    obtain ⟨left, hleft, hnil⟩ := ih pending
    refine ⟨left, ?_, hnil⟩
    simp [Path.nest, nest_append, hinner, hnone rfl, hleft]
  | broken path shape _ ih =>
    obtain ⟨left, hleft, -⟩ := ih ((path, shape) :: pending)
    exact ⟨left ++ [(path, shape)], by simp [Path.nest, hleft], by simp⟩

end Order

/-- Right after an enter that skips, the same shape is left. -/
def SkipsAtOnce (log : List (Event ι)) : Prop :=
  ∀ i path shape, log[i]? = some (.enter path shape .skipChildren) →
    log[i + 1]? = some (.leave path shape)

/-- An enter that stops is the last callback. -/
def StopsAtOnce (log : List (Event ι)) : Prop :=
  ∀ i path shape, log[i]? = some (.enter path shape .stop) → i + 1 = log.length

theorem getElem?_around {α : Type} (first middle : α) (inner rest : List α) (i : ℕ) :
    (first :: (inner ++ middle :: rest))[i + 1]? =
      if i < inner.length then inner[i]?
      else if i = inner.length then some middle else rest[i - inner.length - 1]? := by
  rw [List.getElem?_cons_succ]
  by_cases hlt : i < inner.length
  · rw [if_pos hlt, List.getElem?_append_left hlt]
  · rw [if_neg hlt, List.getElem?_append_right (by omega)]
    by_cases heq : i = inner.length
    · simp [heq]
    · rw [if_neg heq, List.getElem?_cons, if_neg (by omega)]

theorem Logged.skipsAtOnce {outcome : Outcome} {log : List (Event ι)}
    (h : Logged outcome log) : SkipsAtOnce log := by
  induction h with
  | done => simp [SkipsAtOnce]
  | stop path shape =>
    intro i path' shape' hi
    cases i <;> simp at hi
  | skip path shape _ ih =>
    intro i path' shape' hi
    match i with
    | 0 =>
      simp only [List.getElem?_cons_zero, Option.some.injEq, Event.enter.injEq] at hi
      simp [hi]
    | 1 => simp at hi
    | i + 2 => exact ih i path' shape' hi
  | @node path shape outcome inner rest _ _ ihinner ih =>
    intro i path' shape' hi
    match i with
    | 0 => simp at hi
    | i + 1 =>
      rw [getElem?_around] at hi ⊢
      by_cases hlt : i < inner.length
      · rw [if_pos hlt] at hi
        have hnext := ihinner i path' shape' hi
        obtain ⟨hlen, -⟩ := List.getElem?_eq_some_iff.mp hnext
        rw [if_pos hlen]
        exact hnext
      · by_cases heq : i = inner.length
        · simp [heq] at hi
        · rw [if_neg hlt, if_neg heq] at hi
          rw [if_neg (by omega), if_neg (by omega)]
          have hnext := ih (i - inner.length - 1) path' shape' hi
          rwa [show i + 1 - inner.length - 1 = i - inner.length - 1 + 1 by omega]
  | broken path shape _ ih =>
    intro i path' shape' hi
    cases i with
    | zero => simp at hi
    | succ i => exact ih i path' shape' hi

theorem Logged.stopped_iff {outcome : Outcome} {log : List (Event ι)} (h : Logged outcome log) :
    outcome = .stopped ↔ ∃ path shape, Event.enter path shape .stop ∈ log := by
  induction h with
  | done => simp
  | stop path shape => simp
  | skip path shape _ ih => simpa using ih
  | node path shape _ _ ihinner ih =>
    simp only [reduceCtorEq, false_iff, not_exists] at ihinner
    simpa [ihinner] using ih
  | broken path shape _ ih => simpa using ih

theorem Logged.stopsAtOnce {outcome : Outcome} {log : List (Event ι)}
    (h : Logged outcome log) : StopsAtOnce log := by
  induction h with
  | done => simp [StopsAtOnce]
  | stop path shape =>
    intro i path' shape' hi
    cases i with
    | zero => rfl
    | succ i => simp at hi
  | skip path shape _ ih =>
    intro i path' shape' hi
    match i with
    | 0 => simp at hi
    | 1 => simp at hi
    | i + 2 =>
      have := ih i path' shape' hi
      simp only [List.length_cons]
      omega
  | @node path shape outcome inner rest hinner _ _ ih =>
    intro i path' shape' hi
    match i with
    | 0 => simp at hi
    | i + 1 =>
      rw [getElem?_around] at hi
      by_cases hlt : i < inner.length
      · rw [if_pos hlt] at hi
        have hstop := hinner.stopped_iff.mpr ⟨path', shape', List.mem_of_getElem? hi⟩
        cases hstop
      · by_cases heq : i = inner.length
        · simp [heq] at hi
        · rw [if_neg hlt, if_neg heq] at hi
          have := ih _ path' shape' hi
          simp only [List.length_cons, List.length_append]
          omega
  | broken path shape _ ih =>
    intro i path' shape' hi
    cases i with
    | zero => simp at hi
    | succ i =>
      have := ih i path' shape' hi
      simp only [List.length_cons]
      omega

section Walk

variable {σ : Type} [DecidableEq ι] {S : Shapes ι} {visitor : Visitor ι σ}

/-- A part of a walk, from one state to another, adds callbacks in the order of its outcome. -/
def Adds (run : Visits ι (σ × List (Event ι)))
    (result : Outcome × Visits ι (σ × List (Event ι))) : Prop :=
  result.1 ≠ .outOfFuel →
    ∃ log, result.2.state.2 = run.state.2 ++ log ∧ Logged result.1 log

omit [DecidableEq ι] in
theorem adds_walkChildren
    {walk : Child ι → Visits ι (σ × List (Event ι)) → Outcome × Visits ι (σ × List (Event ι))}
    (cs : List (Child ι)) (h : ∀ c ∈ cs, ∀ run, Adds run (walk c run))
    (run : Visits ι (σ × List (Event ι))) : Adds run (walkChildren walk cs run) := by
  induction cs generalizing run with
  | nil =>
    intro _
    exact ⟨[], by simp [walkChildren], .done⟩
  | cons c cs ih =>
    have hc := h c (List.mem_cons_self ..) run
    have hrest := ih (fun c' hc' => h c' (List.mem_cons_of_mem _ hc'))
    unfold Adds at *
    cases hwalk : walk c run with
    | mk outcome next =>
      rw [hwalk] at hc
      cases outcome with
      | completed =>
        obtain ⟨log, hlog, hlogged⟩ := hc (by simp)
        intro hfuel
        simp only [walkChildren, hwalk] at hfuel ⊢
        obtain ⟨rest, hrest, hrestlogged⟩ := hrest next hfuel
        refine ⟨log ++ rest, ?_, hlogged.append hrestlogged⟩
        rw [hrest, hlog, List.append_assoc]
      | stopped =>
        intro hfuel
        simp only [walkChildren, hwalk] at hfuel ⊢
        exact hc hfuel
      | outOfFuel =>
        intro hfuel
        simp only [walkChildren, hwalk] at hfuel
        exact absurd rfl hfuel

theorem adds_walkRecursive (fuel : ℕ) (shape : ι) (trail : Trail ι) (ancestors : List ι)
    (run : Visits ι (σ × List (Event ι))) :
    Adds run (walkRecursive S visitor.recording fuel shape trail ancestors run) := by
  induction fuel generalizing shape trail ancestors run with
  | zero =>
    intro hfuel
    exact absurd rfl hfuel
  | succ fuel ih =>
    intro hfuel
    rw [walkRecursive] at hfuel ⊢
    simp only [Visitor.recording_enter, Visitor.left, Visitor.recording_leave] at hfuel ⊢
    cases hdecision : (visitor.enter trail.path shape run.state.1).1 with
    | stop => exact ⟨_, rfl, .stop _ _⟩
    | skipChildren => exact ⟨_, List.append_assoc .., .skip _ _ .done⟩
    | recurse =>
      simp only [hdecision] at hfuel ⊢
      by_cases hcycle : shape ∈ ancestors
      · simp only [hcycle, if_true, List.append_assoc] at hfuel ⊢
        exact ⟨_, rfl, .node _ _ .done .done⟩
      · simp only [hcycle, if_false] at hfuel ⊢
        have hwalked := adds_walkChildren (children (S shape))
          (fun c _ run => ih c.shape (trail ++ [c]) (shape :: ancestors) run)
            ⟨((visitor.enter trail.path shape run.state.1).2,
              run.state.2 ++ [.enter trail.path shape .recurse]), run.entered ++ [trail]⟩
        cases hwalk : walkChildren (fun c => walkRecursive S visitor.recording fuel c.shape
            (trail ++ [c]) (shape :: ancestors)) (children (S shape))
            ⟨((visitor.enter trail.path shape run.state.1).2,
              run.state.2 ++ [.enter trail.path shape .recurse]), run.entered ++ [trail]⟩ with
        | mk outcome last =>
          rw [hwalk] at hwalked
          simp only [hwalk] at hfuel ⊢
          cases outcome with
          | completed =>
            obtain ⟨inner, hinner, hlogged⟩ := hwalked (by simp)
            refine ⟨_, ?_, .node trail.path shape hlogged .done⟩
            dsimp only at hinner ⊢
            rw [hinner]
            simp
          | stopped =>
            obtain ⟨inner, hinner, hlogged⟩ := hwalked (by simp)
            refine ⟨_, ?_, .broken trail.path shape hlogged⟩
            dsimp only at hinner ⊢
            rw [hinner]
            simp
          | outOfFuel => exact absurd rfl hfuel

/-- The run without the notes. -/
def Visits.forget (run : Visits ι (σ × List (Event ι))) : Visits ι σ :=
  ⟨run.state.1, run.entered⟩

omit [DecidableEq ι] in
theorem forget_walkChildren
    {walk : Child ι → Visits ι (σ × List (Event ι)) → Outcome × Visits ι (σ × List (Event ι))}
    {plain : Child ι → Visits ι σ → Outcome × Visits ι σ} (cs : List (Child ι))
    (h : ∀ c ∈ cs, ∀ run, ((walk c run).1, (walk c run).2.forget) = plain c run.forget)
    (run : Visits ι (σ × List (Event ι))) :
    ((walkChildren walk cs run).1, (walkChildren walk cs run).2.forget) =
      walkChildren plain cs run.forget := by
  induction cs generalizing run with
  | nil => rfl
  | cons c cs ih =>
    have hc := h c (List.mem_cons_self ..) run
    have hrest := ih fun c' hc' => h c' (List.mem_cons_of_mem _ hc')
    rw [walkChildren, walkChildren, ← hc]
    cases hwalk : walk c run with
    | mk outcome next =>
      cases outcome with
      | completed => exact hrest next
      | stopped => rfl
      | outOfFuel => rfl

theorem forget_walkRecursive (fuel : ℕ) (shape : ι) (trail : Trail ι) (ancestors : List ι)
    (run : Visits ι (σ × List (Event ι))) :
    ((walkRecursive S visitor.recording fuel shape trail ancestors run).1,
      (walkRecursive S visitor.recording fuel shape trail ancestors run).2.forget) =
        walkRecursive S visitor fuel shape trail ancestors run.forget := by
  induction fuel generalizing shape trail ancestors run with
  | zero => rfl
  | succ fuel ih =>
    have hchildren := forget_walkChildren (children (S shape))
      (fun c _ run => ih c.shape (trail ++ [c]) (shape :: ancestors) run)
        ⟨visitor.recording.enter trail.path shape run.state |>.2, run.entered ++ [trail]⟩
    rw [walkRecursive, walkRecursive]
    simp only [Visitor.recording_enter, Visitor.left, Visitor.recording_leave, Visits.forget]
      at hchildren ⊢
    cases hdecision : (visitor.enter trail.path shape run.state.1).1 with
    | stop => rfl
    | skipChildren => rfl
    | recurse =>
      by_cases hcycle : shape ∈ ancestors
      · simp only [hcycle, if_true]
      · simp only [hcycle, if_false, ← hchildren, hdecision]
        generalize walkChildren (fun c => walkRecursive S visitor.recording fuel c.shape
          (trail ++ [c]) (shape :: ancestors)) (children (S shape)) _ = result
        obtain ⟨outcome, last⟩ := result
        cases outcome <;> rfl

def Event.entered? : Event ι → Option (List PathStep)
  | .enter path _ _ => some path
  | .leave _ _ => none

/-- The paths that the visitor is handed, in order. -/
def enteredPaths (log : List (Event ι)) : List (List PathStep) := log.filterMap Event.entered?

/-- The notes and the trails of a run tell of the same paths. -/
def Visits.Noted (run : Visits ι (σ × List (Event ι))) : Prop :=
  enteredPaths run.state.2 = run.entered.map Trail.path

theorem noted_walkRecursive (fuel : ℕ) (shape : ι) (trail : Trail ι) (ancestors : List ι)
    {run : Visits ι (σ × List (Event ι))} (h : run.Noted) :
    (walkRecursive S visitor.recording fuel shape trail ancestors run).2.Noted := by
  induction fuel generalizing shape trail ancestors run with
  | zero => exact h
  | succ fuel ih =>
    unfold Visits.Noted enteredPaths at h
    have hentered : ∀ decision, Visits.Noted
        (⟨((visitor.enter trail.path shape run.state.1).2,
          run.state.2 ++ [.enter trail.path shape decision]), run.entered ++ [trail]⟩ :
            Visits ι (σ × List (Event ι))) := by
      intro decision
      simp [Visits.Noted, enteredPaths, h, Event.entered?]
    have hleft : ∀ last : Visits ι (σ × List (Event ι)), last.Noted →
        (visitor.recording.left trail.path shape last).Noted := by
      intro last hlast
      unfold Visits.Noted enteredPaths at hlast
      simp [Visits.Noted, enteredPaths, Visitor.left, Visitor.recording_leave, hlast,
        Event.entered?]
    rw [walkRecursive]
    simp only [Visitor.recording_enter]
    cases hdecision : (visitor.enter trail.path shape run.state.1).1 with
    | stop => exact hentered .stop
    | skipChildren => exact hleft _ (hentered .skipChildren)
    | recurse =>
      by_cases hcycle : shape ∈ ancestors
      · simp only [hcycle, if_true]
        exact hleft _ (hentered .recurse)
      · simp only [hcycle, if_false]
        have hwalked : Visits.Noted (walkChildren (fun c => walkRecursive S visitor.recording fuel
            c.shape (trail ++ [c]) (shape :: ancestors)) (children (S shape)) _).2 :=
          walkChildren_keeps (P := Visits.Noted)
            (fun c _ run hrun => ih c.shape (trail ++ [c]) (shape :: ancestors) hrun)
            (hentered .recurse)
        revert hwalked
        generalize walkChildren (fun c => walkRecursive S visitor.recording fuel c.shape
          (trail ++ [c]) (shape :: ancestors)) (children (S shape)) _ = result
        intro hwalked
        obtain ⟨outcome, last⟩ := result
        cases outcome with
        | completed => exact hleft last hwalked
        | stopped => exact hwalked
        | outOfFuel => exact hwalked

end Walk

section Exhaustive

variable [DecidableEq ι] (S : Shapes ι)

/-- The trails of a walk that nothing but a repeated shape cuts short. -/
def simpleTrails : ℕ → ι → Trail ι → List ι → List (Trail ι)
  | 0, _, _, _ => []
  | fuel + 1, shape, trail, ancestors =>
    trail ::
      if shape ∈ ancestors then []
      else (children (S shape)).flatMap fun c =>
        simpleTrails fuel c.shape (trail ++ [c]) (shape :: ancestors)

/-- The shapes a trail leaves behind. -/
def Trail.passed (a : ι) : Trail ι → List ι
  | [] => []
  | c :: cs => a :: Trail.passed c.shape cs

/-- The trail repeats no shape, unless it is its last one. -/
def Trail.Simple (root : ι) (trail : Trail ι) : Prop := (Trail.passed root trail).Nodup

variable {S}

theorem mem_simpleTrails [Fintype ι] {fuel : ℕ} {shape : ι} {trail t : Trail ι}
    {ancestors : List ι} (hnodup : ancestors.Nodup)
    (hfuel : Fintype.card ι < ancestors.length + fuel) :
    t ∈ simpleTrails S fuel shape trail ancestors ↔
      ∃ ext, t = trail ++ ext ∧ Descends S shape ext ∧ (Trail.passed shape ext).Nodup ∧
        ∀ x ∈ Trail.passed shape ext, x ∉ ancestors := by
  induction fuel generalizing shape trail ancestors with
  | zero =>
    have := hnodup.length_le_card
    omega
  | succ fuel ih =>
    rw [simpleTrails, List.mem_cons]
    by_cases hcycle : shape ∈ ancestors
    · rw [if_pos hcycle]
      constructor
      · rintro (rfl | h)
        · exact ⟨[], by simp, trivial, List.nodup_nil, by simp [Trail.passed]⟩
        · cases h
      · rintro ⟨ext, rfl, -, -, hfresh⟩
        cases ext with
        | nil => simp
        | cons c cs => exact absurd hcycle (hfresh shape (List.mem_cons_self ..))
    · rw [if_neg hcycle, List.mem_flatMap]
      have hchild : ∀ c : Child ι,
          t ∈ simpleTrails S fuel c.shape (trail ++ [c]) (shape :: ancestors) ↔ _ :=
        fun c => ih (List.nodup_cons.mpr ⟨hcycle, hnodup⟩)
          (by simp only [List.length_cons]; omega)
      constructor
      · rintro (rfl | ⟨c, hc, ht⟩)
        · exact ⟨[], by simp, trivial, List.nodup_nil, by simp [Trail.passed]⟩
        · obtain ⟨ext, rfl, hext, hpassed, hfresh⟩ := (hchild c).mp ht
          refine ⟨c :: ext, by simp, ⟨hc, hext⟩, ?_, ?_⟩
          · rw [Trail.passed, List.nodup_cons]
            exact ⟨fun hmem => hfresh shape hmem (List.mem_cons_self ..), hpassed⟩
          · intro x hx
            rcases List.mem_cons.mp hx with rfl | hx
            · exact hcycle
            · exact fun hmem => hfresh x hx (List.mem_cons_of_mem _ hmem)
      · rintro ⟨ext, rfl, hext, hpassed, hfresh⟩
        cases ext with
        | nil => simp
        | cons c cs =>
          refine .inr ⟨c, hext.1, (hchild c).mpr ⟨cs, by simp, hext.2, ?_, ?_⟩⟩
          · exact (List.nodup_cons.mp hpassed).2
          · intro x hx hmem
            rcases List.mem_cons.mp hmem with rfl | hmem
            · exact (List.nodup_cons.mp hpassed).1 hx
            · exact hfresh x (List.mem_cons_of_mem _ hx) hmem

section Distinct

/-- The steps into the children tell them apart, and none begins another's. -/
structure DistinctSteps (shape : Shape ι) : Prop where
  nodup : ((children shape).map Child.steps).Nodup
  length_eq : ∀ c ∈ children shape, ∀ d ∈ children shape, c.steps.length = d.steps.length

theorem exists_path_of_mem {fuel : ℕ} {shape : ι} {trail t : Trail ι} {ancestors : List ι}
    (h : t ∈ simpleTrails S fuel shape trail ancestors) :
    ∃ rest, t.path = trail.path ++ rest := by
  induction fuel generalizing shape trail ancestors with
  | zero => cases h
  | succ fuel ih =>
    rw [simpleTrails, List.mem_cons] at h
    rcases h with rfl | h
    · exact ⟨[], by simp⟩
    · by_cases hcycle : shape ∈ ancestors
      · simp [hcycle] at h
      · rw [if_neg hcycle, List.mem_flatMap] at h
        obtain ⟨c, -, ht⟩ := h
        obtain ⟨rest, hrest⟩ := ih ht
        refine ⟨c.steps ++ rest, ?_⟩
        rw [hrest]
        simp [Trail.path]

theorem nodup_paths_simpleTrails (hsteps : ∀ s, DistinctSteps (S s)) (fuel : ℕ) (shape : ι)
    (trail : Trail ι) (ancestors : List ι) :
    ((simpleTrails S fuel shape trail ancestors).map Trail.path).Nodup := by
  induction fuel generalizing shape trail ancestors with
  | zero => exact List.nodup_nil
  | succ fuel ih =>
    rw [simpleTrails, List.map_cons, List.nodup_cons]
    by_cases hcycle : shape ∈ ancestors
    · simp [hcycle]
    · rw [if_neg hcycle]
      constructor
      · intro hmem
        obtain ⟨t, ht, hpath⟩ := List.mem_map.mp hmem
        obtain ⟨c, -, htc⟩ := List.mem_flatMap.mp ht
        obtain ⟨rest, hrest⟩ := exists_path_of_mem htc
        have hlen := congrArg List.length (hpath.symm.trans hrest)
        have hconcat := Trail.length_path_concat trail c
        have hpos := c.length_steps
        rw [List.length_append] at hlen
        omega
      · rw [List.map_flatMap, List.nodup_flatMap]
        refine ⟨fun c _ => ih c.shape (trail ++ [c]) (shape :: ancestors), ?_⟩
        have hdistinct := hsteps shape
        apply (List.pairwise_map.mp hdistinct.nodup).imp_of_mem
        intro c d hc hd hne path hpc hpd
        obtain ⟨t, ht, rfl⟩ := List.mem_map.mp hpc
        obtain ⟨u, hu, hpath⟩ := List.mem_map.mp hpd
        obtain ⟨rest, hrest⟩ := exists_path_of_mem ht
        obtain ⟨rest', hrest'⟩ := exists_path_of_mem hu
        -- both paths go on with the steps of their child, which are equally long
        have heq : c.steps ++ rest = d.steps ++ rest' := by
          have := hrest.symm.trans (hpath.symm.trans hrest')
          simpa [Trail.path] using this
        exact hne (List.append_inj_left heq (hdistinct.length_eq c hc d hd))

end Distinct

section Indexes

/-- The indices of fields and variants fit the 32 bits of a step. -/
def Form.IndexesFit : Form ι → Prop
  | .struct ty => ty.fields.length ≤ 2 ^ 32
  | .enum ty => ty.variants.length ≤ 2 ^ 32 ∧ ∀ v ∈ ty.variants, v.data.fields.length ≤ 2 ^ 32
  | _ => True

theorem asU32_inj {i j : ℕ} (hi : i < 2 ^ 32) (hj : j < 2 ^ 32) (h : asU32 i = asU32 j) :
    i = j := by
  unfold asU32 at h
  omega

omit [DecidableEq ι] in
theorem steps_fieldChildren (variant : Option ℕ) (fields : List (Field ι)) :
    (fieldChildren variant fields).map Child.steps =
      (List.range fields.length).map fun i =>
        variant.toList.map PathStep.variant ++ [.field (asU32 i)] := by
  have hsnd : fields.zipIdx.map Prod.snd = List.range fields.length := by
    rw [List.zipIdx_map_snd, List.range_eq_range']
  unfold fieldChildren
  rw [← hsnd, List.map_map, List.map_map]
  rfl

omit [DecidableEq ι] in
theorem nodup_steps_fieldChildren (variant : Option ℕ) {fields : List (Field ι)}
    (h : fields.length ≤ 2 ^ 32) : ((fieldChildren variant fields).map Child.steps).Nodup := by
  rw [steps_fieldChildren]
  apply List.nodup_range.map_on
  intro i hi j hj heq
  rw [List.mem_range] at hi hj
  have hfield := List.append_cancel_left heq
  simp only [List.cons.injEq, PathStep.field.injEq, and_true] at hfield
  exact asU32_inj (by omega) (by omega) hfield

omit [DecidableEq ι] in
theorem length_steps_fieldChildren {variant : Option ℕ} {fields : List (Field ι)} {c : Child ι}
    (hc : c ∈ fieldChildren variant fields) : c.steps.length = variant.toList.length + 1 := by
  obtain ⟨e, -, rfl⟩ := List.mem_map.mp hc
  simp [Child.steps]

omit [DecidableEq ι] in
theorem distinctSteps_of_indexesFit {shape : Shape ι} (h : (form shape).IndexesFit) :
    DistinctSteps shape := by
  have hnodup : ((form shape).children.map Child.steps).Nodup := by
    cases hform : form shape with
    | struct ty =>
      rw [hform] at h
      exact nodup_steps_fieldChildren none h
    | enum ty =>
      rw [hform] at h
      rw [Form.children, List.map_flatMap, List.nodup_flatMap]
      constructor
      · intro e he
        exact nodup_steps_fieldChildren _ (h.2 e.1 (List.fst_mem_of_mem_zipIdx he))
      · rw [List.pairwise_iff_getElem]
        intro i j hi hj hij steps hsi hsj
        rw [List.length_zipIdx] at hi hj
        simp only [List.getElem_zipIdx, steps_fieldChildren, List.mem_map] at hsi hsj
        obtain ⟨k, -, rfl⟩ := hsi
        obtain ⟨l, -, heq⟩ := hsj
        simp only [Option.toList_some, List.map_cons, List.map_nil, List.cons_append,
          List.nil_append, List.cons.injEq, PathStep.variant.injEq, Nat.zero_add] at heq
        have := h.1
        have hsame := asU32_inj (by omega) (by omega) heq.1
        omega
    | option t => simp [Form.children]
    | sequence t => simp [Form.children]
    | collection t => simp [Form.children]
    | map k v => simp [Form.children, Child.steps]
    | result t e => simp [Form.children, Child.steps]
    | pointee t => simp [Form.children]
    | inner t => simp [Form.children]
    | leaf => simp [Form.children]
  have hlength : ∃ n, ∀ c ∈ (form shape).children, c.steps.length = n := by
    cases form shape with
    | struct ty => exact ⟨_, fun c hc => length_steps_fieldChildren hc⟩
    | enum ty =>
      refine ⟨2, fun c hc => ?_⟩
      obtain ⟨e, -, hc⟩ := List.mem_flatMap.mp hc
      exact length_steps_fieldChildren hc
    | result t e => exact ⟨2, by simp [Form.children, Child.steps]⟩
    | option t => exact ⟨1, by simp [Form.children, Child.steps]⟩
    | sequence t => exact ⟨1, by simp [Form.children, Child.steps]⟩
    | collection t => exact ⟨1, by simp [Form.children, Child.steps]⟩
    | map k v => exact ⟨1, by simp [Form.children, Child.steps]⟩
    | pointee t => exact ⟨1, by simp [Form.children, Child.steps]⟩
    | inner t => exact ⟨1, by simp [Form.children, Child.steps]⟩
    | leaf => exact ⟨0, by simp [Form.children]⟩
  obtain ⟨n, hn⟩ := hlength
  exact ⟨hnodup, fun c hc d hd => (hn c hc).trans (hn d hd).symm⟩

end Indexes

section Walks

variable {σ : Type} {visitor : Visitor ι σ}

/-- The visitor never skips or stops. -/
def Visitor.Continues (visitor : Visitor ι σ) : Prop :=
  ∀ path shape s, (visitor.enter path shape s).1 = .recurse

omit [DecidableEq ι] in
theorem entered_walkChildren {walk : Child ι → Visits ι σ → Outcome × Visits ι σ}
    {trailsOf : Child ι → List (Trail ι)} (cs : List (Child ι))
    (h : ∀ c ∈ cs, ∀ run, (walk c run).1 ≠ .outOfFuel →
      (walk c run).1 = .completed ∧ (walk c run).2.entered = run.entered ++ trailsOf c)
    (run : Visits ι σ) (hfuel : (walkChildren walk cs run).1 ≠ .outOfFuel) :
    (walkChildren walk cs run).1 = .completed ∧
      (walkChildren walk cs run).2.entered = run.entered ++ cs.flatMap trailsOf := by
  induction cs generalizing run with
  | nil => exact ⟨rfl, by simp [walkChildren]⟩
  | cons c cs ih =>
    have hc := h c (List.mem_cons_self ..) run
    have hrest := ih (fun c' hc' => h c' (List.mem_cons_of_mem _ hc'))
    cases hwalk : walk c run with
    | mk outcome next =>
      rw [hwalk] at hc
      simp only [walkChildren, hwalk] at hfuel ⊢
      cases outcome with
      | completed =>
        obtain ⟨-, hentered⟩ := hc (by simp)
        obtain ⟨houtcome, hlast⟩ := hrest next hfuel
        refine ⟨houtcome, ?_⟩
        rw [hlast, hentered, List.flatMap_cons, List.append_assoc]
      | stopped => exact absurd (hc hfuel).1 (by simp)
      | outOfFuel => exact absurd rfl hfuel

/-- A visitor that always recurses is handed exactly the trails of an uncut walk, in order. -/
theorem entered_walkRecursive (hcontinues : visitor.Continues) (fuel : ℕ) (shape : ι)
    (trail : Trail ι) (ancestors : List ι) (run : Visits ι σ)
    (hfuel : (walkRecursive S visitor fuel shape trail ancestors run).1 ≠ .outOfFuel) :
    (walkRecursive S visitor fuel shape trail ancestors run).1 = .completed ∧
      (walkRecursive S visitor fuel shape trail ancestors run).2.entered =
        run.entered ++ simpleTrails S fuel shape trail ancestors := by
  induction fuel generalizing shape trail ancestors run with
  | zero => exact absurd rfl hfuel
  | succ fuel ih =>
    have hdecision := hcontinues trail.path shape run.state
    rw [simpleTrails]
    rcases walkRecursive_cases fuel shape trail ancestors run with
      ⟨hentered, houtcome, hcycle⟩ | ⟨hfresh, -, walked, rfl, houtcome, hentered⟩
    · rw [if_pos (hcycle hdecision), hentered, houtcome, hdecision]
      simp
    · rw [if_neg hfresh, hentered, houtcome]
      rw [houtcome] at hfuel
      have hchildren := entered_walkChildren (children (S shape))
        (fun c _ run => ih c.shape (trail ++ [c]) (shape :: ancestors) run)
        (visitor.entering shape trail run) hfuel
      refine ⟨hchildren.1, ?_⟩
      rw [hchildren.2]
      simp [Visitor.entering]

end Walks

section Whole

variable {σ : Type} [Fintype ι] (visitor : Visitor ι σ)

/-- The walk of a recording visitor from the root. -/
def recordedWalk (S : Shapes ι) (visitor : Visitor ι σ) (fuel : ℕ) (root : ι) (state : σ) :
    Outcome × Visits ι (σ × List (Event ι)) :=
  walkShape S visitor.recording fuel root (state, [])

/-- The callbacks of a walk. -/
def callbacks (S : Shapes ι) (visitor : Visitor ι σ) (fuel : ℕ) (root : ι) (state : σ) :
    List (Event ι) :=
  (recordedWalk S visitor fuel root state).2.state.2

omit [Fintype ι] in
theorem forget_recordedWalk (S : Shapes ι) (root : ι) (state : σ) (fuel : ℕ) :
    ((recordedWalk S visitor fuel root state).1,
      (recordedWalk S visitor fuel root state).2.forget) = walkShape S visitor fuel root state :=
  forget_walkRecursive fuel root [] [] _

/-- A visitor that always recurses walks on to the end, and enters the uncut walk's paths. -/
theorem enteredPaths_callbacks {visitor : Visitor ι σ} (hcontinues : visitor.Continues)
    (S : Shapes ι) (root : ι) (state : σ) {fuel : ℕ} (hfuel : Fintype.card ι < fuel) :
    (recordedWalk S visitor fuel root state).1 = .completed ∧
      enteredPaths (callbacks S visitor fuel root state) =
        (simpleTrails S fuel root [] []).map Trail.path := by
  have hforget := forget_recordedWalk visitor S root state fuel
  obtain ⟨hcompleted, hentered⟩ := entered_walkRecursive hcontinues fuel root [] [] { state }
    (walkShape_outcome fuel root state hfuel)
  have hstart : Visits.Noted (⟨(state, []), []⟩ : Visits ι (σ × List (Event ι))) := rfl
  have hnoted : (recordedWalk S visitor fuel root state).2.Noted :=
    noted_walkRecursive fuel root [] [] hstart
  have hsame := congrArg (fun result => result.2.entered) hforget
  exact ⟨(congrArg Prod.fst hforget).trans hcompleted, hnoted.trans
    (congrArg (List.map Trail.path) (hsame.trans (hentered.trans (List.nil_append _))))⟩

/-- A walk over finitely many shapes ends. Its callbacks nest, and at the end of a completed
walk none is open; what is skipped is left at once; nothing follows a stop. A visitor that
always recurses enters exactly the trails that repeat no shape before their end, and, as long
as indices fit the steps of a path, each of their paths once. -/
theorem callbacks_spec (S : Shapes ι) (root : ι) (state : σ) (fuel : ℕ)
    (hfuel : Fintype.card ι < fuel) :
    (recordedWalk S visitor fuel root state).1 ≠ .outOfFuel ∧
      walkShape S visitor fuel root state =
        ((recordedWalk S visitor fuel root state).1,
          (recordedWalk S visitor fuel root state).2.forget) ∧
      (∃ pending, nest (callbacks S visitor fuel root state) [] = some pending ∧
        ((recordedWalk S visitor fuel root state).1 = .completed → pending = [])) ∧
      SkipsAtOnce (callbacks S visitor fuel root state) ∧
      StopsAtOnce (callbacks S visitor fuel root state) ∧
      ((recordedWalk S visitor fuel root state).1 = .stopped ↔
        ∃ path shape, Event.enter path shape .stop ∈ callbacks S visitor fuel root state) ∧
      (visitor.Continues →
        (recordedWalk S visitor fuel root state).1 = .completed ∧
        (∀ path, path ∈ enteredPaths (callbacks S visitor fuel root state) ↔
          ∃ trail, Descends S root trail ∧ trail.Simple root ∧ trail.path = path) ∧
        ((∀ s, (form (S s)).IndexesFit) →
          (enteredPaths (callbacks S visitor fuel root state)).Nodup)) := by
  have hended : (recordedWalk S visitor fuel root state).1 ≠ .outOfFuel :=
    walkShape_outcome fuel root (state, []) hfuel
  have hadds : Adds ⟨(state, []), []⟩ (recordedWalk S visitor fuel root state) :=
    adds_walkRecursive fuel root [] [] _
  obtain ⟨log, hlog, hlogged⟩ := hadds hended
  have hcallbacks : callbacks S visitor fuel root state = log := hlog
  obtain ⟨pending, hnest, hnone⟩ := hlogged.nest []
  rw [hcallbacks]
  refine ⟨hended, (forget_recordedWalk visitor S root state fuel).symm,
    ⟨pending, by simpa using hnest, hnone⟩, hlogged.skipsAtOnce, hlogged.stopsAtOnce,
    hlogged.stopped_iff, ?_⟩
  intro hcontinues
  obtain ⟨hcompleted, hpaths⟩ := enteredPaths_callbacks hcontinues S root state hfuel
  rw [← hcallbacks, hpaths]
  refine ⟨hcompleted, ?_, ?_⟩
  · intro path
    rw [List.mem_map]
    constructor
    · rintro ⟨trail, htrail, rfl⟩
      obtain ⟨ext, hext, hdescends, hsimple, -⟩ :=
        (mem_simpleTrails List.nodup_nil (by simpa using hfuel)).mp htrail
      rw [List.nil_append] at hext
      subst hext
      exact ⟨trail, hdescends, hsimple, rfl⟩
    · rintro ⟨trail, hdescends, hsimple, rfl⟩
      exact ⟨trail, (mem_simpleTrails List.nodup_nil (by simpa using hfuel)).mpr
        ⟨trail, rfl, hdescends, hsimple, by simp⟩, rfl⟩
  · intro hfit
    exact nodup_paths_simpleTrails (fun s => distinctSteps_of_indexesFit (hfit s)) fuel root [] []

end Whole

end Exhaustive

/-- A visitor that always recurses. -/
def tourist {ι : Type} : Visitor ι Unit where
  enter _ _ _ := (.recurse, ())
  leave _ _ s := s

/-- A struct with as many fields of one scalar type as wanted. -/
def wideShapes (n : ℕ) : Shapes Bool
  | true =>
    { ty := .user (.struct ⟨.struct, List.replicate n { name := "x", shape := false }⟩)
      «def» := .undefined }
  | false => { ty := .primitive .numeric, «def» := .scalar }

theorem callbacks_wideShapes :
    (∃ pending, nest (callbacks (wideShapes 2) tourist 3 true ()) [] = some pending ∧
      ((recordedWalk (wideShapes 2) tourist 3 true ()).1 = .completed → pending = [])) ∧
    (enteredPaths (callbacks (wideShapes 2) tourist 3 true ())).Nodup := by
  have h := callbacks_spec tourist (wideShapes 2) true () 3 (by decide)
  refine ⟨h.2.2.1, (h.2.2.2.2.2.2 fun _ _ _ => rfl).2.2 ?_⟩
  intro s
  cases s with
  | true => exact (by decide : 2 ≤ 2 ^ 32)
  | false => trivial

theorem paths_wideShapes (n : ℕ) :
    enteredPaths (callbacks (wideShapes n) tourist 3 true ()) =
      [] :: (List.range n).map fun i => [.field (asU32 i)] := by
  have hleaf : ∀ c ∈ fieldChildren none (List.replicate n { name := "x", shape := false }),
      (simpleTrails (wideShapes n) 2 c.shape [c] [true]).map Trail.path = [c.steps] := by
    intro c hc
    obtain ⟨e, he, rfl⟩ := List.mem_map.mp hc
    have hshape : e.1.shape = false := by
      rw [List.eq_of_mem_replicate (List.fst_mem_of_mem_zipIdx he)]
    simp [hshape, simpleTrails, wideShapes, children, form, definitionForm, Form.children,
      Trail.path]
  have hroot : simpleTrails (wideShapes n) 3 true [] [] =
      [] :: (fieldChildren none (List.replicate n { name := "x", shape := false })).flatMap
        fun c => simpleTrails (wideShapes n) 2 c.shape [c] [true] := rfl
  rw [(enteredPaths_callbacks (fun _ _ _ => rfl) (wideShapes n) true () (by decide)).2, hroot,
    List.map_cons, List.map_flatMap, List.flatMap_congr hleaf, ← List.map_eq_flatMap,
    steps_fieldChildren, List.length_replicate]
  rfl

/-- Two of 2³² + 1 fields are entered under the same path. -/
theorem path_entered_twice :
    ¬ (enteredPaths (callbacks (wideShapes (2 ^ 32 + 1)) tourist 3 true ())).Nodup := by
  rw [paths_wideShapes, List.nodup_cons]
  rintro ⟨-, h⟩
  have hsame := List.inj_on_of_nodup_map h (List.mem_range.mpr (by norm_num : 0 < 2 ^ 32 + 1))
    (List.mem_range.mpr (by norm_num : 2 ^ 32 < 2 ^ 32 + 1)) rfl
  norm_num at hsame

end Facet.Path
