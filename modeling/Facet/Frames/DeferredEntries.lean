import Facet.Frames.FinishingOrder
import Facet.Frames.Kept
import Mathlib.Data.List.Sort
import Mathlib.Data.Set.List

/-!
# Containers in deferred mode

The keys and values of a map are stored under the numbers of their entries, in whatever order they
have been built. Since they are handed on by these numbers, and all keys before the values, every
value ends up beside its own key.
-/

namespace Facet.Frames

open TypePlan Facet.Path HandedUp

variable {ι P N Mem : Type} [DecidableEq ι] [DecidableEq P]

/-- A frame that is stored under a path, or is left on the stack at the depth of its path. The
frames that are stored just below that depth are then its own, or those of a stored frame. -/
inductive Building (storedFrames : StoredFrames ι P N) (stack : Stack ι P N) :
    List PathStep → Frame ι P N → Prop
  | stored {path frame} (h : (path, frame) ∈ storedFrames) : Building storedFrames stack path frame
  | onStack {path frame} (h : stack.reverse[path.length]? = some frame)
    (hnot : path ∉ StoredFrames.paths storedFrames)
    (honly : ∀ other step, other ++ [step] ∈ StoredFrames.paths storedFrames →
      other.length = path.length → other ∉ StoredFrames.paths storedFrames → other = path) :
    Building storedFrames stack path frame

/-- The frame of a path as it is when all below it has been completed. -/
inductive HasReceived (storedFrames : StoredFrames ι P N) (turns : List (FinishTurn ι P N Mem))
    (finished : Stack ι P N) : List PathStep → Frame ι P N → Prop
  | stored {path turn} (h : turn ∈ turns) (hkey : turn.key = .stored path) :
    HasReceived storedFrames turns finished path turn.taken
  | onStack {path frame} (h : finished.reverse[path.length]? = some frame)
    (hnot : path ∉ StoredFrames.paths storedFrames) :
    HasReceived storedFrames turns finished path frame

/-- The turns of the frames that are just below a path, by the last steps of their paths. -/
def AtSteps (path : List PathStep) (turns : List (FinishTurn ι P N Mem)) (steps : List PathStep) :
    Prop :=
  turns.map (·.key) = steps.map fun step => Place.stored (path ++ [step])

section Children

variable {env : Env ι P N Mem} {storedFrames : StoredFrames ι P N} {stack finished : Stack ι P N}
  {order : List (List PathStep)} {turns : List (FinishTurn ι P N Mem)} {path : List PathStep}
  {frame : Frame ι P N}

/-- All that is handed to the place of a path comes from just below it. -/
theorem Walk.atSteps (hwalk : Walk env storedFrames stack order turns finished) {place : Place}
    (hplace : ∀ other ∈ order, Place.above order (.stored other) = some place ↔
      ∃ step, other = path ++ [step]) :
    ∃ steps, AtSteps path (childrenOf (Place.above order) turns place) steps ∧
      steps.Pairwise (fun a b => toLex (stepRank a) < toLex (stepRank b)) ∧
      ∀ step, step ∈ steps ↔ path ++ [step] ∈ StoredFrames.paths storedFrames := by
  have hkeys : (childrenOf (Place.above order) turns place).map (·.key) =
      (order.filter fun other => Place.above order (.stored other) = some place).map
        Place.stored := by
    have hfilter := congrArg (List.filter fun key => decide (Place.above order key = some place))
      hwalk.keys
    rwa [List.filter_map, List.filter_map] at hfilter
  have hexists : ∃ steps : List PathStep,
      (order.filter fun other => Place.above order (.stored other) = some place) =
        steps.map fun step => path ++ [step] := by
    have hall : ∀ other ∈ order.filter fun other => Place.above order (.stored other) = some place,
        other ∈ Set.range fun step => path ++ [step] := by
      intro other hother
      rw [List.mem_filter, decide_eq_true_eq] at hother
      obtain ⟨step, rfl⟩ := (hplace other hother.1).mp hother.2
      exact ⟨step, rfl⟩
    obtain ⟨steps, hsteps⟩ := (Set.range_list_map fun step => path ++ [step]).symm.subset hall
    exact ⟨steps, hsteps.symm⟩
  obtain ⟨steps, hsteps⟩ := hexists
  refine ⟨steps, ?_, ?_, ?_⟩
  · rw [AtSteps, hkeys, hsteps, List.map_map]
    rfl
  · have hordered := hwalk.ordered.filter fun other =>
      Place.above order (.stored other) = some place
    rw [hsteps, List.pairwise_map] at hordered
    exact hordered.imp fun h => h.2 path _ _ rfl rfl
  · intro step
    have hiff : step ∈ steps ↔ path ++ [step] ∈ steps.map fun step => path ++ [step] := by simp
    rw [hiff, ← hsteps, List.mem_filter, ← hwalk.perm.mem_iff]
    constructor
    · exact fun h => h.1
    · intro h
      exact ⟨h, decide_eq_true ((hplace _ h).mpr ⟨step, rfl⟩)⟩

theorem above_eq_stored_iff {paths : List (List PathStep)} (hpath : path ∈ paths)
    (other : List PathStep) : Place.above paths (.stored other) = some (.stored path) ↔
      ∃ step, other = path ++ [step] := by
  constructor
  · intro habove
    obtain ⟨hne, heq⟩ := of_above_eq_stored habove
    exact ⟨other.getLast hne, by rw [← heq, List.dropLast_append_getLast hne]⟩
  · rintro ⟨step, rfl⟩
    simp [Place.above, hpath]

theorem above_eq_onStack_iff {paths : List (List PathStep)} (hpath : path ∉ paths)
    (honly : ∀ other step, other ++ [step] ∈ paths → other.length = path.length →
      other ∉ paths → other = path)
    {other : List PathStep} (hmem : other ∈ paths) :
    Place.above paths (.stored other) = some (.onStack path.length) ↔
      ∃ step, other = path ++ [step] := by
  constructor
  · intro habove
    unfold Place.above at habove
    simp only at habove
    split at habove
    · cases habove
    · next hne =>
      split at habove
      · cases habove
      · next hparent =>
        have hlength := Place.onStack.inj (Option.some_inj.mp habove)
        have hsplit := List.dropLast_append_getLast hne
        rw [← hsplit] at hmem
        have heq := honly _ _ hmem hlength hparent
        exact ⟨other.getLast hne, by rw [← heq, hsplit]⟩
  · rintro ⟨step, rfl⟩
    simp [Place.above, hpath]

theorem mem_childrenOf_iff (hwalk : Walk env storedFrames stack order turns finished)
    {place : Place}
    (hplace : ∀ other ∈ order, Place.above order (.stored other) = some place ↔
      ∃ step, other = path ++ [step]) (child : FinishTurn ι P N Mem) :
    child ∈ childrenOf (Place.above order) turns place ↔
      child ∈ turns ∧ ∃ step, child.key = .stored (path ++ [step]) := by
  unfold childrenOf
  rw [List.mem_filter, decide_eq_true_eq]
  apply and_congr_right
  intro hchild
  have hmem := List.mem_map_of_mem (f := fun turn => turn.key) hchild
  rw [hwalk.keys, List.mem_map] at hmem
  obtain ⟨other, hother, hkey⟩ := hmem
  rw [← hkey, hplace other hother]
  simp

theorem Walk.exists_received (hwalk : Walk env storedFrames stack order turns finished)
    (h : Building storedFrames stack path frame) :
    ∃ frame' children steps, HasReceived storedFrames turns finished path frame' ∧
      receiveAll (FinishTurn.receivedBy env) frame children = .ok frame' ∧
      (∀ child, child ∈ children ↔ child ∈ turns ∧ ∃ step, child.key = .stored (path ++ [step])) ∧
      AtSteps path children steps ∧
      steps.Pairwise (fun a b => toLex (stepRank a) < toLex (stepRank b)) ∧
      ∀ step, step ∈ steps ↔ path ++ [step] ∈ StoredFrames.paths storedFrames := by
  cases h with
  | stored hframe =>
    have hpath : path ∈ order := hwalk.perm.mem_iff.mpr (List.mem_map_of_mem hframe)
    have hplace := fun other (_ : other ∈ order) => above_eq_stored_iff hpath other
    obtain ⟨turn, hturn, hkey, hreceived⟩ := hwalk.taken path frame hframe
    obtain ⟨steps, hsteps⟩ := hwalk.atSteps hplace
    exact ⟨turn.taken, _, steps, .stored hturn hkey, hreceived, mem_childrenOf_iff hwalk hplace,
      hsteps⟩
  | onStack hframe hnot honly =>
    have hmem (other : List PathStep) : other ∈ order ↔ other ∈ StoredFrames.paths storedFrames :=
      hwalk.perm.mem_iff
    have hpath : path ∉ order := fun h => hnot ((hmem path).mp h)
    have hplace : ∀ other ∈ order, Place.above order (.stored other) = some (.onStack path.length) ↔
        ∃ step, other = path ++ [step] := by
      intro other hother
      apply above_eq_onStack_iff hpath _ hother
      intro other step hstep hlength hparent
      exact honly other step ((hmem _).mp hstep) hlength fun h => hparent ((hmem other).mpr h)
    obtain ⟨frame', hfinished, hreceived⟩ := hwalk.onStack path.length frame hframe
    obtain ⟨steps, hsteps⟩ := hwalk.atSteps hplace
    exact ⟨frame', _, steps, .onStack hfinished hnot, hreceived, mem_childrenOf_iff hwalk hplace,
      hsteps⟩

omit [DecidableEq ι] [DecidableEq P] in
theorem HasReceived.exists_turn (h : HasReceived storedFrames turns finished path frame)
    (hmem : path ∈ StoredFrames.paths storedFrames) :
    ∃ turn ∈ turns, turn.key = .stored path ∧ turn.taken = frame := by
  cases h with
  | stored hturn hkey => exact ⟨_, hturn, hkey, rfl⟩
  | onStack _ hnot => exact absurd hmem hnot

theorem Walk.finished_of_hasReceived
    (hwalk : Walk env storedFrames stack order turns finished)
    (h : HasReceived storedFrames turns finished path frame)
    (hnot : path ∉ StoredFrames.paths storedFrames) :
    finished.reverse[path.length]? = some frame := by
  cases h with
  | @stored turn hturn hkey =>
    have hmem := List.mem_map_of_mem (f := fun turn => turn.key) hturn
    rw [hwalk.keys, hkey, List.mem_map] at hmem
    obtain ⟨other, hother, heq⟩ := hmem
    rw [Place.stored.inj heq, hwalk.perm.mem_iff] at hother
    exact absurd hother hnot
  | onStack hfinished _ => exact hfinished

end Children

section Complete

variable {env : Env ι P N Mem} {frame : Frame ι P N} {mem : Mem}

omit [DecidableEq ι] [DecidableEq P] in
theorem fillDefaults_eq (hscalar : frame.tracker.isScalar = false)
    (htracked : frame.fillTracked env mem = .ok (frame, mem)) :
    frame.fillDefaults env mem = .ok (frame, mem) := by
  have huntouched : frame.fillUntouched env mem = none := by
    rw [Frame.fillUntouched, if_neg (by simp [hscalar])]
  have htrack : frame.trackFields env = frame := by
    rw [Frame.trackFields, if_neg (by simp [hscalar])]
  unfold Frame.fillDefaults
  rw [huntouched]
  dsimp only
  rw [htrack, htracked]

omit [DecidableEq P] in
theorem completeStored_eq {parent : Option (Frame ι P N)} {fail : ReflectErrorKind ι → Stop ι}
    (hslice : frame.convertStoredSlice env parent mem = .ok (frame, mem))
    (hfill : frame.fillDefaults env mem = .ok (frame, mem)) :
    frame.completeStored env parent fail mem =
      (frame.requireFullInitialization env mem).mapError fail := by
  unfold Frame.completeStored
  rw [hslice]
  dsimp only [bind, Except.bind]
  rw [hfill]
  rfl

end Complete

/-- The entry that a value belongs to. -/
def valueIndex : PathStep → Option ℕ
  | .mapValue i => some i
  | _ => none

/-- The keys of the entries from one number to another come first, then the values. -/
theorem exists_values {steps : List PathStep} {first total : ℕ}
    (hsorted : steps.Pairwise fun a b => toLex (stepRank a) < toLex (stepRank b))
    (hkeys : ∀ i, PathStep.mapKey i ∈ steps ↔ first ≤ i ∧ i < total)
    (hall : ∀ step ∈ steps, (∃ i, step = .mapKey i) ∨ ∃ i, step = .mapValue i) :
    ∃ values : List ℕ, values.Nodup ∧
      steps = (List.range' first (total - first)).map .mapKey ++ values.map .mapValue := by
  have hvalue {step : PathStep} {i : ℕ} : valueIndex step = some i ↔ step = .mapValue i := by
    cases step <;> simp [valueIndex]
  have hvalues : (steps.filterMap valueIndex).Pairwise (· < ·) := by
    rw [List.pairwise_filterMap]
    refine hsorted.imp ?_
    intro a b hlt i hi j hj
    rw [hvalue.mp hi, hvalue.mp hj, Prod.Lex.lt_iff] at hlt
    simpa [stepRank] using hlt
  refine ⟨steps.filterMap valueIndex, hvalues.imp fun h => h.ne, ?_⟩
  apply List.map_injective_iff.mpr (toLex.injective.comp stepRank_injective)
  have hpairs : ((List.range' first (total - first)).map PathStep.mapKey ++
      (steps.filterMap valueIndex).map PathStep.mapValue).Pairwise
      fun a b => toLex (stepRank a) < toLex (stepRank b) := by
    rw [List.pairwise_append, List.pairwise_map, List.pairwise_map]
    refine ⟨?_, ?_, ?_⟩
    · refine (List.pairwise_lt_range' (s := first) 1).imp ?_
      intro i j hij
      simp [Prod.Lex.lt_iff, stepRank, hij]
    · refine hvalues.imp ?_
      intro i j hij
      simp [Prod.Lex.lt_iff, stepRank, hij]
    · intro a ha b hb
      obtain ⟨i, -, rfl⟩ := List.mem_map.mp ha
      obtain ⟨j, -, rfl⟩ := List.mem_map.mp hb
      simp [Prod.Lex.lt_iff, stepRank]
  apply List.Pairwise.eq_of_mem_iff (r := (· < ·)) (List.pairwise_map.mpr hsorted)
    (List.pairwise_map.mpr hpairs)
  intro rank
  rw [List.mem_map, List.mem_map]
  apply exists_congr
  intro step
  apply and_congr_left
  intro _
  rw [List.mem_append, List.mem_map, List.mem_map]
  constructor
  · intro hstep
    rcases hall step hstep with ⟨i, rfl⟩ | ⟨i, rfl⟩
    · left
      have hi := (hkeys i).mp hstep
      exact ⟨i, List.mem_range'_1.mpr (by omega), rfl⟩
    · exact .inr ⟨i, List.mem_filterMap.mpr ⟨_, hstep, rfl⟩, rfl⟩
  · rintro (⟨i, hi, rfl⟩ | ⟨i, hi, rfl⟩)
    · have hi := List.mem_range'_1.mp hi
      exact (hkeys i).mpr (by omega)
    · obtain ⟨step, hstep, hindex⟩ := List.mem_filterMap.mp hi
      rwa [← hvalue.mp hindex]

section Entries

variable {env : Env ι P N Mem} {path : List PathStep} {turns children : List (FinishTurn ι P N Mem)}
  {frame frame' : Frame ι P N} {insertState : MapInsertState P} {pending : List (P × Option P)}
  {currentEntryIndex : Option ℕ} {buildingKey : Bool}

theorem receiveAll_keys {indices : List ℕ}
    (hsteps : AtSteps path children (indices.map PathStep.mapKey))
    (htracker : frame.tracker = .map insertState pending currentEntryIndex buildingKey) :
    receiveAll (FinishTurn.receivedBy env) frame children = .ok { frame with
      tracker := .map insertState
        (pending ++ children.map fun child => (child.handed.frame.data, none)) currentEntryIndex
        buildingKey } := by
  induction children generalizing frame pending indices with
  | nil =>
    rw [List.map_nil, List.append_nil, ← htracker]
    rfl
  | cons child children ih =>
    cases indices with
    | nil => cases hsteps
    | cons i indices =>
      obtain ⟨hkey, hsteps⟩ := List.cons.inj hsteps
      have hreceived : FinishTurn.receivedBy env frame child = .ok { frame with
          tracker := .map insertState (pending ++ [(child.handed.frame.data, none)])
            currentEntryIndex buildingKey } := by
        simp [FinishTurn.receivedBy, hkey, Frame.receive, Frame.completeMapKeyFrame, htracker,
          Except.map]
      have hrest : AtSteps path children (indices.map PathStep.mapKey) := hsteps
      unfold receiveAll at *
      rw [List.foldlM_cons, hreceived]
      refine (ih hrest rfl).trans ?_
      simp

/-- A value that is handed to a map is put beside the key of its entry. -/
theorem of_receivedBy_value {child : FinishTurn ι P N Mem} {i : ℕ}
    (hkey : child.key = .stored (path ++ [.mapValue i]))
    (htracker : frame.tracker = .map insertState pending currentEntryIndex buildingKey)
    (h : FinishTurn.receivedBy env frame child = .ok frame') :
    ∃ entry, pending[i]? = some entry ∧ frame' = { frame with
      tracker := .map insertState (pending.set i (entry.1, some child.handed.frame.data))
        currentEntryIndex buildingKey } := by
  simp only [FinishTurn.receivedBy, hkey, List.getLast?_append, List.getLast?_singleton,
    Option.some_or, Frame.receive, Frame.completeMapValueFrame, htracker] at h
  cases hentry : pending[i]? with
  | none =>
    rw [hentry] at h
    cases h
  | some entry =>
    rw [hentry] at h
    cases h
    exact ⟨entry, rfl, rfl⟩

theorem of_receiveAll_values {indices : List ℕ} (hnodup : indices.Nodup)
    (hsteps : AtSteps path children (indices.map PathStep.mapValue))
    (htracker : frame.tracker = .map insertState pending currentEntryIndex buildingKey)
    (h : receiveAll (FinishTurn.receivedBy env) frame children = .ok frame') :
    ∃ entries : List (P × Option P), frame' = { frame with
        tracker := .map insertState entries currentEntryIndex buildingKey } ∧
      entries.length = pending.length ∧
      (∀ i : ℕ, entries[i]?.map (·.1) = pending[i]?.map (·.1)) ∧
      (∀ i ∉ indices, entries[i]? = pending[i]?) ∧
      ∀ (i : ℕ), ∀ child ∈ children, child.key = .stored (path ++ [.mapValue i]) →
        entries[i]?.bind (·.2) = some child.handed.frame.data := by
  induction children generalizing frame pending indices with
  | nil =>
    cases h
    exact ⟨pending, by rw [← htracker], rfl, fun _ => rfl, fun _ _ => rfl, by simp⟩
  | cons child children ih =>
    cases indices with
    | nil => cases hsteps
    | cons index indices =>
      obtain ⟨hkey, hsteps⟩ := List.cons.inj hsteps
      obtain ⟨hnew, hnodup⟩ := List.nodup_cons.mp hnodup
      unfold receiveAll at h
      rw [List.foldlM_cons] at h
      obtain ⟨middle, hmiddle, h⟩ := ExceptList.exists_of_bind_ok h
      obtain ⟨entry, hentry, rfl⟩ := of_receivedBy_value hkey htracker hmiddle
      obtain ⟨entries, rfl, hlength, hkeys, hother, hvalues⟩ := ih hnodup hsteps rfl h
      refine ⟨entries, rfl, by simpa using hlength, ?_, ?_, ?_⟩
      · intro i
        rw [hkeys, List.getElem?_set]
        split
        · next heq =>
          rw [← heq, hentry]
          simp [(List.getElem?_eq_some_iff.mp hentry).1]
        · rfl
      · intro i hi
        rw [List.mem_cons, not_or] at hi
        rw [hother i hi.2, List.getElem?_set_ne (Ne.symm hi.1)]
      · intro i other hmem hother'
        rcases List.mem_cons.mp hmem with rfl | hmem
        · have heq : index = i := by
            have := Place.stored.inj (hkey.symm.trans hother')
            simpa using this
          subst heq
          rw [hother index hnew, List.getElem?_set_self (List.getElem?_eq_some_iff.mp hentry).1]
          rfl
        · exact hvalues i other hmem hother'

omit [DecidableEq ι] [DecidableEq P] in
theorem AtSteps.split {first later : List PathStep} (h : AtSteps path children (first ++ later)) :
    ∃ firsts laters, children = firsts ++ laters ∧ AtSteps path firsts first ∧
      AtSteps path laters later := by
  unfold AtSteps at h
  rw [List.map_append] at h
  exact List.map_eq_append_iff.mp h

omit [DecidableEq ι] [DecidableEq P] in
theorem AtSteps.mem {steps : List PathStep} (h : AtSteps path children steps)
    {child : FinishTurn ι P N Mem} (hmem : child ∈ children) {step : PathStep}
    (hkey : child.key = .stored (path ++ [step])) : step ∈ steps := by
  have hmem := List.mem_map_of_mem (f := fun turn => turn.key) hmem
  rw [h, List.mem_map] at hmem
  obtain ⟨other, hother, heq⟩ := hmem
  rw [hkey, Place.stored.injEq, List.append_cancel_left_eq, List.cons.injEq] at heq
  exact heq.1 ▸ hother

omit [DecidableEq ι] [DecidableEq P] in
theorem AtSteps.entry {α : Type} {first count i : ℕ} {before : List α}
    (h : AtSteps path children ((List.range' first count).map .mapKey))
    (hfirst : before.length = first) {child : FinishTurn ι P N Mem} (hmem : child ∈ children)
    (hkey : child.key = .stored (path ++ [.mapKey i])) (f : FinishTurn ι P N Mem → α) :
    (before ++ children.map f)[i]? = some (f child) := by
  obtain ⟨k, hk⟩ := List.mem_iff_getElem?.mp hmem
  have hkeys := congrArg (fun keys => keys[k]?) h
  simp only [List.getElem?_map, hk, Option.map_some, hkey] at hkeys
  have hlt : k < count := by
    by_contra hge
    rw [List.getElem?_eq_none (by simpa using hge)] at hkeys
    cases hkeys
  rw [List.getElem?_eq_getElem (by simpa using hlt)] at hkeys
  simp only [List.getElem_range', Option.map_some, Option.some_inj, Place.stored.injEq,
    List.append_cancel_left_eq, List.cons.injEq, PathStep.mapKey.injEq, and_true] at hkeys
  rw [List.getElem?_append_right (by omega), List.getElem?_map,
    show i - before.length = k by omega, hk]
  rfl

/-- Old entries keep their keys, and every key and value that was stored lies at its entry's number.
-/
structure Paired (storedFrames : StoredFrames ι P N) (turns : List (FinishTurn ι P N Mem))
    (path : List PathStep) (pending entries : List (P × Option P)) (total : ℕ) : Prop where
  length : entries.length = total
  old : ∀ i < pending.length, entries[i]?.map (·.1) = pending[i]?.map (·.1)
  key : ∀ i : ℕ, ∀ turn ∈ turns, turn.key = .stored (path ++ [.mapKey i]) →
    entries[i]?.map (·.1) = some turn.handed.frame.data
  value : ∀ i : ℕ, ∀ turn ∈ turns, turn.key = .stored (path ++ [.mapValue i]) →
    entries[i]?.bind (·.2) = some turn.handed.frame.data
  noValue : ∀ i : ℕ, path ++ [.mapValue i] ∉ StoredFrames.paths storedFrames →
    entries[i]?.bind (·.2) = pending[i]?.bind (·.2)

theorem paired_of_receiveAll {storedFrames : StoredFrames ι P N} {steps : List PathStep} {total : ℕ}
    (htracker : frame.tracker = .map insertState pending currentEntryIndex buildingKey)
    (hreceived : receiveAll (FinishTurn.receivedBy env) frame children = .ok frame')
    (hchildren : ∀ child, child ∈ children ↔
      child ∈ turns ∧ ∃ step, child.key = .stored (path ++ [step]))
    (hsteps : AtSteps path children steps)
    (hsorted : steps.Pairwise fun a b => toLex (stepRank a) < toLex (stepRank b))
    (hstored : ∀ step, step ∈ steps ↔ path ++ [step] ∈ StoredFrames.paths storedFrames)
    (htotal : pending.length ≤ total)
    (hkeys : ∀ i, path ++ [.mapKey i] ∈ StoredFrames.paths storedFrames ↔
      pending.length ≤ i ∧ i < total)
    (hall : ∀ step, path ++ [step] ∈ StoredFrames.paths storedFrames →
      (∃ i, step = .mapKey i) ∨ ∃ i, step = .mapValue i) :
    ∃ entries, frame' = { frame with
        tracker := .map insertState entries currentEntryIndex buildingKey } ∧
      Paired storedFrames turns path pending entries total := by
  obtain ⟨values, hnodup, rfl⟩ := exists_values hsorted (fun i => by rw [hstored, hkeys])
    fun step hstep => hall step ((hstored step).mp hstep)
  obtain ⟨keyTurns, valueTurns, rfl, hkeySteps, hvalueSteps⟩ := hsteps.split
  have hlength : keyTurns.length = total - pending.length := by
    simpa using congrArg List.length hkeySteps
  unfold receiveAll at hreceived
  rw [List.foldlM_append] at hreceived
  obtain ⟨middle, hmiddle, hreceived⟩ := ExceptList.exists_of_bind_ok hreceived
  have hkeyed : receiveAll (FinishTurn.receivedBy env) frame keyTurns = _ :=
    receiveAll_keys hkeySteps htracker
  rw [receiveAll, hmiddle, Except.ok.injEq] at hkeyed
  subst hkeyed
  obtain ⟨entries, rfl, hentries, hfirst, hother, hvalues⟩ :=
    of_receiveAll_values hnodup hvalueSteps rfl hreceived
  have hmem {turn : FinishTurn ι P N Mem} {step : PathStep} (hturn : turn ∈ turns)
      (hkey : turn.key = .stored (path ++ [step])) : turn ∈ keyTurns ∨ turn ∈ valueTurns :=
    List.mem_append.mp ((hchildren turn).mpr ⟨hturn, step, hkey⟩)
  refine ⟨entries, rfl, ?_, ?_, ?_, ?_, ?_⟩
  · rw [hentries, List.length_append, List.length_map, hlength]
    omega
  · intro i hi
    rw [hfirst, List.getElem?_append_left hi]
  · intro i turn hturn hkey
    rcases hmem hturn hkey with hturn | hturn
    · rw [hfirst, hkeySteps.entry rfl hturn hkey]
      rfl
    · have hstep := hvalueSteps.mem hturn hkey
      simp at hstep
  · intro i turn hturn hkey
    rcases hmem hturn hkey with hturn | hturn
    · have hstep := hkeySteps.mem hturn hkey
      simp at hstep
    · exact hvalues i turn hturn hkey
  · intro i hnot
    have hi : i ∉ values := by
      intro hi
      exact hnot ((hstored _).mp (List.mem_append_right _ (List.mem_map_of_mem hi)))
    rw [hother i hi]
    by_cases hlt : i < pending.length
    · rw [List.getElem?_append_left hlt]
    · rw [List.getElem?_append_right (by omega), List.getElem?_map,
        List.getElem?_eq_none (l := pending) (by omega)]
      cases keyTurns[i - pending.length]? <;> rfl

omit [DecidableEq P] in
/-- A map is found complete when the last of its entries has been inserted. -/
theorem of_requireFullInitialization {completed : Frame ι P N} {k v : ι} {mem mem' : Mem}
    (h : frame.requireFullInitialization env mem = .ok (completed, mem'))
    (htracker : frame.tracker = .map insertState pending currentEntryIndex buildingKey)
    (hdef : Shape.def (env.shapes frame.shape) = .map k v) :
    drainPendingIntoMap env frame.shape k v frame.data pending mem = .ok mem' := by
  unfold Frame.requireFullInitialization at h
  rw [htracker] at h
  dsimp only at h
  split at h
  · rw [hdef] at h
    obtain ⟨drained, hdrained, h⟩ := ExceptList.exists_of_bind_ok h
    cases h
    exact hdrained
  · cases h

omit [DecidableEq ι] [DecidableEq P] in
theorem fillDefaults_map (mem : Mem)
    (htracker : frame.tracker = .map insertState pending currentEntryIndex buildingKey) :
    frame.fillDefaults env mem = .ok (frame, mem) := by
  apply fillDefaults_eq
  · rw [htracker]
    rfl
  · rw [Frame.fillTracked, htracker]

omit [DecidableEq P] in
theorem of_completeStored {completed : Frame ι P N} {parent : Option (Frame ι P N)}
    {fail : ReflectErrorKind ι → Stop ι} {k v : ι} {mem mem' : Mem}
    (h : frame.completeStored env parent fail mem = .ok (completed, mem'))
    (htracker : frame.tracker = .map insertState pending currentEntryIndex buildingKey)
    (hdef : Shape.def (env.shapes frame.shape) = .map k v) :
    drainPendingIntoMap env frame.shape k v frame.data pending mem = .ok mem' := by
  have hslice : frame.convertStoredSlice env parent mem = .ok (frame, mem) := by
    rw [Frame.convertStoredSlice, htracker]
  rw [completeStored_eq hslice (fillDefaults_map mem htracker)] at h
  exact of_requireFullInitialization (of_mapError_ok h) htracker hdef

variable {self self' : Partial ι P N Mem} {stack : Stack ι P N} {startDepth : ℕ}
  {storedFrames : StoredFrames ι P N}

/-- If the stored keys of a map are those of its next entries, every stored value is put beside the
key of its number; and if the walk finds the map complete, the entries have been inserted in the
order of their numbers, each with a value. -/
theorem mapEntries_paired (hnodup : (StoredFrames.paths storedFrames).Nodup)
    (hmode : self.mode = .deferred stack startDepth storedFrames)
    (h : self.finishDeferred env = .ok self') :
    ∃ order turns finished, Walk env storedFrames stack order turns finished ∧
      ∀ path frame insertState pending currentEntryIndex buildingKey total,
        Building storedFrames stack path frame →
        frame.tracker = .map insertState pending currentEntryIndex buildingKey →
        pending.length ≤ total →
        (∀ i, path ++ [.mapKey i] ∈ StoredFrames.paths storedFrames ↔
          pending.length ≤ i ∧ i < total) →
        (∀ step, path ++ [step] ∈ StoredFrames.paths storedFrames →
          (∃ i, step = .mapKey i) ∨ ∃ i, step = .mapValue i) →
        ∃ entries, Paired storedFrames turns path pending entries total ∧
          HasReceived storedFrames turns finished path { frame with
            tracker := .map insertState entries currentEntryIndex buildingKey } ∧
          ∀ k v, Shape.def (env.shapes frame.shape) = .map k v →
            ((path, frame) ∈ storedFrames → ∃ turn ∈ turns, turn.key = .stored path ∧ ∃ mem,
              drainPendingIntoMap env frame.shape k v frame.data entries mem =
                .ok turn.handed.mem) ∧
            (stack.length = path.length + 1 ∧ path ∉ StoredFrames.paths storedFrames → ∃ mem,
              drainPendingIntoMap env frame.shape k v frame.data entries mem = .ok self'.mem) := by
  obtain ⟨unfinished, hrun, top, below, filled, mem, top', hstack, hfilled, hchecked, hmode'⟩ :=
    of_finishDeferred hmode h
  obtain ⟨order, turns, hwalk⟩ := walk_of_foldlM hnodup hrun
  refine ⟨order, turns, unfinished.stack, hwalk, ?_⟩
  intro path frame insertState pending currentEntryIndex buildingKey total hbuilding htracker htotal
    hkeys hall
  obtain ⟨frame', children, steps, hreceivedAt, hreceived, hchildren, hsteps, hsorted, hstored⟩ :=
    hwalk.exists_received hbuilding
  obtain ⟨entries, rfl, hpaired⟩ :=
    paired_of_receiveAll htracker hreceived hchildren hsteps hsorted hstored htotal hkeys hall
  refine ⟨entries, hpaired, hreceivedAt, fun k v hdef => ⟨?_, ?_⟩⟩
  · intro hframe
    obtain ⟨turn, hturn, hkey, htaken⟩ := hreceivedAt.exists_turn (List.mem_map_of_mem hframe)
    obtain ⟨parent, fail, mem, hcompletes⟩ := hwalk.completes turn hturn
    rw [htaken] at hcompletes
    have hinserted := of_completeStored hcompletes rfl hdef
    exact ⟨turn, hturn, hkey, mem, hinserted⟩
  · rintro ⟨hdepth, hnot⟩
    have htop := hwalk.finished_of_hasReceived hreceivedAt hnot
    have hlength := hwalk.length_finished
    rw [hstack] at hlength htop
    have hindex : path.length = below.reverse.length := by
      rw [List.length_cons] at hlength
      rw [List.length_reverse]
      omega
    rw [List.reverse_cons, hindex, List.getElem?_concat_length, Option.some_inj] at htop
    subst htop
    rw [fillDefaults_map unfinished.mem rfl] at hfilled
    cases hfilled
    have hinserted := of_requireFullInitialization hchecked rfl hdef
    exact ⟨unfinished.mem, hinserted⟩

theorem mapEntries_paired_ledger :
    ∃ order turns finished, Walk ledgerEnv storedEntries [ledgerFrame] order turns finished ∧
      ∃ entries, Paired storedEntries turns [] [] entries 2 ∧
        HasReceived storedEntries turns finished [] { ledgerFrame with
          tracker := .map .idle entries (some 1) false } ∧
        ∃ mem, drainPendingIntoMap ledgerEnv .ledger .amount .amount 0 entries mem =
          .ok [(10, 20), (11, 21)] := by
  obtain ⟨order, turns, finished, hwalk, hall⟩ :=
    mapEntries_paired (by decide) rfl finishDeferred_ledger
  refine ⟨order, turns, finished, hwalk, ?_⟩
  have hkeys : ∀ i, [] ++ [PathStep.mapKey i] ∈ StoredFrames.paths storedEntries ↔
      ([] : List (ℕ × Option ℕ)).length ≤ i ∧ i < 2 := by
    intro i
    simp [StoredFrames.paths, storedEntries]
    omega
  have hsteps : ∀ step, [] ++ [step] ∈ StoredFrames.paths storedEntries →
      (∃ i, step = .mapKey i) ∨ ∃ i, step = .mapValue i := by
    intro step hstep
    simp only [StoredFrames.paths, storedEntries, List.map_cons, List.map_nil, List.nil_append,
      List.mem_cons, List.cons.injEq, and_true, List.not_mem_nil, or_false] at hstep
    rcases hstep with rfl | rfl | rfl | rfl
    · exact .inl ⟨0, rfl⟩
    · exact .inl ⟨1, rfl⟩
    · exact .inr ⟨0, rfl⟩
    · exact .inr ⟨1, rfl⟩
  have hbuilding : Building storedEntries [ledgerFrame] [] ledgerFrame :=
    .onStack rfl (by decide) fun _ _ _ hlength _ => List.length_eq_zero_iff.mp hlength
  obtain ⟨entries, hpaired, hreceived, hinserted⟩ :=
    hall [] ledgerFrame .idle [] (some 1) false 2 hbuilding rfl (by decide) hkeys hsteps
  exact ⟨entries, hpaired, hreceived, (hinserted .amount .amount rfl).2 ⟨rfl, by decide⟩⟩

end Entries

namespace Frame

variable {env : Env ι P N Mem} {frame frame' child : Frame ι P N} {mem mem' : Mem}

/-- A frame that receives something stays about the same value in the same memory. -/
theorem keeps_receive {step : PathStep}
    (h : frame.receive env step child mem = .ok (frame', mem')) : frame.Keeps frame' := by
  unfold receive at h
  cases step with
  | optionSome =>
    simp only [Except.ok.injEq, completeOptionFrame] at h
    split at h <;> (cases h; exact ⟨rfl, rfl, rfl⟩)
  | deref =>
    simp only [Except.ok.injEq, completeSmartPointerFrame] at h
    split at h
    · split at h
      · cases h
        exact ⟨rfl, rfl, rfl⟩
      · split at h
        · cases h
          exact ⟨rfl, rfl, rfl⟩
        · split at h
          · split at h <;> (cases h; exact ⟨rfl, rfl, rfl⟩)
          · cases h
            exact ⟨rfl, rfl, rfl⟩
    · cases h
      exact ⟨rfl, rfl, rfl⟩
  | inner =>
    simp only [Except.ok.injEq, completeInnerFrame] at h
    split at h
    · split at h <;> (cases h; exact ⟨rfl, rfl, rfl⟩)
    · cases h
      exact ⟨rfl, rfl, rfl⟩
  | proxy =>
    simp only [Except.ok.injEq, completeProxyFrame] at h
    split at h
    · cases h
      exact ⟨rfl, rfl, rfl⟩
    · split at h
      · split at h <;> (cases h; exact ⟨rfl, rfl, rfl⟩)
      · cases h
        exact ⟨rfl, rfl, rfl⟩
  | index i =>
    simp only [Except.ok.injEq, completeItemFrame] at h
    split at h
    · split at h <;> (cases h; exact ⟨rfl, rfl, rfl⟩)
    · split at h
      · cases h
        exact ⟨rfl, rfl, rfl⟩
      · split at h <;> (cases h; exact ⟨rfl, rfl, rfl⟩)
      · cases h
        exact ⟨rfl, rfl, rfl⟩
  | mapKey i =>
    simp only [Except.ok.injEq, completeMapKeyFrame] at h
    split at h <;> (cases h; exact ⟨rfl, rfl, rfl⟩)
  | mapValue i =>
    obtain ⟨parent, hparent, h⟩ := ExceptList.exists_of_bind_ok h
    cases h
    unfold completeMapValueFrame at hparent
    split at hparent
    · split at hparent
      · cases hparent
      · cases hparent
        exact ⟨rfl, rfl, rfl⟩
    · cases hparent
      exact ⟨rfl, rfl, rfl⟩
  | field i =>
    simp only [Except.ok.injEq, markFieldInitializedByIndex] at h
    split at h
    · cases h
      exact ⟨rfl, rfl, rfl⟩
    · cases h
      exact ⟨rfl, rfl, rfl⟩
    · cases h
      exact ⟨rfl, rfl, rfl⟩
    · split at h <;> (cases h; exact ⟨rfl, rfl, rfl⟩)
    · cases h
      exact ⟨rfl, rfl, rfl⟩
  | variant i =>
    cases h
    exact ⟨rfl, rfl, rfl⟩

omit [DecidableEq ι] [DecidableEq P] in
theorem keeps_convertStoredSlice {parent : Option (Frame ι P N)}
    (h : frame.convertStoredSlice env parent mem = .ok (frame', mem')) : frame.Keeps frame' := by
  unfold convertStoredSlice at h
  split at h
  · dsimp only at h
    split at h
    · split at h
      · split at h
        · cases h
        · split at h <;> (cases h; exact ⟨rfl, rfl, rfl⟩)
      · cases h
        exact ⟨rfl, rfl, rfl⟩
    · split at h <;> (cases h; exact ⟨rfl, rfl, rfl⟩)
    · cases h
      exact ⟨rfl, rfl, rfl⟩
  · cases h
    exact ⟨rfl, rfl, rfl⟩

omit [DecidableEq P] in
theorem keeps_completeStored {parent : Option (Frame ι P N)} {fail : ReflectErrorKind ι → Stop ι}
    (h : frame.completeStored env parent fail mem = .ok (frame', mem')) : frame.Keeps frame' := by
  unfold completeStored at h
  obtain ⟨⟨converted, mem₁⟩, hconverted, h⟩ := ExceptList.exists_of_bind_ok h
  obtain ⟨⟨filled, mem₂⟩, hfilled, h⟩ := ExceptList.exists_of_bind_ok h
  have hfills := keepsTo_fillDefaults env converted mem₁
  have hrequires := keepsTo_requireFullInitialization env filled mem₂
  rw [of_mapError_ok hfilled] at hfills
  rw [of_mapError_ok h] at hrequires
  exact (keeps_convertStoredSlice hconverted).trans (hfills.trans hrequires)

end Frame

section Elements

variable {env : Env ι P N Mem} {path : List PathStep} {children : List (FinishTurn ι P N Mem)}
  {frame : Frame ι P N} {currentChild : Option ℕ} {rope : ListRope P}

theorem receiveAll_elements {indices : List ℕ}
    (hsteps : AtSteps path children (indices.map PathStep.index))
    (hslots : ∀ child ∈ children, child.handed.frame.ownership = .ropeSlot)
    (htracker : frame.tracker = .list currentChild (some rope)) :
    receiveAll (FinishTurn.receivedBy env) frame children = .ok { frame with
      tracker := .list currentChild
        (some { rope with initializedCount := rope.initializedCount + indices.length }) } := by
  induction children generalizing frame rope indices with
  | nil =>
    have hlength := congrArg List.length hsteps
    rw [List.map_nil, List.length_nil, List.length_map, List.length_map] at hlength
    rw [List.length_eq_zero_iff.mp hlength.symm]
    rw [List.length_nil, Nat.add_zero, ← htracker]
    rfl
  | cons child children ih =>
    cases indices with
    | nil => cases hsteps
    | cons i indices =>
      obtain ⟨hkey, hsteps⟩ := List.cons.inj hsteps
      have hslot := hslots child List.mem_cons_self
      have hreceived : FinishTurn.receivedBy env frame child = .ok { frame with
          tracker := .list currentChild (some rope.markLastInitialized) } := by
        simp [FinishTurn.receivedBy, hkey, Frame.receive, Frame.completeItemFrame, htracker, hslot,
          Except.map]
      have hrest : AtSteps path children (indices.map PathStep.index) := hsteps
      unfold receiveAll at *
      rw [List.foldlM_cons, hreceived]
      have hslots : ∀ child ∈ children, child.handed.frame.ownership = .ropeSlot :=
        fun child hchild => hslots child (List.mem_cons_of_mem _ hchild)
      refine (ih hrest hslots rfl).trans ?_
      simp only [ListRope.markLastInitialized, List.length_cons, Nat.add_assoc,
        Nat.add_comm indices.length]

theorem keeps_of_receiveAll {frame' : Frame ι P N}
    (h : receiveAll (FinishTurn.receivedBy env) frame children = .ok frame') :
    frame.Keeps frame' := by
  induction children generalizing frame with
  | nil =>
    cases h
    exact .refl _
  | cons child children ih =>
    unfold receiveAll at *
    rw [List.foldlM_cons] at h
    obtain ⟨middle, hmiddle, h⟩ := ExceptList.exists_of_bind_ok h
    refine Frame.Keeps.trans ?_ (ih h)
    unfold FinishTurn.receivedBy at hmiddle
    split at hmiddle
    · split at hmiddle
      · obtain ⟨⟨parent, mem⟩, hreceive, rfl⟩ := ExceptList.exists_of_map_ok hmiddle
        exact Frame.keeps_receive hreceive
      · cases hmiddle
        exact .refl _
    · cases hmiddle
      exact .refl _

/-- A frame that is handed on is about the value, and in the memory, for which it was stored. -/
theorem Walk.keeps {storedFrames : StoredFrames ι P N} {stack finished : Stack ι P N}
    {order : List (List PathStep)} {turns : List (FinishTurn ι P N Mem)}
    (hwalk : Walk env storedFrames stack order turns finished)
    (hnodup : (StoredFrames.paths storedFrames).Nodup) (hframe : (path, frame) ∈ storedFrames)
    {turn : FinishTurn ι P N Mem} (hturn : turn ∈ turns) (hkey : turn.key = .stored path) :
    frame.Keeps turn.handed.frame := by
  obtain ⟨other, hother, hotherKey, hreceived⟩ := hwalk.taken path frame hframe
  have hnodupKeys : (turns.map (·.key)).Nodup := by
    rw [hwalk.keys]
    exact (hwalk.perm.nodup_iff.mpr hnodup).map fun _ _ heq => Place.stored.inj heq
  have heq : other = turn :=
    List.inj_on_of_nodup_map hnodupKeys hother hturn (hotherKey.trans hkey.symm)
  subst heq
  obtain ⟨parent, fail, mem, hcompletes⟩ := hwalk.completes other hturn
  exact (keeps_of_receiveAll hreceived).trans (Frame.keeps_completeStored hcompletes)

variable {self self' : Partial ι P N Mem} {stack : Stack ι P N} {startDepth : ℕ}
  {storedFrames : StoredFrames ι P N}

omit [DecidableEq P] in
/-- A list is found complete when the counted elements of its rope have been moved. -/
theorem drained_of_completeStored {completed : Frame ι P N} {parent : Option (Frame ι P N)}
    {fail : ReflectErrorKind ι → Stop ι} {t : ι} {mem mem' : Mem}
    (h : frame.completeStored env parent fail mem = .ok (completed, mem'))
    (htracker : frame.tracker = .list currentChild (some rope))
    (hdef : Shape.def (env.shapes frame.shape) = .list t) :
    drainRopeIntoVec env rope frame.shape t frame.data mem = .ok mem' := by
  have hslice : frame.convertStoredSlice env parent mem = .ok (frame, mem) := by
    rw [Frame.convertStoredSlice, htracker]
  have hfill : frame.fillDefaults env mem = .ok (frame, mem) := by
    apply fillDefaults_eq
    · rw [htracker]
      rfl
    · rw [Frame.fillTracked, htracker]
  rw [completeStored_eq hslice hfill] at h
  have h := of_mapError_ok h
  unfold Frame.requireFullInitialization at h
  rw [htracker] at h
  dsimp only at h
  split at h
  · rw [hdef] at h
    obtain ⟨drained, hdrained, h⟩ := ExceptList.exists_of_bind_ok h
    cases h
    exact hdrained
  · cases h

/-- The walk counts every stored element of a list's rope, so a list that is found complete moves
them into its vector in the order of their slots, behind those that were counted before. -/
theorem listElements_counted (hnodup : (StoredFrames.paths storedFrames).Nodup)
    (hmode : self.mode = .deferred stack startDepth storedFrames)
    (h : self.finishDeferred env = .ok self') :
    ∃ order turns finished, Walk env storedFrames stack order turns finished ∧
      ∀ path frame currentChild rope,
        Building storedFrames stack path frame →
        frame.tracker = .list currentChild (some rope) →
        (∀ step element, (path ++ [step], element) ∈ storedFrames →
          (∃ i, step = .index i) ∧ element.ownership = .ropeSlot) →
        ∃ indices : List ℕ, indices.Pairwise (· < ·) ∧
          (∀ i, i ∈ indices ↔ path ++ [.index i] ∈ StoredFrames.paths storedFrames) ∧
          HasReceived storedFrames turns finished path { frame with
            tracker := .list currentChild
              (some ⟨rope.slots, rope.initializedCount + indices.length⟩) } ∧
          ∀ t, Shape.def (env.shapes frame.shape) = .list t → (path, frame) ∈ storedFrames →
            ∃ turn ∈ turns, turn.key = .stored path ∧ ∃ mem,
              drainRopeIntoVec env ⟨rope.slots, rope.initializedCount + indices.length⟩
                frame.shape t frame.data mem = .ok turn.handed.mem := by
  obtain ⟨unfinished, hrun, -⟩ := of_finishDeferred hmode h
  obtain ⟨order, turns, hwalk⟩ := walk_of_foldlM hnodup hrun
  refine ⟨order, turns, unfinished.stack, hwalk, ?_⟩
  intro path frame currentChild rope hbuilding htracker hall
  obtain ⟨frame', children, steps, hreceivedAt, hreceived, hchildren, hsteps, hsorted, hstored⟩ :=
    hwalk.exists_received hbuilding
  have hindex : ∀ step ∈ steps, step ∈ Set.range PathStep.index := by
    intro step hstep
    obtain ⟨⟨_, element⟩, helement, rfl⟩ := List.mem_map.mp ((hstored step).mp hstep)
    obtain ⟨⟨i, rfl⟩, -⟩ := hall step element helement
    exact ⟨i, rfl⟩
  obtain ⟨indices, rfl⟩ := (Set.range_list_map PathStep.index).symm.subset hindex
  have hslots : ∀ child ∈ children, child.handed.frame.ownership = .ropeSlot := by
    intro child hchild
    obtain ⟨hturn, step, hkey⟩ := (hchildren child).mp hchild
    have hstep := hsteps.mem hchild hkey
    obtain ⟨⟨_, element⟩, helement, rfl⟩ := List.mem_map.mp ((hstored step).mp hstep)
    rw [(hwalk.keeps hnodup helement hturn hkey).ownership]
    exact (hall step element helement).2
  rw [receiveAll_elements hsteps hslots htracker] at hreceived
  cases hreceived
  refine ⟨indices, ?_, ?_, hreceivedAt, ?_⟩
  · refine (List.pairwise_map.mp hsorted).imp ?_
    intro i j hlt
    simpa [Prod.Lex.lt_iff, stepRank] using hlt
  · intro i
    rw [← hstored]
    simp
  · intro t hdef hframe
    obtain ⟨turn, hturn, hkey, htaken⟩ := hreceivedAt.exists_turn (List.mem_map_of_mem hframe)
    obtain ⟨parent, fail, mem, hcompletes⟩ := hwalk.completes turn hturn
    rw [htaken] at hcompletes
    have hdrained := drained_of_completeStored hcompletes rfl hdef
    exact ⟨turn, hturn, hkey, mem, hdrained⟩

/-- A list with two elements in its rope. -/
def columnFrame : Frame LedgerShape ℕ ℕ :=
  { data := 0, shape := .column, allocatedSize := 1, isInit := true,
    tracker := .list none (some ⟨[5, 6], 0⟩), ownership := .owned, typePlan := 0 }

def storedElements : StoredFrames LedgerShape ℕ ℕ :=
  [([.index 0], amountFrame 5 .ropeSlot), ([.index 1], amountFrame 6 .ropeSlot)]

theorem finishDeferred_column :
    (Partial.mk (.deferred [columnFrame] 1 storedElements) []).finishDeferred ledgerEnv =
      .ok ⟨.strict [{ columnFrame with tracker := .list none none }], [(0, 5), (0, 6)]⟩ := by
  have hsorted : (StoredFrames.paths storedElements).mergeSort finishesBefore =
      StoredFrames.paths storedElements := List.mergeSort_of_pairwise (by decide)
  unfold Partial.finishDeferred
  dsimp only
  rw [hsorted]
  rfl

theorem listElements_counted_column :
    ∃ order turns finished, Walk ledgerEnv storedElements [columnFrame] order turns finished ∧
      ∃ indices : List ℕ, indices.Pairwise (· < ·) ∧
        (∀ i, i ∈ indices ↔ [PathStep.index i] ∈ StoredFrames.paths storedElements) ∧
        HasReceived storedElements turns finished [] { columnFrame with
          tracker := .list none (some ⟨[5, 6], 0 + indices.length⟩) } := by
  obtain ⟨order, turns, finished, hwalk, hall⟩ :=
    listElements_counted (by decide) rfl finishDeferred_column
  refine ⟨order, turns, finished, hwalk, ?_⟩
  have hsteps : ∀ step element, ([] ++ [step], element) ∈ storedElements →
      (∃ i, step = .index i) ∧ element.ownership = .ropeSlot := by
    intro step element helement
    simp only [storedElements, List.nil_append, List.mem_cons, Prod.mk.injEq, List.cons.injEq,
      and_true, List.not_mem_nil, or_false] at helement
    rcases helement with ⟨rfl, rfl⟩ | ⟨rfl, rfl⟩
    · exact ⟨⟨0, rfl⟩, rfl⟩
    · exact ⟨⟨1, rfl⟩, rfl⟩
  have hbuilding : Building storedElements [columnFrame] [] columnFrame :=
    .onStack rfl (by decide) fun _ _ _ hlength _ => List.length_eq_zero_iff.mp hlength
  obtain ⟨indices, hsorted, hindices, hreceived, -⟩ :=
    hall [] columnFrame none ⟨[5, 6], 0⟩ hbuilding rfl hsteps
  exact ⟨indices, hsorted, hindices, hreceived⟩

end Elements

end Facet.Frames
