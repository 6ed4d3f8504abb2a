import Facet.Frames.FillAgreement
import Facet.Frames.Finishing
import Facet.Lib.ExceptList
import Facet.Lib.HandedUp
import Mathlib.Data.List.Lex
import Mathlib.Data.Prod.Lex

/-!
# What a stored frame receives

Deferred mode is finished in an order that takes every frame after all the frames below it, and the
elements and entries of one container by their indices. So a frame that is completed has received
what belongs to it and nothing else, and in the right order.
-/

namespace Facet.Frames

open TypePlan Facet.Path HandedUp

variable {ι P N Mem : Type} [DecidableEq ι] [DecidableEq P]

namespace StoredFrames

variable {storedFrames : StoredFrames ι P N} {path other : List PathStep} {frame : Frame ι P N}

/-- The paths under which frames are stored. -/
abbrev paths (storedFrames : StoredFrames ι P N) : List (List PathStep) := storedFrames.map (·.1)

omit [DecidableEq ι] [DecidableEq P] in
theorem isSome_lookup_iff : (lookup storedFrames path).isSome ↔ path ∈ paths storedFrames := by
  simp [lookup, paths]

omit [DecidableEq ι] [DecidableEq P] in
theorem lookup_of_mem (hnodup : (paths storedFrames).Nodup) (h : (path, frame) ∈ storedFrames) :
    lookup storedFrames path = some frame := by
  induction storedFrames with
  | nil => cases h
  | cons stored rest ih =>
    obtain ⟨hnew, hnodup⟩ := List.nodup_cons.mp hnodup
    unfold lookup at *
    rcases List.mem_cons.mp h with rfl | h
    · simp
    · have hne : stored.1 ≠ path := by
        intro heq
        exact hnew (List.mem_map.mpr ⟨_, h, heq.symm⟩)
      rw [List.find?_cons_of_neg (by simpa using hne)]
      exact ih hnodup h

omit [DecidableEq ι] [DecidableEq P] in
theorem lookup_remove : lookup (remove storedFrames path) other =
    if other = path then none else lookup storedFrames other := by
  unfold lookup remove
  rw [List.find?_filter]
  split
  · next heq =>
    subst heq
    simp
  · next hne =>
    congr 2
    funext stored
    by_cases h : stored.1 = other
    · simp [h, hne]
    · simp [h]

omit [DecidableEq ι] [DecidableEq P] in
theorem paths_remove : paths (remove storedFrames path) =
    (paths storedFrames).filter (· ≠ path) := by
  simp [paths, remove, List.filter_map, Function.comp_def]

omit [DecidableEq ι] [DecidableEq P] in
theorem lookup_replace :
    lookup (storedFrames.map fun stored => if stored.1 = path then (path, frame) else stored)
        other =
      if path = other then (lookup storedFrames path).map fun _ => frame
      else lookup storedFrames other := by
  induction storedFrames with
  | nil => simp [lookup]
  | cons stored rest ih =>
    unfold lookup at *
    rw [List.map_cons]
    by_cases hpath : stored.1 = path
    · by_cases hother : path = other
      · simp [hpath, hother]
      · rw [if_pos hpath, List.find?_cons_of_neg (by simpa using hother), ih, if_neg hother,
          if_neg hother, List.find?_cons_of_neg (by simpa [hpath] using hother)]
    · rw [if_neg hpath]
      by_cases hstored : stored.1 = other
      · have hne : path ≠ other := fun heq => hpath (hstored.trans heq.symm)
        simp [hstored, hne]
      · rw [List.find?_cons_of_neg (by simpa using hstored), ih,
          List.find?_cons_of_neg (by simpa using hpath),
          List.find?_cons_of_neg (by simpa using hstored)]

end StoredFrames

/-- A path comes before the paths above it, and before its siblings with later steps. -/
def ComesBefore (first later : List PathStep) : Prop :=
  ¬ first <+: later ∧
    ∀ above a b, first = above ++ [a] → later = above ++ [b] →
      toLex (stepRank a) < toLex (stepRank b)

theorem stepRank_injective : Function.Injective stepRank := by
  intro a b h
  cases a <;> cases b <;> simp_all [stepRank]

theorem stepsLe_cons (a b : PathStep) (as bs : List PathStep) : stepsLe (a :: as) (b :: bs) =
    if stepRank a = stepRank b then stepsLe as bs
    else decide (toLex (stepRank a) < toLex (stepRank b)) := by
  rw [stepsLe]
  simp only [Prod.ext_iff, Prod.Lex.lt_iff, ofLex_toLex, Bool.decide_or, Bool.decide_and]

theorem stepsLe_total (as bs : List PathStep) : stepsLe as bs || stepsLe bs as := by
  induction as generalizing bs with
  | nil => simp [stepsLe]
  | cons a as ih =>
    cases bs with
    | nil => simp [stepsLe]
    | cons b bs =>
      rw [stepsLe_cons, stepsLe_cons]
      by_cases heq : stepRank a = stepRank b
      · rw [if_pos heq, if_pos heq.symm]
        exact ih bs
      · rw [if_neg heq, if_neg (Ne.symm heq)]
        simpa using lt_or_gt_of_ne fun h => heq (toLex.injective h)

theorem stepsLe_trans {as bs cs : List PathStep} (hab : as.length = bs.length)
    (hbc : bs.length = cs.length) (h₁ : stepsLe as bs) (h₂ : stepsLe bs cs) : stepsLe as cs := by
  induction as generalizing bs cs with
  | nil => simp [stepsLe]
  | cons a as ih =>
    cases bs with
    | nil => cases hab
    | cons b bs =>
      cases cs with
      | nil => cases hbc
      | cons c cs =>
        rw [stepsLe_cons] at *
        by_cases heq₁ : stepRank a = stepRank b
        · by_cases heq₂ : stepRank b = stepRank c
          · rw [if_pos (heq₁.trans heq₂)]
            rw [if_pos heq₁] at h₁
            rw [if_pos heq₂] at h₂
            exact ih (by simpa using hab) (by simpa using hbc) h₁ h₂
          · rw [heq₁, if_neg heq₂]
            rwa [if_neg heq₂] at h₂
        · rw [if_neg heq₁, decide_eq_true_eq] at h₁
          have hlt : toLex (stepRank a) < toLex (stepRank c) := by
            by_cases heq₂ : stepRank b = stepRank c
            · rwa [← heq₂]
            · rw [if_neg heq₂, decide_eq_true_eq] at h₂
              exact h₁.trans h₂
          rw [if_neg fun heq => hlt.ne (congrArg toLex heq)]
          simpa using hlt

theorem finishesBefore_total (a b : List PathStep) : finishesBefore a b || finishesBefore b a := by
  unfold finishesBefore
  rcases lt_trichotomy a.length b.length with h | h | h
  · simp [h]
  · simpa [h] using stepsLe_total a b
  · simp [h]

theorem finishesBefore_trans (a b c : List PathStep) (h₁ : finishesBefore a b)
    (h₂ : finishesBefore b c) : finishesBefore a c := by
  unfold finishesBefore at *
  simp only [Bool.or_eq_true, decide_eq_true_eq, Bool.and_eq_true] at *
  rcases h₁ with h₁ | ⟨h₁, hle₁⟩
  · left
    omega
  · rcases h₂ with h₂ | ⟨h₂, hle₂⟩
    · left
      omega
    · exact .inr ⟨h₁.trans h₂, stepsLe_trans h₁ h₂ hle₁ hle₂⟩

theorem stepsLe_concat (above : List PathStep) (a b : PathStep) :
    stepsLe (above ++ [a]) (above ++ [b]) → toLex (stepRank a) ≤ toLex (stepRank b) := by
  induction above with
  | nil =>
    intro h
    rw [List.nil_append, List.nil_append, stepsLe_cons] at h
    by_cases heq : stepRank a = stepRank b
    · rw [heq]
    · rw [if_neg heq, decide_eq_true_eq] at h
      exact h.le
  | cons step above ih =>
    intro h
    rw [List.cons_append, List.cons_append, stepsLe_cons, if_pos rfl] at h
    exact ih h

theorem comesBefore_of_finishesBefore {first later : List PathStep} (hne : first ≠ later)
    (h : finishesBefore first later) : ComesBefore first later := by
  unfold finishesBefore at h
  simp only [Bool.or_eq_true, decide_eq_true_eq, Bool.and_eq_true] at h
  constructor
  · intro hbegins
    have hlength := hbegins.length_le
    exact hne (hbegins.eq_of_length (by omega))
  · intro above a b hfirst hlater
    subst hfirst hlater
    rcases h with h | ⟨-, h⟩
    · simp at h
    · apply lt_of_le_of_ne (stepsLe_concat above a b h)
      intro heq
      exact hne (by rw [stepRank_injective (toLex.injective heq)])

/-- The paths in the order in which their frames are taken. -/
theorem comesBefore_mergeSort {paths : List (List PathStep)} (hnodup : paths.Nodup) :
    (paths.mergeSort finishesBefore).Pairwise ComesBefore := by
  have hsorted := List.pairwise_mergeSort finishesBefore_trans finishesBefore_total paths
  have hnodup : (paths.mergeSort finishesBefore).Pairwise (· ≠ ·) :=
    (List.mergeSort_perm paths finishesBefore).nodup_iff.mpr hnodup
  exact (hsorted.and hnodup).imp fun h => comesBefore_of_finishesBefore h.2 h.1

theorem dropLast_ne {path : List PathStep} (hne : path ≠ []) : path.dropLast ≠ path := by
  intro heq
  have hlength := congrArg List.length heq
  have hpos := List.length_pos_of_ne_nil hne
  rw [List.length_dropLast] at hlength
  omega

/-- Where a frame is while deferred mode is being finished. -/
inductive Place
  | stored (path : List PathStep)
  | onStack (depth : ℕ)
  deriving DecidableEq

/-- The place of the frame above. -/
def Place.above (paths : List (List PathStep)) : Place → Option Place
  | .stored path =>
    if path = [] then none
    else if path.dropLast ∈ paths then some (.stored path.dropLast)
    else some (.onStack path.dropLast.length)
  | .onStack _ => none

/-- A frame as it is handed on, and the memory at that time. -/
structure Completed (ι P N Mem : Type) where
  frame : Frame ι P N
  mem : Mem

/-- One turn of the walk. -/
abbrev FinishTurn (ι P N Mem : Type) := Turn Place (Frame ι P N) (Completed ι P N Mem)

namespace FinishTurn

variable (env : Env ι P N Mem)

/-- What a frame makes of the turn of a frame below it. -/
def receivedBy (frame : Frame ι P N) (turn : FinishTurn ι P N Mem) :
    Except (Stop ι) (Frame ι P N) :=
  match turn.key with
  | .stored path =>
    match path.getLast? with
    | some step =>
      (frame.receive env step turn.handed.frame turn.handed.mem).map (·.1)
    | none => .ok frame
  | .onStack _ => .ok frame

/-- The frame that is handed on is the one that was taken, with its defaults filled in, and found
complete. -/
def Completes (turn : FinishTurn ι P N Mem) : Prop :=
  ∃ parent fail mem,
    turn.taken.completeStored env parent fail mem = .ok (turn.handed.frame, turn.handed.mem)

end FinishTurn

namespace Unfinished

variable {env : Env ι P N Mem} {self self' : Unfinished ι P N Mem} {path : List PathStep}
  {frame : Frame ι P N} {mem : Mem}

def cell (self : Unfinished ι P N Mem) : Place → Option (Frame ι P N)
  | .stored path => StoredFrames.lookup self.storedFrames path
  | .onStack depth => self.stack.reverse[depth]?

/-- The place whose frame is replaced. -/
def placeOf (self : Unfinished ι P N Mem) (path : List PathStep) : Place :=
  if path ∈ StoredFrames.paths self.storedFrames then .stored path else .onStack path.length

omit [DecidableEq ι] [DecidableEq P] in
theorem frameAt_eq : self.frameAt path = self.cell (self.placeOf path) := by
  unfold frameAt placeOf
  cases h : StoredFrames.lookup self.storedFrames path with
  | some frame =>
    rw [if_pos (StoredFrames.isSome_lookup_iff.mp (by rw [h]; rfl))]
    exact h.symm
  | none =>
    rw [if_neg fun hmem => by simpa [h] using StoredFrames.isSome_lookup_iff.mpr hmem]
    rfl

omit [DecidableEq ι] [DecidableEq P] in
theorem paths_replaceAt : StoredFrames.paths (self.replaceAt path frame mem).storedFrames =
    StoredFrames.paths self.storedFrames := by
  unfold replaceAt
  split
  · simp only [StoredFrames.paths, List.map_map]
    apply List.map_congr_left
    intro stored _
    by_cases h : stored.1 = path <;> simp [h]
  · rfl

omit [DecidableEq ι] [DecidableEq P] in
theorem length_stack_replaceAt :
    (self.replaceAt path frame mem).stack.length = self.stack.length := by
  unfold replaceAt
  split <;> simp

omit [DecidableEq ι] [DecidableEq P] in
theorem cell_replaceAt {before : Frame ι P N} (hframe : self.frameAt path = some before)
    (place : Place) : (self.replaceAt path frame mem).cell place =
      if self.placeOf path = place then some frame else self.cell place := by
  rw [frameAt_eq] at hframe
  unfold replaceAt
  unfold placeOf at *
  by_cases hmem : path ∈ StoredFrames.paths self.storedFrames
  · rw [if_pos hmem] at *
    rw [if_pos (StoredFrames.isSome_lookup_iff.mpr hmem)]
    cases place with
    | stored other =>
      unfold cell at *
      simp only [StoredFrames.lookup_replace, hframe, Place.stored.injEq, Option.map_some]
    | onStack depth =>
      rw [if_neg (by simp)]
      rfl
  · rw [if_neg hmem] at *
    rw [if_neg fun h => hmem (StoredFrames.isSome_lookup_iff.mp h)]
    cases place with
    | stored other =>
      rw [if_neg (by simp)]
      rfl
    | onStack depth =>
      unfold cell at *
      have hlt := (List.getElem?_eq_some_iff.mp hframe).1
      simp only [List.reverse_reverse, List.getElem?_set, hlt, if_true, Place.onStack.injEq]

/-- Handing a frame on changes the frame above it, and no other. -/
theorem of_handOn (h : self.handOn env path frame = .ok self') :
    StoredFrames.paths self'.storedFrames = StoredFrames.paths self.storedFrames ∧
      self'.stack.length = self.stack.length ∧
      ((path.getLast? = none ∨ self.frameAt path.dropLast = none) ∧ self'.cell = self.cell ∨
        ∃ step parent parent' mem, path.getLast? = some step ∧
          self.frameAt path.dropLast = some parent ∧
          parent.receive env step frame self.mem = .ok (parent', mem) ∧
          self'.cell = (self.replaceAt path.dropLast parent' mem).cell) := by
  have hreleased {u : Unfinished ι P N Mem}
      (h : (do let mem ← frame.dealloc env u.mem; return { u with mem := mem }) = Except.ok self') :
      self'.storedFrames = u.storedFrames ∧ self'.stack = u.stack ∧ self'.cell = u.cell := by
    obtain ⟨mem, -, h⟩ := ExceptList.exists_of_bind_ok h
    cases h
    exact ⟨rfl, rfl, rfl⟩
  unfold handOn at h
  dsimp only at h
  split at h
  · next step parent hstep hparent =>
    obtain ⟨⟨parent', mem⟩, hreceive, h⟩ := ExceptList.exists_of_bind_ok h
    suffices hsame : self'.storedFrames = (self.replaceAt path.dropLast parent' mem).storedFrames ∧
        self'.stack = (self.replaceAt path.dropLast parent' mem).stack ∧
        self'.cell = (self.replaceAt path.dropLast parent' mem).cell by
      obtain ⟨hstored, hstack, hcell⟩ := hsame
      refine ⟨?_, ?_, .inr ⟨step, parent, parent', mem, hstep, hparent, hreceive, hcell⟩⟩
      · rw [hstored, paths_replaceAt]
      · rw [hstack, length_stack_replaceAt]
    split at h
    · cases h
      exact ⟨rfl, rfl, rfl⟩
    · exact hreleased h
  · next hnone =>
    obtain ⟨hstored, hstack, hcell⟩ := hreleased h
    refine ⟨by rw [hstored], by rw [hstack], .inl ⟨?_, hcell⟩⟩
    cases hstep : path.getLast? with
    | none => exact .inl rfl
    | some step =>
      cases hparent : self.frameAt path.dropLast with
      | none => exact .inr rfl
      | some parent => exact absurd hparent (hnone step parent hstep)

omit [DecidableEq ι] [DecidableEq P] in
theorem above_eq {paths : List (List PathStep)} (hne : path ≠ [])
    (h : path.dropLast ∈ paths ↔ path.dropLast ∈ StoredFrames.paths self.storedFrames) :
    Place.above paths (.stored path) = some (self.placeOf path.dropLast) := by
  simp only [Place.above, placeOf, if_neg hne, ← h]
  split <;> rfl

theorem updates_of_handOn {paths : List (List PathStep)}
    (h : self.handOn env path frame = .ok self')
    (habove : path ≠ [] → Place.above paths (.stored path) = some (self.placeOf path.dropLast))
    (taken : Frame ι P N) {place : Place} {before : Frame ι P N}
    (hbefore : self.cell place = some before) :
    ∃ after, self'.cell place = some after ∧ Updates (Place.above paths) (FinishTurn.receivedBy env)
      ⟨.stored path, taken, frame, self.mem⟩ place before after := by
  unfold Updates
  rcases (of_handOn h).2.2 with ⟨hnone, hsame⟩ |
    ⟨step, parent, parent', mem, hstep, hparent, hreceive, hsame⟩
  · refine ⟨before, by rw [hsame]; exact hbefore, ?_, fun _ => rfl⟩
    intro hplace
    have hne : path ≠ [] := by
      rintro rfl
      cases hplace
    -- there is a frame at this place, so it would have been found
    rw [habove hne, Option.some_inj] at hplace
    rcases hnone with hnone | hnone
    · exact absurd (List.getLast?_eq_none_iff.mp hnone) hne
    · rw [frameAt_eq, hplace, hbefore] at hnone
      cases hnone
  · have hne : path ≠ [] := by
      rintro rfl
      cases hstep
    rw [hsame, cell_replaceAt hparent, habove hne, Option.some_inj]
    by_cases hplace : self.placeOf path.dropLast = place
    · rw [if_pos hplace]
      refine ⟨parent', rfl, fun _ => ?_, fun hother => absurd (congrArg some hplace) hother⟩
      rw [frameAt_eq, hplace, hbefore, Option.some_inj] at hparent
      simp only [FinishTurn.receivedBy, hstep, hparent, hreceive]
      rfl
    · rw [if_neg hplace]
      exact ⟨before, hbefore, fun heq => absurd heq hplace, fun _ => rfl⟩

theorem exists_turn_of_finishPath (paths : List (List PathStep))
    (hpaths : path ≠ [] → (path.dropLast ∈ paths ↔
      path.dropLast ∈ StoredFrames.paths self.storedFrames))
    (h : self.finishPath env path = .ok self') :
    ∃ turn : FinishTurn ι P N Mem, turn.key = .stored path ∧ turn.Completes env ∧
      Step (Place.above paths) (FinishTurn.receivedBy env) self.cell turn self'.cell ∧
      StoredFrames.paths self'.storedFrames =
        (StoredFrames.paths self.storedFrames).filter (· ≠ path) ∧
      self'.stack.length = self.stack.length := by
  unfold finishPath at h
  split at h
  · next frame hlookup =>
    obtain ⟨⟨completed, mem⟩, hcompleted, h⟩ := ExceptList.exists_of_bind_ok h
    let left : Unfinished ι P N Mem :=
      ⟨StoredFrames.remove self.storedFrames path, self.stack, mem⟩
    have hhanded : left.handOn env path completed = .ok self' := h
    obtain ⟨hstored, hstack, -⟩ := of_handOn hhanded
    refine ⟨⟨.stored path, frame, completed, mem⟩, rfl, ⟨_, _, _, hcompleted⟩, ⟨hlookup, ?_⟩,
      hstored.trans StoredFrames.paths_remove, hstack⟩
    intro place before hplace hbefore
    have hcell : left.cell place = some before := by
      cases place with
      | stored other =>
        exact (StoredFrames.lookup_remove.trans
          (if_neg fun heq => hplace (congrArg _ heq))).trans hbefore
      | onStack depth => exact hbefore
    apply updates_of_handOn hhanded _ frame hcell
    intro hne
    apply above_eq hne
    rw [hpaths hne, StoredFrames.paths_remove, List.mem_filter]
    simp [dropLast_ne hne]
  · cases h

/-- The walk along the paths that are left, of all those that were there at first. -/
theorem exists_run (paths : List (List PathStep)) {rest : List (List PathStep)}
    (hstored : ∀ path, path ∈ StoredFrames.paths self.storedFrames ↔ path ∈ rest)
    (habove : ∀ path ∈ rest, path ≠ [] → path.dropLast ∈ paths → path.dropLast ∈ rest)
    (hsub : ∀ path ∈ rest, path ∈ paths) (horder : rest.Pairwise ComesBefore)
    (h : rest.foldlM (finishPath env) self = .ok self') :
    ∃ turns : List (FinishTurn ι P N Mem), turns.map (·.key) = rest.map Place.stored ∧
      (∀ turn ∈ turns, turn.Completes env) ∧
      Run (Place.above paths) (FinishTurn.receivedBy env) self.cell turns self'.cell ∧
      self'.stack.length = self.stack.length := by
  induction rest generalizing self with
  | nil =>
    cases h
    exact ⟨[], rfl, by simp, .nil _, rfl⟩
  | cons path rest ih =>
    rw [List.foldlM_cons] at h
    obtain ⟨next, hnext, h⟩ := ExceptList.exists_of_bind_ok h
    obtain ⟨hfirst, horder⟩ := List.pairwise_cons.mp horder
    have hpath : path ∉ rest := fun hmem => (hfirst path hmem).1 (List.prefix_refl path)
    obtain ⟨turn, hkey, hcompletes, hstep, hpaths, hstack⟩ :=
      exists_turn_of_finishPath paths (fun hne => by
        rw [hstored]
        exact ⟨habove path List.mem_cons_self hne, fun hmem => hsub _ hmem⟩) hnext
    have hleft : ∀ other, other ∈ StoredFrames.paths next.storedFrames ↔ other ∈ rest := by
      intro other
      rw [hpaths, List.mem_filter, hstored, List.mem_cons]
      by_cases hother : other = path
      · simp [hother, hpath]
      · simp [hother]
    obtain ⟨turns, hkeys, hall, hrun, hstack'⟩ := ih hleft
      (fun other hmem hne hpaths => by
        -- the frame above is not the one that has been taken
        have hin := habove other (List.mem_cons_of_mem _ hmem) hne hpaths
        rcases List.mem_cons.mp hin with heq | hrest
        · exact absurd (heq ▸ List.dropLast_prefix other) (hfirst other hmem).1
        · exact hrest)
      (fun other hmem => hsub other (List.mem_cons_of_mem _ hmem)) horder h
    refine ⟨turn :: turns, by simp [hkey, hkeys], ?_, .cons hstep hrun, hstack'.trans hstack⟩
    intro other hother
    rcases List.mem_cons.mp hother with rfl | hother
    · exact hcompletes
    · exact hall other hother

end Unfinished

theorem of_mapError_ok {ε ε' α : Type} {f : ε → ε'} {x : Except ε α} {a : α}
    (h : x.mapError f = .ok a) : x = .ok a := by
  cases x with
  | error e => cases h
  | ok b =>
    cases h
    rfl

theorem of_above_eq_stored {paths : List (List PathStep)} {path other : List PathStep}
    (h : Place.above paths (.stored path) = some (.stored other)) :
    path ≠ [] ∧ path.dropLast = other := by
  unfold Place.above at h
  simp only at h
  split at h
  · cases h
  · next hne =>
    split at h
    · exact ⟨hne, Place.stored.inj (Option.some_inj.mp h)⟩
    · cases h

theorem above_ne_of_comesBefore {paths : List (List PathStep)} {first later : List PathStep}
    (h : ComesBefore first later) : Place.above paths (.stored later) ≠ some (.stored first) := by
  intro habove
  obtain ⟨-, heq⟩ := of_above_eq_stored habove
  exact h.1 (heq ▸ List.dropLast_prefix later)

/-- The walk along the stored frames: each of them once, after the frames below it and before its
siblings with later steps. When a frame is taken it has received all those just below it, in this
order; so has each frame of the stack in the end. -/
structure Walk (env : Env ι P N Mem) (storedFrames : StoredFrames ι P N) (stack : Stack ι P N)
    (order : List (List PathStep)) (turns : List (FinishTurn ι P N Mem))
    (finished : Stack ι P N) : Prop where
  perm : order.Perm (StoredFrames.paths storedFrames)
  ordered : order.Pairwise ComesBefore
  keys : turns.map (·.key) = order.map Place.stored
  completes : ∀ turn ∈ turns, turn.Completes env
  taken : ∀ path frame, (path, frame) ∈ storedFrames →
    ∃ turn ∈ turns, turn.key = .stored path ∧
      receiveAll (FinishTurn.receivedBy env) frame
        (childrenOf (Place.above order) turns (.stored path)) = .ok turn.taken
  length_finished : finished.length = stack.length
  onStack : ∀ depth frame, stack.reverse[depth]? = some frame →
    ∃ frame', finished.reverse[depth]? = some frame' ∧
      receiveAll (FinishTurn.receivedBy env) frame
        (childrenOf (Place.above order) turns (.onStack depth)) = .ok frame'

section Walks

variable {env : Env ι P N Mem} {self self' : Partial ι P N Mem} {stack : Stack ι P N}
  {startDepth : ℕ} {storedFrames : StoredFrames ι P N} {unfinished : Unfinished ι P N Mem}
  {mem : Mem}

theorem walk_of_foldlM (hnodup : (StoredFrames.paths storedFrames).Nodup)
    (hrun : ((StoredFrames.paths storedFrames).mergeSort finishesBefore).foldlM
      (Unfinished.finishPath env) ⟨storedFrames, stack, mem⟩ = .ok unfinished) :
    ∃ order turns, Walk env storedFrames stack order turns unfinished.stack := by
  have hperm := List.mergeSort_perm (StoredFrames.paths storedFrames) finishesBefore
  have hbefore := comesBefore_mergeSort hnodup
  generalize (StoredFrames.paths storedFrames).mergeSort finishesBefore = order
    at hrun hperm hbefore
  obtain ⟨turns, hkeys, hcompletes, hturns, hlength⟩ :=
    Unfinished.exists_run order (fun path => hperm.mem_iff.symm)
      (fun _ _ _ hmem => hmem) (fun _ hmem => hmem) hbefore hrun
  have hstoredKey : ∀ turn ∈ turns, ∃ path ∈ order, turn.key = .stored path := by
    intro turn hturn
    have hmem := List.mem_map_of_mem (f := fun turn => turn.key) hturn
    rw [hkeys, List.mem_map] at hmem
    obtain ⟨path, hpath, hkey⟩ := hmem
    exact ⟨path, hpath, hkey.symm⟩
  have hnodupKeys : (turns.map (·.key)).Nodup := by
    rw [hkeys]
    exact (hperm.nodup_iff.mpr hnodup).map fun _ _ heq => Place.stored.inj heq
  have hlater : turns.Pairwise fun first later => Place.above order later.key ≠ some first.key := by
    have hpairs : (turns.map (·.key)).Pairwise fun first later =>
        Place.above order later ≠ some first := by
      rw [hkeys, List.pairwise_map]
      exact hbefore.imp above_ne_of_comesBefore
    exact List.pairwise_map.mp hpairs
  have hself : ∀ turn ∈ turns, Place.above order turn.key ≠ some turn.key := by
    intro turn hturn habove
    obtain ⟨path, -, hkey⟩ := hstoredKey turn hturn
    rw [hkey] at habove
    obtain ⟨hne, heq⟩ := of_above_eq_stored habove
    exact dropLast_ne hne heq
  refine ⟨order, turns, hperm, hbefore, hkeys, hcompletes, ?_, hlength, ?_⟩
  · intro path frame hframe
    have hmem : path ∈ order := hperm.mem_iff.mpr (List.mem_map_of_mem hframe)
    have hkey : Place.stored path ∈ turns.map (·.key) := hkeys ▸ List.mem_map_of_mem hmem
    obtain ⟨turn, hturn, hkey⟩ := List.mem_map.mp hkey
    refine ⟨turn, hturn, hkey, ?_⟩
    have hcell : (Unfinished.mk storedFrames stack mem).cell turn.key = some frame := by
      rw [hkey]
      exact StoredFrames.lookup_of_mem hnodup hframe
    exact hkey ▸ hturns.taken_eq hnodupKeys hlater hself hturn hcell
  · intro depth frame hframe
    have hcell : (Unfinished.mk storedFrames stack mem).cell (.onStack depth) = some frame :=
      hframe
    apply hturns.untaken _ hcell
    intro turn hturn heq
    obtain ⟨path, -, hkey⟩ := hstoredKey turn hturn
    rw [hkey] at heq
    cases heq

theorem of_finishDeferred (hmode : self.mode = .deferred stack startDepth storedFrames)
    (h : self.finishDeferred env = .ok self') :
    ∃ unfinished : Unfinished ι P N Mem,
      ((StoredFrames.paths storedFrames).mergeSort finishesBefore).foldlM
        (Unfinished.finishPath env) ⟨storedFrames, stack, self.mem⟩ = .ok unfinished ∧
      ∃ top below filled mem top', unfinished.stack = top :: below ∧
        top.fillDefaults env unfinished.mem = .ok (filled, mem) ∧
        filled.requireFullInitialization env mem = .ok (top', self'.mem) ∧
        self'.mode = .strict (top' :: below) := by
  unfold Partial.finishDeferred at h
  rw [hmode] at h
  dsimp only at h
  obtain ⟨unfinished, hrun, h⟩ := ExceptList.exists_of_bind_ok h
  refine ⟨unfinished, hrun, ?_⟩
  split at h
  · cases h
  · next top below hstack =>
    obtain ⟨⟨filled, mem⟩, hfilled, h⟩ := ExceptList.exists_of_bind_ok h
    obtain ⟨⟨top', mem'⟩, hchecked, h⟩ := ExceptList.exists_of_bind_ok h
    cases h
    exact ⟨top, below, filled, mem, top', hstack, of_mapError_ok hfilled,
      of_mapError_ok hchecked, rfl⟩

/-- Finishing deferred mode walks along the stored frames, and then completes the frame on top of
the stack. -/
theorem finishDeferred_spec (hnodup : (StoredFrames.paths storedFrames).Nodup)
    (hmode : self.mode = .deferred stack startDepth storedFrames)
    (h : self.finishDeferred env = .ok self') :
    ∃ order turns finished, Walk env storedFrames stack order turns finished ∧
      ∃ top below filled mem mem' top', finished = top :: below ∧
        top.fillDefaults env mem = .ok (filled, mem') ∧
        filled.requireFullInitialization env mem' = .ok (top', self'.mem) ∧
        self'.mode = .strict (top' :: below) := by
  obtain ⟨unfinished, hrun, top, below, filled, mem, top', hstack, hfilled, hchecked, hmode'⟩ :=
    of_finishDeferred hmode h
  obtain ⟨order, turns, hwalk⟩ := walk_of_foldlM hnodup hrun
  exact ⟨order, turns, unfinished.stack, hwalk, top, below, filled, unfinished.mem, mem, top',
    hstack, hfilled, hchecked, hmode'⟩

end Walks

/-- A map from amounts to amounts, and a list of them. -/
inductive LedgerShape
  | ledger
  | column
  | amount
  deriving DecidableEq

def ledgerShapes : Shapes LedgerShape
  | .ledger => { ty := .user .opaqueTy, «def» := .map .amount .amount }
  | .column => { ty := .user .opaqueTy, «def» := .list .amount }
  | .amount => { ty := .primitive .numeric, «def» := .scalar, size := 1 }

/-- The memory remembers what has been inserted into the map and pushed to the list. -/
def ledgerVtables : Vtables LedgerShape ℕ (List (ℕ × ℕ)) where
  fieldUninit ptr offset := ptr + offset
  alloc _ mem := (0, mem)
  dealloc _ _ mem := mem
  copyNonoverlapping _ _ _ mem := mem
  callDropInPlace _ _ mem := mem
  callDefaultInPlace _ _ _ := none
  defaultFn _ _ mem := mem
  readField _ _ := bytePtr 0
  validators := silentEnv
  writeDiscriminant _ _ _ mem := mem
  list _ := ⟨none, fun _ mem => mem.length, some fun list element mem => mem ++ [(list, element)]⟩
  option _ := ⟨fun _ _ mem => mem, fun _ _ => none⟩
  result _ := ⟨fun _ _ mem => mem, fun _ _ mem => mem⟩
  pointer _ :=
    ⟨none, none, none, false,
      ⟨fun mem => (0, mem), fun _ _ mem => mem, fun _ mem => (0, mem), fun _ mem => mem⟩, none⟩
  dynamicValue _ :=
    ⟨fun _ mem => mem, fun _ mem => mem, fun _ _ _ mem => .ok mem, fun _ _ mem => mem,
      fun _ _ _ mem => mem⟩
  mapInsert _ _ key value mem := mem ++ [(key, value)]
  setInsert _ _ _ mem := mem
  writeString _ _ _ mem := mem
  tryFrom _ _ _ _ mem := (.unsupported, mem)
  convertIn _ _ ptr mem := (.ok ptr, mem)
  fieldProxy _ := none
  nextSlot _ _ mem := (0, mem)
  freeChunks _ mem := mem
  isStr _ := false
  isString _ := false
  isUnit _ := false
  string := .amount
  parse _ := none

def ledgerEnv : Env LedgerShape ℕ ℕ (List (ℕ × ℕ)) where
  shapes := ledgerShapes
  vtables := ledgerVtables
  plan :=
    ⟨fun _ => .other, fun _ _ => none, fun _ _ _ => none, fun _ => none, fun _ => none,
      fun _ => none, fun _ => none, fun _ => none⟩

def amountFrame (data : ℕ) (ownership : FrameOwnership) : Frame LedgerShape ℕ ℕ :=
  { data, shape := .amount, allocatedSize := 1, isInit := true, tracker := .scalar, ownership,
    typePlan := 0 }

def ledgerFrame : Frame LedgerShape ℕ ℕ :=
  { data := 0, shape := .ledger, allocatedSize := 1, isInit := true,
    tracker := .map .idle [] (some 1) false, ownership := .owned, typePlan := 0 }

/-- The keys and values of two entries. -/
def storedEntries : StoredFrames LedgerShape ℕ ℕ :=
  [([.mapKey 0], amountFrame 10 .trackedBuffer), ([.mapKey 1], amountFrame 11 .trackedBuffer),
    ([.mapValue 0], amountFrame 20 .trackedBuffer), ([.mapValue 1], amountFrame 21 .trackedBuffer)]

theorem finishDeferred_ledger :
    (Partial.mk (.deferred [ledgerFrame] 1 storedEntries) []).finishDeferred ledgerEnv =
      .ok ⟨.strict [ledgerFrame], [(10, 20), (11, 21)]⟩ := by
  have hsorted : (StoredFrames.paths storedEntries).mergeSort finishesBefore =
      StoredFrames.paths storedEntries := List.mergeSort_of_pairwise (by decide)
  unfold Partial.finishDeferred
  dsimp only
  rw [hsorted]
  rfl

theorem finishDeferred_spec_ledger :
    ∃ order turns finished,
      Walk ledgerEnv storedEntries [ledgerFrame] order turns finished ∧
      ∃ top below filled mem mem' top', finished = top :: below ∧
        top.fillDefaults ledgerEnv mem = .ok (filled, mem') ∧
        filled.requireFullInitialization ledgerEnv mem' = .ok (top', [(10, 20), (11, 21)]) ∧
        (FrameMode.strict [ledgerFrame] : FrameMode LedgerShape ℕ ℕ) = .strict (top' :: below) :=
  finishDeferred_spec (by decide) rfl finishDeferred_ledger

end Facet.Frames
