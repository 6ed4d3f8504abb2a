import Facet.Frames.Ending

/-!
# The fast path of `end`

A scalar field of a struct is ended by marking it in the struct. The general path fills in
defaults, checks, converts and hands the value on; for such a frame each of these leaves
everything as it is, and both paths end in the same state.
-/

namespace Facet.Frames

open TypePlan

variable {ι P N Mem : Type} {env : Env ι P N Mem}

namespace Frame

/-- A frame that holds a whole value and tracks no part of it. -/
structure IsWhole (frame : Frame ι P N) : Prop where
  tracker : frame.tracker = .scalar
  isInit : frame.isInit = true

variable {frame : Frame ι P N}

theorem IsWhole.fillAndRequireFields (hframe : frame.IsWhole) (plans : List (FieldInitPlan ι))
    (numFields : ℕ) (mem : Mem) :
    frame.fillAndRequireFields env plans numFields mem = .ok (frame, mem) := by
  simp [Frame.fillAndRequireFields, hframe.tracker, hframe.isInit]

theorem IsWhole.fillDefaults (hframe : frame.IsWhole) (mem : Mem) :
    frame.fillDefaults env mem = .ok (frame, mem) := by
  have huntouched : frame.fillUntouched env mem = none := by
    simp [fillUntouched, hframe.isInit]
  have htracked : frame.trackFields env = frame := by
    simp [trackFields, hframe.isInit]
  simp [Frame.fillDefaults, huntouched, htracked, fillTracked, hframe.tracker]

theorem IsWhole.requireFullInitialization [DecidableEq ι] (hframe : frame.IsWhole) (mem : Mem) :
    frame.requireFullInitialization env mem = .ok (frame, mem) := by
  simp [Frame.requireFullInitialization, hframe.tracker, hframe.isInit]

theorem IsWhole.requireInitialized [DecidableEq ι] (hframe : frame.IsWhole) (mem : Mem) :
    frame.requireInitialized env mem = .ok (frame, mem) := by
  unfold Frame.requireInitialized
  cases frame.fieldPlans env with
  | some plans => exact hframe.fillAndRequireFields plans plans.length mem
  | none =>
    simp only [hframe.fillDefaults mem]
    exact hframe.requireFullInitialization mem

variable [DecidableEq ι] [DecidableEq P]

theorem IsWhole.endUnstored_of_struct (hframe : frame.IsWhole) {parent : Frame ι P N}
    {fieldIdx : ℕ} {iset : ISet} {currentChild : Option ℕ}
    (hfield : frame.ownership = .field fieldIdx)
    (hcustom : frame.usingCustomDeserialization = false)
    (hparent : parent.tracker = .struct iset currentChild) (rest : Stack ι P N)
    (isDeferred : Bool) (mem : Mem) :
    frame.endUnstored env parent rest isDeferred mem =
      .ok ({ parent with tracker := .struct (iset.set fieldIdx) none }, mem) := by
  have hconversion : frame.needsConversion env parent = false := by
    simp [needsConversion, hparent]
  simp [endUnstored, hcustom, endInParent, hconversion, hfield, endField, hframe.fillDefaults,
    hframe.requireFullInitialization, hparent, Tracker.reclaim]

end Frame

namespace Partial

theorem endFast_eq_some {mode mode' : FrameMode ι P N} (h : endFast mode = some mode') :
    ∃ (frame parent : Frame ι P N) (rest : Stack ι P N) (fieldIdx : ℕ) (iset : ISet)
      (currentChild : Option ℕ),
      mode = .strict (frame :: parent :: rest) ∧ frame.IsWhole ∧
      frame.ownership = .field fieldIdx ∧ frame.usingCustomDeserialization = false ∧
      parent.tracker = .struct iset currentChild ∧
      mode' = .strict ({ parent with tracker := .struct (iset.set fieldIdx) none } :: rest) := by
  unfold endFast at h
  split at h
  · rename_i frame parent rest
    split at h
    · rename_i fieldIdx iset currentChild htracker hinit hfield hcustom hparent
      cases h
      exact ⟨frame, parent, rest, fieldIdx, iset, currentChild, rfl, ⟨htracker, hinit⟩, hfield,
        hcustom, hparent, rfl⟩
    · cases h
  · cases h

variable [DecidableEq ι] [DecidableEq P] (env)

/-- The general path does the same wherever the fast path is taken. -/
theorem endSlow_of_endFast {self : Partial ι P N Mem} {mode : FrameMode ι P N}
    (h : endFast self.mode = some mode) : self.endSlow env = .ok ⟨mode, self.mem⟩ := by
  obtain ⟨frame, parent, rest, fieldIdx, iset, currentChild, hmode, hframe, hfield, hcustom,
    hparent, rfl⟩ := endFast_eq_some h
  have hend : frame.endUnstored env parent rest false self.mem = .ok (_, self.mem) :=
    hframe.endUnstored_of_struct hfield hcustom hparent rest false self.mem
  simp [endSlow, hmode, FrameMode.stack, FrameMode.startDepth, hframe.tracker, popFrame,
    hframe.requireInitialized, Except.mapError, hend, bind, Except.bind, pure, Except.pure]

theorem endFrame_eq_endSlow (self : Partial ι P N Mem) : self.endFrame env = self.endSlow env := by
  unfold endFrame
  cases h : endFast self.mode with
  | none => rfl
  | some mode => exact (endSlow_of_endFast env h).symm

end Partial

end Facet.Frames
