import Facet.Frames.Finishing
import Facet.Lib.GuardedRun

/-!
# What completing a frame keeps

Filling in defaults and checking that a frame is initialised move values into the frame's own
memory. The frame stays about the same value of the same type, in memory owned as before.
-/

namespace Facet.Frames

open TypePlan Facet.Path GuardedRun

variable {ι P N Mem : Type}

namespace Frame

/-- The frame is about the same value in the same memory. -/
structure Keeps (f g : Frame ι P N) : Prop where
  shape : g.shape = f.shape
  ownership : g.ownership = f.ownership
  usingCustomDeserialization : g.usingCustomDeserialization = f.usingCustomDeserialization

variable {f g k : Frame ι P N}

@[refl] theorem Keeps.refl (f : Frame ι P N) : f.Keeps f := ⟨rfl, rfl, rfl⟩

theorem Keeps.trans (hfg : f.Keeps g) (hgk : g.Keeps k) : f.Keeps k :=
  ⟨hgk.shape.trans hfg.shape, hgk.ownership.trans hfg.ownership,
    hgk.usingCustomDeserialization.trans hfg.usingCustomDeserialization⟩

/-- An operation on the frame, if it succeeds, keeps it. -/
abbrev KeepsTo {ε : Type} (f : Frame ι P N) (result : Except ε (Frame ι P N × Mem)) : Prop :=
  Ensures (fun _ => True) (fun r => f.Keeps r.1) result

theorem KeepsTo.after {ε α : Type} {x : Except ε α} {next : α → Except ε (Frame ι P N × Mem)}
    (hnext : ∀ a, f.KeepsTo (next a)) : f.KeepsTo (x >>= next) := by
  cases x with
  | error e => trivial
  | ok a => exact hnext a

theorem KeepsTo.of_keeps {ε : Type} {result : Except ε (Frame ι P N × Mem)}
    (hfg : f.Keeps g) (h : g.KeepsTo result) : f.KeepsTo result :=
  Ensures.mono h fun _ hr => hfg.trans hr

variable (env : Env ι P N Mem)

theorem keeps_of_fillUntouched {mem mem' : Mem} (h : f.fillUntouched env mem = some (g, mem')) :
    f.Keeps g := by
  unfold fillUntouched at h
  split at h
  · split at h
    · simp only [Option.map_eq_some_iff, Prod.mk.injEq] at h
      obtain ⟨_, _, rfl, _⟩ := h
      exact ⟨rfl, rfl, rfl⟩
    · simp only [Option.map_eq_some_iff, Prod.mk.injEq] at h
      obtain ⟨_, _, rfl, _⟩ := h
      exact ⟨rfl, rfl, rfl⟩
    · cases h
  · cases h

theorem keeps_trackFields (f : Frame ι P N) : f.Keeps (f.trackFields env) := by
  unfold trackFields
  split
  · split
    · exact ⟨rfl, rfl, rfl⟩
    · exact .refl f
  · exact .refl f

theorem keepsTo_fillTracked (f : Frame ι P N) (mem : Mem) :
    f.KeepsTo (f.fillTracked env mem) := by
  unfold fillTracked
  split
  · split
    · split
      · exact .refl f
      · dsimp only
        split
        · exact ⟨rfl, rfl, rfl⟩
        · apply KeepsTo.after
          intro _
          exact ⟨rfl, rfl, rfl⟩
    · exact .refl f
  · split
    · exact .refl f
    · apply KeepsTo.after
      intro _
      exact ⟨rfl, rfl, rfl⟩
  · exact .refl f

theorem keepsTo_fillDefaults (f : Frame ι P N) (mem : Mem) :
    f.KeepsTo (f.fillDefaults env mem) := by
  unfold fillDefaults
  split
  · rename_i filled hfilled
    exact keeps_of_fillUntouched env hfilled
  · exact .of_keeps (f.keeps_trackFields env) (keepsTo_fillTracked env _ mem)

theorem keepsTo_requireFullInitialization [DecidableEq ι] (f : Frame ι P N) (mem : Mem) :
    f.KeepsTo (f.requireFullInitialization env mem) := by
  have hrequireInit : f.KeepsTo
      (if f.isInit then .ok (f, mem) else .error (.uninitializedValue f.shape) :
        Except (ReflectErrorKind ι) _) := by
    split
    · exact .refl f
    · trivial
  unfold requireFullInitialization
  cases htracker : f.tracker with
  | scalar => exact hrequireInit
  | array iset currentChild =>
    dsimp only
    split
    · split
      · exact .refl f
      · trivial
    · trivial
  | struct iset currentChild =>
    dsimp only
    split
    · apply KeepsTo.after
      intro _
      exact .refl f
    · trivial
  | enum variant variantIdx data currentChild =>
    apply KeepsTo.after
    intro _
    exact .refl f
  | smartPointer buildingInner pendingInner =>
    dsimp only
    split
    · trivial
    · split
      · exact hrequireInit
      · split
        · apply KeepsTo.after
          intro _
          exact ⟨rfl, rfl, rfl⟩
        · trivial
  | smartPointerSlice vtable buildingItem currentChild =>
    dsimp only
    split
    · trivial
    · exact .refl f
  | list currentChild rope =>
    dsimp only
    split
    · split
      · apply KeepsTo.after
        intro _
        exact ⟨rfl, rfl, rfl⟩
      · exact ⟨rfl, rfl, rfl⟩
      · exact .refl f
    · trivial
  | map insertState pendingEntries currentEntryIndex buildingKey =>
    dsimp only
    split
    · split
      · apply KeepsTo.after
        intro _
        exact ⟨rfl, rfl, rfl⟩
      · exact .refl f
    · trivial
  | set currentChild =>
    dsimp only
    split
    · trivial
    · exact hrequireInit
  | option buildingInner pendingInner =>
    dsimp only
    split
    · trivial
    · split <;> exact ⟨rfl, rfl, rfl⟩
  | result isOk buildingInner =>
    dsimp only
    split
    · trivial
    · exact .refl f
  | inner buildingInner =>
    dsimp only
    split
    · trivial
    · exact hrequireInit
  | dynamicValue state =>
    dsimp only
    split
    · trivial
    · exact .refl f
    · exact ⟨rfl, rfl, rfl⟩
    · exact .refl f
    · trivial
    · exact ⟨rfl, rfl, rfl⟩
    · exact .refl f
    · trivial

end Frame

end Facet.Frames
