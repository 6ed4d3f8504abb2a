import Facet.Path.Path
import Facet.TypePlan.Validators

/-!
# The frames of a partial value

A value is built through a stack of frames, each pointing at a part that is under construction.
A frame's tracker says which of its parts are initialised and which one the next frame builds. In
deferred mode the frames that have been ended are kept under their paths.

Shapes are given by their identities `ι`, addresses by `P` and the nodes of the type plan by `N`.
-/

namespace Facet.Frames

open Facet.Path TypePlan

/-- The indices of the fields or elements that are initialised. -/
abbrev ISet := Finset ℕ

namespace ISet

def new (_count : ℕ) : ISet := ∅

def get (s : ISet) (i : ℕ) : Bool := i ∈ s

def set (s : ISet) (i : ℕ) : ISet := insert i s

def unset (s : ISet) (i : ℕ) : ISet := s.erase i

def allSet (s : ISet) (count : ℕ) : Bool := (List.range count).all s.get

def setAll (s : ISet) (count : ℕ) : ISet := s ∪ Finset.range count

end ISet

inductive FrameOwnership
  | owned
  | field (fieldIdx : ℕ)
  | trackedBuffer
  | borrowedInPlace
  | external
  | ropeSlot
  deriving DecidableEq, Repr

/-- Whether the frame has allocated its memory itself. -/
def FrameOwnership.needsDealloc : FrameOwnership → Bool
  | .owned | .trackedBuffer => true
  | _ => false

inductive MapInsertState (P : Type)
  | idle
  | pushingKey (keyPtr : P)
  | pushingValue (keyPtr : P) (valuePtr : Option P)

inductive DynamicObjectInsertState
  | idle
  | buildingValue (key : String)

inductive DynamicValueState (P : Type)
  | uninit
  | scalar
  | array (buildingElement : Bool) (pendingElements : List P)
  | object (insertState : DynamicObjectInsertState) (pendingEntries : List (String × P))

/-- The slots handed out so far, of which a prefix is initialised. -/
structure ListRope (P : Type) where
  slots : List P
  initializedCount : ℕ

namespace ListRope

variable {P : Type} (rope : ListRope P)

def markLastInitialized : ListRope P := { rope with initializedCount := rope.initializedCount + 1 }

end ListRope

/-- A finished inner value that waits for its smart pointer to be built. -/
structure PendingSmartPointerInner (ι P : Type) where
  data : P
  shape : ι
  allocatedSize : ℕ
  ownership : FrameOwnership

inductive Tracker (ι P : Type)
  | scalar
  | array (iset : ISet) (currentChild : Option ℕ)
  | struct (iset : ISet) (currentChild : Option ℕ)
  | smartPointer (buildingInner : Bool) (pendingInner : Option (PendingSmartPointerInner ι P))
  /-- The slice builder is that of the pointer type `vtable`. -/
  | smartPointerSlice (vtable : ι) (buildingItem : Bool) (currentChild : Option ℕ)
  | inner (buildingInner : Bool)
  | enum (variant : Variant ι) (variantIdx : ℕ) (data : ISet) (currentChild : Option ℕ)
  | list (currentChild : Option ℕ) (rope : Option (ListRope P))
  | map (insertState : MapInsertState P) (pendingEntries : List (P × Option P))
      (currentEntryIndex : Option ℕ) (buildingKey : Bool)
  | set (currentChild : Bool)
  | option (buildingInner : Bool) (pendingInner : Option P)
  | result (isOk buildingInner : Bool)
  | dynamicValue (state : DynamicValueState P)

namespace Tracker

variable {ι P : Type}

def isScalar : Tracker ι P → Bool
  | .scalar => true
  | _ => false

def clearCurrentChild : Tracker ι P → Tracker ι P
  | .struct iset _ => .struct iset none
  | .enum variant variantIdx data _ => .enum variant variantIdx data none
  | .array iset _ => .array iset none
  | .list _ rope => .list none rope
  | .set _ => .set false
  | tracker => tracker

end Tracker

structure Frame (ι P N : Type) where
  data : P
  shape : ι
  allocatedSize : ℕ
  isInit : Bool
  tracker : Tracker ι P
  ownership : FrameOwnership
  usingCustomDeserialization : Bool := false
  /-- The conversion of a container-level or format-specific proxy. -/
  shapeLevelProxy : Option ℕ := none
  typePlan : N

/-- A stack, with its top first. -/
abbrev Stack (ι P N : Type) := List (Frame ι P N)

/-- The frames stored in deferred mode, with the steps of their paths. -/
abbrev StoredFrames (ι P N : Type) := List (List PathStep × Frame ι P N)

inductive FrameMode (ι P N : Type)
  | strict (stack : Stack ι P N)
  | deferred (stack : Stack ι P N) (startDepth : ℕ) (storedFrames : StoredFrames ι P N)

namespace FrameMode

variable {ι P N : Type}

def stack : FrameMode ι P N → Stack ι P N
  | .strict stack | .deferred stack _ _ => stack

def withStack (stack : Stack ι P N) : FrameMode ι P N → FrameMode ι P N
  | .strict _ => .strict stack
  | .deferred _ startDepth storedFrames => .deferred stack startDepth storedFrames

def isDeferred : FrameMode ι P N → Bool
  | .strict _ => false
  | .deferred _ _ _ => true

def startDepth : FrameMode ι P N → Option ℕ
  | .strict _ => none
  | .deferred _ startDepth _ => some startDepth

end FrameMode

/-- A partial value: its frames, and the memory they point into. -/
structure Partial (ι P N Mem : Type) where
  mode : FrameMode ι P N
  mem : Mem

inductive ReflectErrorKind (ι : Type)
  | operationFailed (shape : ι) (operation : String)
  | invariantViolation (invariant : String)
  | uninitializedValue (shape : ι)
  | uninitializedField (shape : ι) (fieldName : String)
  | defaultAttrButNoDefaultImpl (shape : ι)
  | unsized (shape : ι) (operation : String)
  | wasNotA (expected : String) (actual : ι)
  | wrongShape (expected actual : ι)
  | unexpectedTracker (message : String)
  | validationFailed (shape : ι) (fieldName message : String)
  | tryFromUnsupported (srcShape dstShape : ι)
  | tryFromFailed (srcShape dstShape : ι) (message : String)
  | customDeserializationError (message : String) (srcShape dstShape : ι)
  | noSuchField (shape : ι)
  | parseFailed (shape : ι) (input : String)

/-- An error carries the path at which it was raised. -/
structure ReflectError (ι : Type) where
  kind : ReflectErrorKind ι
  path : List PathStep

/-- How an operation ends when it does not return a partial value: with an error, which consumes
it, or in a panic. -/
inductive Stop (ι : Type)
  | error (error : ReflectError ι)
  | panic (message : String)

end Facet.Frames
