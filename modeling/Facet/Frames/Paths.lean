import Facet.Frames.Frame

/-!
# The paths of frames

Two paths are read off a stack of frames. Errors carry the one that follows the kinds of the types;
frames are stored and looked up under the other, which follows the trackers alone.
-/

namespace Facet.Frames

open Facet.Path

variable {ι P N Mem : Type} (shapes : Shapes ι)

/-- Paths store their indices in 32 bits. -/
def asU32 (idx : ℕ) : ℕ := idx % 2 ^ 32

namespace Frame

variable (frame : Frame ι P N)

/-- The steps of a frame in the path of an error. -/
def pathSteps : List PathStep :=
  match (shapes frame.shape).ty with
  | .user (.struct _) =>
    match frame.tracker with
    | .struct _ (some idx) => [.field (asU32 idx)]
    | _ => []
  | .user (.enum et) =>
    match frame.tracker with
    | .enum _ variantIdx _ currentChild =>
      -- the variant is looked for by its address, among those of the type
      (if variantIdx < et.variants.length then [.variant (asU32 variantIdx)] else []) ++
        (currentChild.map fun idx => PathStep.field (asU32 idx)).toList
    | _ => []
  | .user .opaqueTy =>
    match frame.tracker with
    | .list (some idx) _ => [.index (asU32 idx)]
    | _ => []
  | .sequence (.array _ _) =>
    match frame.tracker with
    | .array _ (some idx) => [.index (asU32 idx)]
    | _ => []
  | .pointer _ => [.deref]
  | _ => []

/-- The step towards the part that the next frame builds, by the tracker. -/
def childStep : List PathStep :=
  match frame.tracker with
  | .struct _ (some idx) | .enum _ _ _ (some idx) => [.field (asU32 idx)]
  | .list (some idx) _ | .array _ (some idx) | .smartPointerSlice _ _ (some idx) =>
    [.index (asU32 idx)]
  | .option true _ => [.optionSome]
  | .smartPointer true _ => [.deref]
  | .inner true => [.inner]
  | .map _ _ (some idx) true => [.mapKey (asU32 idx)]
  | .map _ _ (some idx) false => [.mapValue (asU32 idx)]
  | _ => []

/-- The field that the next frame builds. -/
def getField : Option (Field ι) :=
  match (shapes frame.shape).ty, frame.tracker with
  | .user (.struct st), .struct _ (some idx) => st.fields[idx]?
  | .user (.enum _), .enum variant _ _ (some idx) => variant.data.fields[idx]?
  | _, _ => none

end Frame

namespace Stack

/-- The path that errors carry. -/
def path (stack : Stack ι P N) : List PathStep :=
  stack.reverse.flatMap fun frame => frame.pathSteps shapes

/-- A frame for a proxy is told from the one it is converted into by a step of its own. -/
def proxyStep (frame : Frame ι P N) (below : Stack ι P N) : List PathStep :=
  if frame.usingCustomDeserialization && !below.isEmpty then [.proxy] else []

/-- The path of the part that the frame on top builds next. -/
def derivePath : Stack ι P N → List PathStep
  | [] => []
  | frame :: below => derivePath below ++ proxyStep frame below ++ frame.childStep

/-- The path under which the frame on top is stored: the frame itself adds no step to it. -/
def storagePath : Stack ι P N → List PathStep
  | [] => []
  | frame :: below => derivePath below ++ proxyStep frame below

end Stack

/-- The error of an operation on a stack, at the path of the stack. -/
def err (stack : Stack ι P N) (kind : ReflectErrorKind ι) : Stop ι :=
  .error ⟨kind, stack.path shapes⟩

end Facet.Frames
