import Facet.Frames.Initialization
import Facet.Frames.Paths

/-!
# Ending a frame

The frame on top is popped, and its value handed to the frame below by what that frame is building.
In deferred mode the popped frame is kept instead, unless the frame below takes its value at once.
-/

namespace Facet.Frames

open TypePlan Facet.Path

variable {ι P N Mem : Type} [DecidableEq ι] [DecidableEq P] (env : Env ι P N Mem)

namespace Frame

/-- Builds the pointer to a slice out of its elements. The frame stays, and holds the pointer. -/
def convertSlice (frame : Frame ι P N) (below : Stack ι P N) (vtable : ι) (mem : Mem) :
    Except (Stop ι) (Frame ι P N × Mem) :=
  let fail := fun kind => .error (err env.shapes (frame :: below) kind)
  let (arcPtr, mem) :=
    (env.vtables.pointer vtable).sliceBuilderVTable.convertFn frame.data mem
  let converted := fun data => { frame with data := data, tracker := .scalar, isInit := true }
  match frame.ownership with
  | .field fieldIdx =>
    match below with
    | [] => .error (.panic "attempt to subtract with overflow")
    | parent :: _ =>
      match (env.shapes parent.shape).ty with
      | .user (.struct st) =>
        match st.fields[fieldIdx]? with
        | none => .error (.panic "index out of bounds")
        | some field =>
          -- the frame points at the builder, so its place is found through the field
          let fieldLocation := env.vtables.fieldUninit parent.data field.offset
          let arcSize := (env.shapes frame.shape).size
          if (env.shapes frame.shape).sized then
            .ok (converted fieldLocation, env.vtables.dealloc arcPtr arcSize
              (env.vtables.copyNonoverlapping arcPtr fieldLocation arcSize mem))
          else fail (.unsized frame.shape "SmartPointerSlice conversion requires sized Arc")
      | _ => fail (.invariantViolation "SmartPointerSlice field frame parent must be a struct")
  | .owned => .ok (converted arcPtr, mem)
  | _ => fail (.invariantViolation <| "SmartPointerSlice cannot have " ++
      "TrackedBuffer/BorrowedInPlace/External/RopeSlot ownership after conversion")

/-- The plans of the frame's fields; those of an enum are its selected variant's. -/
def fieldPlans (frame : Frame ι P N) : Option (List (FieldInitPlan ι)) :=
  match env.plan.kind frame.typePlan, frame.tracker with
  | .struct fields, _ => some fields
  | .enum variants, .enum _ variantIdx _ _ => variants[variantIdx]?
  | _, _ => none

/-- Fills in the defaults of a frame that is about to be popped, and checks it. -/
def requireInitialized (frame : Frame ι P N) (mem : Mem) :
    Except (ReflectErrorKind ι) (Frame ι P N × Mem) :=
  match frame.fieldPlans env with
  | some plans => frame.fillAndRequireFields env plans plans.length mem
  | none => do
    let (frame, mem) ← frame.fillDefaults env mem
    frame.requireFullInitialization env mem

/-- The conversion of a proxy frame: its own, or else that of the field that the frame below
it stands for. -/
def deserializeWith (popped : Frame ι P N) (below : Stack ι P N) : Option ℕ :=
  popped.shapeLevelProxy <|>
    (below[1]?.bind fun frame => frame.getField env.shapes).bind env.vtables.fieldProxy

/-- Converts the value of a proxy frame into the frame below. -/
def convertProxy (popped parent : Frame ι P N) (rest : Stack ι P N) (convertIn : ℕ) (mem : Mem) :
    Except (Stop ι) (Frame ι P N × Mem) :=
  let fail := fun message => .error <| err env.shapes (parent :: rest) <|
    .customDeserializationError message popped.shape parent.shape
  match env.vtables.convertIn convertIn popped.data parent.data mem with
  | (.error message, _) => fail message
  | (.ok rptr, mem) =>
    if rptr = parent.data then
      .ok ({ parent with isInit := true }, popped.deallocMoved env mem)
    else fail "deserialize_with did not return the expected pointer"

/-- Whether the popped value is converted into the type of the frame below. -/
def needsConversion (popped parent : Frame ι P N) : Bool :=
  !parent.isInit &&
  (match parent.tracker with
    | .scalar | .inner _ => true
    | _ => false) &&
  ((env.shapes parent.shape).builderShape = some popped.shape ||
    (env.shapes parent.shape).inner = some popped.shape) &&
  (env.shapes parent.shape).hasTryFrom

def convertValue (popped parent : Frame ι P N) (rest : Stack ι P N) (mem : Mem) :
    Except (Stop ι) (Frame ι P N × Mem) :=
  let fail := fun kind => .error (err env.shapes (parent :: rest) kind)
  match popped.requireFullInitialization env mem with
  | .error kind => fail kind
  | .ok (popped, mem) =>
    match env.vtables.tryFrom parent.shape parent.data popped.shape popped.data mem with
    | (.converted, mem) =>
      .ok ({ parent with isInit := true, tracker := match parent.tracker with
        | .inner _ => .scalar
        | tracker => tracker }, popped.deallocOwned env mem)
    | (.unsupported, _) => fail (.tryFromUnsupported popped.shape parent.shape)
    | (.failed message, _) => fail (.tryFromFailed popped.shape parent.shape message)

end Frame

/-- The frame below takes a field's or an element's value back. -/
def Tracker.reclaim (fieldIdx : ℕ) (childIsInitialized : Bool) : Tracker ι P → Tracker ι P
  | .struct iset _ => .struct (if childIsInitialized then iset.set fieldIdx else iset) none
  | .array iset _ => .array (if childIsInitialized then iset.set fieldIdx else iset) none
  | .enum variant variantIdx data _ =>
    .enum variant variantIdx (if childIsInitialized then data.set fieldIdx else data) none
  | tracker => tracker

namespace Frame

/-- Completes a smart pointer at once. Where it cannot be built, the frame stays as it was. -/
def completeSmartPointerFrame (smartPtr inner : Frame ι P N) (mem : Mem) : Frame ι P N × Mem :=
  let complete := { smartPtr with tracker := .smartPointer false none, isInit := true }
  match (env.shapes smartPtr.shape).def with
  | .pointer pointee =>
    match (env.vtables.pointer smartPtr.shape).newIntoFn with
    | some newIntoFn => (complete, inner.deallocOwned env (newIntoFn smartPtr.data inner.data mem))
    | none =>
      match tryBorrowAndPromoteSmartPointer env smartPtr.shape pointee smartPtr.data inner.shape
          inner.data mem with
      | some mem =>
        let pending := ⟨inner.data, inner.shape, inner.allocatedSize, inner.ownership⟩
        (complete, PendingSmartPointerInner.dropAndDealloc env pending mem)
      | none =>
        match (env.vtables.pointer smartPtr.shape).known with
        | some known =>
          if isStrConversion env pointee inner.shape && holdsStr known then
            (complete, inner.deallocOwned env
              (env.vtables.writeString known smartPtr.data inner.data mem))
          else (smartPtr, mem)
        | none => (smartPtr, mem)
  | _ => (smartPtr, mem)

/-- A field's or an element's frame, popped: it is taken back if it is initialised. -/
def endField (popped parent : Frame ι P N) (rest : Stack ι P N) (fieldIdx : ℕ) (mem : Mem) :
    Except (Stop ι) (Frame ι P N × Mem) :=
  match popped.fillDefaults env mem with
  | .error kind => .error (err env.shapes (parent :: rest) kind)
  | .ok (popped, mem) =>
    match popped.requireFullInitialization env mem with
    | .ok (_, mem) => .ok ({ parent with tracker := parent.tracker.reclaim fieldIdx true }, mem)
    | .error _ => .ok ({ parent with tracker := parent.tracker.reclaim fieldIdx false }, mem)

/-- The value inside a smart pointer, which deferred mode keeps for later. -/
def endPointee (popped parent : Frame ι P N) (isDeferred : Bool) (mem : Mem) :
    Except (ReflectErrorKind ι) (Frame ι P N × Mem) :=
  if isDeferred then do
    let (popped, mem) ← popped.fillDefaults env mem
    let (popped, mem) ← popped.requireFullInitialization env mem
    let pending := ⟨popped.data, popped.shape, popped.allocatedSize, popped.ownership⟩
    return ({ parent with tracker := .smartPointer false (some pending), isInit := false }, mem)
  else do
    let (popped, mem) ← popped.requireFullInitialization env mem
    let (parent, mem) := completeSmartPointerFrame env parent popped mem
    return ({ parent with tracker := .scalar }, mem)

/-- The element of a list, in its rope or to be pushed. -/
def endListItem (popped parent : Frame ι P N) (rope : Option (ListRope P)) (mem : Mem) :
    Except (ReflectErrorKind ι) (Frame ι P N × Mem) :=
  match (env.shapes parent.shape).def with
  | .list _ =>
    if popped.ownership = .ropeSlot then
      .ok ({ parent with tracker := .list none (rope.map ListRope.markLastInitialized) }, mem)
    else
      match (env.vtables.list parent.shape).push with
      | none => .error (.operationFailed parent.shape "List missing push function")
      | some pushFn => .ok ({ parent with tracker := .list none rope },
          popped.deallocMoved env (pushFn parent.data popped.data mem))
  | _ => .ok (parent, mem)

/-- The key or the value of a map's entry. The source's debug assertions are left out. -/
def endMapPart (popped parent : Frame ι P N) (insertState : MapInsertState P)
    (pendingEntries : List (P × Option P)) (currentEntryIndex : Option ℕ) (buildingKey : Bool)
    (fail : ReflectErrorKind ι → Stop ι) (mem : Mem) : Except (Stop ι) (Frame ι P N × Mem) :=
  let withEntries := fun state entries =>
    { parent with tracker := .map state entries currentEntryIndex buildingKey }
  match insertState with
  | .idle => .ok (parent, mem)
  | .pushingKey keyPtr =>
    match popped.fillDefaults env mem with
    | .error kind => .error (fail kind)
    | .ok (_, mem) =>
      .ok (withEntries (.pushingValue keyPtr none) (pendingEntries ++ [(keyPtr, none)]), mem)
  | .pushingValue _ valuePtr =>
    match popped.fillDefaults env mem with
    | .error kind => .error (fail kind)
    | .ok (_, mem) =>
      match valuePtr, pendingEntries.getLast? with
      | none, _ => .ok (parent, mem)
      | some _, none => .error (.panic ("pending_entries must have a half-entry from the " ++
          "PushingKey -> PushingValue transition"))
      | some valuePtr, some (keyPtr, _) =>
        .ok (withEntries .idle (pendingEntries.dropLast ++ [(keyPtr, some valuePtr)]), mem)

def endSetItem (popped parent : Frame ι P N) (mem : Mem) : Frame ι P N × Mem :=
  match (env.shapes parent.shape).def with
  | .set _ => ({ parent with tracker := .set false },
      popped.deallocMoved env (env.vtables.setInsert parent.shape parent.data popped.data mem))
  | _ => (parent, mem)

/-- Drops a value that the frame below does not take. -/
def discard (popped : Frame ι P N) (mem : Mem) : Mem :=
  let (popped, mem) := popped.deinit env mem
  popped.deallocOwned env mem

def endOptionSome (popped parent : Frame ι P N) (buildingInner : Bool) (mem : Mem) :
    Except (ReflectErrorKind ι) (Frame ι P N × Mem) :=
  if buildingInner then
    match (env.shapes parent.shape).def with
    | .option _ =>
      .ok ({ parent with tracker := .option false (some popped.data), isInit := true }, mem)
    | _ => .error (.operationFailed parent.shape "Option frame without Option definition")
  else .ok (parent, popped.discard env mem)

def endResultPart (popped parent : Frame ι P N) (isOk buildingInner : Bool) (mem : Mem) :
    Except (ReflectErrorKind ι) (Frame ι P N × Mem) :=
  if buildingInner then
    match (env.shapes parent.shape).def with
    | .result _ _ =>
      let vtable := env.vtables.result parent.shape
      let mem := (if isOk then vtable.initOk else vtable.initErr) parent.data popped.data mem
      .ok ({ parent with tracker := .result isOk false, isInit := true },
        popped.deallocOwned env mem)
    | _ => .error (.operationFailed parent.shape "Result frame without Result definition")
  else .ok (parent, popped.discard env mem)

/-- A string that becomes the pointer to `str` below it. -/
def endStringFor (popped parent : Frame ι P N) (mem : Mem) :
    Except (ReflectErrorKind ι) (Frame ι P N × Mem) :=
  match (env.shapes parent.shape).def with
  | .pointer none => .error (.invariantViolation "pointer type doesn't have a pointee")
  | .pointer (some pointee) =>
    if !env.vtables.isStr pointee then .error (.invariantViolation
      "only T=str is supported when building SmartPointer<T> and T is unsized")
    else if !env.vtables.isString popped.shape then .error (.invariantViolation
      "the popped frame should be String when building a SmartPointer<T>")
    else do
      let (popped, mem) ← popped.requireFullInitialization env mem
      match (env.vtables.pointer parent.shape).known with
      | none => .error (.operationFailed parent.shape
          "SmartPointerStr for unknown smart pointer kind")
      | some known =>
        let (parent, mem) := parent.deinit env mem
        if known = .box ∨ known = .arc ∨ known = .rc then
          .ok ({ parent with isInit := true }, popped.deallocMoved env
            (env.vtables.writeString known parent.data popped.data mem))
        else .error (.operationFailed parent.shape "Don't know how to build this pointer type")
  | _ => .error (.operationFailed parent.shape
      "end() called but parent has Uninit/Init tracker and isn't a SmartPointer")

def endSliceItem (popped parent : Frame ι P N) (vtable : ι) (currentChild : Option ℕ)
    (mem : Mem) : Frame ι P N × Mem :=
  let pushFn := (env.vtables.pointer vtable).sliceBuilderVTable.pushFn
  ({ parent with tracker := .smartPointerSlice vtable false currentChild },
    popped.deallocMoved env (pushFn parent.data popped.data mem))

/-- An element or an entry of a dynamic value; `move` puts it into the value. -/
def endDynamicPart (popped parent : Frame ι P N) (state : DynamicValueState P)
    (uninitialized : String) (move : P → Mem → Mem) (mem : Mem) :
    Except (ReflectErrorKind ι) (Frame ι P N × Mem) :=
  if popped.isInit then
    match (env.shapes parent.shape).def with
    | .dynamicValue => .ok ({ parent with tracker := .dynamicValue state },
        popped.deallocMoved env (move popped.data mem))
    | _ => .ok (parent, mem)
  else .error (.operationFailed parent.shape uninitialized)

/-- Hands the popped value to the container below, by its tracker. -/
def endInContainer (popped parent : Frame ι P N) (rest : Stack ι P N) (isDeferred : Bool)
    (mem : Mem) : Except (Stop ι) (Frame ι P N × Mem) :=
  let fail := err env.shapes (parent :: rest)
  match parent.tracker with
  | .smartPointer buildingInner _ =>
    if buildingInner then
      match (env.shapes parent.shape).def with
      | .pointer _ => (popped.endPointee env parent isDeferred mem).mapError fail
      | _ => .error (fail (.operationFailed parent.shape
          "SmartPointer frame without SmartPointer definition"))
    else .error (fail (.operationFailed parent.shape
      "SmartPointer end() called with building_inner = false"))
  | .list (some _) rope =>
    if parent.isInit then (popped.endListItem env parent rope mem).mapError fail
    else .ok (parent, mem)
  | .map insertState pendingEntries currentEntryIndex buildingKey =>
    if parent.isInit then
      popped.endMapPart env parent insertState pendingEntries currentEntryIndex buildingKey fail mem
    else .ok (parent, mem)
  | .set true =>
    if parent.isInit then .ok (popped.endSetItem env parent mem) else .ok (parent, mem)
  | .option buildingInner _ =>
    (popped.endOptionSome env parent buildingInner mem).mapError fail
  | .result isOk buildingInner =>
    (popped.endResultPart env parent isOk buildingInner mem).mapError fail
  | .scalar => (popped.endStringFor env parent mem).mapError fail
  | .smartPointerSlice vtable true currentChild =>
    .ok (popped.endSliceItem env parent vtable currentChild mem)
  | .dynamicValue (.array true pendingElements) =>
    (popped.endDynamicPart env parent (.array false pendingElements)
      "end() called but array element was never initialized"
      ((env.vtables.dynamicValue parent.shape).pushArrayElement parent.data) mem).mapError fail
  | .dynamicValue (.object (.buildingValue key) pendingEntries) =>
    (popped.endDynamicPart env parent (.object .idle pendingEntries)
      "end() called but object entry value was never initialized"
      ((env.vtables.dynamicValue parent.shape).insertObjectEntry parent.data key) mem).mapError fail
  | _ => .ok (parent, mem)

/-- Hands the popped value to the frame below. -/
def endInParent (popped parent : Frame ι P N) (rest : Stack ι P N) (isDeferred : Bool)
    (mem : Mem) : Except (Stop ι) (Frame ι P N × Mem) :=
  if popped.needsConversion env parent then popped.convertValue env parent rest mem
  else
    match popped.ownership with
    | .field fieldIdx => popped.endField env parent rest fieldIdx mem
    | .borrowedInPlace => do
      let (popped, mem) ←
        (popped.requireFullInitialization env mem).mapError (err env.shapes (parent :: rest))
      popped.endInContainer env parent rest isDeferred mem
    | _ => popped.endInContainer env parent rest isDeferred mem

/-- A frame that is not stored: a proxy frame is converted, any other handed on. -/
def endUnstored (popped parent : Frame ι P N) (rest : Stack ι P N) (isDeferred : Bool)
    (mem : Mem) : Except (Stop ι) (Frame ι P N × Mem) :=
  match if popped.usingCustomDeserialization then popped.deserializeWith env (parent :: rest)
      else none with
  | some convertIn => popped.convertProxy env parent rest convertIn mem
  | none => popped.endInParent env parent rest isDeferred mem

/-- A struct that lost its tracker gets a new one. -/
def markFieldInitializedByIndex (frame : Frame ι P N) (idx : ℕ) : Frame ι P N :=
  match frame.tracker with
  | .struct iset currentChild => { frame with tracker := .struct (iset.set idx) currentChild }
  | .enum variant variantIdx data currentChild =>
    { frame with tracker := .enum variant variantIdx (data.set idx) currentChild }
  | .array iset currentChild => { frame with tracker := .array (iset.set idx) currentChild }
  | .scalar =>
    match (env.shapes frame.shape).ty with
    | .user (.struct st) =>
      { frame with tracker := .struct ((ISet.new st.fields.length).set idx) none }
    | _ => frame
  | _ => frame

end Frame

/-- A map goes on to the value of the entry, or to the next entry. -/
def MapInsertState.next : MapInsertState P → MapInsertState P
  | .pushingKey keyPtr => .pushingValue keyPtr none
  | .pushingValue _ _ => .idle
  | .idle => .idle

def StoredFrames.lookup (storedFrames : StoredFrames ι P N) (path : List PathStep) :
    Option (Frame ι P N) :=
  (storedFrames.find? fun stored => stored.1 = path).map (·.2)

def StoredFrames.remove (storedFrames : StoredFrames ι P N) (path : List PathStep) :
    StoredFrames ι P N :=
  storedFrames.filter fun stored => stored.1 ≠ path

/-- Stores a frame under a path, in place of the one that is stored there. -/
def StoredFrames.insert (storedFrames : StoredFrames ι P N) (path : List PathStep)
    (frame : Frame ι P N) : StoredFrames ι P N :=
  (path, frame) :: storedFrames.filter fun stored => stored.1 ≠ path

namespace Frame

/-- Takes the value of a frame that is not kept, where the frame below is a set or a dynamic value:
the elements of these have no path. -/
def takeAtOnce (popped parent : Frame ι P N) (mem : Mem) :
    Option (Except (ReflectErrorKind ι) (Frame ι P N × Mem)) :=
  let pending := fun state => do
    let (_, mem) ← popped.requireFullInitialization env mem
    return ({ parent with tracker := .dynamicValue state }, mem)
  match parent.tracker with
  | .set true =>
    match parent.isInit, (env.shapes parent.shape).def with
    | true, .set _ => some (.ok (popped.endSetItem env parent mem))
    | _, _ => none
  | .dynamicValue (.object (.buildingValue key) pendingEntries) =>
    some (pending (.object .idle (pendingEntries ++ [(key, popped.data)])))
  | .dynamicValue (.array true pendingElements) =>
    some (pending (.array false (pendingElements ++ [popped.data])))
  | _ => none

/-- The frame below one that is being stored, ready for its next part. -/
def afterStoring (parent : Frame ι P N) : Frame ι P N :=
  match parent.tracker with
  | .smartPointerSlice vtable _ currentChild =>
    { parent with tracker := .smartPointerSlice vtable false currentChild }
  | tracker => { parent with tracker := tracker.clearCurrentChild }

/-- The frame below, with the popped field marked and a map's state moved on. -/
def beforeStoring (popped parent : Frame ι P N) : Frame ι P N :=
  let marked := match popped.ownership with
    | .field fieldIdx => parent.markFieldInitializedByIndex env fieldIdx
    | _ => parent
  match popped.ownership, marked.tracker with
  | .borrowedInPlace, _ => marked
  | _, .map insertState pendingEntries currentEntryIndex buildingKey =>
    { marked with tracker := .map insertState.next pendingEntries currentEntryIndex buildingKey }
  | _, _ => marked

/-- Stores the popped frame under its path. A frame in borrowed memory is only completed. -/
def store (popped parent : Frame ι P N) (path : List PathStep)
    (storedFrames : StoredFrames ι P N) (mem : Mem) :
    Except (Stop ι) (Frame ι P N × StoredFrames ι P N × Mem) :=
  let fail := fun kind => Stop.error ⟨kind, path⟩
  let parent := popped.beforeStoring env parent
  if popped.ownership = .borrowedInPlace then
    match popped.requireFullInitialization env mem with
    | .error kind => .error (fail kind)
    | .ok (_, mem) => .ok (parent, storedFrames, mem)
  else
    match popped.takeAtOnce env parent mem with
    | some (.error kind) => .error (fail kind)
    | some (.ok (parent, mem)) => .ok (parent, storedFrames, mem)
    | none => .ok (parent.afterStoring, StoredFrames.insert storedFrames path popped, mem)

end Frame

namespace Partial

/-- A frame that is a finished field of a struct, popped by nothing but marking the field. -/
def endFast : FrameMode ι P N → Option (FrameMode ι P N)
  | .strict (frame :: parent :: rest) =>
    match frame.tracker, frame.isInit, frame.ownership, frame.usingCustomDeserialization,
      parent.tracker with
    | .scalar, true, .field fieldIdx, false, .struct iset _ =>
      some (.strict ({ parent with tracker := .struct (iset.set fieldIdx) none } :: rest))
    | _, _, _, _, _ => none
  | _ => none

/-- Pops the frame on top, with a frame below it. -/
def popFrame (frame parent : Frame ι P N) (rest : Stack ι P N) (mem : Mem) :
    FrameMode ι P N → Except (Stop ι) (Partial ι P N Mem)
  | .strict _ => do
    let (popped, mem) ← (frame.requireInitialized env mem).mapError
      (err env.shapes (frame :: parent :: rest))
    let (parent, mem) ← popped.endUnstored env parent rest false mem
    return ⟨.strict (parent :: rest), mem⟩
  | .deferred _ startDepth storedFrames =>
    match Stack.storagePath (frame :: parent :: rest) with
    | [] => do
      let (parent, mem) ← frame.endUnstored env parent rest true mem
      return ⟨.deferred (parent :: rest) startDepth storedFrames, mem⟩
    | path => do
      let (parent, storedFrames, mem) ← frame.store env parent path storedFrames mem
      return ⟨.deferred (parent :: rest) startDepth storedFrames, mem⟩

/-- Converts a finished slice; in deferred mode that is left for later. -/
def endSlice (frame : Frame ι P N) (below : Stack ι P N) (vtable : ι) (currentChild : Option ℕ)
    (mem : Mem) (mode : FrameMode ι P N) : Except (Stop ι) (Partial ι P N Mem) :=
  if mode.isDeferred then
    .ok ⟨mode.withStack
      ({ frame with tracker := .smartPointerSlice vtable true currentChild } :: below), mem⟩
  else do
    let (frame, mem) ← frame.convertSlice env below vtable mem
    return ⟨mode.withStack (frame :: below), mem⟩

/-- The general path of `end`. -/
def endSlow (self : Partial ι P N Mem) : Except (Stop ι) (Partial ι P N Mem) :=
  match self.mode.stack with
  | [] => .error (.panic "Partial must have at least one frame")
  | frame :: below =>
    let fail := fun invariant =>
      .error (err env.shapes (frame :: below) (.invariantViolation invariant))
    match frame.tracker with
    | .smartPointerSlice vtable false currentChild =>
      endSlice env frame below vtable currentChild self.mem self.mode
    | _ =>
      match below with
      | [] => fail "Partial::end() called with only one frame on the stack"
      | parent :: rest =>
        if self.mode.startDepth.any fun startDepth => rest.length + 2 ≤ startDepth then
          fail "Partial::end() called but would pop below deferred start depth"
        else popFrame env frame parent rest self.mem self.mode

/-- `end`, which tries the fast path first. -/
def endFrame (self : Partial ι P N Mem) : Except (Stop ι) (Partial ι P N Mem) :=
  match endFast self.mode with
  | some mode => .ok ⟨mode, self.mem⟩
  | none => self.endSlow env

end Partial

end Facet.Frames
