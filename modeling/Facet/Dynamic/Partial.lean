import Facet.Dynamic.Value

/-!
# Building dynamic values

The part of `Partial` that builds dynamic values, at the root or in the fields of a struct. A
frame carries what the memory its data pointer addresses holds; while a frame stands above
another one, the lower frame's memory is not touched. Elements and entries ended in deferred
mode below a struct wait in the pending vectors of their parent until it is finalised.

A run stops with an error of the source or where a vtable function would be called although
its documented precondition does not hold.
-/

namespace Facet.Dynamic

/-- The preconditions of the vtable functions. -/
inductive Violation
  /-- A setter, `begin_array` or `begin_object` on memory that holds a live value. -/
  | setOnLiveValue
  | pushOnNonArray
  | insertOnNonObject
  | getMutOnNonObject
  | readOfUninit
  deriving DecidableEq, Repr

inductive ReflectErrorKind
  | operationFailed (operation : String)
  | invariantViolation (invariant : String)
  | uninitializedValue
  | uninitializedField (fieldIdx : ℕ)
  /-- An operation on dynamic values while the struct's own frame is on top. -/
  | notADynamicValue
  deriving DecidableEq, Repr

inductive Stop
  | error (kind : ReflectErrorKind)
  | violated (violation : Violation)
  deriving DecidableEq, Repr

/-- Where a frame that borrows its memory points: to a pending entry of its parent, or to an
entry its parent already holds. -/
inductive Slot
  | pending (index : ℕ)
  | entry (key : String)
  deriving DecidableEq, Repr

inductive FrameOwnership
  | owned
  | field (fieldIdx : ℕ)
  | borrowedInPlace (slot : Slot)
  deriving DecidableEq, Repr

inductive DynamicObjectInsertState
  | idle
  | buildingValue (key : String)
  deriving DecidableEq, Repr

inductive DynamicValueState (V : Type)
  | uninit
  | scalar
  | array (buildingElement : Bool) (pendingElements : List V)
  | object (insertState : DynamicObjectInsertState) (pendingEntries : List (String × V))

/-- The trackers a frame of a dynamic value can have. -/
inductive Tracker (V : Type)
  | scalar
  | dynamicValue (state : DynamicValueState V)

structure Frame (V : Type) where
  data : Option V
  isInit : Bool
  tracker : Tracker V
  ownership : FrameOwnership

/-- `Frame::new` over fresh memory. -/
def Frame.new {V : Type} (ownership : FrameOwnership) : Frame V :=
  ⟨none, false, .scalar, ownership⟩

namespace DynamicType

variable {S V F : Type} (D : DynamicType S V F)

/-- A setter writes its value; its destination must hold none. -/
def callSetter (dst : Option V) (v : V) : Except Stop V :=
  match dst with
  | none => .ok v
  | some _ => .error (.violated .setOnLiveValue)

def callPushArrayElement (array : Option V) (element : V) : Except Stop V :=
  match array with
  | some a =>
    if (D.view a).isArray then .ok (D.vtable.pushArrayElement a element)
    else .error (.violated .pushOnNonArray)
  | none => .error (.violated .readOfUninit)

def callInsertObjectEntry (object : Option V) (key : String) (x : V) : Except Stop V :=
  match object with
  | some o =>
    if (D.view o).isObject then .ok (D.vtable.insertObjectEntry o key x)
    else .error (.violated .insertOnNonObject)
  | none => .error (.violated .readOfUninit)

def callGetKind (v : Option V) : Except Stop DynValueKind :=
  match v with
  | some v => .ok (D.vtable.getKind v)
  | none => .error (.violated .readOfUninit)

/-- `object_get_mut`, where the vtable has it. -/
def callObjectGetMut (object : Option V) (key : String) : Except Stop (Option (V × (V → V))) :=
  match D.vtable.objectGetMut with
  | none => .ok none
  | some get =>
    match object with
    | some o =>
      if (D.view o).isObject then .ok (get o key) else .error (.violated .getMutOnNonObject)
    | none => .error (.violated .readOfUninit)

end DynamicType

namespace Frame

variable {S V F : Type} (D : DynamicType S V F)

/-- The initialised value of a frame. -/
def value (f : Frame V) : Except Stop V :=
  match f.data with
  | some v => .ok v
  | none => .error (.violated .readOfUninit)

/-- Drops what the frame owns, pending items included. Borrowed memory is left to its owner. -/
def deinit (f : Frame V) : Frame V :=
  match f.ownership with
  | .borrowedInPlace _ => { f with isInit := false, tracker := .scalar }
  | _ => { f with data := if f.isInit then none else f.data, isInit := false, tracker := .scalar }

/-- A borrowed value is dropped and left as null, which its owner can drop later. -/
def deinitForReplace (f : Frame V) : Frame V :=
  match f.ownership, f.isInit with
  | .borrowedInPlace _, true =>
    { f with data := some D.vtable.setNull, tracker := .dynamicValue .scalar }
  | _, _ => f.deinit

/-- Moves the pending items into the value and reports a value that is not complete. -/
def requireFullInitialization (f : Frame V) : Except Stop (Frame V) :=
  match f.tracker with
  | .scalar => if f.isInit then .ok f else .error (.error .uninitializedValue)
  | .dynamicValue .uninit => .error (.error .uninitializedValue)
  | .dynamicValue .scalar => .ok f
  | .dynamicValue (.object .idle pending) => do
    let data ← pending.foldlM
      (fun o e => some <$> D.callInsertObjectEntry o e.1 e.2) f.data
    .ok { f with data := data, tracker := .dynamicValue (.object .idle []) }
  | .dynamicValue (.object (.buildingValue _) _) => .error (.error .uninitializedValue)
  | .dynamicValue (.array false pending) => do
    let data ← pending.foldlM (fun a x => some <$> D.callPushArrayElement a x) f.data
    .ok { f with data := data, tracker := .dynamicValue (.array false []) }
  | .dynamicValue (.array true _) => .error (.error .uninitializedValue)

/-- The end of `init_list_with_capacity`: an empty array in memory without a value. -/
def beginArray (f : Frame V) : Except Stop (Frame V) := do
  let v ← DynamicType.callSetter f.data D.vtable.beginArray
  .ok { f with data := some v, tracker := .dynamicValue (.array false []), isInit := true }

/-- The end of `init_map`. -/
def beginObject (f : Frame V) : Except Stop (Frame V) := do
  let v ← DynamicType.callSetter f.data D.vtable.beginObject
  .ok { f with data := some v, tracker := .dynamicValue (.object .idle []), isInit := true }

def initList (f : Frame V) : Except Stop (Frame V) :=
  match f.tracker with
  | .scalar =>
    -- An initialised value is taken for an array: its kind is not asked for.
    if f.isInit then .ok { f with tracker := .dynamicValue (.array false []) }
    else f.beginArray D
  | .dynamicValue (.array _ _) => .ok f
  | .dynamicValue _ => (f.deinitForReplace D).beginArray D

def initMap (f : Frame V) : Except Stop (Frame V) :=
  match f.tracker with
  | .scalar =>
    if f.isInit then do
      let kind ← D.callGetKind f.data
      if kind = .object then .ok { f with tracker := .dynamicValue (.object .idle []) }
      else (f.deinitForReplace D).beginObject D
    else f.beginObject D
  | .dynamicValue (.object _ _) => .ok f
  | .dynamicValue _ => (f.deinitForReplace D).beginObject D

/-- `begin_list_item`: the frame of the new element and the frame of the array. -/
def beginListItem (f : Frame V) : Except Stop (Frame V × Frame V) :=
  match f.tracker with
  | .dynamicValue (.array false pending) =>
    .ok (.new .owned, { f with tracker := .dynamicValue (.array true pending) })
  | .dynamicValue (.array true _) =>
    .error (.error (.operationFailed "already building an element, call end() first"))
  | _ => .error (.error (.operationFailed "push can only be called on List or DynamicValue types"))

/-- A frame over a value that is already there. Its kind is left to the operations that follow. -/
def reentered (v : V) (slot : Slot) : Frame V :=
  ⟨some v, true, .scalar, .borrowedInPlace slot⟩

/-- `begin_object_entry`: the frame of the value and the frame of the object. The key is looked
for among the pending entries and then in the object. -/
def beginObjectEntry (f : Frame V) (key : String) : Except Stop (Frame V × Frame V) :=
  match f.tracker, f.isInit with
  | .dynamicValue (.object .idle pending), true =>
    match pending.zipIdx.find? fun e => e.1.1 = key with
    | some ((_, v), index) => .ok (reentered v (.pending index), f)
    | none => do
      match ← D.callObjectGetMut f.data key with
      | some (v, _) => .ok (reentered v (.entry key), f)
      | none =>
        .ok (.new .owned, { f with tracker := .dynamicValue (.object (.buildingValue key) pending) })
  | .dynamicValue (.object (.buildingValue _) _), _ =>
    .error (.error (.operationFailed "already building a value, call end() first"))
  | _, _ => .error (.error (.operationFailed "must call init_map() before begin_object_entry()"))

/-- A setter leaves a scalar where memory held no value. -/
def setScalar (f : Frame V) (v : V) : Except Stop (Frame V) := do
  let v ← DynamicType.callSetter f.data v
  .ok { f with data := some v, tracker := .dynamicValue .scalar, isInit := true }

def setFloat (f : Frame V) (x : F) (refused : String) : Except Stop (Frame V) :=
  match D.vtable.setF64 x, f.data with
  | some v, _ => f.setScalar v
  -- The setter is called before it refuses.
  | none, some _ => .error (.violated .setOnLiveValue)
  | none, none => .error (.error (.operationFailed refused))

/-- `set` into a dynamic value, `set_into_dynamic_value`. -/
def set (f : Frame V) (src : Source V F) : Except Stop (Frame V) :=
  let f := f.deinitForReplace D
  match src with
  | .same v => .ok { f with data := some v, isInit := true }
  | .boolean b => f.setScalar (D.vtable.setBool b)
  | .float sizeBits x =>
    if sizeBits = 64 then
      f.setFloat D x "f64 value (NaN/Infinity) not representable in dynamic value"
    else if sizeBits = 32 then
      f.setFloat D x "f32 value (NaN/Infinity) not representable in dynamic value"
    else .error (.error (.operationFailed "unsupported float size for dynamic value"))
  | .signed sizeBits n =>
    if sizeBits ∈ [8, 16, 32, 64] then f.setScalar (D.vtable.setI64 n)
    else .error (.error (.operationFailed "unsupported signed integer size for dynamic value"))
  | .unsigned sizeBits n =>
    if sizeBits ∈ [8, 16, 32, 64] then f.setScalar (D.vtable.setU64 n)
    else .error (.error (.operationFailed "unsupported unsigned integer size for dynamic value"))
  | .char c => f.setScalar (D.vtable.setStr (String.singleton c))
  | .text s => f.setScalar (D.vtable.setStr s)
  | .bytes bs =>
    match D.vtable.setBytes with
    | some setBytes => f.setScalar (setBytes bs)
    | none => .error (.error (.operationFailed "cannot convert this type to dynamic value"))
  | .string s => f.setScalar (D.vtable.setStr s)
  | .other => .error (.error (.operationFailed "cannot convert this type to dynamic value"))

/-- What a borrowed frame holds is what its parent's memory holds. -/
def writeBack (parent : Frame V) (slot : Slot) (v : V) : Except Stop (Frame V) :=
  match slot with
  | .pending index =>
    match parent.tracker with
    | .dynamicValue (.object state pending) =>
      .ok { parent with
        tracker := .dynamicValue (.object state (pending.modify index fun e => (e.1, v))) }
    | _ => .ok parent
  | .entry key => do
    match ← D.callObjectGetMut parent.data key with
    | some (_, put) => .ok { parent with data := some (put v) }
    | none => .ok parent

/-- A borrowed frame is finalised when it is popped. -/
def takeBack (parent child : Frame V) : Except Stop (Frame V × Frame V) :=
  match child.ownership with
  | .borrowedInPlace slot => do
    let child ← child.requireFullInitialization D
    let v ← child.value
    let parent ← parent.writeBack D slot v
    .ok (parent, child)
  | _ => .ok (parent, child)

/-- A new element or entry goes into the value at once. -/
def absorb (parent child : Frame V) : Except Stop (Frame V) :=
  match parent.tracker with
  | .dynamicValue (.array true pending) =>
    if child.isInit then do
      let element ← child.value
      let array ← D.callPushArrayElement parent.data element
      .ok { parent with data := some array, tracker := .dynamicValue (.array false pending) }
    else
      .error (.error (.operationFailed "end() called but array element was never initialized"))
  | .dynamicValue (.object (.buildingValue key) pending) =>
    if child.isInit then do
      let x ← child.value
      let object ← D.callInsertObjectEntry parent.data key x
      .ok { parent with data := some object, tracker := .dynamicValue (.object .idle pending) }
    else
      .error (.error
        (.operationFailed "end() called but object entry value was never initialized"))
  | _ => .ok parent

/-- The end of `end` where the frame below is a dynamic value. -/
def receive (parent child : Frame V) : Except Stop (Frame V) :=
  match child.ownership with
  | .field _ => .ok parent
  | _ => do
    let (parent, child) ← parent.takeBack D child
    parent.absorb D child

/-- The same in deferred mode below a struct: a new element or entry is finalised, but waits.
`none` where the frame is to be stored instead. -/
def receivePending (parent child : Frame V) : Except Stop (Option (Frame V)) :=
  match child.ownership with
  | .borrowedInPlace _ => do
    let (parent, _) ← parent.takeBack D child
    .ok (some parent)
  | _ =>
    match parent.tracker with
    | .dynamicValue (.object (.buildingValue key) pending) => do
      let child ← child.requireFullInitialization D
      let x ← child.value
      .ok (some { parent with
        tracker := .dynamicValue (.object .idle (pending ++ [(key, x)])) })
    | .dynamicValue (.array true pending) => do
      let child ← child.requireFullInitialization D
      let element ← child.value
      .ok (some { parent with
        tracker := .dynamicValue (.array false (pending ++ [element])) })
    | _ => .ok none

end Frame

/-- A field of the struct: what its memory holds and whether its bit in the `ISet` is set. -/
structure FieldSlot (V : Type) where
  content : Option V
  isSet : Bool

/-- The frame of a struct whose fields are required and all of the dynamic type. -/
structure StructFrame (V : Type) where
  fields : List (FieldSlot V)
  currentChild : Option ℕ

/-- In deferred mode, below which depth frames stay and which field frames are stored. The path
of a stored frame is the step to its field. -/
inductive FrameMode (V : Type)
  | strict
  | deferred (startDepth : ℕ) (storedFrames : ℕ → Option (Frame V))

/-- The frame stored for a field. -/
def FrameMode.stored {V : Type} : FrameMode V → ℕ → Option (Frame V)
  | .strict, _ => none
  | .deferred _ storedFrames, idx => storedFrames idx

/-- The stack: the struct's frame, if the root is a struct, below the frames of dynamic values,
the innermost of which comes first. -/
structure Partial (V : Type) where
  root : Option (StructFrame V)
  frames : List (Frame V)
  mode : FrameMode V

/-- What `build` delivers. The memory of a field holds nothing where its value was dropped. -/
inductive Built (V : Type)
  | value (v : V)
  | fields (contents : List (Option V))

namespace Partial

variable {S V F : Type} (D : DynamicType S V F)

/-- `Partial::alloc` for the dynamic type, or for a struct of so many fields. -/
def alloc : Option ℕ → Partial V
  | none => ⟨none, [.new .owned], .strict⟩
  | some n => ⟨some ⟨List.replicate n ⟨none, false⟩, none⟩, [], .strict⟩

/-- The length of the stack. -/
def depth (p : Partial V) : ℕ := p.root.toList.length + p.frames.length

/-- An operation on the frame on top. -/
def onTop (p : Partial V) (op : Frame V → Except Stop (Frame V)) : Except Stop (Partial V) :=
  match p.frames with
  | top :: below => do
    let top ← op top
    .ok { p with frames := top :: below }
  | [] => .error (.error .notADynamicValue)

/-- An operation that pushes a frame over the one on top. -/
def onPush (p : Partial V) (op : Frame V → Except Stop (Frame V × Frame V)) :
    Except Stop (Partial V) :=
  match p.frames with
  | top :: below => do
    let (child, top) ← op top
    .ok { p with frames := child :: top :: below }
  | [] => .error (.error .notADynamicValue)

/-- `begin_nth_field`: a stored frame is restored; otherwise the struct gives its field up. -/
def beginNthField (p : Partial V) (idx : ℕ) : Except Stop (Partial V) :=
  match p.frames, p.root with
  | [], some r =>
    match p.mode with
    | .strict => enter r
    | .deferred startDepth storedFrames =>
      match storedFrames idx with
      | some frame =>
        .ok ⟨some { r with currentChild := some idx }, [frame],
          .deferred startDepth (Function.update storedFrames idx none)⟩
      | none => enter r
  | _, _ => .error (.error (.operationFailed "cannot select a field from this type"))
where
  enter (r : StructFrame V) : Except Stop (Partial V) :=
    match r.fields[idx]? with
    | some slot =>
      .ok { p with
        root := some ⟨r.fields.set idx { slot with isSet := false }, some idx⟩
        frames := [⟨slot.content, slot.isSet, .scalar, .field idx⟩] }
    | none => .error (.error (.operationFailed "field index out of bounds"))

/-- The struct takes a field back from the frame that was popped. -/
def closeField (r : StructFrame V) (child : Frame V) : StructFrame V :=
  match child.ownership with
  | .field idx => ⟨r.fields.set idx ⟨child.data, true⟩, none⟩
  | _ => r

/-- Where the frame is popped and not stored. -/
def popFrame (p : Partial V) (child : Frame V) (below : List (Frame V)) :
    Except Stop (Partial V) :=
  match below with
  | parent :: rest => do
    let parent ← parent.receive D child
    .ok { p with frames := parent :: rest }
  | [] => .ok { p with root := p.root.map fun r => closeField r child, frames := [] }

/-- Where the frame is popped in deferred mode below a struct, in its field `idx`: the path under
which a frame is stored is the step to that field. -/
def storeFrame (r : StructFrame V) (idx startDepth : ℕ) (storedFrames : ℕ → Option (Frame V))
    (child : Frame V) (below : List (Frame V)) : Except Stop (Partial V) :=
  let stored := FrameMode.deferred startDepth (Function.update storedFrames idx (some child))
  match below with
  | parent :: rest => do
    match ← parent.receivePending D child with
    | some parent => .ok ⟨some r, parent :: rest, .deferred startDepth storedFrames⟩
    | none => .ok ⟨some r, parent :: rest, stored⟩
  | [] => .ok ⟨some (closeField r child), [], stored⟩

/-- `end`. The fast path for an initialised scalar field is what the general path does there. -/
def endFrame (p : Partial V) : Except Stop (Partial V) :=
  match p.frames with
  | child :: below =>
    if p.depth ≤ 1 then
      .error (.error (.invariantViolation
        "Partial::end() called with only one frame on the stack"))
    else
      match p.mode with
      | .strict => do
        let child ← child.requireFullInitialization D
        p.popFrame D child below
      | .deferred startDepth storedFrames =>
        if p.depth ≤ startDepth then
          .error (.error (.invariantViolation
            "Partial::end() called but would pop below deferred start depth"))
        else
          match p.root with
          | some ⟨fields, some idx⟩ =>
            storeFrame D ⟨fields, some idx⟩ idx startDepth storedFrames child below
          -- No frame gives the path a step: the frame is not stored.
          | _ => p.popFrame D child below
  | [] =>
    .error (.error (.invariantViolation
      "Partial::end() called with only one frame on the stack"))

def beginDeferred (p : Partial V) : Except Stop (Partial V) :=
  match p.mode with
  | .strict => .ok { p with mode := .deferred p.depth fun _ => none }
  | .deferred _ _ =>
    .error (.error (.invariantViolation "begin_deferred() called but already in deferred mode"))

/-- The walk of `finish_deferred`: every stored frame is finalised, in the order of the paths. -/
def finishStored (storedFrames : ℕ → Option (Frame V)) (r : StructFrame V) :
    Except Stop (StructFrame V) := do
  let fields ← r.fields.zipIdx.mapM fun (slot, idx) =>
    match storedFrames idx with
    | some frame => do
      let frame ← frame.requireFullInitialization D
      .ok (⟨frame.data, true⟩ : FieldSlot V)
    | none => .ok slot
  .ok { r with fields := fields }

def finishRoot (storedFrames : ℕ → Option (Frame V)) :
    Option (StructFrame V) → Except Stop (Option (StructFrame V))
  | some r => some <$> finishStored D storedFrames r
  | none => .ok none

/-- The struct's own frame is complete when all its fields are. -/
def requireFields (r : StructFrame V) : Except Stop Unit :=
  match r.fields.findIdx? fun slot => !slot.isSet with
  | some idx => .error (.error (.uninitializedField idx))
  | none => .ok ()

/-- `finish_deferred`: the stored frames, then the frame on top of the stack. -/
def finishDeferred (p : Partial V) : Except Stop (Partial V) :=
  match p.mode with
  | .strict =>
    .error (.error (.invariantViolation
      "finish_deferred() called but deferred mode is not enabled"))
  | .deferred _ storedFrames => do
    let root ← finishRoot D storedFrames p.root
    match p.frames, root with
    | top :: below, _ => do
      let top ← top.requireFullInitialization D
      .ok ⟨root, top :: below, .strict⟩
    | [], some r => do
      requireFields r
      .ok ⟨root, [], .strict⟩
    | [], none => .ok ⟨root, [], .strict⟩

/-- `Drop for Partial`, which runs when `build` returns: each stored frame drops the value in its
field, whether or not that value has been handed out. -/
def dropStored (mode : FrameMode V) (vs : List V) : List (Option V) :=
  vs.zipIdx.map fun (v, idx) =>
    match mode.stored idx with
    | some frame => frame.deinit.data
    | none => some v

/-- `build` delivers what the memory of the root holds. It does not leave deferred mode. The
user's own invariants, which can still refuse the value, are left out. -/
def build (p : Partial V) : Except Stop (Built V) :=
  match p.frames, p.root with
  | [frame], none => do
    let frame ← frame.requireFullInitialization D
    let v ← frame.value
    .ok (.value v)
  | [], some r => do
    requireFields r
    let vs ← r.fields.mapM fun slot =>
      match slot.content with
      | some v => .ok v
      | none => .error (.violated .readOfUninit)
    .ok (.fields (dropStored p.mode vs))
  | _, _ =>
    .error (.error (.invariantViolation
      "Partial::build() expects a single frame — call end() until that's the case"))

end Partial

/-- The operations of a run before `build`. -/
inductive Op (V F : Type)
  | initList
  | beginListItem
  | initMap
  | beginObjectEntry (key : String)
  | set (src : Source V F)
  | endFrame
  | beginNthField (idx : ℕ)
  | beginDeferred
  | finishDeferred

namespace DynamicType

variable {S V F : Type} (D : DynamicType S V F)

def step (p : Partial V) : Op V F → Except Stop (Partial V)
  | .initList => p.onTop fun f => f.initList D
  | .beginListItem => p.onPush fun f => f.beginListItem
  | .initMap => p.onTop fun f => f.initMap D
  | .beginObjectEntry key => p.onPush fun f => f.beginObjectEntry D key
  | .set src => p.onTop fun f => f.set D src
  | .endFrame => p.endFrame D
  | .beginNthField idx => p.beginNthField idx
  | .beginDeferred => p.beginDeferred
  | .finishDeferred => p.finishDeferred D

/-- A run of operations: each is applied to what the one before it returned. -/
def run (p : Partial V) (ops : List (Op V F)) : Except Stop (Partial V) :=
  ops.foldlM D.step p

end DynamicType

end Facet.Dynamic
