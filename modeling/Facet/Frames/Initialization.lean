import Facet.Frames.Vtables

/-!
# Initialised and uninitialised frames

Filling in defaults, checking that a frame is initialised, and giving up what it has initialised.
The check also moves into the value what waits beside it: the elements in a list's rope, the
pending entries of a map, the pending inner value of an `Option` or a smart pointer.
-/

namespace Facet.Frames

open TypePlan

variable {ι P N Mem : Type} (env : Env ι P N Mem)

namespace Env

/-- Frees a buffer of the shape's size. -/
def deallocSized (shape : ι) (ptr : P) (mem : Mem) : Mem :=
  if (env.shapes shape).sized && 0 < (env.shapes shape).size then
    env.vtables.dealloc ptr (env.shapes shape).size mem
  else mem

def deallocate (ptr : P) (allocatedSize : ℕ) (mem : Mem) : Mem :=
  if allocatedSize = 0 then mem else env.vtables.dealloc ptr allocatedSize mem

end Env

namespace PendingSmartPointerInner

def deallocAfterMove (pending : PendingSmartPointerInner ι P) (mem : Mem) : Mem :=
  if pending.ownership.needsDealloc then
    env.deallocate pending.data pending.allocatedSize mem
  else mem

def dropAndDealloc (pending : PendingSmartPointerInner ι P) (mem : Mem) : Mem :=
  pending.deallocAfterMove env <|
    if pending.ownership = .borrowedInPlace then mem
    else env.vtables.callDropInPlace pending.shape pending.data mem

end PendingSmartPointerInner

/-- Moves the initialised elements of a rope into the list. -/
def drainRopeIntoVec (rope : ListRope P) (listShape t : ι) (listData : P) (mem : Mem) :
    Except (ReflectErrorKind ι) Mem :=
  if rope.initializedCount = 0 then .ok (env.vtables.freeChunks rope mem)
  else
    match (env.vtables.list listShape).push with
    | none => .error (.operationFailed t "List missing push function for rope drain")
    | some pushFn =>
      .ok <| env.vtables.freeChunks rope <|
        (rope.slots.take rope.initializedCount).foldl (fun mem slot => pushFn listData slot mem) mem

/-- Inserts the pending entries in turn; one without a value is an error. -/
def drainPendingIntoMap (mapShape k v : ι) (mapData : P) :
    List (P × Option P) → Mem → Except (ReflectErrorKind ι) Mem
  | [], mem => .ok mem
  | (_, none) :: _, _ => .error (.invariantViolation
      "map pending_entries contains half-entry (key without value) at finalize")
  | (keyPtr, some valuePtr) :: entries, mem =>
    drainPendingIntoMap mapShape k v mapData entries <|
      env.deallocSized v valuePtr <| env.deallocSized k keyPtr <|
        env.vtables.mapInsert mapShape mapData keyPtr valuePtr mem

def completePendingOption (optionShape t : ι) (optionData innerPtr : P) (mem : Mem) : Mem :=
  env.deallocSized t innerPtr <|
    (env.vtables.option optionShape).initSome optionData innerPtr mem

/-- Borrows the pointee and makes the pointer independent, where the pointer type can do both and
the inner value has the pointee's type. -/
def tryBorrowAndPromoteSmartPointer (smartPtrShape : ι) (pointee : Option ι) [DecidableEq ι]
    (smartPtrData : P) (innerShape : ι) (innerData : P) (mem : Mem) : Option Mem := do
  let borrowFromPointeeFn ← (env.vtables.pointer smartPtrShape).borrowFromPointeeFn
  let promoteToOwnedFn ← (env.vtables.pointer smartPtrShape).promoteToOwnedFn
  let pointeeShape ← pointee
  if pointeeShape = innerShape ∧ (env.shapes pointeeShape).sized then
    return promoteToOwnedFn smartPtrData (borrowFromPointeeFn smartPtrData innerData mem)
  else none

/-- Whether a string is to be moved into a pointer to `str`. -/
def isStrConversion (pointee : Option ι) (innerShape : ι) : Bool :=
  pointee.any env.vtables.isStr && env.vtables.isString innerShape

def holdsStr : KnownPointer → Bool
  | .box | .arc | .rc | .cow => true
  | _ => false

/-- Builds the pointer out of the pending inner value, which is gone afterwards in any case. -/
def completePendingSmartPointer [DecidableEq ι] (smartPtrShape : ι) (pointee : Option ι)
    (smartPtrData : P) (pending : PendingSmartPointerInner ι P) (mem : Mem) :
    Except (ReflectErrorKind ι) Mem :=
  match (env.vtables.pointer smartPtrShape).newIntoFn, pointee with
  | some newIntoFn, some pointeeShape =>
    if pointeeShape = pending.shape then
      .ok (pending.deallocAfterMove env (newIntoFn smartPtrData pending.data mem))
    else otherwise
  | _, _ => otherwise
where
  otherwise : Except (ReflectErrorKind ι) Mem :=
    match tryBorrowAndPromoteSmartPointer env smartPtrShape pointee smartPtrData pending.shape
        pending.data mem with
    | some mem => .ok (pending.dropAndDealloc env mem)
    | none =>
      if isStrConversion env pointee pending.shape then
        match (env.vtables.pointer smartPtrShape).known with
        | none => .error (.operationFailed smartPtrShape
            "SmartPointer<str> missing known pointer type")
        | some known =>
          if holdsStr known then
            .ok <| pending.deallocAfterMove env <|
              env.vtables.writeString known smartPtrData pending.data mem
          else .error (.operationFailed smartPtrShape "Unsupported SmartPointer<str> type")
      else .error (.operationFailed smartPtrShape
        "SmartPointer missing an owned construction capability and not a supported unsized type")

namespace Frame

/-- Releases a pending inner value, which the frame owns whatever memory it points at. -/
def dropPendingSmartPointerStaging (frame : Frame ι P N) (mem : Mem) : Frame ι P N × Mem :=
  match frame.tracker with
  | .smartPointer buildingInner (some pending) =>
    ({ frame with tracker := .smartPointer buildingInner none }, pending.dropAndDealloc env mem)
  | _ => (frame, mem)

def dropFields (data : P) (fields : List (Field ι)) (iset : ISet) (mem : Mem) : Mem :=
  fields.zipIdx.foldl (fun mem (field, idx) =>
    if iset.get idx then
      env.vtables.callDropInPlace field.shape (env.vtables.fieldUninit data field.offset) mem
    else mem) mem

/-- Drops what the frame has initialised, by its tracker. -/
def dropTracked (frame : Frame ι P N) (mem : Mem) : Mem :=
  let dropWhole := env.vtables.callDropInPlace frame.shape frame.data
  let dropIfInit := if frame.isInit then dropWhole else id
  match frame.tracker with
  | .scalar | .set _ | .inner _ => dropIfInit mem
  | .array iset _ =>
    match (env.shapes frame.shape).ty with
    | .sequence (.array t n) =>
      if (env.shapes t).sized then
        (List.range n).foldl (fun mem idx =>
          if iset.get idx then
            env.vtables.callDropInPlace t
              (env.vtables.fieldUninit frame.data ((env.shapes t).size * idx)) mem
          else mem) mem
      else mem
    | _ => mem
  | .struct iset _ =>
    match (env.shapes frame.shape).ty with
    | .user (.struct st) =>
      if iset.allSet st.fields.length then dropWhole mem
      else dropFields env frame.data st.fields iset mem
    | _ => mem
  | .enum variant _ data _ => dropFields env frame.data variant.data.fields data mem
  | .smartPointer _ (some pending) => pending.dropAndDealloc env mem
  | .smartPointer _ none => dropIfInit mem
  | .smartPointerSlice vtable _ _ =>
    (env.vtables.pointer vtable).sliceBuilderVTable.freeFn frame.data mem
  | .list _ rope =>
    match rope, (env.shapes frame.shape).def with
    | some rope, .list t =>
      dropIfInit <| env.vtables.freeChunks rope <|
        (rope.slots.take rope.initializedCount).foldl
          (fun mem slot => env.vtables.callDropInPlace t slot mem) mem
    | _, _ => dropIfInit mem
  | .map _ pendingEntries _ _ =>
    match (env.shapes frame.shape).def with
    | .map k v =>
      pendingEntries.foldl (fun mem (keyPtr, valuePtr) =>
        let mem := env.deallocSized k keyPtr (env.vtables.callDropInPlace k keyPtr mem)
        match valuePtr with
        | none => mem
        | some valuePtr =>
          env.deallocSized v valuePtr (env.vtables.callDropInPlace v valuePtr mem)) (dropIfInit mem)
    | _ => dropIfInit mem
  | .option buildingInner pendingInner =>
    match pendingInner, (env.shapes frame.shape).def with
    | some innerPtr, .option t =>
      env.deallocSized t innerPtr (env.vtables.callDropInPlace t innerPtr mem)
    | some _, _ => mem
    | none, _ => if buildingInner then mem else dropWhole mem
  | .result _ buildingInner => if buildingInner then mem else dropWhole mem
  | .dynamicValue state =>
    let dropPending := fun (pending : List P) (mem : Mem) =>
      pending.foldl (fun mem ptr => env.deallocSized frame.shape ptr
        (env.vtables.callDropInPlace frame.shape ptr mem)) mem
    dropIfInit <| match state with
      | .object _ pendingEntries => dropPending (pendingEntries.map (·.2)) mem
      | .array _ pendingElements => dropPending pendingElements mem
      | _ => mem

/-- Afterwards the frame is uninitialised. Borrowed memory is left to its owner. -/
def deinit (frame : Frame ι P N) (mem : Mem) : Frame ι P N × Mem :=
  let mem := if frame.ownership = .borrowedInPlace then
      (frame.dropPendingSmartPointerStaging env mem).2
    else frame.dropTracked env mem
  ({ frame with isInit := false, tracker := .scalar }, mem)

/-- Frees the memory of a frame whose value has been moved out of it. -/
def deallocMoved (frame : Frame ι P N) (mem : Mem) : Mem :=
  if frame.ownership.needsDealloc then env.deallocate frame.data frame.allocatedSize mem else mem

/-- Frees the memory of a frame that owns it, by the layout of its type. -/
def deallocOwned (frame : Frame ι P N) (mem : Mem) : Mem :=
  if frame.ownership = .owned then env.deallocSized frame.shape frame.data mem else mem

/-- Frees the memory of a frame, which has to be uninitialised if the memory is its own. -/
def dealloc (frame : Frame ι P N) (mem : Mem) : Except (Stop ι) Mem :=
  if frame.ownership.needsDealloc && frame.isInit then
    .error (.panic "a frame has to be deinitialized before being deallocated")
  else .ok (frame.deallocMoved env mem)

/-- A field's default, where there is one: its own, the one of its type where the field or its
container asks for defaults, and that of options, collections and the unit type. -/
def tryInitFieldDefault (field : Field ι) (fieldPtr : P) (containerHasDefault : Bool)
    (mem : Mem) : Option Mem :=
  let callDefaultInPlace := env.vtables.callDefaultInPlace field.shape fieldPtr mem
  (match field.default with
    | some .custom => some (env.vtables.defaultFn field.defaultFn fieldPtr mem)
    | some .fromTrait => callDefaultInPlace
    | none => none) <|>
  (if containerHasDefault then callDefaultInPlace else none) <|>
  (match (env.shapes field.shape).def with
    | .option _ => callDefaultInPlace
    | _ => none) <|>
  (if env.vtables.isUnit field.shape then callDefaultInPlace else none) <|>
  (match (env.shapes field.shape).def with
    | .list _ | .map _ _ | .set _ => callDefaultInPlace
    | _ => none)

/-- Fills in the fields that are not set. -/
def fillFields (data : P) (containerHasDefault : Bool) :
    List (Field ι × ℕ) → ISet → Mem → Except (ReflectErrorKind ι) (ISet × Mem)
  | [], iset, mem => .ok (iset, mem)
  | (field, idx) :: fields, iset, mem =>
    if iset.get idx then fillFields data containerHasDefault fields iset mem
    else
      match tryInitFieldDefault env field (env.vtables.fieldUninit data field.offset)
          containerHasDefault mem with
      | some mem => fillFields data containerHasDefault fields (iset.set idx) mem
      | none =>
        if field.hasDefault then .error (.defaultAttrButNoDefaultImpl field.shape)
        else fillFields data containerHasDefault fields iset mem

/-- A frame that was never touched, with its type's default: a struct's or an option's. -/
def fillUntouched (frame : Frame ι P N) (mem : Mem) : Option (Frame ι P N × Mem) :=
  if !frame.isInit && frame.tracker.isScalar then
    match (env.shapes frame.shape).ty, (env.shapes frame.shape).def with
    | .user (.struct _), _ | _, .option _ =>
      (env.vtables.callDefaultInPlace frame.shape frame.data mem).map fun mem =>
        ({ frame with isInit := true }, mem)
    | _, _ => none
  else none

/-- A struct that was never touched gets a tracker of its fields. -/
def trackFields (frame : Frame ι P N) : Frame ι P N :=
  if !frame.isInit && frame.tracker.isScalar then
    match (env.shapes frame.shape).ty with
    | .user (.struct st) => { frame with tracker := .struct (ISet.new st.fields.length) none }
    | _ => frame
  else frame

def fillTracked (frame : Frame ι P N) (mem : Mem) :
    Except (ReflectErrorKind ι) (Frame ι P N × Mem) :=
  let containerHasDefault := (env.shapes frame.shape).hasDefaultAttr
  match frame.tracker with
  | .struct iset currentChild =>
    match (env.shapes frame.shape).ty with
    | .user (.struct st) =>
      if iset.allSet st.fields.length then .ok (frame, mem)
      else
        let noFieldsSet := (List.range st.fields.length).all fun i => !iset.get i
        match if noFieldsSet then env.vtables.callDefaultInPlace frame.shape frame.data mem
            else none with
        | some mem => .ok ({ frame with tracker := .scalar, isInit := true }, mem)
        | none => do
          let (iset, mem) ←
            fillFields env frame.data containerHasDefault st.fields.zipIdx iset mem
          return ({ frame with tracker := .struct iset currentChild }, mem)
    | _ => .ok (frame, mem)
  | .enum variant variantIdx data currentChild =>
    if variant.data.fields.length = 0 ∨ data.allSet variant.data.fields.length then
      .ok (frame, mem)
    else do
      let (data, mem) ←
        fillFields env frame.data containerHasDefault variant.data.fields.zipIdx data mem
      return ({ frame with tracker := .enum variant variantIdx data currentChild }, mem)
  | _ => .ok (frame, mem)

def fillDefaults (frame : Frame ι P N) (mem : Mem) :
    Except (ReflectErrorKind ι) (Frame ι P N × Mem) :=
  match frame.fillUntouched env mem with
  | some filled => .ok filled
  | none => (frame.trackFields env).fillTracked env mem

/-- The first field that is not set, where one is missing. -/
def requireFields (shape : ι) (fields : List (Field ι)) (iset : ISet) :
    Except (ReflectErrorKind ι) Unit :=
  match fields.zipIdx.find? fun (_, idx) => !iset.get idx with
  | none => .ok ()
  | some (field, _) => .error (.uninitializedField shape field.name)

/-- Whether the frame is fully initialized; what waits beside it is moved into it. -/
def requireFullInitialization [DecidableEq ι] (frame : Frame ι P N) (mem : Mem) :
    Except (ReflectErrorKind ι) (Frame ι P N × Mem) :=
  let uninitialized := .error (.uninitializedValue frame.shape)
  let requireInit := if frame.isInit then .ok (frame, mem) else uninitialized
  match frame.tracker with
  | .scalar => requireInit
  | .array iset _ =>
    match (env.shapes frame.shape).ty with
    | .sequence (.array _ n) =>
      if (List.range n).all iset.get then .ok (frame, mem) else uninitialized
    | _ => uninitialized
  | .struct iset _ =>
    match (env.shapes frame.shape).ty with
    | .user (.struct st) => do
      requireFields frame.shape st.fields iset
      return (frame, mem)
    | _ => uninitialized
  | .enum variant _ data _ => do
    requireFields frame.shape variant.data.fields data
    return (frame, mem)
  | .smartPointer buildingInner pendingInner =>
    if buildingInner then uninitialized
    else
      match pendingInner with
      | none => requireInit
      | some pending =>
        match (env.shapes frame.shape).def with
        | .pointer pointee => do
          let mem ←
            completePendingSmartPointer env frame.shape pointee frame.data pending mem
          return ({ frame with tracker := .smartPointer false none, isInit := true }, mem)
        | _ => .error (.operationFailed frame.shape
            "SmartPointer frame without SmartPointer definition")
  | .smartPointerSlice _ buildingItem _ =>
    if buildingItem then uninitialized else .ok (frame, mem)
  | .list currentChild rope =>
    if frame.isInit && currentChild.isNone then
      match rope, (env.shapes frame.shape).def with
      | some rope, .list t => do
        let mem ← drainRopeIntoVec env rope frame.shape t frame.data mem
        return ({ frame with tracker := .list currentChild none }, mem)
      | some rope, _ =>
        .ok ({ frame with tracker := .list currentChild none }, env.vtables.freeChunks rope mem)
      | none, _ => .ok (frame, mem)
    else uninitialized
  | .map insertState pendingEntries currentEntryIndex buildingKey =>
    match insertState, frame.isInit with
    | .idle, true =>
      match (env.shapes frame.shape).def with
      | .map k v => do
        let mem ← drainPendingIntoMap env frame.shape k v frame.data pendingEntries mem
        return ({ frame with tracker := .map .idle [] currentEntryIndex buildingKey }, mem)
      | _ => .ok (frame, mem)
    | _, _ => uninitialized
  | .set currentChild => if currentChild then uninitialized else requireInit
  | .option buildingInner pendingInner =>
    if buildingInner then uninitialized
    else
      match pendingInner, (env.shapes frame.shape).def with
      | some innerPtr, .option t =>
        .ok ({ frame with tracker := .option false none },
          completePendingOption env frame.shape t frame.data innerPtr mem)
      | _, _ => .ok ({ frame with tracker := .option false none }, mem)
  | .result _ buildingInner => if buildingInner then uninitialized else .ok (frame, mem)
  | .inner buildingInner => if buildingInner then uninitialized else requireInit
  | .dynamicValue state =>
    let moveIn := fun (pending : List P) (move : P → Mem → Mem) =>
      pending.foldl (fun mem ptr => env.deallocSized frame.shape ptr (move ptr mem)) mem
    match state, (env.shapes frame.shape).def with
    | .uninit, _ => uninitialized
    | .scalar, _ => .ok (frame, mem)
    | .object .idle pendingEntries, .dynamicValue =>
      .ok ({ frame with tracker := .dynamicValue (.object .idle []) },
        pendingEntries.foldl (fun mem (key, ptr) => env.deallocSized frame.shape ptr
          ((env.vtables.dynamicValue frame.shape).insertObjectEntry frame.data key ptr mem)) mem)
    | .object .idle _, _ => .ok (frame, mem)
    | .object _ _, _ => uninitialized
    | .array false pendingElements, .dynamicValue =>
      .ok ({ frame with tracker := .dynamicValue (.array false []) },
        moveIn pendingElements
          ((env.vtables.dynamicValue frame.shape).pushArrayElement frame.data))
    | .array false _, _ => .ok (frame, mem)
    | .array true _, _ => uninitialized

/-- A field that is not set, by its fill rule. -/
def fillByRule (shape : ι) (data : P) (plan : FieldInitPlan ι) (mem : Mem) :
    Except (ReflectErrorKind ι) Mem :=
  let fieldPtr := env.vtables.fieldUninit data plan.offset
  match plan.fillRule with
  | .defaultable (.custom fn) => .ok (env.vtables.defaultFn fn fieldPtr mem)
  | .defaultable (.fromTrait fieldShape) =>
    match env.vtables.callDefaultInPlace fieldShape fieldPtr mem with
    | some mem => .ok mem
    | none => .error (.uninitializedField shape plan.name)
  | .required => .error (.uninitializedField shape plan.name)

/-- Fills in and validates the fields by their plans. -/
def fillPlans (shape : ι) (data : P) (allFieldsSet : Bool) :
    List (FieldInitPlan ι) → ISet → Mem → Except (ReflectErrorKind ι) (ISet × Mem)
  | [], iset, mem => .ok (iset, mem)
  | plan :: plans, iset, mem => do
    let (iset, mem) ←
      if !allFieldsSet && !iset.get plan.index then do
        let mem ← fillByRule env shape data plan mem
        pure (iset.set plan.index, mem)
      else pure (iset, mem)
    let fieldPtr := env.vtables.readField (env.vtables.fieldUninit data plan.offset) mem
    match runValidators env.vtables.validators fieldPtr plan.name shape plan.validators with
    | .error failed =>
      .error (.validationFailed failed.shape failed.fieldName failed.message)
    | .ok () => fillPlans shape data allFieldsSet plans iset mem

/-- The optimised form of filling defaults and checking, by the fields of the type plan. -/
def fillAndRequireFields (frame : Frame ι P N) (plans : List (FieldInitPlan ι)) (numFields : ℕ)
    (mem : Mem) : Except (ReflectErrorKind ι) (Frame ι P N × Mem) :=
  let untouched := !frame.isInit && frame.tracker.isScalar &&
    match (env.shapes frame.shape).ty with
    | .user (.struct _) => true
    | _ => false
  match if untouched then env.vtables.callDefaultInPlace frame.shape frame.data mem else none with
  | some mem => .ok ({ frame with isInit := true }, mem)
  | none =>
    let frame :=
      if untouched then { frame with tracker := .struct (ISet.new numFields) none } else frame
    match frame.tracker with
    | .struct iset currentChild => do
      let (iset, mem) ←
        fillPlans env frame.shape frame.data (iset.allSet numFields) plans iset mem
      return ({ frame with tracker := .struct iset currentChild }, mem)
    | .enum variant variantIdx data currentChild => do
      let (data, mem) ←
        fillPlans env frame.shape frame.data (data.allSet numFields) plans data mem
      return ({ frame with tracker := .enum variant variantIdx data currentChild }, mem)
    | _ => .ok (frame, mem)

end Frame

end Facet.Frames
