import Facet.Frames.Ending

/-!
# Finishing deferred mode

The stored frames are completed from the deepest to the shallowest, each handed to the frame of the
path above its own. That frame is stored as well, or else lies on the stack, at the depth of its
path.
-/

namespace Facet.Frames

open TypePlan Facet.Path

variable {ι P N Mem : Type} [DecidableEq ι] [DecidableEq P] (env : Env ι P N Mem)

/-- Steps compare by their kinds first, then by their indices. -/
def stepRank : PathStep → ℕ × ℕ
  | .field idx => (0, idx)
  | .index idx => (1, idx)
  | .variant idx => (2, idx)
  | .mapKey idx => (3, idx)
  | .mapValue idx => (4, idx)
  | .optionSome => (5, 0)
  | .deref => (6, 0)
  | .inner => (7, 0)
  | .proxy => (8, 0)

def stepsLe : List PathStep → List PathStep → Bool
  | a :: as, b :: bs =>
    let (kind, idx) := stepRank a
    let (kind', idx') := stepRank b
    if kind = kind' ∧ idx = idx' then stepsLe as bs
    else kind < kind' || kind = kind' && idx < idx'
  | _, _ => true

/-- Deeper paths come first, and paths of one depth step by step. -/
def finishesBefore (a b : List PathStep) : Bool :=
  b.length < a.length || a.length = b.length && stepsLe a b

/-- The frames that are left while deferred mode is being finished. -/
structure Unfinished (ι P N Mem : Type) where
  storedFrames : StoredFrames ι P N
  stack : Stack ι P N
  mem : Mem

namespace Unfinished

variable (self : Unfinished ι P N Mem)

/-- The frame of a path. -/
def frameAt (path : List PathStep) : Option (Frame ι P N) :=
  StoredFrames.lookup self.storedFrames path <|> self.stack.reverse[path.length]?

/-- Replaces the frame of a path. -/
def replaceAt (path : List PathStep) (frame : Frame ι P N) (mem : Mem) : Unfinished ι P N Mem :=
  if (StoredFrames.lookup self.storedFrames path).isSome then
    { self with
      storedFrames := self.storedFrames.map fun stored =>
        if stored.1 = path then (path, frame) else stored
      mem := mem }
  else { self with stack := (self.stack.reverse.set path.length frame).reverse, mem := mem }

end Unfinished

namespace Frame

def completeOptionFrame (optionFrame inner : Frame ι P N) (mem : Mem) : Frame ι P N × Mem :=
  match (env.shapes optionFrame.shape).def with
  | .option _ =>
    ({ optionFrame with tracker := .option false none, isInit := true }, inner.deallocOwned env
      ((env.vtables.option optionFrame.shape).initSome optionFrame.data inner.data mem))
  | _ => (optionFrame, mem)

/-- A conversion that fails leaves the frame as it is. -/
def completeInnerFrame (wrapper inner : Frame ι P N) (mem : Mem) : Frame ι P N × Mem :=
  if (env.shapes wrapper.shape).hasTryFrom then
    match env.vtables.tryFrom wrapper.shape wrapper.data inner.shape inner.data mem with
    | (.converted, mem) =>
      ({ wrapper with tracker := .scalar, isInit := true }, inner.deallocOwned env mem)
    | (_, mem) => (wrapper, mem)
  else (wrapper, mem)

def completeProxyFrame (target proxy : Frame ι P N) (mem : Mem) : Frame ι P N × Mem :=
  match proxy.shapeLevelProxy with
  | none => (target, mem)
  | some convertIn =>
    match env.vtables.convertIn convertIn proxy.data target.data mem with
    | (.ok rptr, mem) =>
      if rptr = target.data then ({ target with isInit := true }, proxy.deallocOwned env mem)
      else (target, mem)
    | (.error _, mem) => (target, mem)

/-- An element lies in its slot already, or is pushed to the slice or the list. -/
def completeItemFrame (parent element : Frame ι P N) (mem : Mem) : Frame ι P N × Mem :=
  if element.ownership = .ropeSlot then
    match parent.tracker with
    | .list currentChild (some rope) =>
      ({ parent with tracker := .list currentChild (some rope.markLastInitialized) }, mem)
    | _ => (parent, mem)
  else
    match parent.tracker, (env.shapes parent.shape).def with
    | .smartPointerSlice vtable _ _, _ =>
      let pushFn := (env.vtables.pointer vtable).sliceBuilderVTable.pushFn
      (parent, element.deallocOwned env (pushFn parent.data element.data mem))
    | _, .list _ =>
      match (env.vtables.list parent.shape).push with
      | some pushFn => (parent, element.deallocOwned env (pushFn parent.data element.data mem))
      | none => (parent, mem)
    | _, _ => (parent, mem)

def completeMapKeyFrame (mapFrame key : Frame ι P N) : Frame ι P N :=
  match mapFrame.tracker with
  | .map insertState pendingEntries currentEntryIndex buildingKey =>
    let entries := pendingEntries ++ [(key.data, none)]
    { mapFrame with tracker := .map insertState entries currentEntryIndex buildingKey }
  | _ => mapFrame

def completeMapValueFrame (mapFrame value : Frame ι P N) (entryIdx : ℕ) :
    Except (Stop ι) (Frame ι P N) :=
  match mapFrame.tracker with
  | .map insertState pendingEntries currentEntryIndex buildingKey =>
    match pendingEntries[entryIdx]? with
    | none => .error (.panic "pending_entries must have a half-entry at entry_idx")
    | some (keyPtr, _) =>
      let entries := pendingEntries.set entryIdx (keyPtr, some value.data)
      .ok { mapFrame with tracker := .map insertState entries currentEntryIndex buildingKey }
  | _ => .ok mapFrame

/-- The pointer to a slice is built before the frame is checked. -/
def convertStoredSlice (frame : Frame ι P N) (parent : Option (Frame ι P N)) (mem : Mem) :
    Except (Stop ι) (Frame ι P N × Mem) :=
  match frame.tracker with
  | .smartPointerSlice vtable _ _ =>
    let (arcPtr, mem) :=
      (env.vtables.pointer vtable).sliceBuilderVTable.convertFn frame.data mem
    let arcSize := (env.shapes frame.shape).size
    let moved := fun data mem =>
      ({ frame with data := data, tracker := .scalar, isInit := true }, env.vtables.dealloc arcPtr
        arcSize (env.vtables.copyNonoverlapping arcPtr data arcSize mem))
    let sized := (env.shapes frame.shape).sized
    match frame.ownership with
    | .field fieldIdx =>
      match parent.map fun parent => (parent.data, (env.shapes parent.shape).ty) with
      | some (data, .user (.struct st)) =>
        match st.fields[fieldIdx]? with
        | none => .error (.panic "index out of bounds")
        | some field =>
          .ok (if sized then moved (env.vtables.fieldUninit data field.offset) mem
            else (frame, mem))
      | _ => .ok (frame, mem)
    | .owned =>
      if sized then
        let (newPtr, mem) := env.vtables.alloc frame.shape mem
        .ok (moved newPtr mem)
      else .ok (frame, mem)
    | _ => .ok (frame, mem)
  | _ => .ok (frame, mem)

/-- What a frame makes of a completed one that is handed to it, by the last step of its path. -/
def receive (parent : Frame ι P N) (step : PathStep) (child : Frame ι P N) (mem : Mem) :
    Except (Stop ι) (Frame ι P N × Mem) :=
  match step with
  | .optionSome => .ok (parent.completeOptionFrame env child mem)
  | .deref => .ok (parent.completeSmartPointerFrame env child mem)
  | .inner => .ok (parent.completeInnerFrame env child mem)
  | .proxy => .ok (parent.completeProxyFrame env child mem)
  | .index _ => .ok (parent.completeItemFrame env child mem)
  | .mapKey _ => .ok (parent.completeMapKeyFrame child, mem)
  | .mapValue entryIdx => do
    let parent ← parent.completeMapValueFrame child entryIdx
    return (parent, mem)
  | .field fieldIdx => .ok (parent.markFieldInitializedByIndex env fieldIdx, mem)
  | .variant _ => .ok (parent, mem)

/-- A frame that has been stored, with its value complete. -/
def completeStored (frame : Frame ι P N) (parent : Option (Frame ι P N))
    (fail : ReflectErrorKind ι → Stop ι) (mem : Mem) : Except (Stop ι) (Frame ι P N × Mem) := do
  let (frame, mem) ← frame.convertStoredSlice env parent mem
  let (frame, mem) ← (frame.fillDefaults env mem).mapError fail
  (frame.requireFullInitialization env mem).mapError fail

end Frame

/-- A field only marks the frame above; every other step hands the value itself over. -/
def transfersValue : PathStep → Bool
  | .field _ | .variant _ => false
  | _ => true

namespace Unfinished

/-- Hands a completed frame to the one above it. -/
def handOn (self : Unfinished ι P N Mem) (path : List PathStep) (frame : Frame ι P N) :
    Except (Stop ι) (Unfinished ι P N Mem) :=
  let released := fun (self : Unfinished ι P N Mem) => do
    let mem ← frame.dealloc env self.mem
    return { self with mem := mem }
  match path.getLast?, self.frameAt path.dropLast with
  | some step, some parent => do
    let (parent, mem) ← parent.receive env step frame self.mem
    let self := self.replaceAt path.dropLast parent mem
    if transfersValue step then return self else released self
  | _, _ => released self

/-- Completes the frame that is stored under a path. -/
def finishPath (self : Unfinished ι P N Mem) (path : List PathStep) :
    Except (Stop ι) (Unfinished ι P N Mem) :=
  match StoredFrames.lookup self.storedFrames path with
  | some frame => do
    let self := { self with storedFrames := StoredFrames.remove self.storedFrames path }
    let (frame, mem) ← frame.completeStored env (self.frameAt path.dropLast)
      (err env.shapes self.stack) self.mem
    handOn env { self with mem := mem } path frame
  | none => .error (.panic "called Option::unwrap() on a None value")

end Unfinished

def Partial.finishDeferred (self : Partial ι P N Mem) : Except (Stop ι) (Partial ι P N Mem) :=
  match self.mode with
  | .strict stack => .error (err env.shapes stack
      (.invariantViolation "finish_deferred() called but deferred mode is not enabled"))
  | .deferred stack _ storedFrames => do
    let paths := (storedFrames.map (·.1)).mergeSort finishesBefore
    let unfinished ← paths.foldlM (Unfinished.finishPath env) ⟨storedFrames, stack, self.mem⟩
    match unfinished.stack with
    | [] => .error (.panic "Partial must have at least one frame")
    | frame :: below => do
      let fail := err env.shapes (frame :: below)
      let (frame, mem) ← (frame.fillDefaults env unfinished.mem).mapError fail
      let (frame, mem) ← (frame.requireFullInitialization env mem).mapError fail
      return ⟨.strict (frame :: below), mem⟩

end Facet.Frames
