import Facet.Poke.Navigation

/-!
# The operations that change a value

Every operation makes its checks first, on the value its `Poke` is on, and answers the
place below that value whose memory it changes. Only then it touches that memory, the old
value dropped before the new one is moved in. What it was given and did not take falls out
of scope and is dropped.
-/

namespace Facet.Poke

variable {ι : Type}

/-- A value given to an operation, in the caller's frame or in a `HeapValue`. -/
structure Arg (ι : Type) where
  value : Value ι
  heap : Bool

def Arg.buffers (x : Arg ι) : ℕ := x.heap.toNat

/-- The answer of an operation, with the value that was popped. -/
abbrev Answer (ι : Type) := Reply ι (Option (Value ι))

/-- The memory an operation changes. -/
structure Slot (ι : Type) where
  value : Value ι
  dropped : List (Value ι) := []
  /-- Buffers of heap values given back. -/
  freed : ℕ := 0

namespace Slot

variable (s : Slot ι)

/-- `call_drop_in_place`, for a value that is initialised. -/
def dropInPlace : Checked (Slot ι) :=
  if s.value.Whole then
    .ok { s with value := .uninit s.value.shape, dropped := s.value :: s.dropped }
  else .error .notInitialised

/-- A value is moved to memory that is not initialised. -/
def write (x : Value ι) : Checked (Slot ι) :=
  if s.value.Initialised then .error .overwritesLive else .ok { s with value := x }

/-- The guard of a heap value whose value was moved away. -/
def release (x : Arg ι) : Slot ι := { s with freed := s.freed + x.buffers }

/-- A function of a table that changes an initialised value. -/
def edit (f : Value ι → Value ι × List (Value ι)) : Checked (Slot ι) :=
  if s.value.Whole then
    .ok { s with value := (f s.value).1, dropped := (f s.value).2 ++ s.dropped }
  else .error .notInitialised

/-- The value is dropped and another one is written in its place. -/
def replace (x : Value ι) : Checked (Slot ι) := do
  let s ← s.dropInPlace
  s.write x

end Slot

namespace Value

variable (v : Value ι)

def withChildren (children : List (Value ι)) : Value ι := .node v.label children

def push (x : Value ι) : Value ι := v.withChildren (v.children ++ [x])

def pop : Option (Value ι × Value ι) :=
  v.children.getLast?.map fun x => (v.withChildren v.children.dropLast, x)

/-- Nothing when an index is out of bounds. -/
def swap (a b : ℕ) : Option (Value ι) :=
  match v.children[a]?, v.children[b]? with
  | some x, some y => some (v.withChildren ((v.children.set a y).set b x))
  | _, _ => none

/-- The entries of a map after an insertion, and what was dropped. -/
def insertEntry (eq : Value ι → Value ι → Bool) (k x : Value ι) :
    List (Value ι) → List (Value ι) × List (Value ι)
  | key :: old :: rest =>
    if eq key k then (key :: x :: rest, [k, old])
    else
      let (rest', dropped) := insertEntry eq k x rest
      (key :: old :: rest', dropped)
  | rest => (rest ++ [k, x], [])

def mapInsert (eq : Value ι → Value ι → Bool) (k x : Value ι) : Value ι × List (Value ι) :=
  let (entries, dropped) := insertEntry eq k x v.children
  (v.withChildren entries, dropped)

/-- The set holds the element. -/
def holds (eq : Value ι → Value ι → Bool) (x : Value ι) : Bool :=
  v.children.any fun c => eq c x

/-- An element that the set holds is dropped. -/
def setInsert (eq : Value ι → Value ι → Bool) (x : Value ι) : Value ι × List (Value ι) :=
  if v.holds eq x then (v, [x]) else (v.push x, [])

/-- The old value of the key is dropped. -/
def insertObjectEntry (keys : List String) (key : String) (x : Value ι) :
    Value ι × List (Value ι) :=
  match keys.findIdx? fun k => k = key with
  | some index => (v.withChildren (v.children.set index x), v.children[index]?.toList)
  | none =>
    (.node { v.label with head := .dynamic (.object (keys ++ [key])) } (v.children ++ [x]), [])

end Value

namespace Slot

variable (s : Slot ι)

/-- `replace_with` of an option's table; the old value is dropped. -/
def replaceWith (x : Option (Value ι)) : Checked (Slot ι) :=
  s.edit fun v =>
    match x with
    | some x => (.node ⟨v.shape, .some, none⟩ [x], [v])
    | none => (.node ⟨v.shape, .none, none⟩ [], [v])

def initOk (x : Value ι) : Checked (Slot ι) := s.write (.node ⟨s.value.shape, .ok, none⟩ [x])

def initErr (x : Value ι) : Checked (Slot ι) := s.write (.node ⟨s.value.shape, .err, none⟩ [x])

def dynWrite (content : DynContent) : Checked (Slot ι) :=
  s.write (.node ⟨s.value.shape, .dynamic content, none⟩ [])

/-- For an array only. -/
def pushArrayElement (x : Value ι) : Checked (Slot ι) :=
  if s.value.head = .dynamic .array then s.edit fun v => (v.push x, []) else .error .notAnArray

/-- For an object only. -/
def insertObjectEntry (key : String) (x : Value ι) : Checked (Slot ι) :=
  match s.value.head with
  | .dynamic (.object keys) => s.edit fun v => v.insertObjectEntry keys key x
  | _ => .error .notAnObject

def endArray : Checked (Slot ι) :=
  if s.value.head = .dynamic .array then s.edit fun v => (v, []) else .error .notAnArray

def endObject : Checked (Slot ι) :=
  match s.value.head with
  | .dynamic (.object _) => s.edit fun v => (v, [])
  | _ => .error .notAnObject

end Slot

/-- One call: what it is given, its checks, and what it does when they pass. -/
structure Call (ι : Type) where
  args : List (Arg ι)
  check : Value ι → Reply ι Place
  commit : Slot ι → Checked (Slot ι × Answer ι)

namespace Runtime

variable (R : Runtime ι) [DecidableEq ι]

def expectShape (expected : ι) (x : Value ι) : Reply ι Unit :=
  if expected ≠ x.shape then .error (.wrongShape expected x.shape) else .ok ()

/-- `Poke::set`. -/
def set (x : Value ι) : Call ι where
  args := [⟨x, false⟩]
  check v := do
    expectShape v.shape x
    return []
  commit s := do
    let s ← s.replace x
    return (s, .ok none)

section Fields

def expectPod (v : Value ι) : Reply ι Unit :=
  if (R.shapes v.shape).isPod then .ok () else .error (.notPod v.shape)

def expectField (v : Value ι) (fields : List (Field ι)) (index : ℕ) (x : Value ι) :
    Reply ι Place :=
  match fields[index]? with
  | some f => do
    expectShape f.shape x
    return [index]
  | none => .error (.indexOutOfBounds v.shape index fields.length)

/-- The old value of a field is dropped and the new one moved in. -/
def storeField (x : Arg ι) (s : Slot ι) : Checked (Slot ι × Answer ι) := do
  let s ← s.replace x.value
  return (s.release x, .ok none)

def structSetFieldCheck (structType : StructType ι) (index : ℕ) (x : Value ι) (v : Value ι) :
    Reply ι Place := do
  R.expectPod v
  expectField v structType.fields index x

/-- `PokeStruct::set_field`. -/
def structSetField (index : ℕ) (x : Value ι) : Call ι where
  args := [⟨x, false⟩]
  check v := do
    let structType ← R.intoStruct v
    R.structSetFieldCheck structType index x v
  commit := storeField ⟨x, false⟩

/-- `PokeStruct::set_field_by_name`. -/
def structSetFieldByName (name : String) (x : Value ι) : Call ι where
  args := [⟨x, false⟩]
  check v := do
    let structType ← R.intoStruct v
    match structType.fields.findIdx? fun f => f.name = name with
    | some index => R.structSetFieldCheck structType index x v
    | none => throw (.noSuchField v.shape)
  commit := storeField ⟨x, false⟩

/-- `PokeTuple::set_field`. -/
def tupleSetField (index : ℕ) (x : Value ι) : Call ι where
  args := [⟨x, false⟩]
  check v := do
    let tupleType ← R.intoTuple v
    R.structSetFieldCheck tupleType index x v
  commit := storeField ⟨x, false⟩

def enumSetFieldCheck (enumType : EnumType ι) (index : ℕ) (x : Value ι) (v : Value ι) :
    Reply ι Place := do
  R.expectPod v
  let variant ← R.activeVariant v enumType
  expectField v variant.data.fields index x

/-- A heap value's bytes are copied, so the field must be sized. -/
def enumSetFieldFromHeapCheck (enumType : EnumType ι) (index : ℕ) (x : Value ι)
    (v : Value ι) : Reply ι Place := do
  let place ← R.enumSetFieldCheck enumType index x v
  if (R.shapes x.shape).sized then return place
  else throw (.isUnsized x.shape "set_field_from_heap")

/-- `PokeEnum::field_index`. -/
def enumFieldIndex (enumType : EnumType ι) (name : String) (v : Value ι) : Reply ι ℕ := do
  let variant ← R.activeVariant v enumType
  match variant.data.fields.findIdx? fun f => f.name = name with
  | some index => return index
  | none => throw (.noSuchField v.shape)

/-- `PokeEnum::set_field`, and `set_field_from_heap` for a heap value. -/
def enumSetField (index : ℕ) (x : Arg ι) : Call ι where
  args := [x]
  check v := do
    let enumType ← R.intoEnum v
    if x.heap then R.enumSetFieldFromHeapCheck enumType index x.value v
    else R.enumSetFieldCheck enumType index x.value v
  commit := storeField x

/-- `PokeEnum::set_field_by_name`, and `set_field_by_name_from_heap` for a heap value. -/
def enumSetFieldByName (name : String) (x : Arg ι) : Call ι where
  args := [x]
  check v := do
    let enumType ← R.intoEnum v
    let index ← R.enumFieldIndex enumType name v
    if x.heap then R.enumSetFieldFromHeapCheck enumType index x.value v
    else R.enumSetFieldCheck enumType index x.value v
  commit := storeField x

end Fields

section OptionsAndResults

/-- `PokeOption::set_some`, and `set_some_from_heap`. -/
def setSome (x : Arg ι) : Call ι where
  args := [x]
  check v := do
    let t ← R.intoOption v
    expectShape t x.value
    return []
  commit s := do
    let s ← s.replaceWith (some x.value)
    return (s.release x, .ok none)

/-- `PokeOption::set_none`. -/
def setNone : Call ι where
  args := []
  check v := do
    let _ ← R.intoOption v
    return []
  commit s := do
    let s ← s.replaceWith none
    return (s, .ok none)

/-- `PokeResult::set_ok`, and `set_ok_from_heap`. -/
def setOk (x : Arg ι) : Call ι where
  args := [x]
  check v := do
    let (t, _) ← R.intoResult v
    expectShape t x.value
    return []
  commit s := do
    let s ← s.dropInPlace
    let s ← s.initOk x.value
    return (s.release x, .ok none)

/-- `PokeResult::set_err`, and `set_err_from_heap`. -/
def setErr (x : Arg ι) : Call ι where
  args := [x]
  check v := do
    let (_, e) ← R.intoResult v
    expectShape e x.value
    return []
  commit s := do
    let s ← s.dropInPlace
    let s ← s.initErr x.value
    return (s.release x, .ok none)

end OptionsAndResults

section Lists

def expectEntry (has : Bool) (v : Value ι) (operation : String) : Reply ι Unit :=
  if has then .ok () else .error (.operationFailed v.shape operation)

def expectSized (t : ι) (operation : String) : Reply ι Unit :=
  if (R.shapes t).sized then .ok () else .error (.isUnsized t operation)

def commitPush (x : Arg ι) (s : Slot ι) : Checked (Slot ι × Answer ι) := do
  let s ← s.edit fun v => (v.push x.value, [])
  return (s.release x, .ok none)

def commitPop (s : Slot ι) : Checked (Slot ι × Answer ι) :=
  match s.value.pop with
  | some (rest, x) => do
    let s ← s.edit fun _ => (rest, [])
    return (s, .ok (some x))
  | none => do
    let s ← s.edit fun v => (v, [])
    return (s, .error .absent)

/-- `PokeList::push`, and `push_from_heap`. -/
def listPush (x : Arg ι) : Call ι where
  args := [x]
  check v := do
    let t ← R.intoList v
    expectShape t x.value
    expectEntry (R.tables.listPush v.shape) v "push: list type does not support push"
    return []
  commit := commitPush x

/-- `PokeList::pop`. -/
def listPop : Call ι where
  args := []
  check v := do
    let t ← R.intoList v
    expectEntry (R.tables.listPop v.shape) v "pop: list type does not support pop"
    R.expectSized t "pop"
    return []
  commit := commitPop

/-- `PokeList::swap`. -/
def listSwap (a b : ℕ) : Call ι where
  args := []
  check v := do
    let _ ← R.intoList v
    expectEntry (R.tables.listSwap v.shape) v "swap: list type does not support swap"
    return []
  commit s := do
    let len := s.value.children.length
    match s.value.swap a b with
    | some swapped => do
      let s ← s.edit fun _ => (swapped, [])
      return (s, .ok none)
    | none => do
      let s ← s.edit fun v => (v, [])
      let outOfBounds := if len ≤ a then a else b
      return (s, .error (.indexOutOfBounds s.value.shape outOfBounds len))

end Lists

section ListLikes

/-- `PokeListLike::push`, and `push_from_heap`. -/
def listLikePush (x : Arg ι) : Call ι where
  args := [x]
  check v := do
    let listDef ← R.intoListLike v
    expectShape listDef.t x.value
    match listDef with
    | .list _ =>
      expectEntry (R.tables.listPush v.shape) v "push: list type does not support push"
      return []
    | _ => throw (.operationFailed v.shape "push: only list-backed list-likes support push")
  commit := commitPush x

/-- `PokeListLike::pop`. -/
def listLikePop : Call ι where
  args := []
  check v := do
    let listDef ← R.intoListLike v
    match listDef with
    | .list t =>
      expectEntry (R.tables.listPop v.shape) v "pop: list type does not support pop"
      R.expectSized t "pop"
      return []
    | _ => throw (.operationFailed v.shape "pop: only list-backed list-likes support pop")
  commit := commitPop

/-- `PokeListLike::swap` with the cached length. An array's or a slice's elements are
swapped where they lie, which needs them to be there. -/
def listLikeSwap (len a b : ℕ) : Call ι where
  args := []
  check v := do
    let listDef ← R.intoListLike v
    if len ≤ a ∨ len ≤ b then
      throw (.indexOutOfBounds v.shape (if len ≤ a then a else b) len)
    else if a = b then return []
    else
      match listDef with
      | .list _ =>
        expectEntry (R.tables.listSwap v.shape) v "swap: list type does not support swap"
        return []
      | .array t _ | .slice t =>
        R.expectSized t "swap"
        return []
  commit s :=
    if a = b then .ok (s, .ok none)
    else
      match s.value.swap a b with
      | some swapped => do
        let s ← s.edit fun _ => (swapped, [])
        return (s, .ok none)
      | none =>
        match R.intoList s.value with
        | .ok _ => do
          let s ← s.edit fun v => (v, [])
          return (s, .error
            (.operationFailed s.value.shape "swap: vtable refused the operation"))
        | .error _ => .error .outOfBounds

end ListLikes

section MapsAndSets

/-- `PokeMap::insert`, and `insert_from_heap`. -/
def mapInsert (k x : Arg ι) : Call ι where
  args := [k, x]
  check v := do
    let (kShape, vShape) ← R.intoMap v
    expectShape kShape k.value
    expectShape vShape x.value
    return []
  commit s := do
    let s ← s.edit fun v => v.mapInsert (R.tables.keyEq v.shape) k.value x.value
    return ((s.release k).release x, .ok none)

/-- `PokeSet::insert`, and `insert_from_heap`; `absent` stands for `Ok(false)`. -/
def setInsert (x : Arg ι) : Call ι where
  args := [x]
  check v := do
    let t ← R.intoSet v
    expectShape t x.value
    return []
  commit s := do
    let held := s.value.holds (R.tables.keyEq s.value.shape) x.value
    let s ← s.edit fun v => v.setInsert (R.tables.keyEq v.shape) x.value
    return (s.release x, if held then .error .absent else .ok none)

end MapsAndSets

section DynamicValues

/-- A setter of `PokeDynamicValue`. -/
def dynSet (content : DynContent) : Call ι where
  args := []
  check v := do
    R.intoDynamicValue v
    return []
  commit s := do
    let s ← s.dropInPlace
    let s ← s.dynWrite content
    return (s, .ok none)

def setNull : Call ι := R.dynSet .null

def setBool (v : Bool) : Call ι := R.dynSet (.bool v)

def setI64 (v : ℤ) : Call ι := R.dynSet (.i64 v)

def setU64 (v : ℕ) : Call ι := R.dynSet (.u64 v)

def setStr (v : String) : Call ι := R.dynSet (.string v)

def setArray : Call ι := R.dynSet .array

def setObject : Call ι := R.dynSet (.object [])

/-- The function of the table initialises the value only when it answers true. -/
def setF64 (bits : BitVec 64) : Call ι where
  args := []
  check v := do
    R.intoDynamicValue v
    return []
  commit s := do
    let s ← s.dropInPlace
    if R.tables.representable s.value.shape bits then
      let s ← s.dynWrite (.f64 bits)
      return (s, .ok none)
    else return (s, .error .absent)

def setBytes (v : List (BitVec 8)) : Call ι where
  args := []
  check x := do
    R.intoDynamicValue x
    if R.tables.dynSetBytes x.shape then return [] else throw .absent
  commit := (R.dynSet (.bytes v)).commit

/-- `push_array_element`, and `push_array_element_from_heap`. -/
def pushArrayElement (x : Arg ι) : Call ι where
  args := [x]
  check v := do
    R.intoDynamicValue v
    expectShape v.shape x.value
    return []
  commit s := do
    let s ← s.pushArrayElement x.value
    return (s.release x, .ok none)

/-- `insert_object_entry`, and `insert_object_entry_from_heap`. -/
def insertObjectEntry (key : String) (x : Arg ι) : Call ι where
  args := [x]
  check v := do
    R.intoDynamicValue v
    expectShape v.shape x.value
    return []
  commit s := do
    let s ← s.insertObjectEntry key x.value
    return (s.release x, .ok none)

def endArray : Call ι where
  args := []
  check v := do
    R.intoDynamicValue v
    return []
  commit s := do
    if R.tables.dynEndArray s.value.shape then
      let s ← s.endArray
      return (s, .ok none)
    else return (s, .ok none)

def endObject : Call ι where
  args := []
  check v := do
    R.intoDynamicValue v
    return []
  commit s := do
    if R.tables.dynEndObject s.value.shape then
      let s ← s.endObject
      return (s, .ok none)
    else return (s, .ok none)

end DynamicValues

end Runtime

/-- The setters of a dynamic value that always succeed. -/
inductive DynSetter
  | null
  | bool (v : Bool)
  | i64 (v : ℤ)
  | u64 (v : ℕ)
  | str (v : String)
  | array
  | object

def DynSetter.content : DynSetter → DynContent
  | null => .null
  | bool v => .bool v
  | i64 v => .i64 v
  | u64 v => .u64 v
  | str v => .string v
  | array => .array
  | object => .object []

/-- The operations of a `Poke` and of the views it is turned into. -/
inductive PokeOp (ι : Type)
  | set (x : Value ι)
  | structSetField (index : ℕ) (x : Value ι)
  | structSetFieldByName (name : String) (x : Value ι)
  | tupleSetField (index : ℕ) (x : Value ι)
  | enumSetField (index : ℕ) (x : Arg ι)
  | enumSetFieldByName (name : String) (x : Arg ι)
  | setSome (x : Arg ι)
  | setNone
  | setOk (x : Arg ι)
  | setErr (x : Arg ι)
  | listPush (x : Arg ι)
  | listPop
  | listSwap (a b : ℕ)
  | mapInsert (k x : Arg ι)
  | setInsert (x : Arg ι)
  | dynSet (setter : DynSetter)
  | setF64 (bits : BitVec 64)
  | setBytes (v : List (BitVec 8))
  | pushArrayElement (x : Arg ι)
  | insertObjectEntry (key : String) (x : Arg ι)
  | endArray
  | endObject

/-- The operations of a list-like, which caches its length. -/
inductive ListLikeOp (ι : Type)
  | push (x : Arg ι)
  | pop
  | swap (a b : ℕ)

inductive Op (ι : Type)
  | poke (op : PokeOp ι)
  | listLike (len : ℕ) (op : ListLikeOp ι)

namespace Runtime

variable (R : Runtime ι) [DecidableEq ι]

def dynSetter : DynSetter → Call ι
  | .null => R.setNull
  | .bool v => R.setBool v
  | .i64 v => R.setI64 v
  | .u64 v => R.setU64 v
  | .str v => R.setStr v
  | .array => R.setArray
  | .object => R.setObject

omit [DecidableEq ι] in
theorem dynSetter_eq (setter : DynSetter) : R.dynSetter setter = R.dynSet setter.content := by
  cases setter <;> rfl

def pokeCall : PokeOp ι → Call ι
  | .set x => set x
  | .structSetField index x => R.structSetField index x
  | .structSetFieldByName name x => R.structSetFieldByName name x
  | .tupleSetField index x => R.tupleSetField index x
  | .enumSetField index x => R.enumSetField index x
  | .enumSetFieldByName name x => R.enumSetFieldByName name x
  | .setSome x => R.setSome x
  | .setNone => R.setNone
  | .setOk x => R.setOk x
  | .setErr x => R.setErr x
  | .listPush x => R.listPush x
  | .listPop => R.listPop
  | .listSwap a b => R.listSwap a b
  | .mapInsert k x => R.mapInsert k x
  | .setInsert x => R.setInsert x
  | .dynSet setter => R.dynSetter setter
  | .setF64 bits => R.setF64 bits
  | .setBytes v => R.setBytes v
  | .pushArrayElement x => R.pushArrayElement x
  | .insertObjectEntry key x => R.insertObjectEntry key x
  | .endArray => R.endArray
  | .endObject => R.endObject

def listLikeCall (len : ℕ) : ListLikeOp ι → Call ι
  | .push x => R.listLikePush x
  | .pop => R.listLikePop
  | .swap a b => R.listLikeSwap len a b

def call : Op ι → Call ι
  | .poke op => R.pokeCall op
  | .listLike len op => R.listLikeCall len op

end Runtime

end Facet.Poke
