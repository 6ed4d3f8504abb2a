import Facet.Lib.HashTable
import Facet.Lib.OrderedTable
import Mathlib.Logic.Equiv.Defs

/-!
# Vtables of maps and sets

The functions through which reflection builds and reads the standard collections. Each is
instantiated at the type parameters of the collection's shape: a map or set behind a pointer is
read as the concrete type that the function names.
-/

namespace Facet.Collections

open KeyedStore

/-- The types behind shapes, each given by the identity of its shape. -/
structure Types (ι : Type) where
  Carrier : ι → Type
  string : ι
  text : String ≃ Carrier string

/-- Equality of the values of each type, and for each hasher type the hashes of its values. -/
structure Hashing {ι : Type} (types : Types ι) (H : Type) where
  same : (T : ι) → types.Carrier T → types.Carrier T → Bool
  same_equiv : ∀ T, Equivalence fun a b => same T a b = true
  hash : H → (T : ι) → types.Carrier T → UInt64
  hash_eq : ∀ S T a b, same T a b → hash S T a = hash S T b
  randomState : H

structure Comparing {ι : Type} (types : Types ι) where
  cmp : (T : ι) → types.Carrier T → types.Carrier T → Ordering
  trans : ∀ T, Std.TransCmp (cmp T)

/-- A place a value is read from; it is empty once the value has been moved out. -/
abbrev Slot (α : Type) := Option α

/-- Move a value out of its place. Reading an empty place is undefined. -/
def Slot.read {α : Type} (slot : Slot α) : Option (α × Slot α) := slot.map fun a => (a, none)

variable {ι : Type} [DecidableEq ι] {types : Types ι} {H : Type}

/-- A string as a value of type `T`, which is `String`. -/
def Types.ofString {T : ι} (isString : T = types.string) (text : String) : types.Carrier T :=
  isString ▸ types.text text

/-- A `HashMap<K, V, S>`. The hasher type decides how its functions hash. -/
structure HashMap (h : Hashing types H) (K V : ι) (S : H) where
  table : HashTable UInt64 (types.Carrier K) (types.Carrier V)

namespace HashMap

variable {h : Hashing types H} {K V : ι} {S : H} (map : HashMap h K V S)

def withCapacity (_capacity : ℕ) : HashMap h K V S := ⟨[]⟩

def insert (key : types.Carrier K) (value : types.Carrier V) : HashMap h K V S :=
  ⟨HashTable.insert (h.hash S K) (h.same K) key value map.table⟩

def get (key : types.Carrier K) : Option (types.Carrier V) :=
  HashTable.get (h.hash S K) (h.same K) key map.table

def containsKey (key : types.Carrier K) : Bool := (map.get key).isSome

def len : ℕ := map.table.length

def iter : List (types.Carrier K × types.Carrier V) := map.table.entries

end HashMap

/-- A `HashSet<T, S>`. -/
structure HashSet (h : Hashing types H) (T : ι) (S : H) where
  table : HashTable UInt64 (types.Carrier T) Unit

namespace HashSet

variable {h : Hashing types H} {T : ι} {S : H} (set : HashSet h T S)

def withCapacity (_capacity : ℕ) : HashSet h T S := ⟨[]⟩

def contains (item : types.Carrier T) : Bool :=
  (HashTable.get (h.hash S T) (h.same T) item set.table).isSome

/-- Whether the element is new, and the set with it. -/
def insert (item : types.Carrier T) : Bool × HashSet h T S :=
  (!set.contains item, ⟨HashTable.insert (h.hash S T) (h.same T) item () set.table⟩)

def len : ℕ := set.table.length

def iter : List (types.Carrier T) := set.table.map (·.key)

/-- The memory of the set, read as that of a set with another hasher type. -/
def as (S' : H) : HashSet h T S' := ⟨set.table⟩

end HashSet

/-- A `BTreeMap<K, V>`. -/
structure BTreeMap (c : Comparing types) (K V : ι) where
  entries : List (types.Carrier K × types.Carrier V)

namespace BTreeMap

variable {c : Comparing types} {K V : ι} (map : BTreeMap c K V)

def new : BTreeMap c K V := ⟨[]⟩

def insert (key : types.Carrier K) (value : types.Carrier V) : BTreeMap c K V :=
  ⟨OrderedTable.insert (c.cmp K) key value map.entries⟩

def get (key : types.Carrier K) : Option (types.Carrier V) :=
  OrderedTable.get (c.cmp K) key map.entries

def containsKey (key : types.Carrier K) : Bool := (map.get key).isSome

def len : ℕ := map.entries.length

def iter : List (types.Carrier K × types.Carrier V) := map.entries

end BTreeMap

/-- A `BTreeSet<T>`. -/
structure BTreeSet (c : Comparing types) (T : ι) where
  entries : List (types.Carrier T × Unit)

namespace BTreeSet

variable {c : Comparing types} {T : ι} (set : BTreeSet c T)

def new : BTreeSet c T := ⟨[]⟩

def contains (item : types.Carrier T) : Bool :=
  (OrderedTable.get (c.cmp T) item set.entries).isSome

def insert (item : types.Carrier T) : Bool × BTreeSet c T :=
  (!set.contains item, ⟨OrderedTable.insert (c.cmp T) item () set.entries⟩)

def len : ℕ := set.entries.length

def iter : List (types.Carrier T) := set.entries.map (·.1)

end BTreeSet

/-- The vtable of a map type. The functions that move values out of places return the places;
`none` stands for undefined behaviour. -/
structure MapVTable (types : Types ι) (K V : ι) (M : Type) where
  initInPlaceWithCapacity : ℕ → M
  insert : M → Slot (types.Carrier K) → Slot (types.Carrier V) →
    Option (M × Slot (types.Carrier K) × Slot (types.Carrier V))
  insertBorrowedStrKey : Option (M → String → Slot (types.Carrier V) →
    Option (Bool × M × Slot (types.Carrier V)))
  insertBorrowedStrEntry : Option (M → String → String → Option (Bool × M))
  insertOwnedStringKey : Option (M → Slot String → Slot (types.Carrier V) →
    Option (Bool × M × Slot String × Slot (types.Carrier V)))
  len : M → ℕ
  containsKey : M → types.Carrier K → Bool
  getValuePtr : M → types.Carrier K → Option (types.Carrier V)
  iter : M → List (types.Carrier K × types.Carrier V)
  fromPairSlice : Option (List (types.Carrier K × types.Carrier V) → M)

structure SetVTable (types : Types ι) (T : ι) (M : Type) where
  initInPlaceWithCapacity : ℕ → M
  insert : M → Slot (types.Carrier T) → Option (Bool × M × Slot (types.Carrier T))
  len : M → ℕ
  contains : M → types.Carrier T → Bool
  iter : M → List (types.Carrier T)
  fromSlice : Option (List (types.Carrier T) → M)

section Families

variable {K V T : ι} {M : Type}

/-- The insertion functions of the map types, by the map's own insertion. -/
def insertWith (put : M → types.Carrier K → types.Carrier V → M) (map : M)
    (key : Slot (types.Carrier K)) (value : Slot (types.Carrier V)) :
    Option (M × Slot (types.Carrier K) × Slot (types.Carrier V)) := do
  let (k, key) ← key.read
  let (v, value) ← value.read
  return (put map k v, key, value)

def insertOwnedStringKeyWith (put : M → types.Carrier K → types.Carrier V → M) (map : M)
    (key : Slot String) (value : Slot (types.Carrier V)) :
    Option (Bool × M × Slot String × Slot (types.Carrier V)) :=
  if isString : K = types.string then do
    let (k, key) ← key.read
    let (v, value) ← value.read
    return (true, put map (types.ofString isString k) v, key, value)
  else return (false, map, key, value)

def insertBorrowedStrKeyWith (put : M → types.Carrier K → types.Carrier V → M) (map : M)
    (key : String) (value : Slot (types.Carrier V)) :
    Option (Bool × M × Slot (types.Carrier V)) :=
  if isString : K = types.string then do
    let (v, value) ← value.read
    return (true, put map (types.ofString isString key) v, value)
  else return (false, map, value)

def insertBorrowedStrEntryWith (put : M → types.Carrier K → types.Carrier V → M) (map : M)
    (key value : String) : Option (Bool × M) :=
  if areStrings : K = types.string ∧ V = types.string then
    return (true, put map (types.ofString areStrings.1 key) (types.ofString areStrings.2 value))
  else return (false, map)

def fromPairSliceWith (put : M → types.Carrier K → types.Carrier V → M) (empty : ℕ → M)
    (pairs : List (types.Carrier K × types.Carrier V)) : M :=
  pairs.foldl (fun map pair => put map pair.1 pair.2) (empty pairs.length)

/-- The insertion functions of the set types, by the set's own insertion. -/
def insertItemWith (put : M → types.Carrier T → Bool × M) (set : M)
    (item : Slot (types.Carrier T)) : Option (Bool × M × Slot (types.Carrier T)) := do
  let (elem, item) ← item.read
  let (inserted, set) := put set elem
  return (inserted, set, item)

def fromSliceWith (put : M → types.Carrier T → Bool × M) (empty : ℕ → M)
    (elements : List (types.Carrier T)) : M :=
  elements.foldl (fun set elem => (put set elem).2) (empty elements.length)

end Families

section HashMap

variable {h : Hashing types H} {K V : ι} {S : H}

def hashmapInitInPlaceWithCapacity : ℕ → HashMap h K V S := HashMap.withCapacity

def hashmapInsert (map : HashMap h K V S) := insertWith HashMap.insert map

def hashmapInsertOwnedStringKey (map : HashMap h K V S) :=
  insertOwnedStringKeyWith HashMap.insert map

def hashmapInsertBorrowedStrKey (map : HashMap h K V S) :=
  insertBorrowedStrKeyWith HashMap.insert map

def hashmapInsertBorrowedStrEntry (map : HashMap h K V S) :=
  insertBorrowedStrEntryWith HashMap.insert map

def hashmapFromPairSlice : List (types.Carrier K × types.Carrier V) → HashMap h K V S :=
  fromPairSliceWith HashMap.insert HashMap.withCapacity

variable (h K V S) in
def hashMapVTable : MapVTable types K V (HashMap h K V S) where
  initInPlaceWithCapacity := hashmapInitInPlaceWithCapacity
  insert := hashmapInsert
  insertBorrowedStrKey := some hashmapInsertBorrowedStrKey
  insertBorrowedStrEntry := some hashmapInsertBorrowedStrEntry
  insertOwnedStringKey := some hashmapInsertOwnedStringKey
  len := HashMap.len
  containsKey := HashMap.containsKey
  getValuePtr := HashMap.get
  iter := HashMap.iter
  fromPairSlice := some hashmapFromPairSlice

end HashMap

section HashSet

variable {h : Hashing types H} {T : ι} {S : H}

def hashsetInitInPlaceWithCapacity : ℕ → HashSet h T S := HashSet.withCapacity

/-- The function names `HashSet<T>`, whose hasher is `RandomState`. -/
def hashsetInsert (set : HashSet h T S) (item : Slot (types.Carrier T)) :=
  insertItemWith (fun set elem =>
    let (inserted, view) := HashSet.insert (set.as h.randomState) elem
    (inserted, view.as S)) set item

def hashsetLen (set : HashSet h T S) : ℕ := (set.as h.randomState).len

def hashsetContains (set : HashSet h T S) (item : types.Carrier T) : Bool :=
  (set.as h.randomState).contains item

def hashsetIter (set : HashSet h T S) : List (types.Carrier T) := (set.as h.randomState).iter

/-- Unlike insertion and lookup, this names `HashSet<T, S>`. -/
def hashsetFromSlice : List (types.Carrier T) → HashSet h T S :=
  fromSliceWith HashSet.insert HashSet.withCapacity

variable (h T S) in
def hashSetVTable : SetVTable types T (HashSet h T S) where
  initInPlaceWithCapacity := hashsetInitInPlaceWithCapacity
  insert := hashsetInsert
  len := hashsetLen
  contains := hashsetContains
  iter := hashsetIter
  fromSlice := some hashsetFromSlice

end HashSet

section BTreeMap

variable {c : Comparing types} {K V : ι}

def btreemapInitInPlaceWithCapacity (_capacity : ℕ) : BTreeMap c K V := .new

def btreemapInsert (map : BTreeMap c K V) := insertWith BTreeMap.insert map

def btreemapInsertOwnedStringKey (map : BTreeMap c K V) :=
  insertOwnedStringKeyWith BTreeMap.insert map

def btreemapInsertBorrowedStrKey (map : BTreeMap c K V) :=
  insertBorrowedStrKeyWith BTreeMap.insert map

def btreemapInsertBorrowedStrEntry (map : BTreeMap c K V) :=
  insertBorrowedStrEntryWith BTreeMap.insert map

def btreemapFromPairSlice : List (types.Carrier K × types.Carrier V) → BTreeMap c K V :=
  fromPairSliceWith BTreeMap.insert fun _ => .new

variable (c K V) in
def btreeMapVTable : MapVTable types K V (BTreeMap c K V) where
  initInPlaceWithCapacity := btreemapInitInPlaceWithCapacity
  insert := btreemapInsert
  insertBorrowedStrKey := some btreemapInsertBorrowedStrKey
  insertBorrowedStrEntry := some btreemapInsertBorrowedStrEntry
  insertOwnedStringKey := some btreemapInsertOwnedStringKey
  len := BTreeMap.len
  containsKey := BTreeMap.containsKey
  getValuePtr := BTreeMap.get
  iter := BTreeMap.iter
  fromPairSlice := some btreemapFromPairSlice

end BTreeMap

section BTreeSet

variable {c : Comparing types} {T : ι}

def btreesetInitInPlaceWithCapacity (_capacity : ℕ) : BTreeSet c T := .new

def btreesetInsert (set : BTreeSet c T) := insertItemWith BTreeSet.insert set

def btreesetFromSlice : List (types.Carrier T) → BTreeSet c T :=
  fromSliceWith BTreeSet.insert fun _ => .new

variable (c T) in
def btreeSetVTable : SetVTable types T (BTreeSet c T) where
  initInPlaceWithCapacity := btreesetInitInPlaceWithCapacity
  insert := btreesetInsert
  len := BTreeSet.len
  contains := BTreeSet.contains
  iter := BTreeSet.iter
  fromSlice := some btreesetFromSlice

end BTreeSet

end Facet.Collections
