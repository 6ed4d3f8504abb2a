import Facet.Collections.VTables

/-!
# Agreement of the construction paths

Every way of building a map or set through its vtable gives what inserting the entries one by one
gives, and what was inserted is found, where all functions of the vtable use one hasher. Those of
`HashSet<T, S>` do so only where `S` hashes like `RandomState`.
-/

namespace Facet.Collections

open KeyedStore

variable {ι : Type} {types : Types ι} {H : Type} {K V T : ι} {M : Type}

/-- A value that is given as a string; where its type is `String`, it is the string. -/
structure Texted (types : Types ι) (T : ι) where
  text : String
  value : types.Carrier T
  reads : ∀ isString : T = types.string, types.ofString isString text = value

/-- One step of building a map: an insertion, or a fast path with an insertion to fall back to. -/
inductive MapCall (types : Types ι) (K V : ι)
  | insert (key : types.Carrier K) (value : types.Carrier V)
  | ownedStringKey (key : Texted types K) (value : types.Carrier V)
  | borrowedStrKey (key : Texted types K) (value : types.Carrier V)
  | borrowedStrEntry (key : Texted types K) (value : Texted types V)

def MapCall.entry : MapCall types K V → types.Carrier K × types.Carrier V
  | .insert key value => (key, value)
  | .ownedStringKey key value | .borrowedStrKey key value => (key.value, value)
  | .borrowedStrEntry key value => (key.value, value.value)

namespace MapVTable

variable (vtable : MapVTable types K V M)

def plainInsert (map : M) (key : Slot (types.Carrier K)) (value : Slot (types.Carrier V)) :
    Option M := do
  let (map, _, _) ← vtable.insert map key value
  return map

/-- A fast path that answers `false` leaves its values to a plain insertion. -/
def call (map : M) : MapCall types K V → Option M
  | .insert key value => vtable.plainInsert map (some key) (some value)
  | .ownedStringKey key value =>
    match vtable.insertOwnedStringKey with
    | none => vtable.plainInsert map (some key.value) (some value)
    | some fast => do
      let (inserted, map, _, value) ← fast map (some key.text) (some value)
      if inserted then return map else vtable.plainInsert map (some key.value) value
  | .borrowedStrKey key value =>
    match vtable.insertBorrowedStrKey with
    | none => vtable.plainInsert map (some key.value) (some value)
    | some fast => do
      let (inserted, map, value) ← fast map key.text (some value)
      if inserted then return map else vtable.plainInsert map (some key.value) value
  | .borrowedStrEntry key value =>
    match vtable.insertBorrowedStrEntry with
    | none => vtable.plainInsert map (some key.value) (some value.value)
    | some fast => do
      let (inserted, map) ← fast map key.text value.text
      if inserted then return map else vtable.plainInsert map (some key.value) (some value.value)

def build (capacity : ℕ) (calls : List (MapCall types K V)) : Option M :=
  calls.foldlM vtable.call (vtable.initInPlaceWithCapacity capacity)

/-- The vtable's lookups and those of the concrete type find for each key the value last written
under it, and iteration yields each key once. -/
structure Finds (own : M → types.Carrier K → Option (types.Carrier V))
    (same : types.Carrier K → types.Carrier K → Bool)
    (writes : List (types.Carrier K × types.Carrier V)) (map : M) : Prop where
  containsKey : ∀ key, vtable.containsKey map key = (lastValue same writes key).isSome
  getValuePtr : ∀ key, vtable.getValuePtr map key = lastValue same writes key
  own : ∀ key, own map key = lastValue same writes key
  iter : ∀ key value, lastValue same writes key = some value ↔
    ∃ k, same k key ∧ (k, value) ∈ vtable.iter map
  distinct : (vtable.iter map).Pairwise fun a b => same a.1 b.1 = false
  len : vtable.len map = (vtable.iter map).length

/-- The fast paths that answer `false` leave the map and the values where they were. -/
structure Declines : Prop where
  ownedStringKey : ∀ fast, vtable.insertOwnedStringKey = some fast → ∀ map key value after,
    fast map key value = some (false, after) → after = (map, key, value)
  borrowedStrKey : ∀ fast, vtable.insertBorrowedStrKey = some fast → ∀ map key value after,
    fast map key value = some (false, after) → after = (map, value)
  borrowedStrEntry : ∀ fast, vtable.insertBorrowedStrEntry = some fast → ∀ map key value after,
    fast map key value = some (false, after) → after = map

/-- The map built by the calls, the one built from the pairs at once and the one built by plain
insertions have the same entries, and what was inserted is found in each. -/
structure Agrees (own : M → types.Carrier K → Option (types.Carrier V))
    (same : types.Carrier K → types.Carrier K → Bool) (calls : List (MapCall types K V)) :
    Prop where
  declines : vtable.Declines
  build : ∀ capacity, ∃ plain mixed,
    vtable.build capacity (calls.map fun c => .insert c.entry.1 c.entry.2) = some plain ∧
    vtable.build capacity calls = some mixed ∧
    (vtable.iter mixed).Perm (vtable.iter plain) ∧
    vtable.Finds own same (calls.map (·.entry)) plain ∧
    vtable.Finds own same (calls.map (·.entry)) mixed
  fromPairSlice : ∀ fast, vtable.fromPairSlice = some fast → ∀ capacity plain,
    vtable.build capacity (calls.map fun c => .insert c.entry.1 c.entry.2) = some plain →
    (vtable.iter (fast (calls.map (·.entry)))).Perm (vtable.iter plain) ∧
      vtable.Finds own same (calls.map (·.entry)) (fast (calls.map (·.entry)))

variable [DecidableEq ι]

/-- All functions of the vtable, and the concrete type's lookup, are those of one store. -/
structure Uses (own : M → types.Carrier K → Option (types.Carrier V))
    (store : KeyedStore (types.Carrier K) (types.Carrier V) M) (empty : M) : Prop where
  init : ∀ capacity, vtable.initInPlaceWithCapacity capacity = empty
  insert : vtable.insert = insertWith store.insert
  ownedStringKey : vtable.insertOwnedStringKey = some (insertOwnedStringKeyWith store.insert)
  borrowedStrKey : vtable.insertBorrowedStrKey = some (insertBorrowedStrKeyWith store.insert)
  borrowedStrEntry : vtable.insertBorrowedStrEntry = some (insertBorrowedStrEntryWith store.insert)
  fromPairSlice : vtable.fromPairSlice = some (fromPairSliceWith store.insert fun _ => empty)
  containsKey : ∀ map key, vtable.containsKey map key = (store.get map key).isSome
  getValuePtr : vtable.getValuePtr = store.get
  iter : vtable.iter = store.entries
  len : ∀ map, vtable.len map = (store.entries map).length
  own : own = store.get

namespace Uses

variable {vtable} {own : M → types.Carrier K → Option (types.Carrier V)}
  {store : KeyedStore (types.Carrier K) (types.Carrier V) M} {empty : M}

theorem call (h : vtable.Uses own store empty) (map : M) (c : MapCall types K V) :
    vtable.call map c = some (store.insert map c.entry.1 c.entry.2) := by
  have hplain : ∀ map k v, vtable.plainInsert map (some k) (some v) =
      some (store.insert map k v) := by
    intro map k v
    simp [plainInsert, h.insert, insertWith, Slot.read]
  cases c with
  | insert key value => exact hplain map key value
  | ownedStringKey key value =>
    by_cases hK : K = types.string
    · simp [MapVTable.call, h.ownedStringKey, insertOwnedStringKeyWith, hK, Slot.read,
        MapCall.entry, key.reads]
    · simp [MapVTable.call, h.ownedStringKey, insertOwnedStringKeyWith, hK, hplain,
        MapCall.entry]
  | borrowedStrKey key value =>
    by_cases hK : K = types.string
    · simp [MapVTable.call, h.borrowedStrKey, insertBorrowedStrKeyWith, hK, Slot.read,
        MapCall.entry, key.reads]
    · simp [MapVTable.call, h.borrowedStrKey, insertBorrowedStrKeyWith, hK, hplain,
        MapCall.entry]
  | borrowedStrEntry key value =>
    by_cases hKV : K = types.string ∧ V = types.string
    · simp [MapVTable.call, h.borrowedStrEntry, insertBorrowedStrEntryWith, hKV, MapCall.entry,
        key.reads, value.reads]
    · simp [MapVTable.call, h.borrowedStrEntry, insertBorrowedStrEntryWith, hKV, hplain,
        MapCall.entry]

theorem foldlM_call (h : vtable.Uses own store empty) (calls : List (MapCall types K V))
    (map : M) : calls.foldlM vtable.call map =
      some (store.insertAll (calls.map (·.entry)) map) := by
  induction calls generalizing map with
  | nil => rfl
  | cons c calls ih => simp [List.foldlM_cons, h.call, ih]

theorem build (h : vtable.Uses own store empty) (capacity : ℕ)
    (calls : List (MapCall types K V)) :
    vtable.build capacity calls = some (store.insertAll (calls.map (·.entry)) empty) := by
  rw [MapVTable.build, h.init, h.foldlM_call]

theorem declines (h : vtable.Uses own store empty) : vtable.Declines where
  ownedStringKey fast hfast map key value after hafter := by
    obtain rfl : insertOwnedStringKeyWith store.insert = fast := by
      simpa [h.ownedStringKey] using hfast
    by_cases hK : K = types.string
    · cases key <;> cases value <;>
        simp [insertOwnedStringKeyWith, hK, Slot.read] at hafter
    · simpa [insertOwnedStringKeyWith, hK, eq_comm] using hafter
  borrowedStrKey fast hfast map key value after hafter := by
    obtain rfl : insertBorrowedStrKeyWith store.insert = fast := by
      simpa [h.borrowedStrKey] using hfast
    by_cases hK : K = types.string
    · cases value <;> simp [insertBorrowedStrKeyWith, hK, Slot.read] at hafter
    · simpa [insertBorrowedStrKeyWith, hK, eq_comm] using hafter
  borrowedStrEntry fast hfast map key value after hafter := by
    obtain rfl : insertBorrowedStrEntryWith store.insert = fast := by
      simpa [h.borrowedStrEntry] using hfast
    by_cases hKV : K = types.string ∧ V = types.string
    · simp [insertBorrowedStrEntryWith, hKV] at hafter
    · simpa [insertBorrowedStrEntryWith, hKV, eq_comm] using hafter

variable {same : types.Carrier K → types.Carrier K → Bool} {Good : M → Prop}

theorem finds (h : vtable.Uses own store empty) (hlawful : store.Lawful same Good)
    (hempty : Good empty) (hget : ∀ key, store.get empty key = none)
    (writes : List (types.Carrier K × types.Carrier V)) :
    vtable.Finds own same writes (store.insertAll writes empty) := by
  have hgood := hlawful.good_insertAll writes hempty
  have hlast : ∀ key, store.get (store.insertAll writes empty) key =
      lastValue same writes key := by
    intro key
    simp [hlawful.get_insertAll writes hempty, hget]
  exact
    { containsKey := fun key => by rw [h.containsKey, hlast]
      getValuePtr := fun key => by rw [h.getValuePtr, hlast]
      own := fun key => by rw [h.own, hlast]
      iter := fun key value => by rw [← hlast, hlawful.get_eq_some_iff key value hgood, h.iter]
      distinct := by
        rw [h.iter]
        exact hlawful.distinct hgood
      len := by rw [h.len, h.iter] }

theorem agrees (h : vtable.Uses own store empty) (hlawful : store.Lawful same Good)
    (hempty : Good empty) (hget : ∀ key, store.get empty key = none)
    (calls : List (MapCall types K V)) : vtable.Agrees own same calls := by
  have hfinds := h.finds hlawful hempty hget (calls.map (·.entry))
  have hplain : (calls.map fun c => MapCall.insert c.entry.1 c.entry.2).map (·.entry) =
      calls.map (·.entry) := by
    simp [Function.comp_def, MapCall.entry]
  refine ⟨h.declines, fun capacity => ⟨_, _, h.build _ _, h.build _ _, ?_, ?_, hfinds⟩, ?_⟩
  · rw [hplain]
  · rw [hplain]
    exact hfinds
  · intro fast hfast capacity plain hbuild
    obtain rfl : fromPairSliceWith store.insert (fun _ => empty) = fast := by
      simpa [h.fromPairSlice] using hfast
    rw [h.build, hplain, Option.some.injEq] at hbuild
    subst hbuild
    exact ⟨.refl _, hfinds⟩

end Uses

end MapVTable

/-- The elements as the keys of a store without values. -/
def asKeys {α : Type} (elements : List α) : List (α × Unit) := elements.map fun elem => (elem, ())

namespace SetVTable

variable (vtable : SetVTable types T M)

def insertAll (elements : List (types.Carrier T)) (set : M) : Option M :=
  elements.foldlM (fun set elem => do
    let (_, set, _) ← vtable.insert set (some elem)
    return set) set

def build (capacity : ℕ) (elements : List (types.Carrier T)) : Option M :=
  vtable.insertAll elements (vtable.initInPlaceWithCapacity capacity)

/-- The vtable's lookup and that of the concrete type find the elements and nothing else, and
iteration yields each of them once. -/
structure Finds (own : M → types.Carrier T → Bool)
    (same : types.Carrier T → types.Carrier T → Bool) (elements : List (types.Carrier T))
    (set : M) : Prop where
  contains : ∀ item, vtable.contains set item = elements.any fun elem => same elem item
  own : ∀ item, own set item = elements.any fun elem => same elem item
  iter : ∀ item, (elements.any fun elem => same elem item) ↔
    ∃ elem ∈ vtable.iter set, same elem item
  distinct : (vtable.iter set).Pairwise fun a b => same a b = false
  len : vtable.len set = (vtable.iter set).length

/-- The set built from the elements at once has the same elements as the one built by inserting
them one by one, and what was inserted is found in both. -/
structure Agrees (own : M → types.Carrier T → Bool)
    (same : types.Carrier T → types.Carrier T → Bool) (elements : List (types.Carrier T)) :
    Prop where
  build : ∀ capacity, ∃ plain, vtable.build capacity elements = some plain ∧
    vtable.Finds own same elements plain
  fromSlice : ∀ fast, vtable.fromSlice = some fast → ∀ capacity plain,
    vtable.build capacity elements = some plain →
    (vtable.iter (fast elements)).Perm (vtable.iter plain) ∧
      vtable.Finds own same elements (fast elements)

/-- The insertion and the lookups of the vtable are those of one store. -/
structure Uses (store : KeyedStore (types.Carrier T) Unit M) (empty : M) : Prop where
  init : ∀ capacity, vtable.initInPlaceWithCapacity capacity = empty
  insert : ∃ isNew : M → types.Carrier T → Bool, vtable.insert = insertItemWith fun set elem =>
    (isNew set elem, store.insert set elem ())
  contains : ∀ set item, vtable.contains set item = (store.get set item).isSome
  iter : ∀ set, vtable.iter set = (store.entries set).map (·.1)
  len : ∀ set, vtable.len set = (store.entries set).length

namespace Uses

variable {vtable} {store : KeyedStore (types.Carrier T) Unit M} {empty : M}

theorem build (h : vtable.Uses store empty) (capacity : ℕ) (elements : List (types.Carrier T)) :
    vtable.build capacity elements = some (store.insertAll (asKeys elements) empty) := by
  obtain ⟨isNew, hinsert⟩ := h.insert
  rw [SetVTable.build, h.init]
  generalize empty = set
  induction elements generalizing set with
  | nil => rfl
  | cons elem elements ih =>
    have hstep : vtable.insert set (some elem) =
        some (isNew set elem, store.insert set elem (), none) := by
      simp [hinsert, insertItemWith, Slot.read]
    simpa [SetVTable.insertAll, hstep, asKeys] using ih (store.insert set elem ())

variable {own : M → types.Carrier T → Bool} {same : types.Carrier T → types.Carrier T → Bool}
  {Good : M → Prop}

theorem agrees (h : vtable.Uses store empty) (hlawful : store.Lawful same Good)
    (hempty : Good empty) (hget : ∀ key, store.get empty key = none)
    {elements : List (types.Carrier T)}
    (hown : ∀ item, own (store.insertAll (asKeys elements) empty) item =
      (store.get (store.insertAll (asKeys elements) empty) item).isSome)
    (hslice : ∀ fast, vtable.fromSlice = some fast →
      fast elements = store.insertAll (asKeys elements) empty) :
    vtable.Agrees own same elements := by
  have hgood := hlawful.good_insertAll (asKeys elements) hempty
  have hfound : ∀ item, (store.get (store.insertAll (asKeys elements) empty) item).isSome =
      elements.any fun elem => same elem item := by
    intro item
    rw [hlawful.get_insertAll _ hempty, hget, Option.or_none, isSome_lastValue]
    simp [asKeys, List.any_map, Function.comp_def]
  have hfinds : vtable.Finds own same elements (store.insertAll (asKeys elements) empty) :=
    { contains := fun item => by rw [h.contains, hfound]
      own := fun item => by rw [hown, hfound]
      iter := fun item => by
        rw [← hfound, Option.isSome_iff_exists, h.iter]
        simp only [hlawful.get_eq_some_iff item _ hgood, List.mem_map, Prod.exists]
        rw [exists_comm]
        simp [and_comm]
      distinct := by
        rw [h.iter]
        exact List.pairwise_map.mpr (hlawful.distinct hgood)
      len := by rw [h.len, h.iter, List.length_map] }
  refine ⟨fun capacity => ⟨_, h.build capacity elements, hfinds⟩, ?_⟩
  intro fast hfast capacity plain hbuild
  rw [h.build, Option.some.injEq] at hbuild
  rw [hslice fast hfast, ← hbuild]
  exact ⟨.refl _, hfinds⟩

end Uses

end SetVTable

section Hash

variable {h : Hashing types H} {S : H}

namespace HashMap

def store : KeyedStore (types.Carrier K) (types.Carrier V) (HashMap h K V S) where
  insert := HashMap.insert
  get := HashMap.get
  entries := HashMap.iter

theorem store_lawful : (store (h := h) (K := K) (V := V) (S := S)).Lawful (h.same K)
    fun map => map.table.Placed (h.hash S K) (h.same K) :=
  let laws := HashTable.lawful (ν := types.Carrier V) (h.same_equiv K) (h.hash_eq S K)
  { good_insert := laws.good_insert
    get_insert := laws.get_insert
    get_eq_some_iff := laws.get_eq_some_iff
    distinct := laws.distinct }

end HashMap

theorem hashMapVTable_agrees [DecidableEq ι] (calls : List (MapCall types K V)) :
    (hashMapVTable h K V S).Agrees HashMap.get (h.same K) calls := by
  have huses : (hashMapVTable h K V S).Uses HashMap.get HashMap.store ⟨[]⟩ :=
    ⟨fun _ => rfl, rfl, rfl, rfl, rfl, rfl, fun _ _ => rfl, rfl, rfl,
      fun map => by simp [hashMapVTable, HashMap.store, HashMap.iter, HashMap.len,
        HashTable.entries], rfl⟩
  exact huses.agrees HashMap.store_lawful HashTable.placed_nil (fun _ => rfl) calls

namespace HashSet

/-- The set as a store that hashes by another hasher type than the set's own. -/
def storeAs (R : H) : KeyedStore (types.Carrier T) Unit (HashSet h T S) where
  insert set elem _ := ((set.as R).insert elem).2.as S
  get set elem := HashTable.get (h.hash R T) (h.same T) elem set.table
  entries set := set.table.entries

theorem storeAs_lawful (R : H) : (storeAs (h := h) (T := T) (S := S) R).Lawful (h.same T)
    fun set => set.table.Placed (h.hash R T) (h.same T) :=
  let laws := HashTable.lawful (ν := Unit) (h.same_equiv T) (h.hash_eq R T)
  { good_insert := laws.good_insert
    get_insert := laws.get_insert
    get_eq_some_iff := laws.get_eq_some_iff
    distinct := laws.distinct }

theorem insertAll_congr {R R' : H} {elements : List (types.Carrier T)}
    (heq : ∀ elem ∈ elements, h.hash R T elem = h.hash R' T elem) (set : HashSet h T S) :
    (storeAs R).insertAll (asKeys elements) set =
      (storeAs R').insertAll (asKeys elements) set := by
  induction elements generalizing set with
  | nil => rfl
  | cons elem elements ih =>
    have hstep : (storeAs R).insert set elem () = (storeAs R').insert set elem () := by
      simp [storeAs, HashSet.insert, HashSet.as, HashTable.insert_congr (heq elem (by simp))]
    simp only [asKeys, List.map_cons, insertAll_cons, hstep]
    exact ih (fun e he => heq e (by simp [he])) _

theorem hashsetFromSlice_eq (elements : List (types.Carrier T)) :
    (hashsetFromSlice elements : HashSet h T S) =
      (storeAs S).insertAll (asKeys elements) ⟨[]⟩ := by
  simp [hashsetFromSlice, fromSliceWith, asKeys, KeyedStore.insertAll, List.foldl_map, storeAs,
    HashSet.as, withCapacity]

end HashSet

theorem hashSetVTable_uses :
    (hashSetVTable h T S).Uses (HashSet.storeAs h.randomState) ⟨[]⟩ where
  init _ := rfl
  insert := ⟨fun set elem => !(set.as h.randomState).contains elem, rfl⟩
  contains _ _ := rfl
  iter set := by simp [hashSetVTable, HashSet.storeAs, hashsetIter, HashSet.iter, HashSet.as,
    HashTable.entries]
  len set := by simp [hashSetVTable, HashSet.storeAs, hashsetLen, HashSet.len, HashSet.as,
    HashTable.entries]

/-- Placed by the hashes of one hasher type, the elements are found by those of another only where
the two agree. -/
theorem hashSetVTable_agrees_iff (elements : List (types.Carrier T)) :
    (hashSetVTable h T S).Agrees HashSet.contains (h.same T) elements ↔
      ∀ elem ∈ elements, h.hash S T elem = h.hash h.randomState T elem := by
  have hplaced : ∀ R : H, ((HashSet.storeAs R).insertAll (asKeys elements)
      (⟨[]⟩ : HashSet h T S)).table.Placed (h.hash R T) (h.same T) := fun R =>
    (HashSet.storeAs_lawful R).good_insertAll _ HashTable.placed_nil
  constructor
  · intro hagrees elem helem
    obtain ⟨plain, hbuild, hfinds⟩ := hagrees.build 0
    rw [hashSetVTable_uses.build, Option.some.injEq] at hbuild
    have hany : (elements.any fun e => h.same T e elem) = true :=
      List.any_eq_true.mpr ⟨elem, helem, (h.same_equiv T).refl elem⟩
    have hown := hfinds.own elem
    rw [hany, ← hbuild, HashSet.contains, Option.isSome_iff_exists] at hown
    obtain ⟨_, hget⟩ := hown
    exact (hplaced h.randomState).hash_eq_of_get (h.hash_eq _ T) hget
  · intro heq
    have hsame := HashSet.insertAll_congr heq (⟨[]⟩ : HashSet h T S)
    refine hashSetVTable_uses.agrees (HashSet.storeAs_lawful h.randomState) HashTable.placed_nil
      (fun _ => rfl) (fun item => ?_) (fun fast hfast => ?_)
    · -- placed alike by both hasher types, the elements are found alike
      have hS := hplaced S
      rw [hsame] at hS
      rw [HashSet.contains, Bool.eq_iff_iff, Option.isSome_iff_exists, Option.isSome_iff_exists]
      refine exists_congr fun value => ?_
      exact ((HashSet.storeAs_lawful S).get_eq_some_iff item value hS).trans
        ((HashSet.storeAs_lawful h.randomState).get_eq_some_iff item value (hplaced _)).symm
    · obtain rfl : hashsetFromSlice = fast := by simpa [hashSetVTable] using hfast
      rw [HashSet.hashsetFromSlice_eq, hsame]

end Hash

section Ordered

variable {c : Comparing types}

namespace BTreeMap

def store : KeyedStore (types.Carrier K) (types.Carrier V) (BTreeMap c K V) where
  insert := BTreeMap.insert
  get := BTreeMap.get
  entries := BTreeMap.iter

theorem store_lawful : (store (c := c) (K := K) (V := V)).Lawful (OrderedTable.same (c.cmp K))
    fun map => OrderedTable.Sorted (c.cmp K) map.entries :=
  have := c.trans K
  let laws : (OrderedTable.store (ν := types.Carrier V) (c.cmp K)).Lawful _ _ :=
    OrderedTable.lawful
  { good_insert := laws.good_insert
    get_insert := laws.get_insert
    get_eq_some_iff := laws.get_eq_some_iff
    distinct := laws.distinct }

end BTreeMap

theorem btreeMapVTable_agrees [DecidableEq ι] (calls : List (MapCall types K V)) :
    (btreeMapVTable c K V).Agrees BTreeMap.get (OrderedTable.same (c.cmp K)) calls := by
  have huses : (btreeMapVTable c K V).Uses BTreeMap.get BTreeMap.store ⟨[]⟩ :=
    ⟨fun _ => rfl, rfl, rfl, rfl, rfl, rfl, fun _ _ => rfl, rfl, rfl, fun _ => rfl, rfl⟩
  exact huses.agrees BTreeMap.store_lawful .nil (fun _ => rfl) calls

namespace BTreeSet

def store : KeyedStore (types.Carrier T) Unit (BTreeSet c T) where
  insert set elem _ := (set.insert elem).2
  get set elem := OrderedTable.get (c.cmp T) elem set.entries
  entries set := set.entries

theorem store_lawful : (store (c := c) (T := T)).Lawful (OrderedTable.same (c.cmp T))
    fun set => OrderedTable.Sorted (c.cmp T) set.entries :=
  have := c.trans T
  let laws : (OrderedTable.store (ν := Unit) (c.cmp T)).Lawful _ _ := OrderedTable.lawful
  { good_insert := laws.good_insert
    get_insert := laws.get_insert
    get_eq_some_iff := laws.get_eq_some_iff
    distinct := laws.distinct }

end BTreeSet

theorem btreeSetVTable_agrees (elements : List (types.Carrier T)) :
    (btreeSetVTable c T).Agrees BTreeSet.contains (OrderedTable.same (c.cmp T)) elements := by
  have huses : (btreeSetVTable c T).Uses BTreeSet.store ⟨[]⟩ :=
    ⟨fun _ => rfl, ⟨fun set elem => !set.contains elem, rfl⟩, fun _ _ => rfl, fun _ => rfl,
      fun _ => rfl⟩
  refine huses.agrees BTreeSet.store_lawful .nil (fun _ => rfl) (fun _ => rfl) ?_
  intro fast hfast
  obtain rfl : btreesetFromSlice = fast := by simpa [btreeSetVTable] using hfast
  simp [btreesetFromSlice, fromSliceWith, asKeys, KeyedStore.insertAll, List.foldl_map,
    BTreeSet.store, BTreeSet.new]

end Ordered

/-- Maps and the ordered set agree always, a `HashSet<T, S>` exactly on the elements that `S` and
`RandomState` hash alike. -/
theorem constructions_agree_iff [DecidableEq ι] (h : Hashing types H) (c : Comparing types)
    (K V T : ι) (S : H) (calls : List (MapCall types K V)) (elements : List (types.Carrier T)) :
    ((hashMapVTable h K V S).Agrees HashMap.get (h.same K) calls ∧
      (btreeMapVTable c K V).Agrees BTreeMap.get (OrderedTable.same (c.cmp K)) calls ∧
      (btreeSetVTable c T).Agrees BTreeSet.contains (OrderedTable.same (c.cmp T)) elements ∧
      (hashSetVTable h T S).Agrees HashSet.contains (h.same T) elements) ↔
    ∀ elem ∈ elements, h.hash S T elem = h.hash h.randomState T elem := by
  rw [hashSetVTable_agrees_iff]
  exact ⟨fun hall => hall.2.2.2, fun heq => ⟨hashMapVTable_agrees calls,
    btreeMapVTable_agrees calls, btreeSetVTable_agrees elements, heq⟩⟩

/-- Every type is `String`; the hasher `true` gives every string another hash than `false`, which
is `RandomState`. -/
def strings : Types Unit where
  Carrier _ := String
  string := ()
  text := .refl String

def constantHashing : Hashing strings Bool where
  same _ := fun (a b : String) => a == b
  same_equiv _ :=
    { refl := fun (a : String) => beq_self_eq_true a
      symm := fun h => beq_iff_eq.mpr (beq_iff_eq.mp h).symm
      trans := fun h h' => beq_iff_eq.mpr ((beq_iff_eq.mp h).trans (beq_iff_eq.mp h')) }
  hash S _ _ := if S then 1 else 0
  hash_eq _ _ _ _ _ := rfl
  randomState := false

theorem hashSet_loses_element :
    ¬(hashSetVTable constantHashing () true).Agrees HashSet.contains (constantHashing.same ())
      [("a" : String)] := by
  intro hagrees
  have heq := (hashSetVTable_agrees_iff _).mp hagrees "a" (List.mem_singleton.mpr rfl)
  exact absurd heq (by decide)

end Facet.Collections
