import Facet.Lib.KeyedStore

/-!
# Hash tables

The entries of a hash table lie where the hash of their key sent them. A lookup goes where the
hash of its key leads, so it finds what was placed with the same hash function.
-/

variable {γ κ ν : Type*}

/-- An entry, with the hash by which it was placed. -/
structure HashSlot (γ κ ν : Type*) where
  code : γ
  key : κ
  value : ν

abbrev HashTable (γ κ ν : Type*) := List (HashSlot γ κ ν)

namespace HashTable

def entries (table : HashTable γ κ ν) : List (κ × ν) :=
  table.map fun slot => (slot.key, slot.value)

/-- Every entry lies where the hash function sends it, and no two keys are equal. -/
structure Placed (hash : κ → γ) (same : κ → κ → Bool) (table : HashTable γ κ ν) : Prop where
  code_eq : ∀ slot ∈ table, slot.code = hash slot.key
  distinct : table.Pairwise (fun a b => same a.key b.key = false)

variable {hash hash' : κ → γ} {same : κ → κ → Bool}

theorem placed_nil : Placed hash same ([] : HashTable γ κ ν) := ⟨by simp, .nil⟩

theorem Placed.tail {slot : HashSlot γ κ ν} {slots : HashTable γ κ ν}
    (h : Placed hash same (slot :: slots)) : Placed hash same slots :=
  ⟨fun s hs => h.code_eq s (List.mem_cons_of_mem _ hs), h.distinct.of_cons⟩

/-- In a well-placed table the hash only speeds the search up. -/
theorem Placed.found_iff {table : HashTable γ κ ν} (h : Placed hash same table)
    (hcongr : ∀ a b, same a b → hash a = hash b) {slot : HashSlot γ κ ν} (hslot : slot ∈ table)
    (key : κ) : (slot.code = hash key ∧ same slot.key key) ↔ same slot.key key := by
  refine ⟨And.right, fun hsame => ⟨?_, hsame⟩⟩
  rw [h.code_eq slot hslot, hcongr _ _ hsame]

variable [DecidableEq γ]

/-- An entry with an equal key keeps its key and takes the value. -/
def insert (hash : κ → γ) (same : κ → κ → Bool) (key : κ) (value : ν) :
    HashTable γ κ ν → HashTable γ κ ν
  | [] => [⟨hash key, key, value⟩]
  | slot :: slots =>
    if slot.code = hash key ∧ same slot.key key then { slot with value } :: slots
    else slot :: insert hash same key value slots

def get (hash : κ → γ) (same : κ → κ → Bool) (key : κ) : HashTable γ κ ν → Option ν
  | [] => none
  | slot :: slots =>
    if slot.code = hash key ∧ same slot.key key then some slot.value else get hash same key slots

/-- The table as a store, all of whose operations use one hash function. -/
def store (hash : κ → γ) (same : κ → κ → Bool) : KeyedStore κ ν (HashTable γ κ ν) where
  insert table key value := insert hash same key value table
  get table key := get hash same key table
  entries := entries

theorem insert_congr {key : κ} (h : hash key = hash' key) (value : ν)
    (table : HashTable γ κ ν) : insert hash same key value table =
      insert hash' same key value table := by
  induction table with
  | nil => simp [insert, h]
  | cons slot slots ih => simp [insert, h, ih]

/-- What is found under another hash function has the same hash under both. -/
theorem Placed.hash_eq_of_get {table : HashTable γ κ ν} (h : Placed hash same table)
    (hcongr : ∀ a b, same a b → hash a = hash b) {key : κ} {value : ν}
    (hget : get hash' same key table = some value) : hash' key = hash key := by
  induction table with
  | nil => simp [get] at hget
  | cons slot slots ih =>
    by_cases hslot : slot.code = hash' key ∧ same slot.key key
    · calc hash' key = slot.code := hslot.1.symm
        _ = hash slot.key := h.code_eq slot (by simp)
        _ = hash key := hcongr _ _ hslot.2
    · rw [get, if_neg hslot] at hget
      exact ih h.tail hget

/-- The keys after an insertion are those from before, with the new one where none equals it. -/
theorem mem_insert {table : HashTable γ κ ν} {key : κ} {value : ν} {slot : HashSlot γ κ ν}
    (h : slot ∈ insert hash same key value table) :
    slot = ⟨hash key, key, value⟩ ∨ ∃ old ∈ table, slot.code = old.code ∧ slot.key = old.key := by
  induction table with
  | nil => simpa [insert] using h
  | cons first slots ih =>
    by_cases hfirst : first.code = hash key ∧ same first.key key
    · rw [insert, if_pos hfirst, List.mem_cons] at h
      obtain rfl | h := h
      · exact .inr ⟨first, by simp, rfl, rfl⟩
      · exact .inr ⟨slot, by simp [h], rfl, rfl⟩
    · rw [insert, if_neg hfirst, List.mem_cons] at h
      obtain rfl | h := h
      · exact .inr ⟨slot, by simp, rfl, rfl⟩
      · obtain hnew | ⟨old, hold, heq⟩ := ih h
        · exact .inl hnew
        · exact .inr ⟨old, by simp [hold], heq⟩

theorem Placed.insert {table : HashTable γ κ ν} (h : Placed hash same table)
    (hcongr : ∀ a b, same a b → hash a = hash b) (key : κ) (value : ν) :
    Placed hash same (insert hash same key value table) := by
  constructor
  · intro slot hslot
    obtain rfl | ⟨old, hold, hcode, hkey⟩ := mem_insert hslot
    · rfl
    · rw [hcode, hkey, h.code_eq old hold]
  · induction table with
    | nil => simp [HashTable.insert]
    | cons first slots ih =>
      have hrest := List.pairwise_cons.mp h.distinct
      by_cases hfirst : first.code = hash key ∧ same first.key key
      · rw [HashTable.insert, if_pos hfirst]
        exact List.pairwise_cons.mpr hrest
      · rw [HashTable.insert, if_neg hfirst, List.pairwise_cons]
        refine ⟨fun slot hslot => ?_, ih h.tail⟩
        obtain rfl | ⟨old, hold, -, hkey⟩ := mem_insert hslot
        · rw [h.found_iff hcongr (by simp)] at hfirst
          simpa using hfirst
        · rw [hkey]
          exact hrest.1 old hold

theorem Placed.get_insert {table : HashTable γ κ ν} (h : Placed hash same table)
    (hequiv : Equivalence fun a b => same a b = true)
    (hcongr : ∀ a b, same a b → hash a = hash b) (key : κ) (value : ν) (key' : κ) :
    get hash same key' (HashTable.insert hash same key value table) =
      if same key key' then some value else get hash same key' table := by
  induction table with
  | nil =>
    by_cases hkey : same key key'
    · simp [HashTable.insert, get, hkey, hcongr _ _ hkey]
    · simp [HashTable.insert, get, hkey]
  | cons first slots ih =>
    have hfound := h.found_iff hcongr (show first ∈ first :: slots by simp)
    by_cases hfirst : same first.key key
    · have heq : same first.key key' = same key key' := by
        rw [Bool.eq_iff_iff]
        exact ⟨fun h' => hequiv.trans (hequiv.symm hfirst) h', fun h' => hequiv.trans hfirst h'⟩
      rw [HashTable.insert, if_pos ((hfound key).mpr hfirst)]
      cases hkey : same key key'
      · have hne : ¬(first.code = hash key' ∧ same first.key key') := by simp [heq, hkey]
        simp [get, hne]
      · have hcode : first.code = hash key' := ((hfound key').mpr (heq.trans hkey)).1
        simp [get, hcode, heq, hkey]
    · rw [HashTable.insert, if_neg (fun h' => hfirst h'.2)]
      by_cases hfirst' : same first.key key'
      · have hkey : same key key' = false := by
          rw [Bool.eq_false_iff]
          exact fun hkey => hfirst (hequiv.trans hfirst' (hequiv.symm hkey))
        simp [get, (hfound key').mpr hfirst', hkey]
      · simp [get, hfirst', ih h.tail]

theorem lawful (hequiv : Equivalence fun a b => same a b = true)
    (hcongr : ∀ a b, same a b → hash a = hash b) :
    (store hash same).Lawful same (Placed (ν := ν) hash same) where
  good_insert key value h := h.insert hcongr key value
  get_insert key value key' h := h.get_insert hequiv hcongr key value key'
  get_eq_some_iff {table} key value h := by
    change get hash same key table = some value ↔ ∃ k, same k key ∧ (k, value) ∈ entries table
    induction table with
    | nil => simp [get, entries]
    | cons first slots ih =>
      have hrest := List.pairwise_cons.mp h.distinct
      have hfound := h.found_iff hcongr (show first ∈ first :: slots by simp) key
      by_cases hfirst : same first.key key
      · rw [get, if_pos (hfound.mpr hfirst)]
        constructor
        · intro hvalue
          exact ⟨first.key, hfirst, by simp [entries, ← Option.some.inj hvalue]⟩
        · intro ⟨k, hk, hmem⟩
          obtain ⟨slot, hslot, heq⟩ := List.mem_map.mp hmem
          obtain rfl | hslot := List.mem_cons.mp hslot
          · simp_all
          · -- no later key equals the first
            have hne := hrest.1 slot hslot
            have hslotkey : slot.key = k := congrArg Prod.fst heq
            rw [hslotkey, hequiv.trans hfirst (hequiv.symm hk)] at hne
            simp at hne
      · rw [get, if_neg (fun h' => hfirst h'.2), ih h.tail]
        refine exists_congr fun k => and_congr_right fun hk => ?_
        have hne : first.key ≠ k := fun heq => hfirst (heq ▸ hk)
        simp [entries, Ne.symm hne]
  distinct h := List.pairwise_map.mpr h.distinct

end HashTable
