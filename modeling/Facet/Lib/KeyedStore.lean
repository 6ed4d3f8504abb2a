import Mathlib.Data.List.Induction

/-!
# Keyed stores

A store keeps one value for each key, under an equality of keys that may be coarser than theirs.
After a run of insertions, what is found for a key is what the last insertion with an equal key
has written.
-/

variable {κ ν σ : Type*}

/-- The operations of a store: insertion, lookup, and the entries in their order. -/
structure KeyedStore (κ ν σ : Type*) where
  insert : σ → κ → ν → σ
  get : σ → κ → Option ν
  entries : σ → List (κ × ν)

namespace KeyedStore

/-- The value of the last entry whose key equals the given one. -/
def lastValue (same : κ → κ → Bool) (writes : List (κ × ν)) (key : κ) : Option ν :=
  writes.foldl (fun found write => if same write.1 key then some write.2 else found) none

theorem lastValue_concat (same : κ → κ → Bool) (writes : List (κ × ν)) (k : κ) (v : ν)
    (key : κ) : lastValue same (writes ++ [(k, v)]) key =
      if same k key then some v else lastValue same writes key := by
  simp [lastValue]

theorem isSome_lastValue (same : κ → κ → Bool) (writes : List (κ × ν)) (key : κ) :
    (lastValue same writes key).isSome = writes.any (fun write => same write.1 key) := by
  induction writes using List.reverseRecOn with
  | nil => rfl
  | append_singleton writes write ih =>
    rw [lastValue_concat, List.any_append, ← ih]
    cases h : same write.1 key <;> simp [h]

variable (store : KeyedStore κ ν σ) (same : κ → κ → Bool)

def insertAll (writes : List (κ × ν)) (state : σ) : σ :=
  writes.foldl (fun state write => store.insert state write.1 write.2) state

@[simp] theorem insertAll_nil (state : σ) : store.insertAll [] state = state := rfl

@[simp] theorem insertAll_cons (write : κ × ν) (writes : List (κ × ν)) (state : σ) :
    store.insertAll (write :: writes) state =
      store.insertAll writes (store.insert state write.1 write.2) := rfl

/-- The laws of a store, on the states that are good. -/
structure Lawful (Good : σ → Prop) : Prop where
  good_insert : ∀ {state} key value, Good state → Good (store.insert state key value)
  get_insert : ∀ {state} key value key', Good state →
    store.get (store.insert state key value) key' =
      if same key key' then some value else store.get state key'
  get_eq_some_iff : ∀ {state} key value, Good state →
    (store.get state key = some value ↔ ∃ k, same k key ∧ (k, value) ∈ store.entries state)
  distinct : ∀ {state}, Good state →
    (store.entries state).Pairwise (fun a b => same a.1 b.1 = false)

variable {store same} {Good : σ → Prop}

theorem Lawful.good_insertAll (h : store.Lawful same Good) (writes : List (κ × ν)) {state : σ}
    (hgood : Good state) : Good (store.insertAll writes state) := by
  induction writes generalizing state with
  | nil => exact hgood
  | cons write writes ih => exact ih (h.good_insert _ _ hgood)

theorem Lawful.get_insertAll (h : store.Lawful same Good) (writes : List (κ × ν)) {state : σ}
    (hgood : Good state) (key : κ) : store.get (store.insertAll writes state) key =
      (lastValue same writes key).or (store.get state key) := by
  induction writes using List.reverseRecOn with
  | nil => simp [lastValue]
  | append_singleton writes write ih =>
    have hstep : store.insertAll (writes ++ [write]) state =
        store.insert (store.insertAll writes state) write.1 write.2 := by
      simp [insertAll]
    rw [hstep, h.get_insert _ _ _ (h.good_insertAll writes hgood), lastValue_concat, ih]
    cases same write.1 key <;> simp

end KeyedStore
