import Facet.Lib.KeyedStore
import Mathlib.Order.Compare

/-!
# Ordered tables

Entries in the order of their keys. A search stops at the first key that is not smaller.
-/

variable {κ ν : Type*}

namespace OrderedTable

variable (cmp : κ → κ → Ordering)

/-- An entry with an equal key keeps its key and takes the value. -/
def insert (key : κ) (value : ν) : List (κ × ν) → List (κ × ν)
  | [] => [(key, value)]
  | (k, v) :: entries =>
    match cmp key k with
    | .lt => (key, value) :: (k, v) :: entries
    | .eq => (k, value) :: entries
    | .gt => (k, v) :: insert key value entries

def get (key : κ) : List (κ × ν) → Option ν
  | [] => none
  | (k, v) :: entries =>
    match cmp key k with
    | .lt => none
    | .eq => some v
    | .gt => get key entries

def store : KeyedStore κ ν (List (κ × ν)) where
  insert entries key value := insert cmp key value entries
  get entries key := get cmp key entries
  entries := id

def same (a b : κ) : Bool := cmp a b == .eq

@[simp] theorem same_iff {a b : κ} : same cmp a b = true ↔ cmp a b = .eq := by
  simp [same]

def Sorted (entries : List (κ × ν)) : Prop := entries.Pairwise fun a b => cmp a.1 b.1 = .lt

variable {cmp}

theorem mem_insert {entries : List (κ × ν)} {key : κ} {value : ν} {entry : κ × ν}
    (h : entry ∈ insert cmp key value entries) :
    entry.1 = key ∨ ∃ old ∈ entries, entry.1 = old.1 := by
  induction entries with
  | nil => exact .inl (by simp_all [insert])
  | cons first entries ih =>
    cases hcmp : cmp key first.1 <;> simp only [insert, hcmp, List.mem_cons] at h
    · obtain rfl | rfl | h := h
      · exact .inl rfl
      · exact .inr ⟨_, by simp, rfl⟩
      · exact .inr ⟨entry, by simp [h], rfl⟩
    · obtain rfl | h := h
      · exact .inr ⟨first, by simp, rfl⟩
      · exact .inr ⟨entry, by simp [h], rfl⟩
    · obtain rfl | h := h
      · exact .inr ⟨_, by simp, rfl⟩
      · obtain hnew | ⟨old, hold, heq⟩ := ih h
        · exact .inl hnew
        · exact .inr ⟨old, by simp [hold], heq⟩

variable [Std.TransCmp cmp]

theorem Sorted.insert {entries : List (κ × ν)} (h : Sorted cmp entries) (key : κ) (value : ν) :
    Sorted cmp (insert cmp key value entries) := by
  induction entries with
  | nil => simp [Sorted, OrderedTable.insert]
  | cons first entries ih =>
    obtain ⟨hfirst, hrest⟩ := List.pairwise_cons.mp h
    cases hcmp : cmp key first.1 <;> simp only [OrderedTable.insert, hcmp]
    · refine List.pairwise_cons.mpr ⟨fun entry hentry => ?_, h⟩
      obtain rfl | hentry := List.mem_cons.mp hentry
      · exact hcmp
      · exact Std.TransCmp.lt_trans hcmp (hfirst entry hentry)
    · exact List.pairwise_cons.mpr ⟨hfirst, hrest⟩
    · refine List.pairwise_cons.mpr ⟨fun entry hentry => ?_, ih hrest⟩
      obtain hkey | ⟨old, hold, heq⟩ := mem_insert hentry
      · rw [hkey]
        exact Std.OrientedCmp.lt_of_gt hcmp
      · rw [heq]
        exact hfirst old hold

theorem Sorted.get_insert {entries : List (κ × ν)} (h : Sorted cmp entries) (key : κ) (value : ν)
    (key' : κ) : get cmp key' (OrderedTable.insert cmp key value entries) =
      if same cmp key key' then some value else get cmp key' entries := by
  have hflip : cmp key key' = (cmp key' key).swap := Std.OrientedCmp.eq_swap
  induction entries with
  | nil =>
    cases hkey : cmp key' key <;> simp [OrderedTable.insert, get, same, hkey, hflip]
  | cons first entries ih =>
    have hrest := (List.pairwise_cons.mp h).2
    cases hcmp : cmp key first.1 <;> simp only [OrderedTable.insert, hcmp]
    · cases hkey : cmp key' key
      · have hlt : cmp key' first.1 = .lt := Std.TransCmp.lt_trans hkey hcmp
        simp [get, same, hkey, hflip, hlt]
      · simp [get, same, hkey, hflip]
      · simp [get, same, hkey, hflip]
    · have hsame : cmp key' first.1 = cmp key' key := (Std.TransCmp.congr_right hcmp).symm
      cases hkey : cmp key' key <;> simp [get, same, hkey, hflip, hsame]
    · have hgt : cmp first.1 key = .lt := Std.OrientedCmp.lt_of_gt hcmp
      cases hkey : cmp key' first.1
      · have hlt : cmp key' key = .lt := Std.TransCmp.lt_trans hkey hgt
        simp [get, same, hkey, hflip, hlt]
      · have hlt : cmp key' key = .lt := by rw [Std.TransCmp.congr_left hkey, hgt]
        simp [get, same, hkey, hflip, hlt]
      · simp only [get, hkey]
        exact ih hrest

theorem Sorted.get_eq_some_iff {entries : List (κ × ν)} (h : Sorted cmp entries) (key : κ)
    (value : ν) : get cmp key entries = some value ↔
      ∃ k, same cmp k key = true ∧ (k, value) ∈ entries := by
  induction entries with
  | nil => simp [get]
  | cons first entries ih =>
    obtain ⟨hfirst, hrest⟩ := List.pairwise_cons.mp h
    have hflip : cmp first.1 key = (cmp key first.1).swap := Std.OrientedCmp.eq_swap
    cases hcmp : cmp key first.1
    · -- every key of the table is greater
      have hne : ∀ k v, (k, v) ∈ first :: entries → cmp k key ≠ .eq := by
        intro k v hmem heq
        have hlt : cmp first.1 k = .lt ∨ first.1 = k := by
          obtain rfl | hmem := List.mem_cons.mp hmem
          · exact .inr rfl
          · exact .inl (hfirst _ hmem)
        obtain hlt | rfl := hlt
        · rw [Std.TransCmp.congr_right heq, hflip, hcmp] at hlt
          simp at hlt
        · simp [hflip, hcmp] at heq
      simp only [get, hcmp, same_iff]
      constructor
      · simp
      · intro ⟨k, hk, hmem⟩
        exact absurd hk (hne k value hmem)
    · simp only [get, hcmp, same_iff, Option.some.injEq]
      constructor
      · intro hvalue
        exact ⟨first.1, by simp [hflip, hcmp], by simp [← hvalue]⟩
      · intro ⟨k, hk, hmem⟩
        obtain heq | hmem := List.mem_cons.mp hmem
        · exact (congrArg Prod.snd heq).symm
        · have hlt := hfirst _ hmem
          rw [Std.TransCmp.congr_right hk, hflip, hcmp] at hlt
          simp at hlt
    · simp only [get, hcmp]
      rw [ih hrest]
      refine exists_congr fun k => and_congr_right fun hk => ?_
      have hne : (k, value) ≠ first := by
        rintro rfl
        rw [same_iff, hflip, hcmp] at hk
        simp at hk
      simp [hne]

theorem lawful : (store (ν := ν) cmp).Lawful (same cmp) (Sorted cmp) where
  good_insert key value h := h.insert key value
  get_insert key value key' h := h.get_insert key value key'
  get_eq_some_iff key value h := h.get_eq_some_iff key value
  distinct h := h.imp fun hlt => by simp [same, hlt]

end OrderedTable
