import Mathlib.Data.List.Induction
import Mathlib.Data.List.Nodup

/-!
# Grouping by a key

The elements of a list grouped by a key: one group for each key that occurs, with the elements
that have it in their order. Scanning for an element whose key is known needs its group only.
-/

namespace Buckets

variable {α κ : Type*} [DecidableEq κ] {key : α → κ}

/-- Put an element at the end of its key's group, which it opens if there is none. -/
def push (key : α → κ) (groups : List (κ × List α)) (x : α) : List (κ × List α) :=
  match groups with
  | [] => [(key x, [x])]
  | (k, xs) :: groups =>
    if k = key x then (k, xs ++ [x]) :: groups else (k, xs) :: push key groups x

def groupBy (key : α → κ) (xs : List α) : List (κ × List α) := xs.foldl (push key) []

/-- The groups are those of the list's elements, in any order of the keys. -/
structure Grouped (key : α → κ) (xs : List α) (groups : List (κ × List α)) : Prop where
  nodup : (groups.map (·.1)).Nodup
  mem_iff : ∀ k ys, (k, ys) ∈ groups ↔ ys = xs.filter (fun x => key x = k) ∧ ys ≠ []

theorem Grouped.perm {xs : List α} {groups others : List (κ × List α)}
    (h : Grouped key xs groups) (hperm : others.Perm groups) : Grouped key xs others where
  nodup := (hperm.map _).nodup_iff.mpr h.nodup
  mem_iff k ys := hperm.mem_iff.trans (h.mem_iff k ys)

theorem map_fst_push (groups : List (κ × List α)) (x : α) :
    (push key groups x).map (·.1) =
      if key x ∈ groups.map (·.1) then groups.map (·.1) else groups.map (·.1) ++ [key x] := by
  induction groups with
  | nil => simp [push]
  | cons group groups ih =>
    obtain ⟨k, xs⟩ := group
    by_cases hk : k = key x
    · simp [push, hk]
    · by_cases hmem : key x ∈ groups.map (·.1)
      · simp [push, hk, ih, hmem]
      · simp [push, hk, ih, hmem, Ne.symm hk]

theorem mem_push_of_ne {groups : List (κ × List α)} {x : α} {k : κ} (hk : k ≠ key x)
    (ys : List α) : (k, ys) ∈ push key groups x ↔ (k, ys) ∈ groups := by
  induction groups with
  | nil => simp [push, hk]
  | cons group groups ih =>
    obtain ⟨k', xs⟩ := group
    by_cases hk' : k' = key x
    · simp [push, hk', hk]
    · simp [push, hk', ih]

theorem mem_push_self {groups : List (κ × List α)} (h : (groups.map (·.1)).Nodup) (x : α)
    (ys : List α) : (key x, ys) ∈ push key groups x ↔
      (∃ zs, (key x, zs) ∈ groups ∧ ys = zs ++ [x]) ∨
        key x ∉ groups.map (·.1) ∧ ys = [x] := by
  induction groups with
  | nil => simp [push]
  | cons group groups ih =>
    obtain ⟨k, xs⟩ := group
    rw [List.map_cons, List.nodup_cons] at h
    by_cases hk : k = key x
    · subst hk
      have hnot : ∀ zs, (key x, zs) ∉ groups := by
        intro zs hzs
        exact h.1 (List.mem_map.mpr ⟨_, hzs, rfl⟩)
      simp [push, hnot]
    · simp [push, hk, Ne.symm hk, ih h.2]

theorem Grouped.mem_keys_iff {xs : List α} {groups : List (κ × List α)}
    (h : Grouped key xs groups) (k : κ) :
    k ∈ groups.map (·.1) ↔ xs.filter (fun x => key x = k) ≠ [] := by
  rw [List.mem_map]
  constructor
  · rintro ⟨⟨k, ys⟩, hmem, rfl⟩
    obtain ⟨rfl, hne⟩ := (h.mem_iff k ys).mp hmem
    exact hne
  · intro hne
    exact ⟨(k, _), (h.mem_iff k _).mpr ⟨rfl, hne⟩, rfl⟩

theorem Grouped.push {xs : List α} {groups : List (κ × List α)} (h : Grouped key xs groups)
    (x : α) : Grouped key (xs ++ [x]) (push key groups x) where
  nodup := by
    rw [map_fst_push]
    by_cases hmem : key x ∈ groups.map (·.1)
    · rw [if_pos hmem]
      exact h.nodup
    · rw [if_neg hmem]
      rw [← List.concat_eq_append]
      exact h.nodup.concat hmem
  mem_iff k ys := by
    by_cases hk : k = key x
    · subst hk
      rw [mem_push_self h.nodup, h.mem_keys_iff, List.filter_append]
      by_cases hnone : xs.filter (fun y => key y = key x) = []
      · simp only [h.mem_iff, hnone]
        simp +contextual
      · simp only [h.mem_iff]
        simp +contextual [hnone]
    · rw [mem_push_of_ne hk, h.mem_iff, List.filter_append]
      simp [Ne.symm hk]

theorem grouped_groupBy (xs : List α) : Grouped key xs (groupBy key xs) := by
  unfold groupBy
  induction xs using List.reverseRecOn with
  | nil => exact ⟨by simp, by simp⟩
  | append_singleton xs x ih =>
    rw [List.foldl_append]
    exact ih.push x

theorem length_flatMap_push (groups : List (κ × List α)) (x : α) :
    ((push key groups x).flatMap (·.2)).length = (groups.flatMap (·.2)).length + 1 := by
  induction groups with
  | nil => rfl
  | cons group groups ih =>
    obtain ⟨k, xs⟩ := group
    by_cases hk : k = key x
    · simp [push, hk]
      omega
    · rw [push, if_neg hk, List.flatMap_cons, List.length_append, ih, List.flatMap_cons,
        List.length_append]
      omega

theorem length_push_le (groups : List (κ × List α)) (x : α) :
    (push key groups x).length ≤ groups.length + 1 := by
  rw [← List.length_map (·.1), map_fst_push]
  by_cases hmem : key x ∈ groups.map (·.1)
  · simp [hmem]
  · simp [hmem]

theorem length_flatMap_groupBy (xs : List α) :
    ((groupBy key xs).flatMap (·.2)).length = xs.length := by
  unfold groupBy
  induction xs using List.reverseRecOn with
  | nil => rfl
  | append_singleton xs x ih =>
    rw [List.foldl_append, List.length_append]
    exact (length_flatMap_push _ x).trans (congrArg (· + 1) ih)

theorem length_groupBy_le (xs : List α) : (groupBy key xs).length ≤ xs.length := by
  unfold groupBy
  induction xs using List.reverseRecOn with
  | nil => exact Nat.le_refl 0
  | append_singleton xs x ih =>
    rw [List.foldl_append, List.length_append]
    exact Nat.le_trans (length_push_le _ x) (Nat.succ_le_succ ih)

theorem groupBy_replicate (x : α) (n : ℕ) :
    groupBy key (List.replicate (n + 1) x) = [(key x, List.replicate (n + 1) x)] := by
  induction n with
  | zero => rfl
  | succ n ih =>
    have hlast : groupBy key (List.replicate (n + 1) x ++ [x]) =
        push key (groupBy key (List.replicate (n + 1) x)) x := List.foldl_append
    rw [List.replicate_succ', hlast, ih]
    simp [push]

/-- A scan for a property that fixes the key can be done in the key's group. -/
theorem find?_filter_key {p : α → Bool} {k : κ} (hp : ∀ x, p x = true → key x = k)
    (xs : List α) : (xs.filter fun x => key x = k).find? p = xs.find? p := by
  rw [List.find?_filter]
  congr 1
  funext x
  by_cases hx : p x
  · simp [hx, hp x hx]
  · simp [hx]

omit [DecidableEq κ] in
/-- Where a group's elements lie when the groups are written one after the other. -/
theorem slice_flatMap {groups before after : List (κ × List α)} {group : κ × List α}
    (h : groups = before ++ group :: after) :
    ((groups.flatMap (·.2)).drop (before.flatMap (·.2)).length).take group.2.length =
      group.2 := by
  subst h
  rw [List.flatMap_append, List.drop_left, List.flatMap_cons, List.take_left]

end Buckets
