import Mathlib.Data.List.Nodup
import Mathlib.Data.Nat.Notation

/-!
# Binary search

Searching a list by halving, steered by a comparison that says on which side of the wanted
place an element lies. On a list whose elements compare as less, equal and greater in this
order, the search finds an element that compares as equal if there is one.
-/

namespace BinarySearch

variable {α κ : Type*}

/-- The last place that may compare as equal among the `size` places from `base` on. -/
def narrow (f : α → Ordering) (xs : List α) (base size : ℕ) : ℕ :=
  if size ≤ 1 then base
  else
    let half := size / 2
    let mid := base + half
    let base := if (xs[mid]?).map f = some .gt then base else mid
    narrow f xs base (size - half)
termination_by size
decreasing_by omega

/-- The place of an element that compares as equal, or else where one could be inserted. -/
def binarySearchBy (f : α → Ordering) (xs : List α) : Except ℕ ℕ :=
  let base := narrow f xs 0 xs.length
  match xs[base]? with
  | none => .error 0
  | some a =>
    match f a with
    | .eq => .ok base
    | .lt => .error (base + 1)
    | .gt => .error base

def binarySearchByKey [Ord κ] (k : κ) (key : α → κ) (xs : List α) : Except ℕ ℕ :=
  binarySearchBy (fun a => compare (key a) k) xs

/-- The elements that are less come first, those that are greater last. -/
def Partitioned (f : α → Ordering) (xs : List α) : Prop :=
  xs.Pairwise fun a b => (f a = .gt → f b = .gt) ∧ (f b = .lt → f a = .lt)

theorem Partitioned.of_index {f : α → Ordering} {xs : List α} (h : Partitioned f xs) {i j : ℕ}
    {a b : α} (hij : i < j) (ha : xs[i]? = some a) (hb : xs[j]? = some b) :
    (f a = .gt → f b = .gt) ∧ (f b = .lt → f a = .lt) := by
  obtain ⟨hi, rfl⟩ := List.getElem?_eq_some_iff.mp ha
  obtain ⟨hj, rfl⟩ := List.getElem?_eq_some_iff.mp hb
  exact List.pairwise_iff_getElem.mp h i j hi hj hij

/-- What halving keeps of the place `base` and the end `stop` of the places it looks at. -/
structure Bracket (f : α → Ordering) (xs : List α) (base stop : ℕ) : Prop where
  lt : base < stop
  le : stop ≤ xs.length
  low : base = 0 ∨ ∀ a, xs[base]? = some a → f a ≠ .gt
  high : ∀ i a, stop ≤ i → xs[i]? = some a → f a = .gt

theorem Bracket.narrow {f : α → Ordering} {xs : List α} (hf : Partitioned f xs) (size : ℕ) :
    ∀ base, Bracket f xs base (base + size) →
      Bracket f xs (narrow f xs base size) (narrow f xs base size + 1) := by
  induction size using Nat.strongRecOn with
  | _ size ih =>
    intro base h
    have hlt := h.lt
    have hle := h.le
    rw [BinarySearch.narrow]
    by_cases hsize : size ≤ 1
    · have : size = 1 := by omega
      subst this
      simpa using h
    · rw [if_neg hsize]
      have hmid : base + size / 2 < xs.length := by omega
      have hat : xs[base + size / 2]? = some xs[base + size / 2] :=
        List.getElem?_eq_getElem hmid
      apply ih (size - size / 2) (by omega)
      by_cases hgt : f xs[base + size / 2] = .gt
      · -- the upper half is greater, and so are the places after it
        rw [if_pos (by simp [hat, hgt])]
        refine ⟨by omega, by omega, h.low, ?_⟩
        intro i a hi ha
        by_cases hi' : i = base + size / 2
        · subst hi'
          rw [hat] at ha
          cases ha
          exact hgt
        · exact (hf.of_index (by omega) hat ha).1 hgt
      · rw [if_neg (by simp [hat, hgt])]
        have hstop : base + size / 2 + (size - size / 2) = base + size := by omega
        rw [hstop]
        refine ⟨by omega, hle, .inr ?_, h.high⟩
        intro a ha
        rw [hat] at ha
        cases ha
        exact hgt

/-- What is found compares as equal, whatever the order of the list. -/
theorem exists_of_binarySearchBy_ok {f : α → Ordering} {xs : List α} {i : ℕ}
    (h : binarySearchBy f xs = .ok i) : ∃ a, xs[i]? = some a ∧ f a = .eq := by
  unfold binarySearchBy at h
  cases ha : xs[narrow f xs 0 xs.length]? with
  | none => simp [ha] at h
  | some a =>
    cases hf : f a with
    | eq =>
      simp only [ha, hf, Except.ok.injEq] at h
      exact ⟨a, h ▸ ha, hf⟩
    | lt => simp [ha, hf] at h
    | gt => simp [ha, hf] at h

/-- When nothing is found in a partitioned list, no element compares as equal. -/
theorem ne_eq_of_binarySearchBy_error {f : α → Ordering} {xs : List α} {i : ℕ}
    (hf : Partitioned f xs) (h : binarySearchBy f xs = .error i) : ∀ a ∈ xs, f a ≠ .eq := by
  intro a ha heq
  obtain ⟨j, hj, rfl⟩ := List.getElem_of_mem ha
  have hbracket : Bracket f xs (narrow f xs 0 xs.length) (narrow f xs 0 xs.length + 1) := by
    apply Bracket.narrow hf
    refine ⟨by omega, by omega, .inl rfl, ?_⟩
    intro k b hk hb
    obtain ⟨hlt, -⟩ := List.getElem?_eq_some_iff.mp hb
    omega
  obtain ⟨b, hb⟩ : ∃ b, xs[narrow f xs 0 xs.length]? = some b :=
    ⟨_, List.getElem?_eq_getElem (Nat.lt_of_succ_le hbracket.le)⟩
  have hjat := List.getElem?_eq_getElem hj
  have hne : f b ≠ .eq := by
    intro he
    simp [binarySearchBy, hb, he] at h
  rcases Nat.lt_trichotomy j (narrow f xs 0 xs.length) with hlt | hsame | hgt
  · -- an equal element below means that the place itself is greater, which its bracket excludes
    have hlow := hbracket.low.resolve_left (by omega) b hb
    have hless := (hf.of_index hlt hjat hb).2
    cases hc : f b with
    | lt => simp [hless hc] at heq
    | eq => exact hne hc
    | gt => exact hlow hc
  · rw [← hsame, hjat] at hb
    cases hb
    exact hne heq
  · have hgreater := hbracket.high j _ hgt hjat
    simp [hgreater] at heq

section Keys

variable [Ord κ] {key : α → κ}

/-- The stable sort by key. -/
def sortByKey (key : α → κ) (xs : List α) : List α :=
  xs.mergeSort fun a b => (compare (key a) (key b)).isLE

theorem sortByKey_perm (xs : List α) : (sortByKey key xs).Perm xs := List.mergeSort_perm xs _

/-- The keys are distinct and in order. -/
def StrictlySorted (key : α → κ) (xs : List α) : Prop :=
  xs.Pairwise fun a b => compare (key a) (key b) = .lt

variable [Std.TransOrd κ]

theorem partitioned_of_sorted {xs : List α} (k : κ) (h : StrictlySorted key xs) :
    Partitioned (fun a => compare (key a) k) xs := by
  apply h.imp
  intro a b hab
  constructor
  · intro ha
    exact Std.TransCmp.gt_trans (Std.OrientedCmp.gt_of_lt hab) ha
  · intro hb
    exact Std.TransCmp.lt_trans hab hb

variable [Std.LawfulEqOrd κ]

theorem strictlySorted_sortByKey {xs : List α} (h : (xs.map key).Nodup) :
    StrictlySorted key (sortByKey key xs) := by
  have hle : (sortByKey key xs).Pairwise fun a b => (compare (key a) (key b)).isLE := by
    apply List.pairwise_mergeSort
    · intro a b c hab hbc
      exact Std.TransCmp.isLE_trans hab hbc
    · intro a b
      cases hab : compare (key a) (key b) with
      | lt => rfl
      | eq => rfl
      | gt => simp [Std.OrientedCmp.lt_of_gt hab]
  have hne : (sortByKey key xs).Pairwise fun a b => key a ≠ key b :=
    List.pairwise_map.mp (((sortByKey_perm xs).map key).nodup_iff.mpr h)
  apply (hle.and hne).imp
  rintro a b ⟨hab, hne⟩
  cases hcompare : compare (key a) (key b) with
  | lt => rfl
  | eq => exact absurd (Std.LawfulEqOrd.compare_eq_iff_eq.mp hcompare) hne
  | gt => simp [hcompare] at hab

/-- In a list sorted by distinct keys, the search finds the element that has the key. -/
theorem found_iff {xs : List α} (k : κ) (h : StrictlySorted key xs) (a : α) :
    (binarySearchByKey k key xs).toOption.bind (fun i => xs[i]?) = some a ↔
      a ∈ xs ∧ key a = k := by
  have hf := partitioned_of_sorted k h
  cases hsearch : binarySearchByKey k key xs with
  | error i =>
    have hnone := ne_eq_of_binarySearchBy_error hf hsearch
    simp only [Except.toOption, Option.bind_none, reduceCtorEq, false_iff, not_and]
    intro ha heq
    exact hnone a ha (Std.LawfulEqOrd.compare_eq_iff_eq.mpr heq)
  | ok i =>
    obtain ⟨b, hb, heq⟩ := exists_of_binarySearchBy_ok hsearch
    have hkey : key b = k := Std.LawfulEqOrd.compare_eq_iff_eq.mp heq
    simp only [Except.toOption, Option.bind_some, hb, Option.some.injEq]
    constructor
    · rintro rfl
      exact ⟨List.mem_of_getElem? hb, hkey⟩
    · rintro ⟨ha, hka⟩
      have hdistinct : (xs.map key).Nodup := by
        apply List.pairwise_map.mpr
        apply h.imp
        intro a b hab heq
        simp [heq] at hab
      exact List.inj_on_of_nodup_map hdistinct (List.mem_of_getElem? hb) ha
        (hkey.trans hka.symm)

end Keys

end BinarySearch
