import Mathlib.Data.List.Pairwise
import Mathlib.Data.List.Range
import Mathlib.Tactic

/-!
# Sets of naturals as lists of machine words

Bit `i` of the set is bit `i % w` of word `i / w`. Every operation is specified by
its effect on single bits, and `members` lists the set in increasing order.
-/

namespace WordSet

variable {w : ℕ}

def test (ws : List (BitVec w)) (i : ℕ) : Bool := (ws.getD (i / w) 0).getLsbD (i % w)

/-- The elements of the set, smallest first. -/
def members : List (BitVec w) → List ℕ
  | [] => []
  | x :: xs => (List.range w).filter (fun b => x.getLsbD b) ++ (members xs).map (w + ·)

/-- Number of set bits of one word. -/
def popCount (x : BitVec w) : ℕ := (List.range w).countP fun b => x.getLsbD b

/-- Number of zero bits below the lowest set bit. -/
def trailingZeros (x : BitVec w) : ℕ :=
  ((List.range w).find? fun b => x.getLsbD b).getD w

/-- The lowest set bit of the first nonzero word. -/
def firstBit : List (BitVec w) → Option ℕ
  | [] => none
  | x :: xs => if x ≠ 0 then some (trailingZeros x) else (firstBit xs).map (w + ·)

/-- Wordwise intersection; words the second list does not have stay as they are. -/
def andWith : List (BitVec w) → List (BitVec w) → List (BitVec w)
  | x :: xs, y :: ys => (x &&& y) :: andWith xs ys
  | xs, _ => xs

@[simp] theorem test_nil (i : ℕ) : test ([] : List (BitVec w)) i = false := by simp [test]

theorem test_cons_lt (x : BitVec w) (xs : List (BitVec w)) {i : ℕ} (h : i < w) :
    test (x :: xs) i = x.getLsbD i := by
  simp [test, Nat.div_eq_of_lt h, Nat.mod_eq_of_lt h]

theorem test_cons_add (hw : 0 < w) (x : BitVec w) (xs : List (BitVec w)) (i : ℕ) :
    test (x :: xs) (w + i) = test xs i := by
  have hdiv : (w + i) / w = i / w + 1 := by rw [Nat.add_div_left _ hw]
  simp [test, hdiv]

/-- Below the first word a bit is in that word, above it in the rest. -/
theorem test_cons (hw : 0 < w) (x : BitVec w) (xs : List (BitVec w)) (i : ℕ) :
    test (x :: xs) i = if i < w then x.getLsbD i else test xs (i - w) := by
  split_ifs with h
  · exact test_cons_lt x xs h
  · rw [← test_cons_add hw x xs, Nat.add_sub_cancel' (not_lt.mp h)]

theorem mem_members (hw : 0 < w) (ws : List (BitVec w)) (i : ℕ) :
    i ∈ members ws ↔ test ws i := by
  induction ws generalizing i with
  | nil => simp [members]
  | cons x xs ih =>
    rw [test_cons hw, members, List.mem_append, List.mem_filter, List.mem_map, List.mem_range]
    split_ifs with h
    · constructor
      · rintro (⟨_, hx⟩ | ⟨j, _, hj⟩)
        · exact hx
        · omega
      · exact fun hx => .inl ⟨h, hx⟩
    · constructor
      · rintro (⟨hlt, _⟩ | ⟨j, hj, rfl⟩)
        · exact absurd hlt h
        · rwa [Nat.add_sub_cancel_left, ← ih]
      · exact fun hx => .inr ⟨i - w, (ih _).mpr hx, Nat.add_sub_cancel' (not_lt.mp h)⟩

theorem members_pairwise (ws : List (BitVec w)) : (members ws).Pairwise (· < ·) := by
  induction ws with
  | nil => exact List.Pairwise.nil
  | cons x xs ih =>
    refine List.pairwise_append.mpr ⟨List.pairwise_lt_range.filter _, ?_, ?_⟩
    · exact List.pairwise_map.mpr (ih.imp fun h => Nat.add_lt_add_left h w)
    · intro a ha b hb
      obtain ⟨j, _, rfl⟩ := List.mem_map.mp hb
      have := List.mem_range.mp (List.mem_filter.mp ha).1
      omega

theorem members_nodup (ws : List (BitVec w)) : (members ws).Nodup :=
  (members_pairwise ws).imp fun h => h.ne

theorem length_members (ws : List (BitVec w)) :
    (members ws).length = (ws.map popCount).sum := by
  induction ws with
  | nil => rfl
  | cons x xs ih =>
    rw [members, List.length_append, List.length_map, ih, List.map_cons, List.sum_cons,
      popCount, List.countP_eq_length_filter]

theorem length_andWith (xs ys : List (BitVec w)) : (andWith xs ys).length = xs.length := by
  induction xs generalizing ys with
  | nil => simp [andWith]
  | cons x xs ih =>
    cases ys with
    | nil => rfl
    | cons y ys => simp [andWith, ih]

theorem test_andWith (hw : 0 < w) {xs ys : List (BitVec w)} (h : xs.length = ys.length)
    (i : ℕ) : test (andWith xs ys) i = (test xs i && test ys i) := by
  induction xs generalizing ys i with
  | nil => simp [andWith]
  | cons x xs ih =>
    cases ys with
    | nil => simp at h
    | cons y ys =>
      simp only [andWith, test_cons hw, ih (Nat.succ.inj h)]
      split_ifs <;> simp

theorem andWith_eq_zipWith {xs ys : List (BitVec w)} (h : xs.length = ys.length) :
    andWith xs ys = List.zipWith (· &&& ·) xs ys := by
  induction xs generalizing ys with
  | nil => simp [andWith]
  | cons x xs ih =>
    cases ys with
    | nil => simp at h
    | cons y ys => simp [andWith, ih (Nat.succ.inj h)]

theorem ne_zero_iff (x : BitVec w) : x ≠ 0 ↔ ∃ b < w, x.getLsbD b := by
  constructor
  · intro hx
    by_contra hall
    push Not at hall
    exact hx (BitVec.eq_of_getLsbD_eq fun b hb => by simpa using hall b hb)
  · rintro ⟨b, _, hb⟩ rfl
    simp at hb

theorem firstBit_eq_head? (ws : List (BitVec w)) : firstBit ws = (members ws).head? := by
  induction ws with
  | nil => rfl
  | cons x xs ih =>
    rw [firstBit, members, List.head?_append, List.head?_filter, List.head?_map, ih]
    split_ifs with hx
    · obtain ⟨b, hb, hxb⟩ := (ne_zero_iff x).mp hx
      have hfind : ((List.range w).find? fun b => x.getLsbD b).isSome :=
        List.find?_isSome.mpr ⟨b, List.mem_range.mpr hb, hxb⟩
      obtain ⟨c, hc⟩ := Option.isSome_iff_exists.mp hfind
      simp [trailingZeros, hc]
    · have hfind : (List.range w).find? (fun b => x.getLsbD b) = none := by
        simp [not_not.mp hx]
      rw [hfind, Option.none_or]

theorem exists_test_cons (hw : 0 < w) (x : BitVec w) (xs : List (BitVec w)) :
    (∃ i, test (x :: xs) i) ↔ x ≠ 0 ∨ ∃ i, test xs i := by
  rw [ne_zero_iff]
  constructor
  · rintro ⟨i, hi⟩
    rw [test_cons hw] at hi
    split_ifs at hi with h
    · exact .inl ⟨i, h, hi⟩
    · exact .inr ⟨i - w, hi⟩
  · rintro (⟨b, hb, hx⟩ | ⟨i, hi⟩)
    · exact ⟨b, by rwa [test_cons_lt x xs hb]⟩
    · exact ⟨w + i, by rwa [test_cons_add hw]⟩

/-- Some word is nonzero exactly when the set has an element. -/
theorem any_ne_zero_iff (hw : 0 < w) (ws : List (BitVec w)) :
    (ws.any fun x => decide (x ≠ 0)) ↔ ∃ i, test ws i := by
  induction ws with
  | nil => simp
  | cons x xs ih =>
    rw [exists_test_cons hw, ← ih]
    simp

theorem and_bit_ne_zero (x : BitVec w) {b : ℕ} (hb : b < w) :
    x &&& (1#w <<< b) ≠ 0 ↔ x.getLsbD b := by
  rw [← BitVec.twoPow_eq, BitVec.and_twoPow]
  split_ifs with h
  · simp only [h, iff_true]
    rw [ne_zero_iff]
    exact ⟨b, hb, by simp [hb]⟩
  · simp [h]

theorem test_modify (ws : List (BitVec w)) {k : ℕ} (hk : k < ws.length)
    (f : BitVec w → BitVec w) (i : ℕ) :
    test (ws.modify k f) i = if i / w = k then (f ws[k]).getLsbD (i % w) else test ws i := by
  rw [test, test, List.getD_eq_getElem?_getD, List.getD_eq_getElem?_getD, List.getElem?_modify]
  by_cases hword : i / w = k
  · subst hword
    simp [hk]
  · simp [hword, Ne.symm hword]

theorem test_eq_getLsbD (ws : List (BitVec w)) {i : ℕ} (hi : i / w < ws.length) :
    test ws i = ws[i / w].getLsbD (i % w) := by
  simp [test, hi]

/-- Clearing one bit of one word removes exactly that element. -/
theorem test_modify_andNot (hw : 0 < w) (ws : List (BitVec w)) {j : ℕ}
    (hj : j / w < ws.length) (i : ℕ) :
    test (ws.modify (j / w) (· &&& ~~~(1#w <<< (j % w)))) i = (!decide (i = j) && test ws i) := by
  have hiw := Nat.mod_lt i hw
  rw [test_modify ws hj]
  split_ifs with hword
  · have hbit : i % w = j % w ↔ i = j := by
      constructor
      · intro hmod
        rw [← Nat.div_add_mod i w, ← Nat.div_add_mod j w, hword, hmod]
      · rintro rfl; rfl
    rw [test_eq_getLsbD ws (hword ▸ hj), ← BitVec.twoPow_eq]
    simp [hiw, hbit, hword, Bool.and_comm]
  · have hne : i ≠ j := by rintro rfl; exact hword rfl
    simp [hne]

/-- Setting one bit of one word sets exactly that element. -/
theorem test_modify_or (hw : 0 < w) (ws : List (BitVec w)) {j : ℕ} (hj : j / w < ws.length)
    (i : ℕ) :
    test (ws.modify (j / w) (· ||| (1#w <<< (j % w)))) i = (decide (i = j) || test ws i) := by
  have hjw := Nat.mod_lt j hw
  have hiw := Nat.mod_lt i hw
  rw [← BitVec.twoPow_eq, test, test, List.getD_eq_getElem?_getD, List.getD_eq_getElem?_getD,
    List.getElem?_modify]
  by_cases hword : j / w = i / w
  · have hbit : (j % w = i % w) ↔ i = j := by
      constructor
      · intro hmod
        rw [← Nat.div_add_mod i w, ← Nat.div_add_mod j w, hword, hmod]
      · rintro rfl; rfl
    rw [← hword, List.getElem?_eq_getElem hj]
    simp [BitVec.getLsbD_twoPow, hjw, hbit, Bool.or_comm]
  · have hne : i ≠ j := by rintro rfl; exact hword rfl
    simp [hword, hne]

theorem test_replicate_zero (n i : ℕ) :
    test (List.replicate n (0 : BitVec w)) i = false := by
  simp only [test, List.getD_eq_getElem?_getD, List.getElem?_replicate]
  split_ifs <;> simp

theorem test_replicate_allOnes (hw : 0 < w) (n i : ℕ) :
    test (List.replicate n (BitVec.allOnes w)) i = decide (i < w * n) := by
  have hlt : i / w < n ↔ i < w * n := by rw [Nat.div_lt_iff_lt_mul hw, mul_comm]
  simp only [test, List.getD_eq_getElem?_getD, List.getElem?_replicate]
  split_ifs with h
  · simpa [Nat.mod_lt i hw] using hlt.mp h
  · simpa using not_lt.mp (fun hi => h (hlt.mpr hi))

theorem test_set (ws : List (BitVec w)) {k : ℕ} (hk : k < ws.length) (x : BitVec w)
    (i : ℕ) : test (ws.set k x) i = if i / w = k then x.getLsbD (i % w) else test ws i := by
  simp only [test, List.getD_eq_getElem?_getD, List.getElem?_set, hk, if_true]
  by_cases h : k = i / w
  · simp [h]
  · simp [h, Ne.symm h]

theorem getLsbD_lowMask {m : ℕ} (hm : m < w) (b : ℕ) :
    ((1#w <<< m) - 1#w).getLsbD b = decide (b < m) := by
  have hpow : 2 ^ m < 2 ^ w := Nat.pow_lt_pow_right (by decide) hm
  have hone : 1 ≤ 2 ^ m := Nat.one_le_two_pow
  have hval : ((1#w <<< m) - 1#w).toNat = 2 ^ m - 1 := by
    have h1 : (1#w <<< m).toNat = 2 ^ m := by
      rw [← BitVec.twoPow_eq, BitVec.toNat_twoPow_of_lt hm]
    have h2 : (1#w).toNat = 1 := by
      rw [BitVec.toNat_ofNat, Nat.mod_eq_of_lt (by omega)]
    rw [BitVec.toNat_sub_of_le (by rw [BitVec.le_def, h1, h2]; exact hone), h1, h2]
  rw [BitVec.getLsbD, hval, Nat.testBit_two_pow_sub_one]

theorem test_fill (hw : 0 < w) (ws : List (BitVec w)) {k : ℕ} (hk : k ≤ ws.length) (i : ℕ) :
    test ((ws.take k).map (fun _ => BitVec.allOnes w) ++ ws.drop k) i =
      (decide (i / w < k) || test ws i) := by
  have hlen : ((ws.take k).map fun _ => BitVec.allOnes w).length = k := by simp [hk]
  rw [test, test, List.getD_eq_getElem?_getD, List.getD_eq_getElem?_getD, List.getElem?_append,
    hlen]
  split_ifs with hlt
  · have hget : i / w < ws.length := by omega
    simp [hlt, hget, Nat.mod_lt i hw]
  · rw [List.getElem?_drop, Nat.add_sub_cancel' (not_lt.mp hlt)]
    simp [hlt]

theorem and_lowMask_eq_iff {m : ℕ} (hm : m < w) (x : BitVec w) :
    x &&& ((1#w <<< m) - 1#w) = (1#w <<< m) - 1#w ↔ ∀ b < m, x.getLsbD b := by
  constructor
  · intro h b hb
    have hbit := congrArg (·.getLsbD b) h
    simpa [getLsbD_lowMask hm, hb] using hbit
  · intro h
    apply BitVec.eq_of_getLsbD_eq
    intro b _
    rw [BitVec.getLsbD_and, getLsbD_lowMask hm]
    by_cases hb : b < m
    · simp [hb, h b hb]
    · simp [hb]

theorem eq_allOnes_iff (x : BitVec w) : x = BitVec.allOnes w ↔ ∀ b < w, x.getLsbD b := by
  constructor
  · rintro rfl b hb
    simp [hb]
  · intro h
    apply BitVec.eq_of_getLsbD_eq
    intro b hb
    simp [h b hb, hb]

end WordSet
