import Facet.Lib.WordSet

/-!
# Resolution sets

The candidates of a solver are a bitmask over resolution indices with a cached
count. A valid set over `n` resolutions has the words for `n` bits, no bit from `n`
on, and the right count; all operations keep it so.
-/

namespace Facet.Flatten

/-- A set of configuration indices, stored as a bitmask. -/
structure ResolutionSet where
  bits : List (BitVec 64)
  count : ℕ
  deriving DecidableEq

namespace ResolutionSet

def empty (numResolutions : ℕ) : ResolutionSet where
  bits := List.replicate ((numResolutions + 63) / 64) 0
  count := 0

def full (numResolutions : ℕ) : ResolutionSet :=
  let numWords := (numResolutions + 63) / 64
  let bits := List.replicate numWords (BitVec.allOnes 64)
  { bits :=
      -- clear the bits beyond `numResolutions` in the last word
      if numResolutions % 64 ≠ 0 then
        bits.set (numWords - 1) ((1#64 <<< (numResolutions % 64)) - 1#64)
      else bits
    count := numResolutions }

def insert (s : ResolutionSet) (idx : ℕ) : ResolutionSet :=
  let word := idx / 64
  let bit := idx % 64
  if s.bits.getD word 0 &&& (1#64 <<< bit) = 0 then
    { bits := s.bits.modify word (· ||| (1#64 <<< bit)), count := s.count + 1 }
  else s

def intersectWith (s other : ResolutionSet) : ResolutionSet where
  bits := WordSet.andWith s.bits other.bits
  count := ((List.zipWith (· &&& ·) s.bits other.bits).map WordSet.popCount).sum

def intersects (s other : ResolutionSet) : Bool :=
  (List.zipWith (· &&& ·) s.bits other.bits).any fun x => decide (x ≠ 0)

def len (s : ResolutionSet) : ℕ := s.count

def isEmpty (s : ResolutionSet) : Bool := s.count == 0

/-- The indices in the set, lowest first. -/
def iter (s : ResolutionSet) : List ℕ := WordSet.members s.bits

/-- The lowest index in the set. -/
def first (s : ResolutionSet) : Option ℕ := WordSet.firstBit s.bits

instance : Membership ℕ ResolutionSet := ⟨fun s i => WordSet.test s.bits i⟩

instance (s : ResolutionSet) (i : ℕ) : Decidable (i ∈ s) :=
  inferInstanceAs (Decidable (WordSet.test s.bits i = true))

theorem mem_def (s : ResolutionSet) (i : ℕ) : i ∈ s ↔ WordSet.test s.bits i := Iff.rfl

/-- A set over the resolutions `0, …, n - 1` with a correct cached count. -/
structure Valid (n : ℕ) (s : ResolutionSet) : Prop where
  length : s.bits.length = (n + 63) / 64
  bound : ∀ i ∈ s, i < n
  count : s.count = s.iter.length

theorem mem_iter (s : ResolutionSet) (i : ℕ) : i ∈ s.iter ↔ i ∈ s :=
  WordSet.mem_members (by decide) s.bits i

theorem iter_pairwise (s : ResolutionSet) : s.iter.Pairwise (· < ·) :=
  WordSet.members_pairwise s.bits

theorem iter_nodup (s : ResolutionSet) : s.iter.Nodup := WordSet.members_nodup s.bits

theorem first_eq_head? (s : ResolutionSet) : s.first = s.iter.head? :=
  WordSet.firstBit_eq_head? s.bits

theorem notMem_empty (n i : ℕ) : i ∉ empty n := by
  rw [mem_def, empty, WordSet.test_replicate_zero]
  exact Bool.false_ne_true

theorem mem_full (n i : ℕ) : i ∈ full n ↔ i < n := by
  simp only [mem_def, full]
  split_ifs with h
  · rw [WordSet.test_set _ (by simp; omega), WordSet.test_replicate_allOnes (by decide)]
    split_ifs with hi
    · rw [WordSet.getLsbD_lowMask (Nat.mod_lt _ (by decide)), decide_eq_true_iff]
      omega
    · rw [decide_eq_true_iff]
      omega
  · rw [WordSet.test_replicate_allOnes (by decide), decide_eq_true_iff]
    omega

/-- Two valid sets with the same elements list them in the same order. -/
theorem iter_congr {s t : ResolutionSet} (h : ∀ i, i ∈ s ↔ i ∈ t) : s.iter = t.iter := by
  refine List.Perm.eq_of_pairwise ?_ s.iter_pairwise t.iter_pairwise ?_
  · exact fun a b _ _ hab hba => absurd hba (not_lt.mpr hab.le)
  · exact (List.perm_ext_iff_of_nodup s.iter_nodup t.iter_nodup).mpr (by simpa [mem_iter] using h)

theorem iter_full (n : ℕ) : (full n).iter = List.range n := by
  refine List.Perm.eq_of_pairwise ?_ (full n).iter_pairwise List.pairwise_lt_range ?_
  · exact fun a b _ _ hab hba => absurd hba (not_lt.mpr hab.le)
  · refine (List.perm_ext_iff_of_nodup (full n).iter_nodup List.nodup_range).mpr fun i => ?_
    rw [mem_iter, mem_full, List.mem_range]

theorem empty_valid (n : ℕ) : (empty n).Valid n where
  length := by simp [empty]
  bound i hi := absurd hi (notMem_empty n i)
  count := by
    refine (List.length_eq_zero_iff.mpr (List.eq_nil_iff_forall_not_mem.mpr fun i hi => ?_)).symm
    exact notMem_empty n i ((mem_iter _ i).mp hi)

theorem full_valid (n : ℕ) : (full n).Valid n where
  length := by simp only [full]; split_ifs <;> simp
  bound i hi := (mem_full n i).mp hi
  count := by rw [iter_full, List.length_range]; rfl

section Insert

variable {n : ℕ} {s : ResolutionSet} (hs : s.Valid n) {idx : ℕ} (h : idx < n)
include hs h

theorem Valid.word_lt : idx / 64 < s.bits.length := by
  rw [hs.length]
  omega

theorem mem_insert (i : ℕ) : i ∈ s.insert idx ↔ i = idx ∨ i ∈ s := by
  unfold insert
  dsimp only
  split_ifs with hbit
  · rw [mem_def, WordSet.test_modify_or (by decide) s.bits (hs.word_lt h)]
    simp [mem_def]
  · have hmem : idx ∈ s := (WordSet.and_bit_ne_zero _ (Nat.mod_lt _ (by decide))).mp hbit
    constructor
    · exact .inr
    · rintro (rfl | hi)
      · exact hmem
      · exact hi

theorem insert_valid : (s.insert idx).Valid n where
  length := by
    unfold insert
    dsimp only
    split_ifs <;> simp [hs.length]
  bound i hi := by
    rcases (mem_insert hs h i).mp hi with rfl | hi
    · exact h
    · exact hs.bound i hi
  count := by
    by_cases hmem : idx ∈ s
    · have hsame : (s.insert idx).iter = s.iter := iter_congr fun i => by
        rw [mem_insert hs h]
        exact ⟨fun hi => hi.elim (fun e => e ▸ hmem) id, .inr⟩
      have hbit := (WordSet.and_bit_ne_zero _ (Nat.mod_lt idx (by decide))).mpr hmem
      rw [hsame, ← hs.count]
      simp only [insert, if_neg hbit]
    · have hbit : ¬ s.bits.getD (idx / 64) 0 &&& (1#64 <<< (idx % 64)) ≠ 0 := fun hb =>
        hmem ((WordSet.and_bit_ne_zero _ (Nat.mod_lt idx (by decide))).mp hb)
      have hperm : (s.insert idx).iter.Perm (idx :: s.iter) := by
        refine (List.perm_ext_iff_of_nodup (iter_nodup _) ?_).mpr fun i => ?_
        · exact List.nodup_cons.mpr ⟨fun hi => hmem ((mem_iter s idx).mp hi), s.iter_nodup⟩
        · rw [mem_iter, mem_insert hs h, List.mem_cons, mem_iter]
      rw [hperm.length_eq, List.length_cons, ← hs.count]
      simp only [insert, if_pos (not_not.mp hbit)]

end Insert

section Intersect

variable {n : ℕ} {s t : ResolutionSet} (hs : s.Valid n) (ht : t.Valid n)
include hs ht

theorem Valid.length_eq : s.bits.length = t.bits.length := by rw [hs.length, ht.length]

theorem mem_intersectWith (i : ℕ) : i ∈ s.intersectWith t ↔ i ∈ s ∧ i ∈ t := by
  rw [mem_def, intersectWith, WordSet.test_andWith (by decide) (hs.length_eq ht)]
  simp [mem_def]

theorem intersectWith_valid : (s.intersectWith t).Valid n where
  length := by rw [intersectWith, WordSet.length_andWith, hs.length]
  bound i hi := hs.bound i ((mem_intersectWith hs ht i).mp hi).1
  count := by
    rw [iter, WordSet.length_members, intersectWith,
      WordSet.andWith_eq_zipWith (hs.length_eq ht)]

theorem intersects_iff : s.intersects t ↔ ∃ i, i ∈ s ∧ i ∈ t := by
  rw [intersects, ← WordSet.andWith_eq_zipWith (hs.length_eq ht),
    WordSet.any_ne_zero_iff (by decide)]
  exact exists_congr fun i => mem_intersectWith hs ht i

end Intersect

theorem Valid.isEmpty_iff {n : ℕ} {s : ResolutionSet} (hs : s.Valid n) :
    s.isEmpty ↔ ∀ i, i ∉ s := by
  rw [isEmpty, beq_iff_eq, hs.count, List.length_eq_zero_iff, List.eq_nil_iff_forall_not_mem]
  simp [mem_iter]

/-- One resolution is left exactly when the set is a singleton, and `first` finds it. -/
theorem Valid.len_eq_one_iff {n : ℕ} {s : ResolutionSet} (hs : s.Valid n) (r : ℕ) :
    s.len = 1 ∧ s.first = some r ↔ ∀ i, i ∈ s ↔ i = r := by
  rw [len, hs.count, first_eq_head?]
  constructor
  · rintro ⟨hlen, hhead⟩ i
    obtain ⟨a, ha⟩ := List.length_eq_one_iff.mp hlen
    rw [ha] at hhead
    obtain rfl : a = r := by simpa using hhead
    rw [← mem_iter, ha, List.mem_singleton]
  · intro h
    have hperm : s.iter.Perm [r] :=
      (List.perm_ext_iff_of_nodup s.iter_nodup (List.nodup_singleton r)).mpr fun i => by
        rw [mem_iter, h, List.mem_singleton]
    rw [List.perm_singleton.mp hperm]
    simp

end ResolutionSet

end Facet.Flatten
