import Facet.Frames.Frame
import Facet.Lib.WordSet

/-!
# Field sets as machine words

The set of initialised fields is one word for up to 64 fields and a list of words beyond. Both are
read here as sets of indices, and every operation on the words as the operation on these sets. An
index out of range is a panic.
-/

namespace Facet.Frames

inductive ISetInner
  | small (flags : BitVec 64)
  | large (words : List (BitVec 64))

namespace ISetInner

def new (count : ℕ) : ISetInner :=
  if count ≤ 64 then .small 0 else .large (List.replicate ((count + 63) / 64) 0)

def set : ISetInner → ℕ → Option ISetInner
  | .small flags, index =>
    if index < 64 then some (.small (flags ||| (1#64 <<< index))) else none
  | .large words, index =>
    if index / 64 < words.length then
      some (.large (words.modify (index / 64) (· ||| (1#64 <<< (index % 64)))))
    else none

def unset : ISetInner → ℕ → Option ISetInner
  | .small flags, index =>
    if index < 64 then some (.small (flags &&& ~~~(1#64 <<< index))) else none
  | .large words, index =>
    if index / 64 < words.length then
      some (.large (words.modify (index / 64) (· &&& ~~~(1#64 <<< (index % 64)))))
    else none

def get : ISetInner → ℕ → Option Bool
  | .small flags, index => if index < 64 then some (flags &&& (1#64 <<< index) != 0) else none
  | .large words, index =>
    words[index / 64]?.map fun word => word &&& (1#64 <<< (index % 64)) != 0

/-- The lowest bits of a word. -/
def mask (count : ℕ) : BitVec 64 := (1#64 <<< count) - 1#64

def allSet (iset : ISetInner) (count : ℕ) : Bool :=
  if count = 0 then true
  else
    match iset with
    | .small flags =>
      if 64 ≤ count then flags = BitVec.allOnes 64 else flags &&& mask count = mask count
    | .large words =>
      let fullWords := count / 64
      let remainingBits := count % 64
      (words.take fullWords).all (· = BitVec.allOnes 64) &&
        (remainingBits = 0 || words[fullWords]?.all fun word =>
          word &&& mask remainingBits = mask remainingBits)

def setAll : ISetInner → ℕ → ISetInner
  | .small flags, count =>
    .small (if 64 ≤ count then BitVec.allOnes 64 else flags ||| mask count)
  | .large words, count =>
    let fullWords := count / 64
    let filled := (words.take fullWords).map (fun _ => BitVec.allOnes 64) ++ words.drop fullWords
    .large (if count % 64 = 0 then filled
      else filled.modify fullWords (· ||| mask (count % 64)))

def words : ISetInner → List (BitVec 64)
  | .small flags => [flags]
  | .large words => words

/-- The indices that there are bits for. -/
def capacity (iset : ISetInner) : ℕ := 64 * iset.words.length

/-- The bits are the elements of the set. -/
def Models (iset : ISetInner) (s : ISet) : Prop :=
  ∀ i < iset.capacity, WordSet.test iset.words i = s.get i

variable {iset : ISetInner} {s : ISet} {index count : ℕ}

theorem div_lt_length (h : index < iset.capacity) : index / 64 < iset.words.length := by
  unfold capacity at h
  omega

/-- A set that is one word is treated like a list of that word. -/
theorem small_index (flags : BitVec 64) (h : index < (small flags).capacity) :
    index < 64 ∧ index / 64 = 0 ∧ index % 64 = index := by
  have hlt : index < 64 := by simpa [capacity, words] using h
  omega

theorem exists_set (h : index < iset.capacity) :
    ∃ iset', iset.set index = some iset' ∧
      iset'.words = iset.words.modify (index / 64) (· ||| (1#64 <<< (index % 64))) := by
  cases iset with
  | small flags =>
    obtain ⟨hlt, hdiv, hmod⟩ := small_index flags h
    exact ⟨_, if_pos hlt, by simp [words, hdiv, hmod]⟩
  | large ws => exact ⟨_, if_pos (div_lt_length h), rfl⟩

theorem exists_unset (h : index < iset.capacity) :
    ∃ iset', iset.unset index = some iset' ∧
      iset'.words = iset.words.modify (index / 64) (· &&& ~~~(1#64 <<< (index % 64))) := by
  cases iset with
  | small flags =>
    obtain ⟨hlt, hdiv, hmod⟩ := small_index flags h
    exact ⟨_, if_pos hlt, by simp [words, hdiv, hmod]⟩
  | large ws => exact ⟨_, if_pos (div_lt_length h), rfl⟩

theorem get_eq (h : index < iset.capacity) :
    iset.get index = some (WordSet.test iset.words index) := by
  have hbit (word : BitVec 64) {b : ℕ} (hb : b < 64) :
      (word &&& (1#64 <<< b) != 0) = word.getLsbD b := by
    rw [Bool.eq_iff_iff, bne_iff_ne]
    exact WordSet.and_bit_ne_zero word hb
  have hmod : index % 64 < 64 := Nat.mod_lt index (by decide)
  cases iset with
  | small flags =>
    obtain ⟨hlt, hdiv, -⟩ := small_index flags h
    rw [get, if_pos hlt, hbit flags hlt, words, WordSet.test_cons_lt _ _ hlt]
  | large ws =>
    have hlen : index / 64 < ws.length := div_lt_length h
    rw [get, words, WordSet.test_eq_getLsbD ws hlen, List.getElem?_eq_getElem hlen,
      Option.map_some, hbit _ hmod]

theorem capacity_setAll (iset : ISetInner) (count : ℕ) :
    (iset.setAll count).capacity = iset.capacity := by
  cases iset with
  | small flags => rfl
  | large ws =>
    have hlen : (ws.take (count / 64)).length + (ws.drop (count / 64)).length = ws.length := by
      rw [← List.length_append, List.take_append_drop]
    simp only [capacity, setAll, words]
    split_ifs <;> simp <;> omega

theorem test_setAll (hcount : count ≤ iset.capacity) (h : index < iset.capacity) :
    WordSet.test (iset.setAll count).words index =
      (decide (index < count) || WordSet.test iset.words index) := by
  cases iset with
  | small flags =>
    obtain ⟨hlt, -, -⟩ := small_index flags h
    rw [setAll, words, words, WordSet.test_cons_lt _ _ hlt, WordSet.test_cons_lt _ _ hlt]
    split_ifs with hfull
    · have hindex : index < count := by omega
      rw [BitVec.getLsbD_allOnes]
      simp only [hlt, hindex, decide_true, Bool.true_or]
    · rw [BitVec.getLsbD_or, mask, WordSet.getLsbD_lowMask (not_le.mp hfull), Bool.or_comm]
  | large ws =>
    have hk : count / 64 ≤ ws.length := by
      simp only [capacity, words] at hcount
      omega
    simp only [setAll, words]
    split_ifs with hrest
    · rw [WordSet.test_fill (by decide) ws hk]
      have hiff : index / 64 < count / 64 ↔ index < count := by omega
      simp only [hiff]
    · have hlt : count / 64 < ws.length := by
        simp only [capacity, words] at hcount
        omega
      rw [WordSet.test_modify _ (by simp; omega),
        WordSet.test_fill (by decide) ws hk]
      split_ifs with hword
      · have hbit := WordSet.getLsbD_lowMask (w := 64) (Nat.mod_lt count (by decide)) (index % 64)
        have hiff : index % 64 < count % 64 ↔ index < count := by omega
        have htest := WordSet.test_fill (by decide) ws hk index
        rw [WordSet.test_eq_getLsbD _ (by simp; omega)] at htest
        have hnot : ¬ index / 64 < count / 64 := by omega
        simp only [hword] at htest
        rw [BitVec.getLsbD_or, mask, hbit, htest]
        simp [hiff, Bool.or_comm]
      · have hiff : index / 64 < count / 64 ↔ index < count := by omega
        simp only [hiff]

theorem test_set (h : index < iset.capacity) {iset' : ISetInner}
    (hset : iset.set index = some iset') :
    iset'.capacity = iset.capacity ∧
      ∀ i, WordSet.test iset'.words i = (decide (i = index) || WordSet.test iset.words i) := by
  obtain ⟨result, hresult, hwords⟩ := exists_set h
  cases hset.symm.trans hresult
  constructor
  · rw [capacity, capacity, hwords, List.length_modify]
  · intro i
    rw [hwords, WordSet.test_modify_or (by decide) _ (div_lt_length h)]

theorem test_unset (h : index < iset.capacity) {iset' : ISetInner}
    (hunset : iset.unset index = some iset') :
    iset'.capacity = iset.capacity ∧
      ∀ i, WordSet.test iset'.words i = (!decide (i = index) && WordSet.test iset.words i) := by
  obtain ⟨result, hresult, hwords⟩ := exists_unset h
  cases hunset.symm.trans hresult
  constructor
  · rw [capacity, capacity, hwords, List.length_modify]
  · intro i
    rw [hwords, WordSet.test_modify_andNot (by decide) _ (div_lt_length h)]

/-- The words before the last, partial one hold the indices below its first. -/
theorem all_full_iff (ws : List (BitVec 64)) {k : ℕ} (hk : k ≤ ws.length) :
    (ws.take k).all (· = BitVec.allOnes 64) ↔ ∀ i < 64 * k, WordSet.test ws i := by
  rw [List.all_eq_true]
  constructor
  · intro hall i hi
    have hword : i / 64 < k := by omega
    have hmem : ws[i / 64] ∈ ws.take k :=
      List.mem_take_iff_getElem.mpr ⟨i / 64, by omega, rfl⟩
    have hones := (WordSet.eq_allOnes_iff _).mp (of_decide_eq_true (hall _ hmem))
    rw [WordSet.test_eq_getLsbD ws (by omega)]
    exact hones _ (Nat.mod_lt i (by decide))
  · intro htest word hword
    obtain ⟨j, hj, rfl⟩ := List.mem_take_iff_getElem.mp hword
    apply decide_eq_true
    apply (WordSet.eq_allOnes_iff _).mpr
    intro b hb
    have hdiv : (64 * j + b) / 64 = j := by omega
    have hmod : (64 * j + b) % 64 = b := by omega
    have hbit := htest (64 * j + b) (by omega)
    rw [WordSet.test_eq_getLsbD ws (by omega)] at hbit
    simpa only [hdiv, hmod] using hbit

theorem allSet_iff (h : count ≤ iset.capacity) :
    iset.allSet count ↔ ∀ i < count, WordSet.test iset.words i := by
  by_cases hzero : count = 0
  · simp [allSet, hzero]
  cases iset with
  | small flags =>
    have hle : count ≤ 64 := by simpa [capacity, words] using h
    have htest : (∀ i < count, WordSet.test (small flags).words i) ↔
        ∀ i < count, flags.getLsbD i := by
      constructor
      · intro hall i hi
        rw [← WordSet.test_cons_lt flags [] (by omega : i < 64)]
        exact hall i hi
      · intro hall i hi
        rw [words, WordSet.test_cons_lt flags [] (by omega)]
        exact hall i hi
    rw [htest]
    simp only [allSet, if_neg hzero]
    split_ifs with hfull
    · have hcount : count = 64 := by omega
      rw [hcount, decide_eq_true_eq, WordSet.eq_allOnes_iff]
    · rw [decide_eq_true_eq, mask, WordSet.and_lowMask_eq_iff (not_le.mp hfull)]
  | large ws =>
    have hlen : count ≤ 64 * ws.length := h
    have hmod : count % 64 < 64 := Nat.mod_lt count (by decide)
    simp only [allSet, if_neg hzero, Bool.and_eq_true,
      all_full_iff ws (by omega : count / 64 ≤ ws.length), words]
    -- the indices below `count` are those of the full words and those of the partial word
    constructor
    · rintro ⟨hfull, hrest⟩ i hi
      by_cases hword : i < 64 * (count / 64)
      · exact hfull i hword
      · have hdiv : i / 64 = count / 64 := by omega
        have hin : count / 64 < ws.length := by omega
        have hne : ¬ count % 64 = 0 := by omega
        simp only [hne, decide_false, Bool.false_or, List.getElem?_eq_getElem hin, Option.all_some,
          decide_eq_true_eq, mask, WordSet.and_lowMask_eq_iff hmod]
          at hrest
        rw [WordSet.test_eq_getLsbD ws (by omega)]
        simpa only [hdiv] using hrest (i % 64) (by omega)
    · intro hall
      constructor
      · intro i hi
        exact hall i (by omega)
      · by_cases hrest : count % 64 = 0
        · simp [hrest]
        · have hin : count / 64 < ws.length := by omega
          simp only [hrest, decide_false, Bool.false_or, List.getElem?_eq_getElem hin,
            Option.all_some, decide_eq_true_eq, mask,
            WordSet.and_lowMask_eq_iff hmod]
          intro b hb
          have hdiv : (64 * (count / 64) + b) / 64 = count / 64 := by omega
          have hmod : (64 * (count / 64) + b) % 64 = b := by omega
          have hbit := hall (64 * (count / 64) + b) (by omega)
          rw [WordSet.test_eq_getLsbD ws (by omega)] at hbit
          simpa only [hdiv, hmod] using hbit

inductive Op
  | set (index : ℕ)
  | unset (index : ℕ)
  | setAll (count : ℕ)

/-- The operation touches indices below `n` only. -/
def Op.Below (n : ℕ) : Op → Prop
  | .set index => index < n
  | .unset index => index < n
  | .setAll count => count ≤ n

def apply (iset : ISetInner) : Op → Option ISetInner
  | .set index => iset.set index
  | .unset index => iset.unset index
  | .setAll count => some (iset.setAll count)

/-- The operation on the finite set of indices. -/
def Op.denote (s : ISet) : Op → ISet
  | .set index => s.set index
  | .unset index => s.unset index
  | .setAll count => s.setAll count

theorem Models.exists_apply {n : ℕ} (hn : n ≤ iset.capacity) (h : iset.Models s) {op : Op}
    (hop : op.Below n) :
    ∃ iset', iset.apply op = some iset' ∧ iset'.capacity = iset.capacity ∧
      iset'.Models (op.denote s) := by
  cases op with
  | set index =>
    have hindex : index < iset.capacity := lt_of_lt_of_le hop hn
    obtain ⟨iset', hset, -⟩ := exists_set hindex
    obtain ⟨hcap, htest⟩ := test_set hindex hset
    refine ⟨iset', hset, hcap, ?_⟩
    intro i hi
    rw [htest, h i (hcap ▸ hi)]
    simp [Op.denote, ISet.set, ISet.get, Finset.mem_insert]
  | unset index =>
    have hindex : index < iset.capacity := lt_of_lt_of_le hop hn
    obtain ⟨iset', hunset, -⟩ := exists_unset hindex
    obtain ⟨hcap, htest⟩ := test_unset hindex hunset
    refine ⟨iset', hunset, hcap, ?_⟩
    intro i hi
    rw [htest, h i (hcap ▸ hi)]
    simp [Op.denote, ISet.unset, ISet.get, Finset.mem_erase]
  | setAll count =>
    have hcap := capacity_setAll iset count
    refine ⟨iset.setAll count, rfl, hcap, ?_⟩
    intro i hi
    rw [hcap] at hi
    rw [test_setAll (le_trans hop hn) hi, h i hi]
    simp [Op.denote, ISet.setAll, ISet.get, Finset.mem_union, Bool.or_comm]

theorem Models.exists_foldlM {n : ℕ} {ops : List Op} (hops : ∀ op ∈ ops, op.Below n)
    (hn : n ≤ iset.capacity) (h : iset.Models s) :
    ∃ iset', ops.foldlM apply iset = some iset' ∧ iset'.capacity = iset.capacity ∧
      iset'.Models (ops.foldl Op.denote s) := by
  induction ops generalizing iset s with
  | nil => exact ⟨iset, rfl, rfl, h⟩
  | cons op ops ih =>
    obtain ⟨next, hnext, hcap, hmodels⟩ := h.exists_apply hn (hops op List.mem_cons_self)
    obtain ⟨iset', hrun, hcap', hmodels'⟩ :=
      ih (fun op' hmem => hops op' (List.mem_cons_of_mem op hmem)) (hcap ▸ hn) hmodels
    refine ⟨iset', ?_, hcap'.trans hcap, hmodels'⟩
    rw [List.foldlM_cons, hnext]
    exact hrun

/-- No bit is set and there are bits for the indices below `n`; both representations have such
sets. -/
def IsEmpty (n : ℕ) (iset : ISetInner) : Prop :=
  (∀ word ∈ iset.words, word = 0) ∧ n ≤ iset.capacity

theorem isEmpty_new (n : ℕ) : (new n).IsEmpty n := by
  rw [new]
  split_ifs with hsmall
  · constructor
    · simp [words]
    · simpa [capacity, words] using hsmall
  · constructor
    · intro word hword
      exact List.eq_of_mem_replicate hword
    · simp only [capacity, words, List.length_replicate]
      omega

theorem IsEmpty.models {n : ℕ} (h : iset.IsEmpty n) : iset.Models (ISet.new n) := by
  intro i _
  have hwords : iset.words = List.replicate iset.words.length 0 :=
    List.eq_replicate_of_mem h.1
  rw [hwords, WordSet.test_replicate_zero]
  simp [ISet.new, ISet.get]

theorem Models.get_eq (h : iset.Models s) (hindex : index < iset.capacity) :
    iset.get index = some (s.get index) := by
  rw [ISetInner.get_eq hindex, h index hindex]

theorem Models.allSet_eq (h : iset.Models s) (hcount : count ≤ iset.capacity) :
    iset.allSet count = s.allSet count := by
  rw [Bool.eq_iff_iff, allSet_iff hcount, ISet.allSet, List.all_eq_true]
  constructor
  · intro hall i hi
    have hlt := List.mem_range.mp hi
    rw [← h i (by omega)]
    exact hall i hlt
  · intro hall i hi
    rw [h i (by omega)]
    exact hall i (List.mem_range.mpr hi)

/-- However the words are arranged, a run of operations within the field count succeeds and
answers like the finite set of indices. -/
theorem run_answers (n : ℕ) (start : ISetInner) (hstart : start.IsEmpty n) (ops : List Op)
    (hops : ∀ op ∈ ops, op.Below n) :
    (new n).IsEmpty n ∧
    ∃ iset, ops.foldlM apply start = some iset ∧
      (∀ i < n, iset.get i = some (decide (i ∈ ops.foldl Op.denote ∅))) ∧
      (∀ count ≤ n, iset.allSet count = true ↔ ∀ i < count, i ∈ ops.foldl Op.denote ∅) := by
  refine ⟨isEmpty_new n, ?_⟩
  obtain ⟨iset, hrun, hcap, hmodels⟩ := hstart.models.exists_foldlM hops hstart.2
  refine ⟨iset, hrun, ?_, ?_⟩
  · intro i hi
    exact hmodels.get_eq (by rw [hcap]; exact lt_of_lt_of_le hi hstart.2)
  · intro count hcount
    rw [hmodels.allSet_eq (by rw [hcap]; exact le_trans hcount hstart.2), ISet.allSet,
      List.all_eq_true]
    simp only [List.mem_range]
    constructor
    · intro hall i hi
      exact of_decide_eq_true (hall i hi)
    · intro hall i hi
      exact decide_eq_true (hall i hi)

theorem run_answers_boundary :
    let ops := [Op.setAll 65, .unset 64, .set 3]
    (new 65).IsEmpty 65 ∧
    ∃ iset, ops.foldlM apply (new 65) = some iset ∧
      (∀ i < 65, iset.get i = some (decide (i ∈ ops.foldl Op.denote ∅))) ∧
      (∀ count ≤ 65, iset.allSet count = true ↔ ∀ i < count, i ∈ ops.foldl Op.denote ∅) :=
  run_answers 65 (new 65) (isEmpty_new 65) _ (by simp [Op.Below])

end ISetInner

end Facet.Frames
