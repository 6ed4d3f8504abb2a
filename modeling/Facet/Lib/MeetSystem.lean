import Mathlib
import Facet.Lib.LabelledGraph

/-!
# Meet equations over a labelled graph

Every vertex has a base value in a complete lattice and its value is the meet of
that base with the values of its successors, each transformed by the label of the
edge. The system is read in the greatest solution. It is characterized by the
walks of the graph, and a depth-first evaluation that cuts every cycle with `⊤` is
characterized by its chains; comparing the two says when cutting is sound.
-/

/-- A monoid acting on a complete lattice by maps that preserve all meets. -/
class MeetAction (M L : Type*) [Monoid M] [CompleteLattice L] extends MulAction M L where
  lower : M → L → L
  gc : ∀ m : M, GaloisConnection (lower m) (fun a => m • a)

namespace MeetAction

variable {M L : Type*} [Monoid M] [CompleteLattice L] [MeetAction M L]

theorem le_smul_iff (m : M) (a b : L) : a ≤ m • b ↔ lower m a ≤ b :=
  (gc m a b).symm

theorem smul_mono (m : M) {a b : L} (h : a ≤ b) : m • a ≤ m • b :=
  (gc m).monotone_u h

@[simp] theorem smul_top (m : M) : m • (⊤ : L) = ⊤ :=
  (gc m).u_top

end MeetAction

structure MeetSystem (ι M L : Type*) where
  base : ι → L
  edges : ι → List (M × ι)

namespace MeetSystem

open LabelledGraph MeetAction

variable {ι M L : Type*} [CompleteLattice L]

section Solution

variable [Monoid M] [MeetAction M L] (S : MeetSystem ι M L)

/-- The right-hand sides of the equations, as a monotone map on assignments. -/
def equations : (ι → L) →o (ι → L) where
  toFun v i := S.base i ⊓ ⨅ e ∈ S.edges i, e.1 • v e.2
  monotone' _ _ h _ := inf_le_inf_left _ (iInf₂_mono fun e _ => smul_mono e.1 (h e.2))

theorem le_equations_iff (v : ι → L) (a : L) (i : ι) :
    a ≤ S.equations v i ↔ a ≤ S.base i ∧ ∀ e ∈ S.edges i, a ≤ e.1 • v e.2 := by
  change a ≤ S.base i ⊓ (⨅ e ∈ S.edges i, e.1 • v e.2) ↔ _
  rw [le_inf_iff, le_iInf₂_iff]

/-- The greatest solution of the equations. -/
noncomputable def solution : ι → L := OrderHom.gfp S.equations

theorem solution_eq (i : ι) : S.equations S.solution i = S.solution i :=
  congrFun (OrderHom.map_gfp S.equations) i

theorem solution_le_base (i : ι) : S.solution i ≤ S.base i :=
  ((S.le_equations_iff _ _ i).mp (S.solution_eq i).ge).1

theorem solution_le_smul {i : ι} {e : M × ι} (he : e ∈ S.edges i) :
    S.solution i ≤ e.1 • S.solution e.2 :=
  ((S.le_equations_iff _ _ i).mp (S.solution_eq i).ge).2 e he

theorem solution_le_walk {i k : ι} {p : M} (h : Walk S.edges i p k) :
    S.solution i ≤ p • S.base k := by
  induction h with
  | nil i => simpa using S.solution_le_base i
  | @cons i j k m p he _ ih =>
    calc S.solution i ≤ m • S.solution j := S.solution_le_smul he
      _ ≤ m • p • S.base k := smul_mono m ih
      _ = (m * p) • S.base k := smul_smul m p _

/-- The greatest solution is the meet, over all walks, of the transformed bases. -/
theorem le_solution_iff (a : L) (i : ι) :
    a ≤ S.solution i ↔ ∀ k p, Walk S.edges i p k → a ≤ p • S.base k := by
  constructor
  · intro h k p hw
    exact h.trans (S.solution_le_walk hw)
  · intro h
    let w : ι → L := fun i => ⨅ k, ⨅ p, ⨅ _ : Walk S.edges i p k, p • S.base k
    have hwi : ∀ {i k p}, Walk S.edges i p k → w i ≤ p • S.base k :=
      fun {i k p} hw => iInf_le_of_le k (iInf_le_of_le p (iInf_le_of_le hw le_rfl))
    have hpost : w ≤ S.equations w := by
      intro i
      refine (S.le_equations_iff w _ i).mpr ⟨by simpa using hwi (Walk.nil i), ?_⟩
      intro e he
      rw [le_smul_iff]
      refine le_iInf fun k => le_iInf fun p => le_iInf fun hw => ?_
      rw [← le_smul_iff, smul_smul]
      exact hwi (Walk.cons he hw)
    refine le_trans ?_ (OrderHom.le_gfp S.equations hpost i)
    exact le_iInf fun k => le_iInf fun p => le_iInf fun hw => h k p hw

end Solution

section Search

variable [DecidableEq ι] [SMul M L] (S : MeetSystem ι M L)

/-- Depth-first evaluation: a vertex that is being evaluated counts as `⊤`, and with
no room left for another vertex the value is `⊥`. -/
def search : ℕ → List ι → ι → L
  | room, visited, i =>
    if i ∈ visited then ⊤
    else match room with
      | 0 => ⊥
      | room + 1 =>
        ((S.edges i).map fun e => e.1 • search room (i :: visited) e.2).foldl
          (· ⊓ ·) (S.base i)

theorem le_foldl_inf_iff (a b : L) (l : List L) :
    a ≤ l.foldl (· ⊓ ·) b ↔ a ≤ b ∧ ∀ x ∈ l, a ≤ x := by
  induction l generalizing b with
  | nil => simp
  | cons x l ih => simp [ih, and_assoc]

theorem foldl_inf_bot (l : List L) : l.foldl (· ⊓ ·) ⊥ = ⊥ :=
  le_bot_iff.mp ((le_foldl_inf_iff _ ⊥ l).mp le_rfl).1

end Search

section Compare

variable [DecidableEq ι] [Monoid M] [MeetAction M L] (S : MeetSystem ι M L)

/-- The search sees exactly the chains: their ends when they fit the room, and the
bottom value when they do not. -/
theorem le_search_iff (room : ℕ) (visited : List ι)
    (i : ι) (a : L) :
    a ≤ S.search room visited i ↔ ∀ k p n, Chain S.edges {x | x ∈ visited} i p k n →
      a ≤ p • (if n ≤ room then S.base k else ⊥) := by
  induction room generalizing visited i a with
  | zero =>
    by_cases hi : i ∈ visited
    · simp only [search, if_pos hi, le_top, true_iff]
      exact fun k p n h => absurd hi h.start_notMem
    · simp only [search, if_neg hi]
      constructor
      · exact fun h k p n _ => h.trans bot_le
      · intro h
        simpa using h i 1 1 (Chain.nil hi)
  | succ room ih =>
    by_cases hi : i ∈ visited
    · simp only [search, if_pos hi, le_top, true_iff]
      exact fun k p n h => absurd hi h.start_notMem
    · have hset : {x | x ∈ i :: visited} = insert i {x | x ∈ visited} := by
        ext x; simp
      rw [search]
      simp only [if_neg hi, le_foldl_inf_iff, List.forall_mem_map, le_smul_iff, ih, hset]
      simp only [← le_smul_iff, smul_smul]
      constructor
      · rintro ⟨hb, he⟩ k p n hc
        cases hc with
        | nil _ => simpa using hb
        | @cons _ _ j _ m p n _ hm hc => simpa using he (m, j) hm k p n hc
      · intro h
        refine ⟨by simpa using h i 1 1 (Chain.nil hi), ?_⟩
        intro e he k p n hc
        simpa using h k (e.1 * p) (n + 1) (Chain.cons hi he hc)

theorem solution_le_search {room : ℕ} {i : ι}
    (hroom : ∀ k p n, Chain S.edges ∅ i p k n → n ≤ room) :
    S.solution i ≤ S.search room [] i := by
  rw [S.le_search_iff]
  intro k p n hc
  replace hc : Chain S.edges ∅ i p k n := by simpa using hc
  rw [if_pos (hroom k p n hc)]
  exact S.solution_le_walk hc.walk

/-- Cutting cycles is sound when no twisted loop leads on to a constraining base. -/
theorem search_le_solution {room : ℕ} {i : ι}
    (h : ¬ Twisted S.edges (fun k => S.base k ≠ ⊤) i) :
    S.search room [] i ≤ S.solution i := by
  rw [S.le_solution_iff]
  intro k p hw
  by_cases hk : S.base k = ⊤
  · simp [hk]
  · obtain ⟨n, hc⟩ := hw.exists_chain hk h
    have hs := (S.le_search_iff room [] i _).mp le_rfl k p n (by simpa using hc)
    split_ifs at hs with hn
    · exact hs
    · exact hs.trans (smul_mono p bot_le)

end Compare

/-- Around a twisted loop a constraint meets its own transform. -/
theorem solution_eq_bot [CommMonoid M] [MeetAction M L] (S : MeetSystem ι M L)
    (hclash : ∀ (m p : M) (a : L), m ≠ 1 → a ≠ ⊤ → p • a ⊓ (m * p) • a = ⊥) {i : ι}
    (h : Twisted S.edges (fun k => S.base k ≠ ⊤) i) : S.solution i = ⊥ := by
  obtain ⟨j, k, p, m, q, hp, hm, hne, hq, hk⟩ := h
  have hshort := S.solution_le_walk (hp.trans hq)
  have hlong := S.solution_le_walk ((hp.trans hm).trans hq)
  rw [mul_comm p m, mul_assoc] at hlong
  exact le_bot_iff.mp (hclash m (p * q) _ hne hk ▸ le_inf hshort hlong)

end MeetSystem
