import Mathlib.Data.Finite.Prod
import Mathlib.Data.Fintype.Card
import Mathlib.Data.Fintype.Order
import Mathlib.Logic.Relation
import Mathlib.Tactic.Choose

/-!
# Recursion along the references of a graph

A computation that needs a result for everything a node refers to, and nothing else, ends
exactly where the references can be followed only finitely often. In a finite graph this means
that no node reached leads back to itself.
-/

namespace Descent

open Relation

variable {ι α : Type*} {next : ι → List ι}

/-- The node refers to the other one. -/
def Refers (next : ι → List ι) (a b : ι) : Prop := b ∈ next a

theorem acc_of_reaches {a b : ι} (h : Acc (flip (Refers next)) a)
    (hab : ReflTransGen (Refers next) a b) : Acc (flip (Refers next)) b := by
  induction hab with
  | refl => exact h
  | tail _ hbc ih => exact ih.inv hbc

theorem not_transGen_self_of_acc {a : ι} (h : Acc (flip (Refers next)) a) :
    ¬ TransGen (Refers next) a a := by
  have htrans : Acc (TransGen (flip (Refers next))) a := h.transGen
  intro hcycle
  have hback : TransGen (flip (Refers next)) a a := transGen_swap.mp hcycle
  induction htrans with
  | intro a _ ih => exact ih a hback (h.inv_of_transGen hback) hcycle hback

/-- In a finite graph the references of a node can be followed only finitely often exactly
when none of the nodes reached leads back to itself. -/
theorem acc_iff_no_cycle [Finite ι] (a : ι) :
    Acc (flip (Refers next)) a ↔
      ∀ b, ReflTransGen (Refers next) a b → ¬ TransGen (Refers next) b b := by
  constructor
  · intro h b hab
    exact not_transGen_self_of_acc (acc_of_reaches h hab)
  · intro h
    -- below the node the transitive references are a strict order on finitely many nodes
    let Below := {b // ReflTransGen (Refers next) a b}
    let under : Below → Below → Prop := fun b c => TransGen (Refers next) c.1 b.1
    have hfinite : Finite Below := inferInstanceAs (Finite {b // ReflTransGen (Refers next) a b})
    have htrans : IsTrans Below under := ⟨fun b c d hbc hcd => hcd.trans hbc⟩
    have hirrefl : Std.Irrefl under := ⟨fun b hb => h b.1 b.2 hb⟩
    have hwf : WellFounded under := Finite.wellFounded_of_trans_of_irrefl under
    have hacc : ∀ b : Below, Acc (flip (Refers next)) b.1 := by
      intro b
      induction b using hwf.induction with
      | _ b ih =>
        constructor
        intro c hc
        exact ih ⟨c, b.2.tail hc⟩ (.single hc)
    exact hacc ⟨a, .refl⟩

theorem isSome_of_le {run : ℕ → ι → Option α} (hzero : ∀ a, run 0 a = none)
    (hstep : ∀ n a, (run (n + 1) a).isSome ↔ ∀ b ∈ next a, (run n b).isSome) {n m : ℕ} {a : ι}
    (hle : n ≤ m) (h : (run n a).isSome) : (run m a).isSome := by
  induction n generalizing m a with
  | zero => simp [hzero] at h
  | succ n ih =>
    obtain ⟨m, rfl⟩ : ∃ k, m = k + 1 := ⟨m - 1, by omega⟩
    rw [hstep] at h ⊢
    intro b hb
    exact ih (by omega) (h b hb)

/-- The computation ends, with enough fuel, exactly where the references are well-founded. -/
theorem exists_isSome_iff_acc {run : ℕ → ι → Option α} (hzero : ∀ a, run 0 a = none)
    (hstep : ∀ n a, (run (n + 1) a).isSome ↔ ∀ b ∈ next a, (run n b).isSome) (a : ι) :
    (∃ n, (run n a).isSome) ↔ Acc (flip (Refers next)) a := by
  constructor
  · rintro ⟨n, h⟩
    induction n generalizing a with
    | zero => simp [hzero] at h
    | succ n ih => exact ⟨a, fun b hb => ih b ((hstep n a).mp h b hb)⟩
  · intro h
    induction h with
    | intro a _ ih =>
      have hbound : ∀ bs : List ι, (∀ b ∈ bs, b ∈ next a) →
          ∃ n, ∀ b ∈ bs, (run n b).isSome := by
        intro bs
        induction bs with
        | nil => exact fun _ => ⟨0, by simp⟩
        | cons b bs ihbs =>
          intro hbs
          obtain ⟨n, hn⟩ := ihbs fun c hc => hbs c (List.mem_cons_of_mem b hc)
          obtain ⟨m, hm⟩ := ih b (hbs b (List.mem_cons_self ..))
          refine ⟨max n m, ?_⟩
          intro c hc
          rcases List.mem_cons.mp hc with rfl | hc
          · exact isSome_of_le hzero hstep (Nat.le_max_right n m) hm
          · exact isSome_of_le hzero hstep (Nat.le_max_left n m) (hn c hc)
      obtain ⟨n, hn⟩ := hbound (next a) fun b hb => hb
      exact ⟨n + 1, (hstep n a).mpr hn⟩

/-- In a finite graph one amount of fuel is enough for all computations that end. -/
theorem exists_fuel [Finite ι] {run : ℕ → ι → Option α} (hzero : ∀ a, run 0 a = none)
    (hstep : ∀ n a, (run (n + 1) a).isSome ↔ ∀ b ∈ next a, (run n b).isSome) :
    ∃ n, ∀ a, Acc (flip (Refers next)) a → (run n a).isSome := by
  have hfuel (a : ι) : ∃ n, Acc (flip (Refers next)) a → (run n a).isSome := by
    by_cases ha : Acc (flip (Refers next)) a
    · obtain ⟨n, hn⟩ := (exists_isSome_iff_acc hzero hstep a).mpr ha
      exact ⟨n, fun _ => hn⟩
    · exact ⟨0, fun h => absurd h ha⟩
  choose fuel hfuel using hfuel
  obtain ⟨n, hn⟩ := Finite.exists_le fuel
  exact ⟨n, fun a ha => isSome_of_le hzero hstep (hn a) (hfuel a ha)⟩

/-- Bounds on the members of a list, which may be raised, have a common one that is no less than a
given number. -/
theorem exists_common_bound {P : ℕ → α → Prop} (hmono : ∀ {n m a}, P n a → n ≤ m → P m a) (n : ℕ)
    {as : List α} (h : ∀ a ∈ as, ∃ m, P m a) : ∃ m, n ≤ m ∧ ∀ a ∈ as, P m a := by
  induction as with
  | nil => exact ⟨n, le_rfl, by simp⟩
  | cons a as ih =>
    obtain ⟨m, hnm, hm⟩ := ih fun b hb => h b (List.mem_cons_of_mem a hb)
    obtain ⟨k, hk⟩ := h a List.mem_cons_self
    refine ⟨max m k, hnm.trans (Nat.le_max_left m k), ?_⟩
    intro b hb
    rcases List.mem_cons.mp hb with rfl | hb
    · exact hmono hk (Nat.le_max_right m k)
    · exact hmono (hm b hb) (Nat.le_max_left m k)

end Descent
