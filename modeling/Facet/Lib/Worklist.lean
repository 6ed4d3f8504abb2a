import Mathlib.Data.Fintype.Card
import Mathlib.Data.List.Basic
import Mathlib.Logic.Relation
import Mathlib.Tactic

/-!
# Traversals with a stack

A traversal takes a node from a stack and visits it unless it has been visited before; a visit
changes a state and pushes further nodes. What is visited is what the pushed nodes lead to.
-/

namespace Worklist

open Relation

variable {ι σ : Type} {succ : ι → ι → Prop}

/-- What has been visited and what waits on the stack, on the way from a root. -/
structure Inv (succ : ι → ι → Prop) (root : ι) (stack seen : List ι) : Prop where
  nodup : seen.Nodup
  seen_reached : ∀ x ∈ seen, ReflTransGen succ root x
  stack_reached : ∀ x ∈ stack, ReflTransGen succ root x
  root_covered : root ∈ seen ∨ root ∈ stack
  succ_covered : ∀ x ∈ seen, ∀ y, succ x y → y ∈ seen ∨ y ∈ stack

theorem Inv.start (root : ι) : Inv succ root [root] [] where
  nodup := List.nodup_nil
  seen_reached := by simp
  stack_reached := by
    intro x hx
    rw [List.mem_singleton.mp hx]
  root_covered := .inr List.mem_cons_self
  succ_covered := by simp

theorem Inv.skip {root x : ι} {stack seen : List ι} (h : Inv succ root (x :: stack) seen)
    (hx : x ∈ seen) : Inv succ root stack seen where
  nodup := h.nodup
  seen_reached := h.seen_reached
  stack_reached := fun y hy => h.stack_reached y (List.mem_cons_of_mem x hy)
  root_covered := by
    rcases h.root_covered with hseen | hstack
    · exact .inl hseen
    · rcases List.mem_cons.mp hstack with rfl | hstack
      · exact .inl hx
      · exact .inr hstack
  succ_covered := by
    intro y hy z hyz
    rcases h.succ_covered y hy z hyz with hseen | hstack
    · exact .inl hseen
    · rcases List.mem_cons.mp hstack with rfl | hstack
      · exact .inl hx
      · exact .inr hstack

theorem Inv.push {root x : ι} {stack seen next : List ι} (h : Inv succ root (x :: stack) seen)
    (hx : x ∉ seen) (hnext : ∀ y, y ∈ next ↔ succ x y) :
    Inv succ root (next.reverse ++ stack) (seen ++ [x]) := by
  have hreached := h.stack_reached x List.mem_cons_self
  have hcovered {y : ι} (hy : y ∈ seen ∨ y ∈ x :: stack) :
      y ∈ seen ++ [x] ∨ y ∈ next.reverse ++ stack := by
    rcases hy with hseen | hstack
    · exact .inl (List.mem_append_left _ hseen)
    · rcases List.mem_cons.mp hstack with rfl | hstack
      · exact .inl (by simp)
      · exact .inr (List.mem_append_right _ hstack)
  constructor
  · apply List.nodup_append.mpr
    refine ⟨h.nodup, List.nodup_singleton x, ?_⟩
    rintro y hy z hz rfl
    rw [List.mem_singleton.mp hz] at hy
    exact hx hy
  · intro y hy
    rcases List.mem_append.mp hy with hy | hy
    · exact h.seen_reached y hy
    · rwa [List.mem_singleton.mp hy]
  · intro y hy
    rcases List.mem_append.mp hy with hy | hy
    · exact hreached.tail ((hnext y).mp (List.mem_reverse.mp hy))
    · exact h.stack_reached y (List.mem_cons_of_mem x hy)
  · exact hcovered h.root_covered
  · intro y hy z hyz
    rcases List.mem_append.mp hy with hy | hy
    · exact hcovered (h.succ_covered y hy z hyz)
    · rw [List.mem_singleton.mp hy] at hyz
      exact .inr (List.mem_append_left _ (List.mem_reverse.mpr ((hnext z).mpr hyz)))

/-- With the stack empty, everything that the root leads to has been visited. -/
theorem Inv.mem_iff {root : ι} {seen : List ι} (h : Inv succ root [] seen) (x : ι) :
    x ∈ seen ↔ ReflTransGen succ root x := by
  have hempty {y : ι} (hy : y ∈ seen ∨ y ∈ ([] : List ι)) : y ∈ seen := by
    rcases hy with hseen | hnil
    · exact hseen
    · cases hnil
  constructor
  · exact h.seen_reached x
  · intro hx
    induction hx with
    | refl => exact hempty h.root_covered
    | tail _ hyz ih => exact hempty (h.succ_covered _ ih _ hyz)

/-- The nodes visited, in order, and the final state. `visit` is given the nodes visited before,
and may itself have no result. -/
def run [DecidableEq ι] (visit : List ι → ι → σ → Option (List ι × σ)) :
    ℕ → List ι → List ι → σ → Option (List ι × σ)
  | 0, _, _, _ => none
  | _ + 1, [], seen, out => some (seen, out)
  | fuel + 1, x :: stack, seen, out =>
    if x ∈ seen then run visit fuel stack seen out
    else
      match visit seen x out with
      | none => none
      | some (next, out) => run visit fuel (next.reverse ++ stack) (seen ++ [x]) out

/-- The state after visiting the given nodes in order. -/
def visitAll (visit : List ι → ι → σ → Option (List ι × σ)) :
    List ι → List ι → σ → Option σ
  | _, [], out => some out
  | seen, x :: xs, out =>
    match visit seen x out with
    | none => none
    | some (_, out) => visitAll visit (seen ++ [x]) xs out

/-- A visit pushes the successors of the node. -/
def Follows (succ : ι → ι → Prop) (visit : List ι → ι → σ → Option (List ι × σ)) : Prop :=
  ∀ seen x out next out', visit seen x out = some (next, out') → ∀ y, y ∈ next ↔ succ x y

variable [DecidableEq ι] {visit : List ι → ι → σ → Option (List ι × σ)}

/-- A run that ends has visited the nodes that the root leads to, each once, and is the run of
these visits. -/
theorem run_spec (hfollows : Follows succ visit) {root : ι} {fuel : ℕ}
    {stack seen seen' : List ι} {out out' : σ} (h : Inv succ root stack seen)
    (hrun : run visit fuel stack seen out = some (seen', out')) :
    Inv succ root [] seen' ∧
      ∃ rest, seen' = seen ++ rest ∧ visitAll visit seen rest out = some out' := by
  induction fuel generalizing stack seen out with
  | zero => cases hrun
  | succ fuel ih =>
    cases stack with
    | nil =>
      cases hrun
      exact ⟨h, [], by simp, rfl⟩
    | cons x stack =>
      rw [run] at hrun
      split_ifs at hrun with hx
      · exact ih (h.skip hx) hrun
      · cases hvisit : visit seen x out with
        | none =>
          rw [hvisit] at hrun
          cases hrun
        | some result =>
          obtain ⟨next, mid⟩ := result
          rw [hvisit] at hrun
          obtain ⟨hinv, rest, hseen', hrest⟩ :=
            ih (h.push hx (hfollows _ _ _ _ _ hvisit)) hrun
          refine ⟨hinv, x :: rest, ?_, ?_⟩
          · rw [hseen', List.append_assoc, List.singleton_append]
          · rw [visitAll, hvisit]
            exact hrest

theorem exists_eq_cons_of_run (hfollows : Follows succ visit) {root : ι} {fuel : ℕ}
    {seen : List ι} {out out' : σ} (hrun : run visit fuel [root] [] out = some (seen, out')) :
    ∃ rest, seen = root :: rest := by
  cases fuel with
  | zero => cases hrun
  | succ fuel =>
    rw [run, if_neg List.not_mem_nil] at hrun
    cases hvisit : visit [] root out with
    | none =>
      rw [hvisit] at hrun
      cases hrun
    | some result =>
      obtain ⟨next, mid⟩ := result
      rw [hvisit] at hrun
      have hinv := (Inv.start root).push List.not_mem_nil (hfollows _ _ _ _ _ hvisit)
      obtain ⟨-, rest, hseen, -⟩ := run_spec hfollows hinv hrun
      exact ⟨rest, hseen⟩

/-- In a finite graph a traversal ends if every visit does. -/
theorem exists_run [Finite ι] (hfollows : Follows succ visit) {root : ι}
    (hvisit : ∀ seen x out, ReflTransGen succ root x → (visit seen x out).isSome)
    {stack seen : List ι} (out : σ) (h : Inv succ root stack seen) :
    ∃ fuel, (run visit fuel stack seen out).isSome := by
  have := Fintype.ofFinite ι
  induction hn : Fintype.card ι - seen.length using Nat.strong_induction_on
    generalizing stack seen out with
  | _ n ih =>
    induction stack with
    | nil => exact ⟨1, rfl⟩
    | cons x stack ihstack =>
      by_cases hx : x ∈ seen
      · obtain ⟨fuel, hfuel⟩ := ihstack (h.skip hx)
        refine ⟨fuel + 1, ?_⟩
        rwa [run, if_pos hx]
      · obtain ⟨⟨next, mid⟩, hresult⟩ :=
          Option.isSome_iff_exists.mp (hvisit seen x out (h.stack_reached x List.mem_cons_self))
        have hinv := h.push hx (hfollows _ _ _ _ _ hresult)
        have hcard : (seen ++ [x]).length ≤ Fintype.card ι := hinv.nodup.length_le_card
        have hless : Fintype.card ι - (seen ++ [x]).length < n := by
          rw [List.length_append, List.length_singleton] at hcard ⊢
          omega
        obtain ⟨fuel, hfuel⟩ := ih _ hless mid hinv rfl
        refine ⟨fuel + 1, ?_⟩
        rw [run, if_neg hx, hresult]
        exact hfuel

theorem run_of_le {fuel fuel' : ℕ} (hle : fuel ≤ fuel') {stack seen : List ι} {out : σ}
    {result : List ι × σ} (h : run visit fuel stack seen out = some result) :
    run visit fuel' stack seen out = some result := by
  induction fuel generalizing fuel' stack seen out with
  | zero => cases h
  | succ fuel ih =>
    obtain ⟨fuel', rfl⟩ : ∃ n, fuel' = n + 1 := ⟨fuel' - 1, by omega⟩
    have hle : fuel ≤ fuel' := by omega
    cases stack with
    | nil => exact h
    | cons x stack =>
      rw [run] at h ⊢
      split_ifs at h ⊢ with hx
      · exact ih hle h
      · cases hvisit : visit seen x out with
        | none =>
          rw [hvisit] at h
          cases h
        | some next =>
          rw [hvisit] at h
          exact ih hle h

/-- Visits that push the same nodes visit the same nodes, whatever their states are. -/
theorem run_map_fst {τ : Type} {visit' : List ι → ι → τ → Option (List ι × τ)}
    (hsame : ∀ seen x out out',
      (visit seen x out).map Prod.fst = (visit' seen x out').map Prod.fst)
    (fuel : ℕ) (stack seen : List ι) (out : σ) (out' : τ) :
    (run visit fuel stack seen out).map Prod.fst =
      (run visit' fuel stack seen out').map Prod.fst := by
  induction fuel generalizing stack seen out out' with
  | zero => rfl
  | succ fuel ih =>
    cases stack with
    | nil => rfl
    | cons x stack =>
      rw [run, run]
      split_ifs
      · exact ih ..
      · have hx := hsame seen x out out'
        cases hvisit : visit seen x out with
        | none =>
          rw [hvisit, Option.map_none, eq_comm, Option.map_eq_none_iff] at hx
          rw [hx]
          rfl
        | some result =>
          rw [hvisit, Option.map_some, eq_comm, Option.map_eq_some_iff] at hx
          obtain ⟨result', hvisit', hnext⟩ := hx
          rw [hvisit']
          simp only [hnext]
          exact ih ..

omit [DecidableEq ι] in
theorem isSome_of_visitAll {xs seen : List ι} {out out' : σ}
    (h : visitAll visit seen xs out = some out') {x : ι} (hx : x ∈ xs) :
    ∃ seen out, (visit seen x out).isSome := by
  induction xs generalizing seen out with
  | nil => cases hx
  | cons y xs ih =>
    rw [visitAll] at h
    cases hvisit : visit seen y out with
    | none =>
      rw [hvisit] at h
      cases h
    | some result =>
      rw [hvisit] at h
      rcases List.mem_cons.mp hx with rfl | hx
      · exact ⟨seen, out, Option.isSome_of_mem hvisit⟩
      · exact ih h hx

end Worklist
