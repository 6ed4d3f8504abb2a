import Mathlib.Data.Fintype.Card
import Mathlib.Logic.Function.Basic
import Mathlib.Logic.Relation
import Mathlib.Tactic

/-!
# Depth-first search with a memo

The search asks whether a goal can be reached. Every vertex is marked when it is
entered and when its answer is known, a vertex in progress counts as unreachable, and
the marks outlive the search. The answer is exact for the part of the graph that was
unmarked, while the marks themselves can be too pessimistic: a vertex that leads to the
goal only through one in progress is marked unreachable.
-/

namespace MemoSearch

variable {V : Type*}

inductive Mark
  | active
  | done (found : Bool)
  deriving DecidableEq

abbrev Marks (V : Type*) := V → Option Mark

section Search

variable [DecidableEq V] (succ : V → List V) (goal : V → Bool)

/-- Search from several vertices, stopping at the first that reaches a goal. -/
def searchAny (search : V → Marks V → Option (Bool × Marks V)) :
    List V → Marks V → Option (Bool × Marks V)
  | [], m => some (false, m)
  | v :: vs, m =>
    match search v m with
    | none => none
    | some (true, m) => some (true, m)
    | some (false, m) => searchAny search vs m

/-- The search, with a bound on its depth. -/
def search : ℕ → V → Marks V → Option (Bool × Marks V)
  | 0, _, _ => none
  | n + 1, v, m =>
    match m v with
    | some (.done found) => some (found, m)
    | some .active => some (false, m)
    | none =>
      let entered := Function.update m v (some .active)
      let answer :=
        if goal v then some (true, entered) else searchAny (search n) (succ v) entered
      answer.map fun (found, m) => (found, Function.update m v (some (.done found)))

end Search

section Spec

variable (succ : V → List V) (goal : V → Bool)

/-- A goal, or a vertex already known to reach one, can be reached through unmarked
vertices. -/
inductive Open (m : Marks V) : V → Prop
  | found {v : V} : m v = some (.done true) → Open m v
  | goal {v : V} : m v = none → goal v → Open m v
  | step {v w : V} : m v = none → w ∈ succ v → Open m w → Open m v

variable {succ goal}

theorem Open.mono {m m' : Marks V} (hnone : ∀ v, m v = none → m' v = none)
    (hfound : ∀ v, m v = some (.done true) → Open succ goal m' v) {v : V}
    (h : Open succ goal m v) : Open succ goal m' v := by
  induction h with
  | found hv => exact hfound _ hv
  | goal hv hg => exact .goal (hnone _ hv) hg
  | step hv hw _ ih => exact .step (hnone _ hv) hw ih

theorem open_iff_of_unmarked {m : Marks V} {v : V} (hv : m v = none) :
    Open succ goal m v ↔ goal v ∨ ∃ w ∈ succ v, Open succ goal m w := by
  constructor
  · intro h
    cases h with
    | found hf => simp [hv] at hf
    | goal _ hg => exact .inl hg
    | step _ hw ho => exact .inr ⟨_, hw, ho⟩
  · rintro (hg | ⟨w, hw, ho⟩)
    · exact .goal hv hg
    · exact .step hv hw ho

variable (succ goal) in
/-- What a search from `m` for a target described by `P` guarantees. -/
structure Outcome (m : Marks V) (P : Prop) (found : Bool) (m' : Marks V) : Prop where
  found_iff : found = true ↔ P
  keep : ∀ v k, m v = some k → m' v = some k
  active : ∀ v, m' v = some .active → m v = some .active
  closed : found = false → ∀ v, m v = none → m' v = none ∨ m' v = some (.done false)
  sound : ∀ v, m' v = some (.done true) → Open succ goal m v
  back : ∀ v, m v = none → m' v ≠ none → Open succ goal m v → P

namespace Outcome

variable {m m₁ m₂ : Marks V} {P Q : Prop} {found : Bool}

theorem none_of_none (h : Outcome succ goal m P found m₁) {v : V} (hv : m₁ v = none) :
    m v = none := by
  cases hm : m v with
  | none => rfl
  | some k => simp [h.keep v k hm] at hv

theorem refl (hP : found = true ↔ P) : Outcome succ goal m P found m where
  found_iff := hP
  keep _ _ := id
  active _ := id
  closed _ _ := .inl
  sound _ := .found
  back _ hnone hmarked _ := absurd hnone hmarked

/-- After a failed search the same vertices reach a goal as before it. -/
theorem open_iff (h : Outcome succ goal m P false m₁) (v : V) :
    Open succ goal m₁ v ↔ Open succ goal m v := by
  have hP : ¬ P := fun hp => Bool.false_ne_true (h.found_iff.mpr hp)
  constructor
  · exact Open.mono (fun _ => h.none_of_none) h.sound
  · intro ho
    induction ho with
    | found hv => exact .found (h.keep _ _ hv)
    | @goal v hv hg =>
      rcases h.closed rfl v hv with hv' | hv'
      · exact .goal hv' hg
      · exact absurd (h.back v hv (by simp [hv']) (.goal hv hg)) hP
    | @step v w hv hw ho ih =>
      rcases h.closed rfl v hv with hv' | hv'
      · exact .step hv' hw ih
      · exact absurd (h.back v hv (by simp [hv']) (.step hv hw ho)) hP

theorem trans (h₁ : Outcome succ goal m P false m₁) (h₂ : Outcome succ goal m₁ Q found m₂)
    (hPQ : P → Q) : Outcome succ goal m Q found m₂ where
  found_iff := h₂.found_iff
  keep v k hv := h₂.keep v k (h₁.keep v k hv)
  active v hv := h₁.active v (h₂.active v hv)
  closed hf v hv := by
    rcases h₁.closed rfl v hv with hv' | hv'
    · exact h₂.closed hf v hv'
    · exact .inr (h₂.keep v _ hv')
  sound v hv := (h₁.open_iff v).mp (h₂.sound v hv)
  back v hv hmarked ho := by
    by_cases hv₁ : m₁ v = none
    · exact h₂.back v hv₁ hmarked ((h₁.open_iff v).mpr ho)
    · exact hPQ (h₁.back v hv hv₁ ho)

end Outcome

section Enter

variable [DecidableEq V] {m : Marks V} {v : V} (hv : m v = none)
include hv

theorem Open.of_enter {u : V} (h : Open succ goal (Function.update m v (some .active)) u) :
    Open succ goal m u := by
  refine h.mono (fun w hw => ?_) (fun w hw => ?_)
  · by_cases hwv : w = v
    · exact hwv ▸ hv
    · rwa [Function.update_of_ne hwv] at hw
  · by_cases hwv : w = v
    · simp [hwv] at hw
    · rw [Function.update_of_ne hwv] at hw
      exact .found hw

/-- A way to a goal that passes through `v` can start at a successor of `v` and need not
come back: follow it from its last visit of `v`. -/
theorem Open.enter (hgoal : ¬ goal v) {u : V} (h : Open succ goal m u) :
    Open succ goal (Function.update m v (some .active)) u ∨
      ∃ w ∈ succ v, Open succ goal (Function.update m v (some .active)) w := by
  have hne : ∀ {u}, u ≠ v → Function.update m v (some Mark.active) u = m u :=
    fun h => Function.update_of_ne h _ _
  induction h with
  | @found u hu =>
    have huv : u ≠ v := by rintro rfl; simp [hv] at hu
    exact .inl (.found ((hne huv).trans hu))
  | @goal u hu hg =>
    have huv : u ≠ v := by rintro rfl; exact hgoal hg
    exact .inl (.goal ((hne huv).trans hu) hg)
  | @step u w hu hw _ ih =>
    rcases ih with ih | ih
    · by_cases huv : u = v
      · exact .inr ⟨w, huv ▸ hw, ih⟩
      · exact .inl (.step ((hne huv).trans hu) hw ih)
    · exact .inr ih

theorem open_iff_of_enter (hgoal : ¬ goal v) :
    Open succ goal m v ↔ ∃ w ∈ succ v, Open succ goal (Function.update m v (some .active)) w := by
  rw [open_iff_of_unmarked hv, or_iff_right hgoal]
  constructor
  · rintro ⟨w, hw, ho⟩
    exact (ho.enter hv hgoal).elim (fun h => ⟨w, hw, h⟩) id
  · rintro ⟨w, hw, ho⟩
    exact ⟨w, hw, ho.of_enter hv⟩

theorem Outcome.leave_goal (hgoal : goal v) :
    Outcome succ goal m (Open succ goal m v) true
      (Function.update m v (some (.done true))) where
  found_iff := iff_of_true rfl (.goal hv hgoal)
  keep w k hw := by
    have hwv : w ≠ v := by rintro rfl; simp [hv] at hw
    rwa [Function.update_of_ne hwv]
  active w hw := by
    by_cases hwv : w = v
    · simp [hwv] at hw
    · rwa [Function.update_of_ne hwv] at hw
  closed hf := by simp at hf
  sound w hw := by
    by_cases hwv : w = v
    · exact hwv ▸ .goal hv hgoal
    · rw [Function.update_of_ne hwv] at hw
      exact .found hw
  back _ _ _ _ := .goal hv hgoal

theorem Outcome.leave (hgoal : ¬ goal v) {found : Bool} {m₁ : Marks V}
    (h : Outcome succ goal (Function.update m v (some .active))
      (∃ w ∈ succ v, Open succ goal (Function.update m v (some .active)) w) found m₁) :
    Outcome succ goal m (Open succ goal m v) found
      (Function.update m₁ v (some (.done found))) where
  found_iff := h.found_iff.trans (open_iff_of_enter hv hgoal).symm
  keep w k hw := by
    have hwv : w ≠ v := by rintro rfl; simp [hv] at hw
    rw [Function.update_of_ne hwv]
    exact h.keep w k ((Function.update_of_ne hwv _ _).trans hw)
  active w hw := by
    by_cases hwv : w = v
    · simp [hwv] at hw
    · rw [Function.update_of_ne hwv] at hw
      simpa [Function.update_of_ne hwv] using h.active w hw
  closed hf w hw := by
    by_cases hwv : w = v
    · exact .inr (by simp [hwv, hf])
    · rw [Function.update_of_ne hwv]
      exact h.closed hf w ((Function.update_of_ne hwv _ _).trans hw)
  sound w hw := by
    by_cases hwv : w = v
    · obtain rfl : found = true := by simpa [hwv] using hw
      exact hwv ▸ (open_iff_of_enter hv hgoal).mpr (h.found_iff.mp rfl)
    · rw [Function.update_of_ne hwv] at hw
      exact (h.sound w hw).of_enter hv
  back w hw hmarked ho := by
    rw [open_iff_of_enter hv hgoal]
    rcases ho.enter hv hgoal with ho' | ho'
    · by_cases hwv : w = v
      · rw [hwv] at ho
        exact (open_iff_of_enter hv hgoal).mp ho
      · rw [Function.update_of_ne hwv] at hmarked
        exact h.back w ((Function.update_of_ne hwv _ _).trans hw) hmarked ho'
    · exact ho'

end Enter

section Correct

theorem searchAny_outcome {rec : V → Marks V → Option (Bool × Marks V)}
    (hrec : ∀ v m found m', rec v m = some (found, m') →
      Outcome succ goal m (Open succ goal m v) found m')
    (vs : List V) {m m' : Marks V} {found : Bool}
    (h : searchAny rec vs m = some (found, m')) :
    Outcome succ goal m (∃ v ∈ vs, Open succ goal m v) found m' := by
  induction vs generalizing m with
  | nil =>
    obtain ⟨rfl, rfl⟩ : false = found ∧ m = m' := by simpa [searchAny] using h
    exact Outcome.refl (by simp)
  | cons v vs ih =>
    rw [searchAny] at h
    rcases hv : rec v m with _ | ⟨_ | _, m₁⟩ <;> rw [hv] at h
    · simp at h
    · -- the first vertex reaches no goal
      have hfirst := hrec v m _ _ hv
      have hrest := ih h
      have hnot : ¬ Open succ goal m v := fun ho => Bool.false_ne_true (hfirst.found_iff.mpr ho)
      have hsame : (∃ w ∈ vs, Open succ goal m₁ w) ↔ ∃ w ∈ v :: vs, Open succ goal m w := by
        simp [hfirst.open_iff, hnot]
      exact propext hsame ▸ hfirst.trans hrest (fun ho => absurd ho hnot)
    · obtain ⟨rfl, rfl⟩ : true = found ∧ m₁ = m' := by simpa using h
      have hfirst := hrec v m _ _ hv
      have hopen := hfirst.found_iff.mp rfl
      exact { hfirst with
        found_iff := iff_of_true rfl ⟨v, by simp, hopen⟩
        back := fun _ _ _ _ => ⟨v, by simp, hopen⟩ }

variable [DecidableEq V]

/-- Every search that comes back has the guarantees of `Outcome`. -/
theorem search_outcome (n : ℕ) (v : V) {m m' : Marks V} {found : Bool}
    (h : search succ goal n v m = some (found, m')) :
    Outcome succ goal m (Open succ goal m v) found m' := by
  induction n generalizing v m m' found with
  | zero => simp [search] at h
  | succ n ih =>
    rw [search] at h
    cases hv : m v with
    | some k =>
      have hclosed : ∀ {b}, k = .done b ∨ k = .active ∧ b = false →
          (b = true ↔ Open succ goal m v) := by
        intro b hk
        constructor
        · rintro rfl
          rcases hk with rfl | ⟨_, hb⟩
          · exact .found hv
          · simp at hb
        · intro ho
          cases ho with
          | found hf =>
            obtain rfl : k = .done true := Option.some.inj (hv.symm.trans hf)
            simpa [eq_comm] using hk
          | goal hn _ => simp [hv] at hn
          | step hn _ _ => simp [hv] at hn
      cases k with
      | active =>
        obtain ⟨rfl, rfl⟩ : false = found ∧ m = m' := by simpa [hv] using h
        exact Outcome.refl (hclosed (.inr ⟨rfl, rfl⟩))
      | done b =>
        obtain ⟨rfl, rfl⟩ : b = found ∧ m = m' := by simpa [hv] using h
        exact Outcome.refl (hclosed (.inl rfl))
    | none =>
      simp only [hv] at h
      split_ifs at h with hgoal
      · obtain ⟨rfl, rfl⟩ := by simpa using h
        have hleave : Outcome succ goal m _ true _ := Outcome.leave_goal hv hgoal
        simpa using hleave
      · obtain ⟨⟨b, m₁⟩, hany, heq⟩ := Option.map_eq_some_iff.mp h
        obtain ⟨rfl, rfl⟩ := Prod.mk.inj heq
        exact (searchAny_outcome (fun v m b m' => ih v) _ hany).leave hv hgoal

end Correct

section Terminates

variable [Fintype V]

/-- Vertices the search may still enter. -/
def pending (m : Marks V) : Finset V := Finset.univ.filter fun v => m v = none

theorem Outcome.pending_le {m m' : Marks V} {P : Prop} {found : Bool}
    (h : Outcome succ goal m P found m') : (pending m').card ≤ (pending m).card := by
  refine Finset.card_le_card fun v hv => ?_
  simp only [pending, Finset.mem_filter, Finset.mem_univ, true_and] at hv ⊢
  exact h.none_of_none hv

variable [DecidableEq V]

theorem pending_enter_lt {m : Marks V} {v : V} (hv : m v = none) (k : Mark) :
    (pending (Function.update m v (some k))).card < (pending m).card := by
  refine Finset.card_lt_card (Finset.ssubset_iff_of_subset ?_ |>.mpr ⟨v, ?_, ?_⟩)
  · intro w hw
    simp only [pending, Finset.mem_filter, Finset.mem_univ, true_and] at hw ⊢
    by_cases hwv : w = v
    · simp [hwv] at hw
    · rwa [Function.update_of_ne hwv] at hw
  · simp [pending, hv]
  · simp [pending]

theorem searchAny_isSome {n : ℕ}
    (hsearch : ∀ v (m : Marks V), (pending m).card < n → (search succ goal n v m).isSome)
    (vs : List V) {m : Marks V} (hm : (pending m).card < n) :
    (searchAny (search succ goal n) vs m).isSome := by
  induction vs generalizing m with
  | nil => rfl
  | cons v vs ih =>
    obtain ⟨⟨b, m₁⟩, hv⟩ := Option.isSome_iff_exists.mp (hsearch v m hm)
    rw [searchAny, hv]
    cases b with
    | true => rfl
    | false => exact ih ((search_outcome n v hv).pending_le.trans_lt hm)

/-- Depth one more than the number of unmarked vertices is enough. -/
theorem search_isSome (n : ℕ) (v : V) {m : Marks V} (hm : (pending m).card < n) :
    (search succ goal n v m).isSome := by
  induction n generalizing v m with
  | zero => exact absurd hm (Nat.not_lt_zero _)
  | succ n ih =>
    rw [search]
    cases hv : m v with
    | some k => cases k <;> rfl
    | none =>
      have hlt := pending_enter_lt hv .active
      have hany : (pending (Function.update m v (some .active))).card < n := by omega
      dsimp only
      rw [Option.isSome_map]
      split_ifs
      · rfl
      · exact searchAny_isSome (fun v m hm => ih v hm) (succ v) hany

end Terminates

end Spec

end MemoSearch
