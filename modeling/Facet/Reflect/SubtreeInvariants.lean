import Facet.Core.Shape
import Facet.Lib.MemoSearch

/-!
# Which shapes have invariants below them

Validation skips values whose shape cannot contain anything to validate. The answer
per shape is computed by a depth-first search, stored in a memo that lives as long as
the thread, and looked up there first from then on.
-/

namespace Facet

variable {ι : Type}

/-- The shapes `shape_subtree_has_invariants` descends to, in its order. -/
def Shape.subtrees (shape : Shape ι) : List ι :=
  match shape.ty with
  | .user (.struct st) => st.fields.map Field.shape
  | .user (.enum en) => en.variants.flatMap fun variant => variant.data.fields.map Field.shape
  | _ =>
    match shape.def with
    | .list t => [t]
    | .array t _ => [t]
    | .slice t => [t]
    | .map k v => [k, v]
    | .set t => [t]
    | .option t => [t]
    | .result t e => [t, e]
    | .pointer pointee => pointee.toList
    | _ => []

namespace Reflect

open MemoSearch

/-- The thread's memo and the cache of the validation in progress; a shape whose cache
entry holds no answer is being evaluated. -/
structure SubtreeState (ι : Type) where
  memo : ι → Option Bool
  cache : ι → Option (Option Bool)

/-- No shape has been evaluated yet. -/
def SubtreeState.new : SubtreeState ι := ⟨fun _ => none, fun _ => none⟩

/-- A new validation starts with an empty cache. -/
def SubtreeState.newWalk (st : SubtreeState ι) : SubtreeState ι := { st with cache := fun _ => none }

/-- The loops of `shape_subtree_has_invariants`, which stop at the first hit. -/
def anySubtreeHasInvariants (query : ι → SubtreeState ι → Option (Bool × SubtreeState ι)) :
    List ι → SubtreeState ι → Option (Bool × SubtreeState ι)
  | [], st => some (false, st)
  | s :: ss, st =>
    match query s st with
    | none => none
    | some (true, st) => some (true, st)
    | some (false, st) => anySubtreeHasInvariants query ss st

section Search

variable [DecidableEq ι] (shapes : Shapes ι)

/-- The search, with a bound on its depth. -/
def shapeSubtreeHasInvariantsUpTo :
    ℕ → ι → SubtreeState ι → Option (Bool × SubtreeState ι)
  | 0, _, _ => none
  | n + 1, s, st =>
    match st.memo s with
    | some cached => some (cached, st)
    | none =>
      match st.cache s with
      | some cached => some (cached.getD false, st)
      | none =>
        let entered := { st with cache := Function.update st.cache s (some none) }
        let answer :=
          if (shapes s).hasInvariants then some (true, entered)
          else anySubtreeHasInvariants (shapeSubtreeHasInvariantsUpTo n)
            ((shapes s).subtrees) entered
        answer.map fun (hasInvariants, st) =>
          (hasInvariants,
            { memo := Function.update st.memo s (some hasInvariants)
              cache := Function.update st.cache s (some (some hasInvariants)) })

/-- `shape_subtree_has_invariants`: the depth of the search is at most the number of
shapes. -/
def shapeSubtreeHasInvariants [Fintype ι] (s : ι) (st : SubtreeState ι) :
    Bool × SubtreeState ι :=
  (shapeSubtreeHasInvariantsUpTo shapes (Fintype.card ι + 1) s st).getD (false, st)

end Search

section Spec

variable (shapes : Shapes ι)

/-- A shape the search can get to from `s`, itself included. -/
def Subtree (s t : ι) : Prop :=
  Relation.ReflTransGen (fun a b => b ∈ (shapes a).subtrees) s t

/-- Some shape in the subtree declares invariants. -/
def DeclaresBelow (s : ι) : Prop := ∃ t, Subtree shapes s t ∧ (shapes t).hasInvariants

/-- What the memo and the cache together say about a shape. -/
def SubtreeState.marks (st : SubtreeState ι) : Marks ι := fun s =>
  match st.memo s with
  | some b => some (.done b)
  | none =>
    match st.cache s with
    | some (some b) => some (.done b)
    | some none => some .active
    | none => none

/-- The marks that a memo stands for between two searches. -/
def memoMarks (memo : ι → Option Bool) : Marks ι := fun s => (memo s).map .done

/-- From `s`, a shape memoised as having invariants below it, or an unmemoised shape
that declares some, can be reached through unmemoised shapes. -/
def OpenIn (memo : ι → Option Bool) (s : ι) : Prop :=
  Open (fun s => (shapes s).subtrees) (fun s => (shapes s).hasInvariants) (memoMarks memo) s

/-- Answers in the cache are in the memo as well. -/
def SubtreeState.Synced (st : SubtreeState ι) : Prop :=
  ∀ s b, st.cache s = some (some b) → st.memo s = some b

/-- Between two searches the cache agrees with the memo and nothing is in progress. -/
structure SubtreeState.Settled (st : SubtreeState ι) : Prop where
  synced : st.Synced
  marks_eq : st.marks = memoMarks st.memo

/-- Shapes memoised as having invariants below them do. -/
def SubtreeState.Sound (st : SubtreeState ι) : Prop :=
  ∀ s, st.memo s = some true → DeclaresBelow shapes s

variable {shapes}

theorem DeclaresBelow.of_subtree {s t : ι} (hst : t ∈ (shapes s).subtrees)
    (h : DeclaresBelow shapes t) : DeclaresBelow shapes s := by
  obtain ⟨u, hu, hdecl⟩ := h
  exact ⟨u, hu.head hst, hdecl⟩

theorem OpenIn.declaresBelow {st : SubtreeState ι} (hsound : st.Sound shapes) {s : ι}
    (h : OpenIn shapes st.memo s) : DeclaresBelow shapes s := by
  induction h with
  | @found s hs => exact hsound s (by simpa [memoMarks] using hs)
  | @goal s _ hg => exact ⟨s, .refl, hg⟩
  | step _ hw _ ih => exact ih.of_subtree hw

end Spec

section Simulation

variable [DecidableEq ι] {shapes : Shapes ι}

theorem marks_enter {st : SubtreeState ι} {s : ι} (hs : st.memo s = none) :
    SubtreeState.marks { st with cache := Function.update st.cache s (some none) } =
      Function.update st.marks s (some .active) := by
  funext t
  by_cases ht : t = s
  · subst ht
    simp [SubtreeState.marks, hs]
  · simp [SubtreeState.marks, Function.update_of_ne ht]

theorem marks_leave (st : SubtreeState ι) (s : ι) (b : Bool) :
    SubtreeState.marks { memo := Function.update st.memo s (some b)
                         cache := Function.update st.cache s (some (some b)) } =
      Function.update st.marks s (some (.done b)) := by
  funext t
  by_cases ht : t = s
  · subst ht
    simp [SubtreeState.marks]
  · simp [SubtreeState.marks, Function.update_of_ne ht]

/-- The answer and the marks of a search of the source. -/
def withMarks (r : Option (Bool × SubtreeState ι)) : Option (Bool × Marks ι) :=
  r.map fun (b, st) => (b, st.marks)

omit [DecidableEq ι] in
theorem anySubtreeHasInvariants_simulates
    {query : ι → SubtreeState ι → Option (Bool × SubtreeState ι)}
    {search : ι → Marks ι → Option (Bool × Marks ι)}
    (h : ∀ s st, withMarks (query s st) = search s st.marks) (ss : List ι)
    (st : SubtreeState ι) :
    withMarks (anySubtreeHasInvariants query ss st) = searchAny search ss st.marks := by
  induction ss generalizing st with
  | nil => rfl
  | cons s ss ih =>
    rw [anySubtreeHasInvariants, searchAny, ← h]
    rcases query s st with _ | ⟨_ | _, st'⟩
    · rfl
    · exact ih st'
    · rfl

/-- Memo and cache together behave like the marks of one depth-first search. -/
theorem shapeSubtreeHasInvariantsUpTo_simulates (n : ℕ) (s : ι) (st : SubtreeState ι) :
    withMarks (shapeSubtreeHasInvariantsUpTo shapes n s st) =
      search (fun s => (shapes s).subtrees) (fun s => (shapes s).hasInvariants) n s st.marks := by
  induction n generalizing s st with
  | zero => rfl
  | succ n ih =>
    rw [shapeSubtreeHasInvariantsUpTo, search]
    cases hmemo : st.memo s with
    | some b => simp [SubtreeState.marks, hmemo, withMarks]
    | none =>
      cases hcache : st.cache s with
      | some c => cases c <;> simp [SubtreeState.marks, hmemo, hcache, withMarks]
      | none =>
        have hmarks : st.marks s = none := by simp [SubtreeState.marks, hmemo, hcache]
        have hany := anySubtreeHasInvariants_simulates ih (shapes s).subtrees
          { st with cache := Function.update st.cache s (some none) }
        rw [marks_enter hmemo] at hany
        simp only [hmarks]
        rw [← hany, withMarks, Option.map_map, ← marks_enter hmemo]
        split_ifs
        · simp [marks_leave, marks_enter hmemo]
        · rw [withMarks, Option.map_map]
          exact congrArg (Option.map · _) (funext fun r => by simp [marks_leave])

omit [DecidableEq ι] in
theorem anySubtreeHasInvariants_synced
    {query : ι → SubtreeState ι → Option (Bool × SubtreeState ι)}
    (h : ∀ s st r, query s st = some r → st.Synced → r.2.Synced) (ss : List ι)
    {st : SubtreeState ι} {r : Bool × SubtreeState ι}
    (hr : anySubtreeHasInvariants query ss st = some r) (hst : st.Synced) : r.2.Synced := by
  induction ss generalizing st with
  | nil =>
    obtain rfl := Option.some.inj hr
    exact hst
  | cons s ss ih =>
    rw [anySubtreeHasInvariants] at hr
    rcases hq : query s st with _ | ⟨_ | _, st'⟩ <;> rw [hq] at hr
    · simp at hr
    · exact ih hr (h s st _ hq hst)
    · obtain rfl := Option.some.inj hr
      exact h s st _ hq hst

theorem shapeSubtreeHasInvariantsUpTo_synced (n : ℕ) (s : ι) {st : SubtreeState ι}
    {r : Bool × SubtreeState ι} (hr : shapeSubtreeHasInvariantsUpTo shapes n s st = some r)
    (hst : st.Synced) : r.2.Synced := by
  induction n generalizing s st r with
  | zero => simp [shapeSubtreeHasInvariantsUpTo] at hr
  | succ n ih =>
    rw [shapeSubtreeHasInvariantsUpTo] at hr
    cases hmemo : st.memo s with
    | some b =>
      obtain rfl := Option.some.inj (by simpa [hmemo] using hr)
      exact hst
    | none =>
      cases hcache : st.cache s with
      | some c =>
        obtain rfl := Option.some.inj (by simpa [hmemo, hcache] using hr)
        exact hst
      | none =>
        simp only [hmemo, hcache] at hr
        obtain ⟨⟨b, st'⟩, hanswer, rfl⟩ := Option.map_eq_some_iff.mp hr
        have hentered : SubtreeState.Synced
            { st with cache := Function.update st.cache s (some none) } := by
          intro t b' ht
          by_cases hts : t = s
          · simp [hts] at ht
          · exact hst t b' (by simpa [Function.update_of_ne hts] using ht)
        have hst' : st'.Synced := by
          split_ifs at hanswer
          · obtain ⟨rfl, rfl⟩ := Prod.mk.inj (Option.some.inj hanswer)
            exact hentered
          · exact anySubtreeHasInvariants_synced (fun s st r h => ih s h) _ hanswer hentered
        intro t b' ht
        by_cases hts : t = s
        · subst hts
          simpa using ht
        · simp only [Function.update_of_ne hts] at ht ⊢
          exact hst' t b' ht

end Simulation

section Query

variable [DecidableEq ι] [Fintype ι] {shapes : Shapes ι}

/-- What one query does: it always comes back, answers whether the memo leaves a way to
a declaring shape open, and leaves a settled and sound memo. -/
structure Queried (shapes : Shapes ι) (st : SubtreeState ι) (s : ι)
    (r : Bool × SubtreeState ι) : Prop where
  returns : shapeSubtreeHasInvariantsUpTo shapes (Fintype.card ι + 1) s st = some r
  answer : r.1 = true ↔ OpenIn shapes st.memo s
  settled : r.2.Settled
  sound : st.Sound shapes → r.2.Sound shapes

theorem shapeSubtreeHasInvariants_spec {st : SubtreeState ι} (hst : st.Settled) (s : ι) :
    Queried shapes st s (shapeSubtreeHasInvariants shapes s st) := by
  have hsim : withMarks (shapeSubtreeHasInvariantsUpTo shapes (Fintype.card ι + 1) s st) = _ :=
    shapeSubtreeHasInvariantsUpTo_simulates _ s st
  have hsome : (search (fun s => (shapes s).subtrees) (fun s => (shapes s).hasInvariants)
      (Fintype.card ι + 1) s st.marks).isSome :=
    search_isSome _ s (Nat.lt_succ_of_le (Finset.card_le_univ _))
  rw [← hsim, withMarks, Option.isSome_map] at hsome
  obtain ⟨r, hr⟩ := Option.isSome_iff_exists.mp hsome
  have hval : shapeSubtreeHasInvariants shapes s st = r := by
    rw [shapeSubtreeHasInvariants, hr]; rfl
  rw [hr] at hsim
  have hout := search_outcome _ s (hsim.symm.trans rfl : _ = some (r.1, r.2.marks))
  rw [hst.marks_eq] at hout
  have hsynced := shapeSubtreeHasInvariantsUpTo_synced _ s hr hst.synced
  have hmarks : r.2.marks = memoMarks r.2.memo := by
    funext t
    have hactive := hout.active t
    simp only [memoMarks] at hactive ⊢
    cases hmemo : r.2.memo t with
    | some b => simp [SubtreeState.marks, hmemo]
    | none =>
      cases hcache : r.2.cache t with
      | none => simp [SubtreeState.marks, hmemo, hcache]
      | some c =>
        cases c with
        | none =>
          have := hactive (by simp [SubtreeState.marks, hmemo, hcache])
          simp at this
        | some b => simp [hsynced t b hcache] at hmemo
  refine hval ▸ ⟨hr, hout.found_iff, ⟨hsynced, hmarks⟩, fun hsound t ht => ?_⟩
  have hopen := hout.sound t (by rw [hmarks, memoMarks, ht]; rfl)
  exact OpenIn.declaresBelow hsound hopen

end Query

section Cache

/-- The thread's memo and the walk's cache between two searches. -/
structure SubtreeCache (shapes : Shapes ι) extends SubtreeState ι where
  settled : toSubtreeState.Settled
  sound : toSubtreeState.Sound shapes

namespace SubtreeCache

variable {shapes : Shapes ι}

def new : SubtreeCache shapes where
  toSubtreeState := .new
  settled := ⟨fun _ _ h => absurd h (by simp [SubtreeState.new]), rfl⟩
  sound _ h := absurd h (by simp [SubtreeState.new])

def newWalk (c : SubtreeCache shapes) : SubtreeCache shapes where
  toSubtreeState := c.toSubtreeState.newWalk
  settled := by
    refine ⟨fun _ _ h => absurd h (by simp [SubtreeState.newWalk]), funext fun s => ?_⟩
    cases hmemo : c.memo s <;> simp [SubtreeState.newWalk, SubtreeState.marks, memoMarks, hmemo]
  sound := c.sound

variable [DecidableEq ι] [Fintype ι]

def query (s : ι) (c : SubtreeCache shapes) : Bool × SubtreeCache shapes :=
  have spec : Queried shapes c.toSubtreeState s _ := shapeSubtreeHasInvariants_spec c.settled s
  ((shapeSubtreeHasInvariants shapes s c.toSubtreeState).1,
    { toSubtreeState := (shapeSubtreeHasInvariants shapes s c.toSubtreeState).2
      settled := spec.settled
      sound := spec.sound c.sound })

theorem query_eq_true_iff (s : ι) (c : SubtreeCache shapes) :
    (c.query s).1 = true ↔ OpenIn shapes c.memo s :=
  (shapeSubtreeHasInvariants_spec c.settled s).answer

/-- What happens to a thread's memo: validations begin, and shapes are asked about. -/
inductive Event (ι : Type)
  | newWalk
  | query (s : ι)

def after (c : SubtreeCache shapes) : Event ι → SubtreeCache shapes
  | .newWalk => c.newWalk
  | .query s => (c.query s).2

variable (shapes) in
/-- The thread's state after a history of events. -/
def afterAll (history : List (Event ι)) : SubtreeCache shapes := history.foldl after new

end SubtreeCache

end Cache

end Reflect

end Facet
