import Facet.Core.ValueOps
import Facet.Lib.PrefixCode

/-!
# Where the words of a hash function end

The hash functions of the containers write nothing for one value that begins what they write for
another one, if the hash functions of the leaves do not. This also holds where an element does
not answer, so that a call which stops halfway is told from every other call.
-/

namespace Facet.ValueOps

open PrefixCode (Decides)

section Calls

variable {W : Type} {x x' y y' : HashCall W}

/-- What the two calls write tells whether they are the same call. -/
def Apart (x x' : HashCall W) : Prop := Decides x.writes x'.writes (x = x')

theorem Apart.refl (x : HashCall W) : Apart x x := by
  constructor
  · exact fun _ => rfl
  · exact fun r s h => ⟨rfl, List.append_cancel_left h⟩

theorem exists_writes_andThen (x y : HashCall W) :
    ∃ ws, (x.andThen y).writes = x.writes ++ ws := by
  cases hanswered : x.answered with
  | true => exact ⟨y.writes, by simp [HashCall.andThen, hanswered]⟩
  | false => exact ⟨[], by simp [HashCall.andThen, hanswered]⟩

theorem Apart.andThen (h : Apart x x') (h' : Apart y y') :
    Apart (x.andThen y) (x'.andThen y') := by
  constructor
  · exact fun heq => by rw [heq]
  · intro r s hrs
    have hstart : x = x' := by
      obtain ⟨ws, hws⟩ := exists_writes_andThen x y
      obtain ⟨ws', hws'⟩ := exists_writes_andThen x' y'
      rw [hws, hws', List.append_assoc, List.append_assoc] at hrs
      exact (h.split _ _ hrs).1
    subst hstart
    cases hanswered : x.answered with
    | true =>
      simp only [HashCall.andThen, hanswered, if_true, List.append_assoc] at hrs ⊢
      obtain ⟨heq, hr⟩ := h'.split r s (List.append_cancel_left hrs)
      exact ⟨by rw [heq], hr⟩
    | false =>
      simp only [HashCall.andThen, hanswered] at hrs ⊢
      exact ⟨rfl, List.append_cancel_left hrs⟩

theorem Apart.of_ne {w w' : Write W} {ws ws' : List (Write W)} (hx : x.writes = w :: ws)
    (hx' : x'.writes = w' :: ws') (hne : w ≠ w') : Apart x x' := by
  have hcalls : x ≠ x' := by
    intro heq
    rw [← heq, hx] at hx'
    exact hne (List.cons_eq_cons.mp hx').1
  rw [Apart, hx, hx']
  exact (Decides.of_ne hne).congr (by simp [hcalls])

theorem Apart.loop {α : Type} {call : α → HashCall W} (h : ∀ a b, Apart (call a) (call b))
    {as bs : List α} (hlen : as.length = bs.length) :
    Apart (hashLoop call as) (hashLoop call bs) := by
  induction as generalizing bs with
  | nil =>
    cases bs with
    | nil => exact .refl _
    | cons b bs => cases hlen
  | cons a as ih =>
    cases bs with
    | nil => cases hlen
    | cons b bs => exact (h a b).andThen (ih (Nat.succ.inj hlen))

end Calls

variable {κ W : Type} {V : κ → Type} {hash : ∀ k, V k → List W}

/-- The words of a leaf tell where they end. -/
def PrefixFree (hash : ∀ k, V k → List W) : Prop :=
  ∀ k a b, Decides (hash k a) (hash k b) (hash k a = hash k b)

theorem Apart.leaf {ws ws' : List W} (h : Decides ws ws' (ws = ws')) :
    Apart ⟨ws.map .leaf, true⟩ ⟨ws'.map .leaf, true⟩ := by
  have hinjective : Function.Injective (Write.leaf : W → Write W) := fun _ _ hw => by
    cases hw
    rfl
  constructor
  · exact fun heq => congrArg HashCall.writes heq
  · intro r s hrs
    have hws : ws = ws' := by
      rcases List.prefix_or_prefix_of_prefix (List.prefix_append _ r)
        (hrs ▸ List.prefix_append _ s) with hbegins | hbegins
      · exact h.begins_iff.mp ((List.prefix_map_iff_of_injective hinjective).mp hbegins)
      · exact h.symm.begins_iff.mp ((List.prefix_map_iff_of_injective hinjective).mp hbegins)
    subst hws
    exact ⟨rfl, List.append_cancel_left hrs⟩

mutual

theorem SizedType.callHash_apart (hhash : PrefixFree hash) :
    (t : SizedType κ) → (a b : t.Value V) → Apart (t.callHash hash a) (t.callHash hash b)
  | .leaf k, a, b => .leaf (hhash k a b)
  | .vec _, _, _ => .refl _
  | .array t n, a, b => .loop (t.callHash_apart hhash) (by rw [a.toList_length, b.toList_length])
  | .tuple ts, a, b => ts.tupleHash_apart hhash a b
  | .option t, a, b => by
    cases a with
    | none =>
      cases b with
      | none => exact .refl _
      | some y => exact .of_ne rfl rfl (by simp)
    | some x =>
      cases b with
      | none => exact .of_ne rfl rfl (by simp)
      | some y => exact (Apart.refl _).andThen (t.callHash_apart hhash x y)
  | .result t e, a, b => by
    cases a with
    | ok x =>
      cases b with
      | ok y => exact (Apart.refl _).andThen (t.callHash_apart hhash x y)
      | error y => exact .of_ne rfl rfl (by simp)
    | error x =>
      cases b with
      | ok y => exact .of_ne rfl rfl (by simp)
      | error y => exact (Apart.refl _).andThen (e.callHash_apart hhash x y)
  | .hashSet t, a, b => by
    by_cases hlen : a.length = b.length
    · rw [SizedType.callHash, SizedType.callHash, hlen]
      exact (Apart.refl _).andThen (.loop (t.callHash_apart hhash) hlen)
    · exact .of_ne rfl rfl (by simpa using hlen)

theorem SizedTypes.tupleHash_apart (hhash : PrefixFree hash) :
    (ts : SizedTypes κ) → (a b : ts.Values V) → Apart (ts.tupleHash hash a) (ts.tupleHash hash b)
  | .nil, _, _ => .refl _
  | .cons t ts, a, b => (t.callHash_apart hhash a.1 b.1).andThen (ts.tupleHash_apart hhash a.2 b.2)

end

def numberHash (_ : Unit) (n : ℕ) : List ℕ := [n]

def numberPairs : SizedType Unit := .hashSet (.tuple (.cons (.leaf ()) (.cons (.leaf ()) .nil)))

theorem prefixFree_numberHash : PrefixFree numberHash := by
  intro _ a b
  exact (Decides.single a b).congr (by simp [numberHash])

/-- What a container's hash function writes for one value begins what it writes for another one
only if the two calls are the same. -/
theorem writes_begin_iff (hhash : PrefixFree hash) (t : SizedType κ) (a b : t.Value V) :
    (t.callHash hash a).writes <+: (t.callHash hash b).writes ↔
      t.callHash hash a = t.callHash hash b :=
  (t.callHash_apart hhash a b).begins_iff

/-- A set of one pair does not begin a set of two. -/
theorem writes_begin_iff_pairs :
    PrefixFree numberHash ∧
      ¬ (numberPairs.callHash numberHash [(1, 2, ())]).writes <+:
        (numberPairs.callHash numberHash [(1, 2, ()), (3, 4, ())]).writes := by
  refine ⟨prefixFree_numberHash, fun hbegins => ?_⟩
  have hcalls := (writes_begin_iff prefixFree_numberHash numberPairs [(1, 2, ())]
    [(1, 2, ()), (3, 4, ())]).mp hbegins
  exact absurd (congrArg HashCall.writes hcalls) (by decide)

end Facet.ValueOps
