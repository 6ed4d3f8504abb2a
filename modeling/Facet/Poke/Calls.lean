import Facet.Poke.Session

/-!
# One call

A call refuses, or has the effect of its operation at the place its checks answered. On a
sound value of a kind that it permits it violates no contract, leaves a sound value, changes
nothing when it refuses, and accounts for each value and each buffer it was handed.
-/

namespace Facet.Poke

variable {ι : Type} [DecidableEq ι]

namespace Runtime

variable {R : Runtime ι}

/-- The memory after the arguments of a refused call are dropped. -/
def refused (m : Memory ι) (args : List (Arg ι)) : Memory ι :=
  { m with
    dropped := argValues args ++ m.dropped
    freed := m.freed + (args.map Arg.buffers).sum }

/-- The memory after an effect at a place. -/
def changed (m : Memory ι) (args : List (Arg ι)) (place : Place) (e : Effect ι) : Memory ι where
  root := PlacedTree.put place e.value m.root
  dropped := e.dropped ++ m.dropped
  freed := m.freed + (args.map Arg.buffers).sum
  written := place :: m.written

/-- All that a call can do: refuse, or have its effect at the place its checks answered. -/
theorem run_cases {op : Op ι} {m m' : Memory ι} {p : Place} {answer : Answer ι}
    (h : (R.call op).run m p = .ok (m', answer)) :
    ∃ v, PlacedTree.get? p m.root = some v ∧
      ((∃ e, (R.call op).check v = .error e ∧ answer = .error e ∧
          m' = refused m (R.call op).args) ∨
        ∃ q old, (R.call op).check v = .ok q ∧ PlacedTree.get? q v = some old ∧
          answer = (R.effect old op).answer ∧
            m' = changed m (R.call op).args (p ++ q) (R.effect old op)) := by
  rw [Call.run] at h
  cases hv : PlacedTree.get? p m.root with
  | none => simp [hv] at h
  | some v =>
    rw [hv] at h
    refine ⟨v, rfl, ?_⟩
    dsimp only at h
    cases hcheck : (R.call op).check v with
    | error e =>
      rw [hcheck] at h
      obtain ⟨rfl, rfl⟩ := Prod.mk.inj (Except.ok.inj h)
      exact .inl ⟨e, rfl, rfl, rfl⟩
    | ok q =>
      rw [hcheck] at h
      dsimp only at h
      cases hold : PlacedTree.get? q v with
      | none => simp [hold] at h
      | some old =>
        rw [hold] at h
        obtain ⟨⟨s, ans⟩, hcommit, hdone⟩ := ExceptList.exists_of_bind_ok h
        have hdoes := (R.call_does ⟨old, m.dropped, m.freed⟩ op).1 _ hcommit
        obtain ⟨rfl, rfl⟩ := Prod.mk.inj hdoes
        obtain ⟨rfl, rfl⟩ := Prod.mk.inj (Except.ok.inj hdone)
        exact .inr ⟨q, old, rfl, hold, rfl, rfl⟩

/-- What the functions called by an operation ask for, and a float that can be held. -/
def opPermitted (R : Runtime ι) (v : Value ι) : Op ι → Prop
  | .poke op => R.pokePermitted v op ∧ R.floatHeld v op
  | .listLike len _ => len = v.children.length

section Calls

variable {op : Op ι} {m m' : Memory ι} {p q : Place} {v : Value ι} {answer : Answer ι}

theorem call_lands (hv : R.Sound v) (hcheck : (R.call op).check v = .ok q)
    (hargs : ∀ x ∈ (R.call op).args, R.Sound x.value) (hop : opPermitted R v op) :
    Lands R v q fun old => R.effect old op := by
  cases op with
  | poke op => exact pokeCall_lands hv op hcheck hargs hop.2
  | listLike len op => exact listLikeCall_lands hv op hcheck hargs

/-- What is asked of the value called on is asked of the value that is changed. -/
theorem permitted_of_check {old : Value ι} (hcheck : (R.call op).check v = .ok q)
    (hold : PlacedTree.get? q v = some old) (hop : opPermitted R v op) :
    R.permitted old op ∧ ∀ pokeOp, op = .poke pokeOp → R.floatHeld old pokeOp := by
  cases op with
  | poke op =>
    rcases pokeCheck_place hcheck with rfl | ⟨-, hfield⟩
    · obtain rfl : v = old := Option.some.inj hold
      refine ⟨hop.1, fun pokeOp hpoke => ?_⟩
      obtain rfl := Op.poke.inj hpoke
      exact hop.2
    · refine ⟨(hfield old).1, fun pokeOp hpoke => ?_⟩
      obtain rfl := Op.poke.inj hpoke
      exact (hfield old).2
  | listLike len op =>
    obtain rfl := listLikeCheck_place hcheck
    obtain rfl : v = old := Option.some.inj hold
    refine ⟨?_, fun pokeOp hpoke => nomatch hpoke⟩
    cases op with
    | push x => exact trivial
    | pop => exact trivial
    | swap a b => exact listLikeSwap_permitted hop hcheck

theorem run_ok (hget : PlacedTree.get? p m.root = some v) (hv : R.Sound v)
    (hargs : ∀ x ∈ (R.call op).args, R.Sound x.value)
    (hop : ∀ q, (R.call op).check v = .ok q → opPermitted R v op) :
    ∃ r, (R.call op).run m p = .ok r := by
  rw [Call.run, hget]
  dsimp only
  cases hcheck : (R.call op).check v with
  | error e => exact ⟨_, rfl⟩
  | ok q =>
    obtain ⟨old, hold, hkeeps⟩ := call_lands hv hcheck hargs (hop q hcheck)
    have hwhole : Value.Whole old := Sound.whole (PlacedTree.Everywhere.get? hv hold)
    have hpermitted := (permitted_of_check hcheck hold (hop q hcheck)).1
    obtain ⟨r, hr⟩ := (R.call_does ⟨old, m.dropped, m.freed⟩ op).2 hwhole hpermitted
    dsimp only
    rw [hold]
    dsimp only
    rw [hr]
    exact ⟨_, rfl⟩

/-- How many values are directly below a place. -/
def count (root : Value ι) (p : Place) : Option ℕ :=
  (PlacedTree.get? p root).map fun w => w.children.length

omit [DecidableEq ι] in
theorem count_of_get? {root : Value ι} (h : PlacedTree.get? p root = some v) :
    count root p = some v.children.length := by
  rw [count, h]
  rfl

omit [DecidableEq ι] in
theorem exists_get?_of_count {root : Value ι} {n : ℕ} (h : count root p = some n) :
    ∃ v : Value ι, PlacedTree.get? p root = some v ∧ v.children.length = n :=
  Option.map_eq_some_iff.mp h

/-- What a call keeps. -/
structure RunKeeps (R : Runtime ι) (m m' : Memory ι) (p : Place) (args : List (Arg ι))
    (answer : Answer ι) : Prop where
  sound : R.Sound m'.root
  unchanged : ∀ e, answer = .error e → m'.root = m.root
  /-- Nodes that are not at the place or below it. -/
  elsewhere : ∀ r, ¬ p <+: r → count m'.root r = count m.root r
  there : ∃ n, count m'.root p = some n
  tokens : m'.root.tokens + tokensAll m'.dropped + tokensAll (returned answer) =
    m.root.tokens + tokensAll m.dropped + tokensAll (argValues args)
  freed : m'.freed = m.freed + (args.map Arg.buffers).sum

omit [DecidableEq ι] in
theorem refused_keeps (hroot : R.Sound m.root) (hget : PlacedTree.get? p m.root = some v)
    (args : List (Arg ι)) (e : Refusal ι) : RunKeeps R m (refused m args) p args (.error e) where
  sound := hroot
  unchanged _ _ := rfl
  elsewhere _ _ := rfl
  there := ⟨_, count_of_get? hget⟩
  tokens := by
    simp only [refused, tokensAll_append, returned, tokensAll_nil, add_zero]
    abel
  freed := rfl

omit [DecidableEq ι] in
theorem changed_keeps {old : Value ι} {e : Effect ι} {args : List (Arg ι)}
    (hroot : R.Sound m.root) (hp : PlacedTree.get? p m.root = some v)
    (hget : PlacedTree.get? (p ++ q) m.root = some old)
    (hkeeps : Keeps R old e) (hunchanged : ∀ r, e.answer = .error r → e.value = old)
    (htokens : e.tokens = old.tokens + tokensAll (argValues args)) :
    RunKeeps R m (changed m args (p ++ q) e) p args e.answer where
  sound := hroot.put hget hkeeps.sound hkeeps.shape
  unchanged r hr := by
    change PlacedTree.put (p ++ q) e.value m.root = m.root
    rw [hunchanged r hr, PlacedTree.put_self hget]
  elsewhere r hr := by
    apply PlacedTree.map_get?_put (fun _ n => n)
    exact fun hprefix => hr ((List.prefix_append p q).trans hprefix)
  there := by
    have hput : PlacedTree.get? p (PlacedTree.put (p ++ q) e.value m.root) =
        some (PlacedTree.put q e.value v) := by
      rw [PlacedTree.get?_put_above, hp]
      rfl
    exact ⟨_, count_of_get? hput⟩
  tokens := by
    have hput := tokens_put hget e.value
    have heffect : e.value.tokens + tokensAll e.dropped + tokensAll (returned e.answer) =
        old.tokens + tokensAll (argValues args) := htokens
    change Value.tokens (PlacedTree.put (p ++ q) e.value m.root) +
      tokensAll (e.dropped ++ m.dropped) + tokensAll (returned e.answer) = _
    rw [tokensAll_append]
    apply add_right_cancel (b := old.tokens)
    calc Value.tokens (PlacedTree.put (p ++ q) e.value m.root) +
          (tokensAll e.dropped + tokensAll m.dropped) + tokensAll (returned e.answer) + old.tokens
        = (Value.tokens (PlacedTree.put (p ++ q) e.value m.root) + old.tokens) +
          tokensAll e.dropped + tokensAll (returned e.answer) + tokensAll m.dropped := by abel
      _ = m.root.tokens + (e.value.tokens + tokensAll e.dropped +
          tokensAll (returned e.answer)) + tokensAll m.dropped := by rw [hput]; abel
      _ = m.root.tokens + tokensAll m.dropped + tokensAll (argValues args) + old.tokens := by
        rw [heffect]; abel
  freed := rfl

theorem run_keeps (hroot : R.Sound m.root) (hget : PlacedTree.get? p m.root = some v)
    (hargs : ∀ x ∈ (R.call op).args, R.Sound x.value)
    (hop : ∀ q, (R.call op).check v = .ok q → opPermitted R v op)
    (h : (R.call op).run m p = .ok (m', answer)) :
    RunKeeps R m m' p (R.call op).args answer := by
  obtain ⟨w, hw, hcases⟩ := run_cases h
  obtain rfl : v = w := Option.some.inj (hget.symm.trans hw)
  have hv : R.Sound v := PlacedTree.Everywhere.get? hroot hget
  rcases hcases with ⟨e, -, rfl, rfl⟩ | ⟨q, old, hcheck, hold, rfl, rfl⟩
  · exact refused_keeps hroot hget _ e
  · have hplace : PlacedTree.get? (p ++ q) m.root = some old := by
      rw [PlacedTree.get?_append, hget]
      exact hold
    obtain ⟨found, hfound, hkeeps⟩ := call_lands hv hcheck hargs (hop q hcheck)
    obtain rfl : found = old := Option.some.inj (hfound.symm.trans hold)
    have hfloat := (permitted_of_check hcheck hold (hop q hcheck)).2
    have hfits : R.Fits found := PlacedTree.Everywhere.self (PlacedTree.Everywhere.get? hv hold)
    exact changed_keeps hroot hget hplace hkeeps (fun r hr => effect_unchanged hfloat hr)
      (R.effect_tokens hfits.keys_le op)

/-- The cached length of a list-like follows its elements. -/
theorem run_listLike_count {len : ℕ} {op : ListLikeOp ι}
    (hget : PlacedTree.get? p m.root = some v)
    (h : (R.listLikeCall len op).run m p = .ok (m', answer)) :
    count m'.root p = some (op.cachedAfter v.children.length answer) := by
  have hrun : (R.call (.listLike len op)).run m p = .ok (m', answer) := h
  obtain ⟨w, hw, hcases⟩ := run_cases hrun
  obtain rfl : v = w := Option.some.inj (hget.symm.trans hw)
  rcases hcases with ⟨e, -, rfl, rfl⟩ | ⟨q, old, hcheck, hold, rfl, rfl⟩
  · have hsame : op.cachedAfter v.children.length (.error e : Answer ι) = v.children.length := by
      cases op <;> rfl
    rw [hsame]
    exact count_of_get? hget
  · obtain rfl := listLikeCheck_place hcheck
    obtain rfl : v = old := Option.some.inj hold
    have hput : PlacedTree.get? p (PlacedTree.put (p ++ []) (listLikeEffect v op).value m.root) =
        some (listLikeEffect v op).value := by
      rw [List.append_nil]
      exact PlacedTree.get?_put_self hget _
    refine (count_of_get? hput).trans ?_
    rw [length_listLikeEffect]
    rfl

end Calls

end Runtime

end Facet.Poke
