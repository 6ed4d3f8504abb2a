import Facet.Poke.Effect

/-!
# Values are dropped or moved once

Each followed value that an effect finds in the old value or among the arguments is, once
each, in the new value, dropped, or handed back.
-/

namespace Facet.Poke

variable {ι : Type}

/-- The tokens of several values. -/
def tokensAll (vs : List (Value ι)) : Multiset ℕ := (PlacedTree.labelsAll vs).filterMap Label.token

@[simp] theorem tokensAll_nil : tokensAll ([] : List (Value ι)) = 0 := rfl

@[simp] theorem tokensAll_cons (v : Value ι) (vs : List (Value ι)) :
    tokensAll (v :: vs) = v.tokens + tokensAll vs := Multiset.filterMap_add _ _ _

@[simp] theorem tokensAll_append (vs ws : List (Value ι)) :
    tokensAll (vs ++ ws) = tokensAll vs + tokensAll ws := by
  rw [tokensAll, PlacedTree.labelsAll_append]
  exact Multiset.filterMap_add _ _ _

namespace Value

def ownToken (v : Value ι) : Multiset ℕ := (v.label.token.map singleton).getD 0

theorem tokens_eq (v : Value ι) : v.tokens = v.ownToken + tokensAll v.children := by
  rw [tokens, PlacedTree.labels_eq, ownToken]
  cases htoken : v.label.token with
  | none => rw [Multiset.filterMap_cons_none _ _ htoken]; simp [tokensAll]
  | some t => rw [Multiset.filterMap_cons_some _ _ _ htoken]; simp [tokensAll]

theorem tokens_withChildren (v : Value ι) (children : List (Value ι)) :
    (v.withChildren children).tokens = v.ownToken + tokensAll children :=
  tokens_eq (v.withChildren children)

/-- A container that was just made is not followed itself. -/
theorem tokens_fresh (shape : ι) (head : Head) (children : List (Value ι)) :
    Value.tokens (.node ⟨shape, head, none⟩ children) = tokensAll children := by
  rw [tokens_eq]
  exact zero_add _

@[simp] theorem tokens_uninit (shape : ι) : (Value.uninit shape).tokens = 0 :=
  tokens_fresh shape .uninit []

theorem tokens_push (v x : Value ι) : (v.push x).tokens = v.tokens + x.tokens := by
  rw [push, tokens_withChildren, tokens_eq v, tokensAll_append, tokensAll_cons, tokensAll_nil,
    add_zero, add_assoc]

end Value

theorem tokens_put {p : Place} {v old : Value ι} (h : PlacedTree.get? p v = some old)
    (x : Value ι) : Value.tokens (PlacedTree.put p x v) + old.tokens = v.tokens + x.tokens := by
  have hlabels := PlacedTree.labels_put h x
  rw [Value.tokens, Value.tokens, Value.tokens, Value.tokens, ← Multiset.filterMap_add,
    ← Multiset.filterMap_add, hlabels]

theorem tokensAll_set {vs : List (Value ι)} {i : ℕ} {old : Value ι} (h : vs[i]? = some old)
    (x : Value ι) : tokensAll (vs.set i x) + old.tokens = tokensAll vs + x.tokens := by
  have hmodify := PlacedTree.labelsAll_modify h fun _ => x
  have hset : vs.set i x = vs.modify i fun _ => x := by
    apply List.ext_getElem?
    intro j
    rw [List.getElem?_set, List.getElem?_modify]
    by_cases hij : i = j
    · subst hij
      have hlt := (List.getElem?_eq_some_iff.mp h).1
      simp [hlt]
    · simp [hij]
  rw [hset, tokensAll, tokensAll, Value.tokens, Value.tokens, ← Multiset.filterMap_add,
    ← Multiset.filterMap_add, hmodify]

namespace Value

theorem tokens_of_pop {v rest x : Value ι} (h : v.pop = some (rest, x)) :
    rest.tokens + x.tokens = v.tokens := by
  obtain ⟨last, hlast, hpair⟩ := Option.map_eq_some_iff.mp h
  obtain ⟨rfl, rfl⟩ := Prod.mk.inj hpair
  have hsplit := List.dropLast_append_getLast? last hlast
  have hchildren : tokensAll v.children.dropLast + last.tokens = tokensAll v.children := by
    calc tokensAll v.children.dropLast + last.tokens
        = tokensAll (v.children.dropLast ++ [last]) := by simp
      _ = tokensAll v.children := by rw [hsplit]
  rw [tokens_withChildren, tokens_eq v, add_assoc, hchildren]

theorem tokens_of_swap {v w : Value ι} {a b : ℕ} (h : v.swap a b = some w) :
    w.tokens = v.tokens := by
  rw [swap] at h
  cases ha : v.children[a]? with
  | none => simp [ha] at h
  | some x =>
    cases hb : v.children[b]? with
    | none => simp [ha, hb] at h
    | some y =>
      obtain rfl : v.withChildren ((v.children.set a y).set b x) = w := by simpa [ha, hb] using h
      have hfirst := tokensAll_set ha y
      have hthere : (v.children.set a y)[b]? = some y := by
        rw [List.getElem?_set]
        by_cases hab : a = b
        · have hlt := (List.getElem?_eq_some_iff.mp ha).1
          simp [hab, hab ▸ hlt]
        · simpa [hab] using hb
      have hsecond := tokensAll_set hthere x
      rw [tokens_withChildren, tokens_eq v]
      congr 1
      apply add_right_cancel (b := tokens x + tokens y)
      calc tokensAll ((v.children.set a y).set b x) + (tokens x + tokens y)
          = tokensAll ((v.children.set a y).set b x) + tokens y + tokens x := by abel
        _ = tokensAll (v.children.set a y) + tokens x + tokens x := by rw [hsecond]
        _ = tokensAll v.children + (tokens x + tokens y) := by
          rw [hfirst, add_assoc, add_comm (tokens y)]

theorem tokens_insertEntry (eq : Value ι → Value ι → Bool) (k x : Value ι)
    (entries : List (Value ι)) :
    tokensAll (insertEntry eq k x entries).1 + tokensAll (insertEntry eq k x entries).2 =
      tokensAll entries + (k.tokens + x.tokens) := by
  fun_induction insertEntry eq k x entries with
  | case1 key old rest _ =>
    simp only [tokensAll_cons, tokensAll_nil]
    abel
  | case2 key old rest _ rest' dropped hrest ih =>
    rw [hrest] at ih
    simp only [tokensAll_cons] at ih ⊢
    rw [add_assoc, add_assoc, ih]
    abel
  | case3 rest _ => simp

theorem tokens_mapInsert (v : Value ι) (eq : Value ι → Value ι → Bool) (k x : Value ι) :
    (v.mapInsert eq k x).1.tokens + tokensAll (v.mapInsert eq k x).2 =
      v.tokens + (k.tokens + x.tokens) := by
  have hentries := tokens_insertEntry eq k x v.children
  rw [mapInsert]
  change (v.withChildren (insertEntry eq k x v.children).1).tokens + _ = _
  rw [tokens_withChildren, tokens_eq v, add_assoc, hentries, add_assoc]

theorem tokens_setInsert (v : Value ι) (eq : Value ι → Value ι → Bool) (x : Value ι) :
    (v.setInsert eq x).1.tokens + tokensAll (v.setInsert eq x).2 = v.tokens + x.tokens := by
  rw [setInsert]
  by_cases hholds : v.holds eq x = true
  · simp [hholds]
  · simp [hholds, tokens_push]

theorem tokens_insertObjectEntry (v : Value ι) {keys : List String}
    (hkeys : keys.length ≤ v.children.length) (key : String) (x : Value ι) :
    (v.insertObjectEntry keys key x).1.tokens + tokensAll (v.insertObjectEntry keys key x).2 =
      v.tokens + x.tokens := by
  rw [insertObjectEntry]
  cases hfind : keys.findIdx? fun k => decide (k = key) with
  | some index =>
    have hlt : index < v.children.length :=
      lt_of_lt_of_le (List.findIdx?_eq_some_iff_findIdx_eq.mp hfind).1 hkeys
    have hset := tokensAll_set (List.getElem?_eq_getElem hlt) x
    dsimp only
    rw [tokens_withChildren, tokens_eq v, List.getElem?_eq_getElem hlt, Option.toList_some,
      tokensAll_cons, tokensAll_nil, add_zero, add_assoc, hset, add_assoc]
  | none =>
    dsimp only
    rw [tokens_eq, tokens_eq v]
    simp only [PlacedTree.children_node, tokensAll_append, tokensAll_cons, tokensAll_nil]
    have hown : Value.ownToken (.node { v.label with head := .dynamic (.object (keys ++ [key])) }
        (v.children ++ [x])) = v.ownToken := rfl
    rw [hown]
    abel

end Value

/-- What an answer hands back to the caller. -/
def returned : Answer ι → List (Value ι)
  | .ok (some x) => [x]
  | _ => []

def argValues (args : List (Arg ι)) : List (Value ι) := args.map Arg.value

namespace Effect

/-- The tokens of what an effect leaves, drops and hands back. -/
def tokens (e : Effect ι) : Multiset ℕ :=
  e.value.tokens + tokensAll e.dropped + tokensAll (returned e.answer)

variable (v : Value ι)

theorem tokens_replacing (x : Value ι) : (replacing v x).tokens = v.tokens + x.tokens := by
  simp [tokens, replacing, returned, add_comm]

theorem tokens_rebuilding (head : Head) (children : List (Value ι)) :
    (rebuilding v head children).tokens = v.tokens + tokensAll children := by
  rw [rebuilding, tokens_replacing, Value.tokens_fresh]

theorem tokens_pushing (x : Value ι) : (pushing v x).tokens = v.tokens + x.tokens := by
  simp [tokens, pushing, returned, Value.tokens_push]

theorem tokens_popping : (popping v).tokens = v.tokens := by
  rw [popping]
  cases hpop : v.pop with
  | none => simp [tokens, returned]
  | some popped =>
    have hbalance := Value.tokens_of_pop hpop
    simpa [tokens, returned] using hbalance

theorem tokens_swapping (a b : ℕ) (e : Refusal ι) : (swapping v a b e).tokens = v.tokens := by
  rw [swapping]
  cases hswap : v.swap a b with
  | none => simp [tokens, returned]
  | some swapped => simp [tokens, returned, Value.tokens_of_swap hswap]

theorem tokens_inserting (after : Value ι × List (Value ι)) {answer : Answer ι}
    (hanswer : returned answer = []) :
    (inserting after answer).tokens = after.1.tokens + tokensAll after.2 := by
  simp [tokens, inserting, hanswer]

end Effect

namespace Runtime

variable (R : Runtime ι) [DecidableEq ι] {v : Value ι}

theorem pokeEffect_tokens (hkeys : v.keys.length ≤ v.children.length) (op : PokeOp ι) :
    (R.pokeEffect v op).tokens = v.tokens + tokensAll (argValues (R.pokeCall op).args) := by
  cases op with
  | set x => simp [pokeEffect, Effect.tokens_replacing, pokeCall, Runtime.set, argValues]
  | structSetField index x =>
    simp [pokeEffect, Effect.tokens_replacing, pokeCall, structSetField, argValues]
  | structSetFieldByName name x =>
    simp [pokeEffect, Effect.tokens_replacing, pokeCall, structSetFieldByName, argValues]
  | tupleSetField index x =>
    simp [pokeEffect, Effect.tokens_replacing, pokeCall, tupleSetField, argValues]
  | enumSetField index x =>
    simp [pokeEffect, Effect.tokens_replacing, pokeCall, enumSetField, argValues]
  | enumSetFieldByName name x =>
    simp [pokeEffect, Effect.tokens_replacing, pokeCall, enumSetFieldByName, argValues]
  | setSome x => simp [pokeEffect, Effect.tokens_rebuilding, pokeCall, setSome, argValues]
  | setNone => simp [pokeEffect, Effect.tokens_rebuilding, pokeCall, setNone, argValues]
  | setOk x => simp [pokeEffect, Effect.tokens_rebuilding, pokeCall, setOk, argValues]
  | setErr x => simp [pokeEffect, Effect.tokens_rebuilding, pokeCall, setErr, argValues]
  | listPush x => simp [pokeEffect, Effect.tokens_pushing, pokeCall, listPush, argValues]
  | listPop => simp [pokeEffect, Effect.tokens_popping, pokeCall, listPop, argValues]
  | listSwap a b => simp [pokeEffect, Effect.tokens_swapping, pokeCall, listSwap, argValues]
  | mapInsert k x =>
    rw [pokeEffect, Effect.tokens_inserting _ rfl, Value.tokens_mapInsert]
    simp [pokeCall, mapInsert, argValues]
  | setInsert x =>
    have hanswer : returned (if v.holds (R.tables.keyEq v.shape) x.value then
        .error .absent else .ok none : Answer ι) = [] := by
      split <;> rfl
    rw [pokeEffect, Effect.tokens_inserting _ hanswer, Value.tokens_setInsert]
    simp [pokeCall, setInsert, argValues]
  | dynSet setter =>
    rw [pokeCall, dynSetter_eq]
    simp [pokeEffect, Effect.tokens_rebuilding, dynSet, argValues]
  | setF64 bits =>
    by_cases hbits : R.tables.representable v.shape bits = true
    · simp [pokeEffect, hbits, Effect.tokens_rebuilding, pokeCall, setF64, argValues]
    · simp [pokeEffect, hbits, Effect.tokens, returned, pokeCall, setF64, argValues]
  | setBytes bytes => simp [pokeEffect, Effect.tokens_rebuilding, pokeCall, setBytes, argValues]
  | pushArrayElement x =>
    simp [pokeEffect, Effect.tokens_pushing, pokeCall, pushArrayElement, argValues]
  | insertObjectEntry key x =>
    rw [pokeEffect, Effect.tokens_inserting _ rfl, v.tokens_insertObjectEntry hkeys]
    simp [pokeCall, insertObjectEntry, argValues]
  | endArray => simp [pokeEffect, Effect.tokens, returned, pokeCall, endArray, argValues]
  | endObject => simp [pokeEffect, Effect.tokens, returned, pokeCall, endObject, argValues]

theorem listLikeEffect_tokens (len : ℕ) (op : ListLikeOp ι) :
    (listLikeEffect v op).tokens =
      v.tokens + tokensAll (argValues (R.listLikeCall len op).args) := by
  cases op with
  | push x =>
    simp [listLikeEffect, Effect.tokens_pushing, listLikeCall, listLikePush, argValues]
  | pop => simp [listLikeEffect, Effect.tokens_popping, listLikeCall, listLikePop, argValues]
  | swap a b =>
    by_cases hab : a = b
    · simp [listLikeEffect, hab, Effect.tokens, returned, listLikeCall, listLikeSwap, argValues]
    · simp [listLikeEffect, hab, Effect.tokens_swapping, listLikeCall, listLikeSwap, argValues]

theorem effect_tokens (hkeys : v.keys.length ≤ v.children.length) (op : Op ι) :
    (R.effect v op).tokens = v.tokens + tokensAll (argValues (R.call op).args) := by
  cases op with
  | poke op => exact R.pokeEffect_tokens hkeys op
  | listLike len op => exact R.listLikeEffect_tokens len op

end Runtime

end Facet.Poke
