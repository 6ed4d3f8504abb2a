import Facet.Core.ValueOps

/-!
# Structural equality

The meaning of a value forgets how its sets are iterated and which of several equal leaves
it holds: equality of meanings is structural equality, with sets compared as sets. The
type-erased equality answers it for every two values.
-/

namespace Facet.ValueOps

variable {κ : Type} {V : κ → Type}

def LeafOps.setoid {α : Type} (ops : LeafOps α) : Setoid α where
  r a b := ops.cmp a b = .eq
  iseqv :=
    have := ops.isTotal
    ⟨fun _ => Std.ReflCmp.compare_self, Std.OrientedCmp.eq_symm, Std.TransCmp.eq_trans⟩

variable (leaves : ∀ k, LeafOps (V k))

mutual

@[reducible] def SizedType.Meaning : SizedType κ → Type
  | .leaf k => Quotient (leaves k).setoid
  | .vec t => List t.Meaning
  | .array t _ => List t.Meaning
  | .tuple ts => ts.Meanings
  | .option t => Option t.Meaning
  | .result t e => Except e.Meaning t.Meaning
  | .hashSet t => Set t.Meaning

@[reducible] def SizedTypes.Meanings : SizedTypes κ → Type
  | .nil => Unit
  | .cons t ts => t.Meaning × ts.Meanings

end

mutual

def SizedType.meaning : (t : SizedType κ) → t.Value V → t.Meaning leaves
  | .leaf k, a => Quotient.mk (leaves k).setoid a
  | .vec t, a => a.map t.meaning
  | .array t _, a => a.toList.map t.meaning
  | .tuple ts, a => ts.meanings a
  | .option t, a => a.map t.meaning
  | .result t e, a =>
    match a with
    | .ok x => .ok (t.meaning x)
    | .error x => .error (e.meaning x)
  | .hashSet t, a => {m | m ∈ a.map t.meaning}

def SizedTypes.meanings : (ts : SizedTypes κ) → ts.Values V → ts.Meanings leaves
  | .nil, _ => ()
  | .cons t ts, a => (t.meaning a.1, ts.meanings a.2)

end

mutual

/-- No set in the value holds two equal elements. -/
def SizedType.Distinct : (t : SizedType κ) → t.Value V → Prop
  | .leaf _, _ => True
  | .vec t, a => ∀ x ∈ a, t.Distinct x
  | .array t _, a => ∀ x ∈ a.toList, t.Distinct x
  | .tuple ts, a => ts.Distinct a
  | .option t, a => ∀ x ∈ a, t.Distinct x
  | .result t e, a =>
    match a with
    | .ok x => t.Distinct x
    | .error x => e.Distinct x
  | .hashSet t, a => (∀ x ∈ a, t.Distinct x) ∧ (a.map (t.meaning leaves)).Nodup

def SizedTypes.Distinct : (ts : SizedTypes κ) → ts.Values V → Prop
  | .nil, _ => True
  | .cons t ts, a => t.Distinct a.1 ∧ ts.Distinct a.2

end

def ValueType.Meaning : ValueType κ → Type
  | .sized t => t.Meaning leaves
  | .slice t => List (t.Meaning leaves)

def meaning : (t : ValueType κ) → t.Value V → t.Meaning leaves
  | .sized t, a => t.meaning leaves a
  | .slice t, a => a.map (t.meaning leaves)

def Distinct : (t : ValueType κ) → t.Value V → Prop
  | .sized t, a => t.Distinct leaves a
  | .slice t, a => ∀ x ∈ a, t.Distinct leaves x

section Lists

variable {α β : Type} {f : α → α → Bool} {m : α → β}

theorem all_zip_iff {a b : List α} (h : ∀ x ∈ a, ∀ y ∈ b, (f x y = true ↔ m x = m y))
    (hlen : a.length = b.length) :
    ((a.zip b).all fun p => f p.1 p.2) = true ↔ a.map m = b.map m := by
  induction a generalizing b with
  | nil =>
    cases b with
    | nil => simp
    | cons y b => simp at hlen
  | cons x a ih =>
    cases b with
    | nil => simp at hlen
    | cons y b =>
      have hxy := h x List.mem_cons_self y List.mem_cons_self
      have hrest := ih (fun x hx y hy => h x (.tail _ hx) y (.tail _ hy)) (by simpa using hlen)
      simp only [List.zip_cons_cons, List.all_cons, Bool.and_eq_true, List.map_cons,
        List.cons.injEq, hxy, hrest]

/-- Two lists without repetition have the same members iff they have the same length and
one is contained in the other. -/
theorem setOf_mem_eq_iff {a b : List β} (ha : a.Nodup) (hb : b.Nodup) :
    {m | m ∈ a} = {m | m ∈ b} ↔ a.length = b.length ∧ ∀ m ∈ a, m ∈ b := by
  constructor
  · intro h
    have hmem : ∀ m, m ∈ a ↔ m ∈ b := Set.ext_iff.mp h
    exact ⟨((List.perm_ext_iff_of_nodup ha hb).mpr hmem).length_eq, fun m => (hmem m).mp⟩
  · intro ⟨hlen, hsub⟩
    have hperm := (List.subperm_of_subset ha hsub).perm_of_length_le hlen.ge
    exact Set.ext fun m => hperm.mem_iff

theorem eqLoop_eq {call : α → α → Option Bool} (h : ∀ x y, call x y = some (f x y))
    (l : List (α × α)) : eqLoop call l = some (l.all fun p => f p.1 p.2) := by
  induction l with
  | nil => rfl
  | cons p l ih =>
    rw [eqLoop, h, List.all_cons]
    cases f p.1 p.2 with
    | true => exact ih
    | false => rfl

end Lists

mutual

theorem SizedType.rustEq_iff : (t : SizedType κ) → {a b : t.Value V} → t.Distinct leaves a →
    t.Distinct leaves b → (t.rustEq leaves a b = true ↔ t.meaning leaves a = t.meaning leaves b)
  | .leaf k, a, b, _, _ => by
    rw [SizedType.rustEq, (leaves k).eq_iff, SizedType.meaning, SizedType.meaning]
    exact (Quotient.eq (r := (leaves k).setoid)).symm
  | .vec t, a, b, ha, hb => by
    rw [SizedType.rustEq, Bool.and_eq_true, beq_iff_eq, SizedType.meaning, SizedType.meaning]
    have hpair : ∀ x ∈ a, ∀ y ∈ b,
        (t.rustEq leaves x y = true ↔ t.meaning leaves x = t.meaning leaves y) :=
      fun x hx y hy => t.rustEq_iff (ha x hx) (hb y hy)
    have hall := all_zip_iff hpair
    constructor
    · intro ⟨hlen, heq⟩
      exact (hall hlen).mp heq
    · intro heq
      have hlen : a.length = b.length := by simpa using congrArg List.length heq
      exact ⟨hlen, (hall hlen).mpr heq⟩
  | .array t n, a, b, ha, hb => by
    rw [SizedType.rustEq, SizedType.meaning, SizedType.meaning]
    exact all_zip_iff (fun x hx y hy => t.rustEq_iff (ha x hx) (hb y hy)) (by simp)
  | .tuple ts, a, b, ha, hb => ts.rustEq_iff ha hb
  | .option t, a, b, ha, hb => by
    cases a with
    | none => cases b <;> simp [SizedType.rustEq, SizedType.meaning]
    | some x =>
      cases b with
      | none => simp [SizedType.rustEq, SizedType.meaning]
      | some y => simpa [SizedType.rustEq, SizedType.meaning] using t.rustEq_iff (ha x rfl) (hb y rfl)
  | .result t e, a, b, ha, hb => by
    cases a with
    | ok x =>
      cases b with
      | ok y => simpa [SizedType.rustEq, SizedType.meaning] using t.rustEq_iff ha hb
      | error y => simp [SizedType.rustEq, SizedType.meaning]
    | error x =>
      cases b with
      | ok y => simp [SizedType.rustEq, SizedType.meaning]
      | error y => simpa [SizedType.rustEq, SizedType.meaning] using e.rustEq_iff ha hb
  | .hashSet t, a, b, ha, hb => by
    rw [SizedType.rustEq, Bool.and_eq_true, beq_iff_eq, SizedType.meaning, SizedType.meaning,
      setOf_mem_eq_iff ha.2 hb.2, List.length_map, List.length_map]
    apply and_congr_right
    intro _
    simp only [List.all_eq_true, List.any_eq_true, List.mem_map, forall_exists_index, and_imp,
      forall_apply_eq_imp_iff₂]
    apply forall₂_congr
    intro x hx
    apply exists_congr
    intro y
    apply and_congr_right
    intro hy
    rw [t.rustEq_iff (ha.1 x hx) (hb.1 y hy), eq_comm]

theorem SizedTypes.rustEq_iff : (ts : SizedTypes κ) → {a b : ts.Values V} →
    ts.Distinct leaves a → ts.Distinct leaves b →
    (ts.rustEq leaves a b = true ↔ ts.meanings leaves a = ts.meanings leaves b)
  | .nil, _, _, _, _ => by simp [SizedTypes.rustEq, SizedTypes.meanings]
  | .cons t ts, a, b, ha, hb => by
    simp only [SizedTypes.rustEq, SizedTypes.meanings, Bool.and_eq_true, Prod.mk.injEq,
      t.rustEq_iff ha.1 hb.1, ts.rustEq_iff ha.2 hb.2]

end

mutual

theorem SizedType.callPartialEq_eq : (t : SizedType κ) → (a b : t.Value V) →
    t.callPartialEq leaves a b = some (t.rustEq leaves a b)
  | .leaf k, a, b => rfl
  | .vec t, a, b => by
    have hslot : t.hasPartialEq = true := by cases t <;> rfl
    rw [SizedType.callPartialEq, SizedType.rustEq, hslot, eqLoop_eq t.callPartialEq_eq]
    by_cases hlen : a.length = b.length <;> simp [hlen]
  | .array t n, a, b => eqLoop_eq t.callPartialEq_eq _
  | .tuple ts, a, b => ts.tuplePartialEq_eq a b
  | .option t, a, b => by
    cases a with
    | none => cases b <;> rfl
    | some x =>
      cases b with
      | none => rfl
      | some y => exact t.callPartialEq_eq x y
  | .result t e, a, b => by
    cases a with
    | ok x =>
      cases b with
      | ok y => exact t.callPartialEq_eq x y
      | error y => rfl
    | error x =>
      cases b with
      | ok y => rfl
      | error y => exact e.callPartialEq_eq x y
  | .hashSet t, a, b => by
    rw [SizedType.callPartialEq, SizedType.rustEq]
    by_cases hlen : a.length = b.length <;> simp [hlen, contains]

theorem SizedTypes.tuplePartialEq_eq : (ts : SizedTypes κ) → (a b : ts.Values V) →
    ts.tuplePartialEq leaves a b = some (ts.rustEq leaves a b)
  | .nil, _, _ => rfl
  | .cons t ts, a, b => by
    rw [SizedTypes.tuplePartialEq, t.callPartialEq_eq, ts.tuplePartialEq_eq, SizedTypes.rustEq]
    cases t.rustEq leaves a.1 b.1 <;> rfl

end

/-- `call_partial_eq` always answers, and answers structural equality. -/
theorem callPartialEq_meaning : (t : ValueType κ) → {a b : t.Value V} → Distinct leaves t a →
    Distinct leaves t b → ∃ r, callPartialEq leaves t a b = some r ∧
      (r = true ↔ meaning leaves t a = meaning leaves t b)
  | .sized t, a, b, ha, hb => ⟨_, t.callPartialEq_eq leaves a b, t.rustEq_iff leaves ha hb⟩
  | .slice t, a, b, ha, hb => by
    -- a slice compares as a vector does
    have hvec := (SizedType.vec t).rustEq_iff leaves ha hb
    refine ⟨_, ?_, hvec⟩
    rw [callPartialEq, slicePartialEq, eqLoop_eq (t.callPartialEq_eq leaves), SizedType.rustEq]
    by_cases hlen : a.length = b.length <;> simp [hlen]

end Facet.ValueOps
