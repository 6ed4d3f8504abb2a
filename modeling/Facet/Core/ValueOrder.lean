import Facet.Core.ValueEquality

/-!
# Order

Rust orders sequences and tuples lexicographically, `None` before `Some` and `Ok` before
`Err`. Sets have no order: a type-erased comparison that comes to one does not answer. Where it
answers it puts `Ok` last: it is Rust's order, turned round for the values whose first difference
is between an `Ok` and an `Err`.
-/

namespace Facet.ValueOps

variable {κ : Type} {V : κ → Type} (leaves : ∀ k, LeafOps (V k))

mutual

/-- Rust's own order, as far as no set is met, which has none. -/
def SizedType.rustCmp : (t : SizedType κ) → t.Value V → t.Value V → Ordering
  | .leaf k, a, b => (leaves k).cmp a b
  | .vec t, a, b => List.compareLex t.rustCmp a b
  | .array t _, a, b => List.compareLex t.rustCmp a.toList b.toList
  | .tuple ts, a, b => ts.rustCmp a b
  | .option t, a, b =>
    match a, b with
    | none, none => .eq
    | none, some _ => .lt
    | some _, none => .gt
    | some x, some y => t.rustCmp x y
  | .result t e, a, b =>
    match a, b with
    | .ok x, .ok y => t.rustCmp x y
    | .error x, .error y => e.rustCmp x y
    | .ok _, .error _ => .lt
    | .error _, .ok _ => .gt
  | .hashSet _, _, _ => .eq

def SizedTypes.rustCmp : (ts : SizedTypes κ) → ts.Values V → ts.Values V → Ordering
  | .nil, _, _ => .eq
  | .cons t ts, a, b => (t.rustCmp a.1 b.1).then (ts.rustCmp a.2 b.2)

end

mutual

/-- Every part of the type has an order. -/
def SizedType.offersOrd : SizedType κ → Bool
  | .leaf _ => true
  | .vec t | .array t _ | .option t => t.offersOrd
  | .tuple ts => ts.offersOrd
  | .result t e => t.offersOrd && e.offersOrd
  | .hashSet _ => false

def SizedTypes.offersOrd : SizedTypes κ → Bool
  | .nil => true
  | .cons t ts => t.offersOrd && ts.offersOrd

end

mutual

/-- A comparison of the value with an equal one meets no set. The slot of a `Vec` of sets answers
for none of them. -/
def SizedType.Ordered : (t : SizedType κ) → t.Value V → Prop
  | .leaf _, _ => True
  | .vec t, a => t.hasOrd = true ∧ ∀ x ∈ a, t.Ordered x
  | .array t _, a => ∀ x ∈ a.toList, t.Ordered x
  | .tuple ts, a => ts.Ordered a
  | .option t, a => ∀ x ∈ a, t.Ordered x
  | .result t e, a =>
    match a with
    | .ok x => t.Ordered x
    | .error x => e.Ordered x
  | .hashSet _, _ => False

def SizedTypes.Ordered : (ts : SizedTypes κ) → ts.Values V → Prop
  | .nil, _ => True
  | .cons t ts, a => t.Ordered a.1 ∧ ts.Ordered a.2

end

def SizedType.ComparesEqual (t : SizedType κ) (a b : t.Value V) : Prop :=
  t.Ordered a ∧ t.meaning leaves a = t.meaning leaves b

def SizedTypes.ComparesEqual (ts : SizedTypes κ) (a b : ts.Values V) : Prop :=
  ts.Ordered a ∧ ts.meanings leaves a = ts.meanings leaves b

/-- At the first index where the lists differ, the elements stand in the relation. -/
def FirstDifference {α : Type} (eq : α → α → Prop) (rel : α → α → Prop) : List α → List α → Prop
  | x :: a, y :: b => rel x y ∨ eq x y ∧ FirstDifference eq rel a b
  | _, _ => False

mutual

/-- The first difference is between an `Ok` and an `Err`, and no set comes before it. -/
def SizedType.OkMeetsErr : (t : SizedType κ) → t.Value V → t.Value V → Prop
  | .leaf _, _, _ => False
  | .vec t, a, b => FirstDifference (t.ComparesEqual leaves) t.OkMeetsErr a b
  | .array t _, a, b => FirstDifference (t.ComparesEqual leaves) t.OkMeetsErr a.toList b.toList
  | .tuple ts, a, b => ts.OkMeetsErr a b
  | .option t, a, b =>
    match a, b with
    | some x, some y => t.OkMeetsErr x y
    | _, _ => False
  | .result t e, a, b =>
    match a, b with
    | .ok x, .ok y => t.OkMeetsErr x y
    | .error x, .error y => e.OkMeetsErr x y
    | _, _ => True
  | .hashSet _, _, _ => False

def SizedTypes.OkMeetsErr : (ts : SizedTypes κ) → ts.Values V → ts.Values V → Prop
  | .nil, _, _ => False
  | .cons t ts, a, b =>
    t.OkMeetsErr a.1 b.1 ∨ t.ComparesEqual leaves a.1 b.1 ∧ ts.OkMeetsErr a.2 b.2

end

def rustCmp : (t : ValueType κ) → t.Value V → t.Value V → Ordering
  | .sized t, a, b => t.rustCmp leaves a b
  | .slice t, a, b => List.compareLex (t.rustCmp leaves) a b

def offersOrd : ValueType κ → Bool
  | .sized t | .slice t => t.offersOrd

def OkMeetsErr : (t : ValueType κ) → t.Value V → t.Value V → Prop
  | .sized t, a, b => t.OkMeetsErr leaves a b
  | .slice t, a, b => FirstDifference (t.ComparesEqual leaves) (t.OkMeetsErr leaves) a b

/-- The answer `o` in place of `c`, turned round exactly when `P` holds. -/
def Turned (P : Prop) (c o : Ordering) : Prop := (P → c ≠ .eq ∧ o = c.swap) ∧ (¬ P → o = c)

namespace Turned

variable {P : Prop} {c o : Ordering}

theorem not_of_eq (h : Turned P c .eq) : ¬ P := by
  intro hP
  obtain ⟨hne, heq⟩ := h.1 hP
  cases c with
  | eq => exact hne rfl
  | lt | gt => cases heq

theorem eq_iff (h : Turned P c o) : o = .eq ↔ c = .eq := by
  by_cases hP : P
  · obtain ⟨-, rfl⟩ := h.1 hP
    cases c <;> simp
  · rw [h.2 hP]

theorem of_not (hP : ¬ P) : Turned P c c := ⟨fun h => absurd h hP, fun _ => rfl⟩

end Turned

/-- What a comparison answers of two values of the order `c`, where `E` says that they compare
equal, `M` that they are equal and `P` that an `Ok` meets an `Err`. -/
structure Compares (E M P : Prop) (c : Ordering) (r : Option Ordering) : Prop where
  eq_iff : r = some .eq ↔ E
  eq_of_same : M → ∀ o, r = some o → o = .eq
  answers : P → r ≠ none
  turned : ∀ o, r = some o → Turned P c o

namespace Compares

variable {E E' M M' P P' : Prop} {c c' o : Ordering} {r r' : Option Ordering}

theorem congr (h : Compares E M P c r) (hE : E ↔ E') (hM : M ↔ M') : Compares E' M' P c r := by
  rwa [hE, hM] at h

theorem of_none (hE : ¬ E) (hP : ¬ P) : Compares E M P c none where
  eq_iff := by simp [hE]
  eq_of_same _ _ h := by cases h
  answers h := absurd h hP
  turned _ h := by cases h

theorem of_ne (ho : o ≠ .eq) (hE : ¬ E) (hM : ¬ M) (h : Turned P c o) :
    Compares E M P c (some o) where
  eq_iff := by simp [ho, hE]
  eq_of_same hsame := absurd hsame hM
  answers _ := Option.some_ne_none o
  turned _ h' := by
    cases h'
    exact h

theorem of_eq (hE : E) (hP : ¬ P) : Compares E M P .eq (some .eq) where
  eq_iff := by simp [hE]
  eq_of_same _ _ h := by
    cases h
    rfl
  answers h := absurd h hP
  turned _ h := by
    cases h
    exact .of_not hP

/-- The next parts are compared only where the first ones compare equal. -/
theorem then_of_none (h : Compares E M P c none) :
    Compares (E ∧ E') (M ∧ M') (P ∨ E ∧ P') c' none := by
  have hE : ¬ E := fun hE => by cases h.eq_iff.mpr hE
  have hP : ¬ P := fun hP => h.answers hP rfl
  exact of_none (fun hboth => hE hboth.1) (by simp [hE, hP])

theorem then_of_eq (h : Compares E M P c (some .eq)) (h' : Compares E' M' P' c' r') :
    Compares (E ∧ E') (M ∧ M') (P ∨ E ∧ P') (c.then c') r' := by
  have hE : E := h.eq_iff.mp rfl
  have hturned := h.turned .eq rfl
  have hP := hturned.not_of_eq
  have hc := hturned.eq_iff.mp rfl
  constructor
  · simpa [hE] using h'.eq_iff
  · exact fun hsame => h'.eq_of_same hsame.2
  · simpa [hE, hP] using h'.answers
  · simpa [hE, hP, hc] using h'.turned

theorem then_of_ne (h : Compares E M P c (some o)) (ho : o ≠ .eq) :
    Compares (E ∧ E') (M ∧ M') (P ∨ E ∧ P') (c.then c') (some o) := by
  have hE : ¬ E := fun hE => ho (Option.some.inj (h.eq_iff.mpr hE))
  have hM : ¬ M := fun hM => ho (h.eq_of_same hM o rfl)
  have hturned := h.turned o rfl
  have hc : c ≠ .eq := fun hc => ho (hturned.eq_iff.mpr hc)
  have hthen : c.then c' = c := by cases c <;> simp_all
  refine of_ne ho (fun hboth => hE hboth.1) (fun hboth => hM hboth.1) ?_
  simpa [hE, hthen] using hturned

end Compares

theorem compare_succ_succ (i j : ℕ) : compare (i + 1) (j + 1) = compare i j := by
  simp [Nat.compare_eq_ite_lt]

theorem not_firstDifference {α : Type} {eq rel : α → α → Prop} (heq : ∀ x y, ¬ eq x y)
    (hrel : ∀ x y, ¬ rel x y) (a b : List α) : ¬ FirstDifference eq rel a b := by
  cases a with
  | nil => exact id
  | cons x a =>
    cases b with
    | nil => exact id
    | cons y b => simp [FirstDifference, heq, hrel]

theorem cmpLoop_compares {α : Type} {call : α → α → Option Ordering} {c : α → α → Ordering}
    {E M P : α → α → Prop} (h : ∀ x y, Compares (E x y) (M x y) (P x y) (c x y) (call x y))
    (a b : List α) :
    Compares (List.Forall₂ E a b) (List.Forall₂ M a b) (FirstDifference E P a b)
      (List.compareLex c a b) (cmpLoop call (compare a.length b.length) (a.zip b)) := by
  induction a generalizing b with
  | nil =>
    cases b with
    | nil => exact .of_eq .nil id
    | cons y b => exact .of_ne (by simp) (by simp) (by simp) (.of_not id)
  | cons x a ih =>
    cases b with
    | nil => exact .of_ne (by simp) (by simp) (by simp) (.of_not id)
    | cons y b =>
      have hxy := h x y
      rw [List.zip_cons_cons, cmpLoop, List.compareLex_cons_cons, List.length_cons,
        List.length_cons, compare_succ_succ, List.forall₂_cons, List.forall₂_cons, FirstDifference]
      cases hcall : call x y with
      | none =>
        rw [hcall] at hxy
        exact hxy.then_of_none
      | some o =>
        rw [hcall] at hxy
        cases o with
        | eq => exact hxy.then_of_eq (ih b)
        | lt | gt => exact hxy.then_of_ne (by simp)

section Same

variable {leaves}

theorem forall₂_meaning_iff {t : SizedType κ} {a b : List (t.Value V)} :
    List.Forall₂ (fun x y => t.meaning leaves x = t.meaning leaves y) a b ↔
      a.map (t.meaning leaves) = b.map (t.meaning leaves) := by
  rw [← List.forall₂_eq_eq_eq, List.forall₂_map_left_iff, List.forall₂_map_right_iff]

theorem forall₂_comparesEqual_iff {t : SizedType κ} {a b : List (t.Value V)} :
    List.Forall₂ (t.ComparesEqual leaves) a b ↔
      (∀ x ∈ a, t.Ordered x) ∧ a.map (t.meaning leaves) = b.map (t.meaning leaves) := by
  rw [← forall₂_meaning_iff, ← List.forall₂_and_left]
  rfl

end Same

mutual

/-- `call_cmp` is Rust's order, but turned round where an `Ok` meets an `Err`. -/
theorem SizedType.callCmp_compares : (t : SizedType κ) → (a b : t.Value V) →
    Compares (t.ComparesEqual leaves a b) (t.meaning leaves a = t.meaning leaves b)
      (t.OkMeetsErr leaves a b) (t.rustCmp leaves a b) (t.callCmp leaves a b)
  | .leaf k, a, b => by
    have hsame : (leaves k).cmp a b = .eq ↔
        (SizedType.leaf k).meaning leaves a = (SizedType.leaf k).meaning leaves b :=
      (Quotient.eq (r := (leaves k).setoid)).symm
    constructor
    · rw [SizedType.callCmp, Option.some.injEq, hsame, SizedType.ComparesEqual, SizedType.Ordered,
        true_and]
    · intro h o ho
      cases ho
      exact hsame.mpr h
    · exact fun h => h.elim
    · intro o ho
      cases ho
      exact .of_not id
  | .vec t, a, b => by
    rw [SizedType.callCmp]
    by_cases hslot : t.hasOrd = true
    · rw [hslot]
      apply (cmpLoop_compares t.callCmp_compares a b).congr _ forall₂_meaning_iff
      rw [forall₂_comparesEqual_iff]
      simp [SizedType.ComparesEqual, SizedType.Ordered, SizedType.meaning, hslot]
    · rw [if_pos (by simpa using hslot)]
      apply Compares.of_none
      · exact fun h => hslot h.1.1
      · cases t with
        | hashSet t => exact not_firstDifference (fun _ _ h => h.1) (fun _ _ => id) a b
        | _ => exact absurd rfl hslot
  | .array t n, a, b => by
    have hloop := cmpLoop_compares t.callCmp_compares a.toList b.toList
    have hends : compare a.toList.length b.toList.length = .eq := by simp
    rw [hends] at hloop
    exact hloop.congr forall₂_comparesEqual_iff forall₂_meaning_iff
  | .tuple ts, a, b => ts.callCmp_compares a b
  | .option t, a, b => by
    cases a with
    | none =>
      cases b with
      | none => exact .of_eq ⟨by simp [SizedType.Ordered], rfl⟩ id
      | some y =>
        apply Compares.of_ne (by simp)
        · simp [SizedType.ComparesEqual, SizedType.meaning]
        · simp [SizedType.meaning]
        · exact .of_not id
    | some x =>
      cases b with
      | none =>
        apply Compares.of_ne (by simp)
        · simp [SizedType.ComparesEqual, SizedType.meaning]
        · simp [SizedType.meaning]
        · exact .of_not id
      | some y =>
        apply (t.callCmp_compares x y).congr
        · simp [SizedType.ComparesEqual, SizedType.Ordered, SizedType.meaning]
        · simp [SizedType.meaning]
  | .result t e, a, b => by
    cases a with
    | ok x =>
      cases b with
      | ok y =>
        apply (t.callCmp_compares x y).congr
        · simp [SizedType.ComparesEqual, SizedType.Ordered, SizedType.meaning]
        · simp [SizedType.meaning]
      | error y =>
        apply Compares.of_ne (by simp)
        · simp [SizedType.ComparesEqual, SizedType.meaning]
        · simp [SizedType.meaning]
        · exact ⟨fun _ => ⟨by simp [SizedType.rustCmp], rfl⟩, fun h => absurd trivial h⟩
    | error x =>
      cases b with
      | ok y =>
        apply Compares.of_ne (by simp)
        · simp [SizedType.ComparesEqual, SizedType.meaning]
        · simp [SizedType.meaning]
        · exact ⟨fun _ => ⟨by simp [SizedType.rustCmp], rfl⟩, fun h => absurd trivial h⟩
      | error y =>
        apply (e.callCmp_compares x y).congr
        · simp [SizedType.ComparesEqual, SizedType.Ordered, SizedType.meaning]
        · simp [SizedType.meaning]
  | .hashSet t, a, b => .of_none (fun h => h.1) id

theorem SizedTypes.callCmp_compares : (ts : SizedTypes κ) → (a b : ts.Values V) →
    Compares (ts.ComparesEqual leaves a b) (ts.meanings leaves a = ts.meanings leaves b)
      (ts.OkMeetsErr leaves a b) (ts.rustCmp leaves a b) (ts.tupleCmp leaves a b)
  | .nil, _, _ => .of_eq ⟨trivial, rfl⟩ id
  | .cons t ts, a, b => by
    have hfirst := t.callCmp_compares a.1 b.1
    have hrest := ts.callCmp_compares a.2 b.2
    have hE : (t.ComparesEqual leaves a.1 b.1 ∧ ts.ComparesEqual leaves a.2 b.2) ↔
        (SizedTypes.cons t ts).ComparesEqual leaves a b := by
      simp only [SizedType.ComparesEqual, SizedTypes.ComparesEqual, SizedTypes.Ordered,
        SizedTypes.meanings, Prod.mk.injEq]
      tauto
    have hM : (t.meaning leaves a.1 = t.meaning leaves b.1 ∧
        ts.meanings leaves a.2 = ts.meanings leaves b.2) ↔
        (SizedTypes.cons t ts).meanings leaves a = (SizedTypes.cons t ts).meanings leaves b := by
      simp only [SizedTypes.meanings, Prod.mk.injEq]
    rw [SizedTypes.tupleCmp, SizedTypes.rustCmp, SizedTypes.OkMeetsErr]
    cases hcall : t.callCmp leaves a.1 b.1 with
    | none =>
      rw [hcall] at hfirst
      exact hfirst.then_of_none.congr hE hM
    | some o =>
      rw [hcall] at hfirst
      cases o with
      | eq => exact (hfirst.then_of_eq hrest).congr hE hM
      | lt | gt => exact (hfirst.then_of_ne (by simp)).congr hE hM

end

theorem isSome_cmpLoop {α : Type} {call : α → α → Option Ordering}
    (h : ∀ x y, (call x y).isSome = true) (ends : Ordering) (l : List (α × α)) :
    (cmpLoop call ends l).isSome = true := by
  induction l with
  | nil => rfl
  | cons p l ih =>
    obtain ⟨o, ho⟩ := Option.isSome_iff_exists.mp (h p.1 p.2)
    rw [cmpLoop, ho]
    cases o with
    | eq => exact ih
    | lt | gt => rfl

mutual

theorem SizedType.isSome_callCmp : (t : SizedType κ) → t.offersOrd = true → (a b : t.Value V) →
    (t.callCmp leaves a b).isSome = true
  | .leaf k, _, _, _ => rfl
  | .vec t, h, a, b => by
    have hslot : t.hasOrd = true := by
      cases t with
      | hashSet t => cases h
      | _ => rfl
    rw [SizedType.callCmp, hslot]
    exact isSome_cmpLoop (t.isSome_callCmp h) _ _
  | .array t n, h, a, b => isSome_cmpLoop (t.isSome_callCmp h) _ _
  | .tuple ts, h, a, b => ts.isSome_tupleCmp h a b
  | .option t, h, a, b => by
    cases a with
    | none => cases b <;> rfl
    | some x =>
      cases b with
      | none => rfl
      | some y => exact t.isSome_callCmp h x y
  | .result t e, h, a, b => by
    obtain ⟨ht, he⟩ := Bool.and_eq_true_iff.mp h
    cases a with
    | ok x =>
      cases b with
      | ok y => exact t.isSome_callCmp ht x y
      | error y => rfl
    | error x =>
      cases b with
      | ok y => rfl
      | error y => exact e.isSome_callCmp he x y
  | .hashSet _, h, _, _ => by cases h

theorem SizedTypes.isSome_tupleCmp : (ts : SizedTypes κ) → ts.offersOrd = true →
    (a b : ts.Values V) → (ts.tupleCmp leaves a b).isSome = true
  | .nil, _, _, _ => rfl
  | .cons t ts, h, a, b => by
    obtain ⟨ht, hts⟩ := Bool.and_eq_true_iff.mp h
    obtain ⟨o, ho⟩ := Option.isSome_iff_exists.mp (t.isSome_callCmp ht a.1 b.1)
    rw [SizedTypes.tupleCmp, ho]
    cases o with
    | eq => exact ts.isSome_tupleCmp hts a.2 b.2
    | lt | gt => rfl

end

theorem partialCmpLoop_eq {α : Type} {call : α → α → Option Ordering}
    {partialCall : α → α → Option (Option Ordering)}
    (h : ∀ x y, partialCall x y = (call x y).map some) (ends : Ordering) (l : List (α × α)) :
    partialCmpLoop partialCall ends l = (cmpLoop call ends l).map some := by
  induction l with
  | nil => rfl
  | cons p l ih =>
    rw [partialCmpLoop, cmpLoop, h]
    cases call p.1 p.2 with
    | none => rfl
    | some o =>
      cases o with
      | eq => exact ih
      | lt | gt => rfl

mutual

theorem SizedType.callPartialCmp_eq : (t : SizedType κ) → (a b : t.Value V) →
    t.callPartialCmp leaves a b = (t.callCmp leaves a b).map some
  | .leaf k, a, b => congrArg some ((leaves k).partialCmp_eq a b)
  | .vec t, a, b => by
    rw [SizedType.callPartialCmp, SizedType.callCmp, partialCmpLoop_eq t.callPartialCmp_eq]
    cases t.hasOrd <;> rfl
  | .array t n, a, b => partialCmpLoop_eq t.callPartialCmp_eq _ _
  | .tuple ts, a, b => ts.tuplePartialCmp_eq a b
  | .option t, a, b => by
    cases a with
    | none => cases b <;> rfl
    | some x =>
      cases b with
      | none => rfl
      | some y => exact t.callPartialCmp_eq x y
  | .result t e, a, b => by
    cases a with
    | ok x =>
      cases b with
      | ok y => exact t.callPartialCmp_eq x y
      | error y => rfl
    | error x =>
      cases b with
      | ok y => rfl
      | error y => exact e.callPartialCmp_eq x y
  | .hashSet _, _, _ => rfl

theorem SizedTypes.tuplePartialCmp_eq : (ts : SizedTypes κ) → (a b : ts.Values V) →
    ts.tuplePartialCmp leaves a b = (ts.tupleCmp leaves a b).map some
  | .nil, _, _ => rfl
  | .cons t ts, a, b => by
    rw [SizedTypes.tuplePartialCmp, SizedTypes.tupleCmp, t.callPartialCmp_eq]
    cases t.callCmp leaves a.1 b.1 with
    | none => rfl
    | some o =>
      cases o with
      | eq => exact ts.tuplePartialCmp_eq a.2 b.2
      | lt | gt => rfl

end

theorem callCmp_compares : (t : ValueType κ) → (a b : t.Value V) → ∃ E : Prop,
    (E → meaning leaves t a = meaning leaves t b) ∧
      Compares E (meaning leaves t a = meaning leaves t b) (OkMeetsErr leaves t a b)
        (rustCmp leaves t a b) (callCmp leaves t a b)
  | .sized t, a, b => ⟨_, And.right, t.callCmp_compares leaves a b⟩
  | .slice t, a, b =>
    ⟨_, fun h => (forall₂_comparesEqual_iff.mp h).2,
      (cmpLoop_compares (t.callCmp_compares leaves) a b).congr .rfl forall₂_meaning_iff⟩

theorem isSome_callCmp : (t : ValueType κ) → offersOrd t = true → (a b : t.Value V) →
    (callCmp leaves t a b).isSome = true
  | .sized t, h, a, b => t.isSome_callCmp leaves h a b
  | .slice t, h, _, _ => isSome_cmpLoop (t.isSome_callCmp leaves h) _ _

theorem callPartialCmp_eq : (t : ValueType κ) → (a b : t.Value V) →
    callPartialCmp leaves t a b = (callCmp leaves t a b).map some
  | .sized t, a, b => t.callPartialCmp_eq leaves a b
  | .slice t, _, _ => partialCmpLoop_eq (t.callPartialCmp_eq leaves) _ _

end Facet.ValueOps
