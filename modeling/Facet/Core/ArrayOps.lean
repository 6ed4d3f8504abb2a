import Mathlib.Data.List.Nodup
import Mathlib.Data.List.Perm.Basic
import Mathlib.Logic.Function.Basic
import Mathlib.Tactic

/-!
# Type-erased clone and default of arrays

The type operations of an array work element by element through the element's shape.
An element lies at a place, the list of indices that leads to it from the outermost
array, and a place is live when it holds a value. A value that is written is made once
and must be dropped once.
-/

namespace Facet.ArrayOps

abbrev Place := List ℕ

/-- Memory seen as places, with every value made and every value dropped so far. -/
structure Slots (V : Type) where
  live : Place → Option V
  made : List V := []
  dropped : List V := []
  /-- A live place was written over, or a dead place was dropped. -/
  fault : Bool := false

namespace Slots

variable {V : Type} (m : Slots V)

def write (p : Place) (v : V) : Slots V :=
  { m with
    live := Function.update m.live p (some v)
    made := m.made ++ [v]
    fault := m.fault || (m.live p).isSome }

def drop (p : Place) : Slots V :=
  match m.live p with
  | some v => { m with live := Function.update m.live p none, dropped := m.dropped ++ [v] }
  | none => { m with fault := true }

def writeAll (ps : List Place) (g : Place → V) : Slots V :=
  ps.foldl (fun m p => m.write p (g p)) m

def dropAll (ps : List Place) : Slots V := ps.foldl drop m

@[simp] theorem writeAll_nil (g : Place → V) : m.writeAll [] g = m := rfl

@[simp] theorem writeAll_cons (p : Place) (ps : List Place) (g : Place → V) :
    m.writeAll (p :: ps) g = (m.write p (g p)).writeAll ps g := rfl

theorem writeAll_append (ps qs : List Place) (g : Place → V) :
    m.writeAll (ps ++ qs) g = (m.writeAll ps g).writeAll qs g := List.foldl_append

theorem writeAll_live (ps : List Place) (g : Place → V) (p : Place) :
    (m.writeAll ps g).live p = if p ∈ ps then some (g p) else m.live p := by
  induction ps generalizing m with
  | nil => simp
  | cons q ps ih =>
    rw [writeAll_cons, ih]
    by_cases hps : p ∈ ps
    · simp [hps]
    · by_cases hq : p = q
      · subst hq
        simp [hps, write]
      · simp [hps, hq, write]

theorem writeAll_made (ps : List Place) (g : Place → V) :
    (m.writeAll ps g).made = m.made ++ ps.map g := by
  induction ps generalizing m with
  | nil => simp
  | cons q ps ih =>
    rw [writeAll_cons, ih]
    simp [write]

theorem writeAll_dropped (ps : List Place) (g : Place → V) :
    (m.writeAll ps g).dropped = m.dropped := by
  induction ps generalizing m with
  | nil => rfl
  | cons q ps ih =>
    rw [writeAll_cons, ih]
    rfl

/-- Writing distinct places that hold nothing is no fault. -/
theorem writeAll_fault {ps : List Place} (hnodup : ps.Nodup) (g : Place → V)
    (hdead : ∀ p ∈ ps, m.live p = none) : (m.writeAll ps g).fault = m.fault := by
  induction ps generalizing m with
  | nil => rfl
  | cons q ps ih =>
    obtain ⟨hq, hnodup⟩ := List.nodup_cons.mp hnodup
    rw [writeAll_cons, ih (m.write q (g q)) hnodup]
    · simp [write, hdead q List.mem_cons_self]
    · intro p hp
      have hne : p ≠ q := fun h => hq (h ▸ hp)
      simpa [write, hne] using hdead p (List.mem_cons_of_mem q hp)

theorem drop_live (q p : Place) : (m.drop q).live p = if p = q then none else m.live p := by
  unfold drop
  cases hq : m.live q with
  | none =>
    by_cases h : p = q
    · subst h
      simpa using hq
    · simp [h]
  | some v =>
    by_cases h : p = q <;> simp [h]

theorem dropAll_live (ps : List Place) (p : Place) :
    (m.dropAll ps).live p = if p ∈ ps then none else m.live p := by
  induction ps generalizing m with
  | nil => simp [dropAll]
  | cons q ps ih =>
    rw [dropAll, List.foldl_cons, ← dropAll, ih, drop_live]
    by_cases hps : p ∈ ps
    · simp [hps]
    · by_cases hq : p = q <;> simp [hps, hq]

theorem drop_made (q : Place) : (m.drop q).made = m.made := by
  unfold drop
  cases m.live q <;> rfl

theorem dropAll_made (ps : List Place) : (m.dropAll ps).made = m.made := by
  induction ps generalizing m with
  | nil => rfl
  | cons q ps ih => exact (ih (m.drop q)).trans (m.drop_made q)

/-- Dropping distinct live places drops exactly their values. -/
theorem dropAll_live_values {ps : List Place} (hnodup : ps.Nodup) (g : Place → V)
    (hlive : ∀ p ∈ ps, m.live p = some (g p)) :
    (m.dropAll ps).dropped = m.dropped ++ ps.map g ∧ (m.dropAll ps).fault = m.fault := by
  induction ps generalizing m with
  | nil => simp [dropAll]
  | cons q ps ih =>
    obtain ⟨hq, hnodup⟩ := List.nodup_cons.mp hnodup
    have hdrop : m.drop q = { m with
        live := Function.update m.live q none, dropped := m.dropped ++ [g q] } := by
      simp [drop, hlive q List.mem_cons_self]
    obtain ⟨hdropped, hfault⟩ := ih (m.drop q) hnodup (by
      intro p hp
      have hne : p ≠ q := fun h => hq (h ▸ hp)
      rw [drop_live, if_neg hne]
      exact hlive p (List.mem_cons_of_mem q hp))
    constructor
    · calc (m.dropAll (q :: ps)).dropped = (m.drop q).dropped ++ ps.map g := hdropped
        _ = m.dropped ++ (q :: ps).map g := by simp [hdrop]
    · calc (m.dropAll (q :: ps)).fault = (m.drop q).fault := hfault
        _ = m.fault := by rw [hdrop]

end Slots

/-- The type operations of a type that is no array. -/
structure ElementOps (V : Type) where
  /-- The value a call writes at a place, or nothing when the function reports a failure. -/
  defaultInPlace : Option (Place → Option V) := none
  cloneInto : Option (V → V) := none

/-- An element type, or an array of `n` values of such a type. -/
inductive ErasedType (V : Type)
  | element (typeOps : Option (ElementOps V))
  | array (t : ErasedType V) (n : ℕ)

namespace ErasedType

variable {V : Type}

def elementOps : ErasedType V → Option (ElementOps V)
  | .element typeOps => typeOps
  | .array t _ => t.elementOps

def elementDefault (t : ErasedType V) (p : Place) : Option V := do
  let ops ← t.elementOps
  (← ops.defaultInPlace) p

def elementClone (t : ErasedType V) : Option (V → V) := do (← t.elementOps).cloneInto

/-- The places of the elements of a value at `q`, in memory order. -/
def places : ErasedType V → Place → List Place
  | .element _, q => [q]
  | .array t n, q => (List.range n).flatMap fun i => t.places (q ++ [i])

/-- The array has length zero at some level. -/
def hasZeroLength : ErasedType V → Bool
  | .element _ => false
  | .array t n => n == 0 || t.hasZeroLength

def isArray : ErasedType V → Bool
  | .element _ => false
  | .array .. => true

/-- `Shape::call_drop_in_place`, with `array_drop` for arrays; the callers ignore its answer. -/
def callDropInPlace : ErasedType V → Place → Slots V → Slots V
  | .element none, _, m => m
  | .element (some _), q, m => m.drop q
  | .array t n, q, m => (List.range n).foldl (fun m i => t.callDropInPlace (q ++ [i]) m) m

/-- The loop of `array_default` from element `i` on, with `k` elements left. -/
def arrayDefault (elem : ℕ → Slots V → Bool × Slots V) (drop : ℕ → Slots V → Slots V) (i : ℕ) :
    ℕ → Slots V → Bool × Slots V
  | 0, m => (true, m)
  | k + 1, m =>
    match elem i m with
    | (true, m) => arrayDefault elem drop (i + 1) k m
    | (false, m) =>
      -- the elements already initialised are dropped before the failure is passed on
      (false, (List.range i).foldl (fun m j => drop j m) m)

/-- `Shape::call_default_in_place`; the answer tells whether it was `Some`. -/
def callDefaultInPlace : ErasedType V → Place → Slots V → Bool × Slots V
  | .element none, _, m => (false, m)
  | .element (some ops), q, m =>
    match ops.defaultInPlace with
    | none => (false, m)
    | some default =>
      match default q with
      | some v => (true, m.write q v)
      | none => (false, m)
  | .array t n, q, m =>
    arrayDefault (fun i => t.callDefaultInPlace (q ++ [i])) (fun j => t.callDropInPlace (q ++ [j]))
      0 n m

/-- The loop of `array_clone`, which stops at an element that is not cloned. -/
def arrayClone (elem : ℕ → Slots V → Bool × Slots V) (i : ℕ) : ℕ → Slots V → Slots V
  | 0, m => m
  | k + 1, m =>
    match elem i m with
    | (true, m) => arrayClone elem (i + 1) k m
    | (false, m) => m

/-- `Shape::call_clone_into` from the source at `r`. `clone_into` returns nothing, so an
array type always answers `Some`. -/
def callCloneInto (source : Place → V) : ErasedType V → Place → Place → Slots V → Bool × Slots V
  | .element none, _, _, m => (false, m)
  | .element (some ops), r, q, m =>
    match ops.cloneInto with
    | none => (false, m)
    | some clone => (true, m.write q (clone (source r)))
  | .array t n, r, q, m =>
    (true, arrayClone (fun i => t.callCloneInto source (r ++ [i]) (q ++ [i])) 0 n m)

end ErasedType

section AllOrNothing

variable {V : Type}

/-- What a call that answers `None` may leave behind: no place has changed, and what was
made on the way has been dropped. -/
def Undone (m m' : Slots V) : Prop :=
  m'.live = m.live ∧ m'.fault = m.fault ∧
    ∃ made dropped, m'.made = m.made ++ made ∧ m'.dropped = m.dropped ++ dropped ∧
      dropped.Perm made

/-- The whole destination holds a default value. -/
def HoldsDefault (t : ErasedType V) (q : Place) (m : Slots V) : Prop :=
  ∀ p ∈ t.places q, ∃ v, t.elementDefault p = some v ∧ m.live p = some v

/-- The whole destination holds a clone of the source. -/
def HoldsClone (t : ErasedType V) (source : Place → V) (r q : Place) (m : Slots V) : Prop :=
  List.Forall₂ (fun s p => ∃ clone, t.elementClone = some clone ∧
    m.live p = some (clone (source s))) (t.places r) (t.places q)

/-- The answer is `Some` exactly when the destination is complete, and `None` undoes. -/
def AllOrNothing (complete : Slots V → Prop) (m : Slots V) (answer : Bool × Slots V) : Prop :=
  (answer.1 = true ↔ complete answer.2) ∧ (answer.1 = false → Undone m answer.2)

def Uninit (t : ErasedType V) (q : Place) (m : Slots V) : Prop :=
  ∀ p ∈ t.places q, m.live p = none

theorem Undone.refl (m : Slots V) : Undone m m := ⟨rfl, rfl, [], [], by simp⟩

end AllOrNothing

namespace ErasedType

variable {V : Type}

theorem exists_append_of_mem_places {t : ErasedType V} {q p : Place} (h : p ∈ t.places q) :
    ∃ e, p = q ++ e := by
  induction t generalizing q with
  | element typeOps => exact ⟨[], by simpa [places] using h⟩
  | array t n ih =>
    simp only [places, List.mem_flatMap] at h
    obtain ⟨i, _, hp⟩ := h
    obtain ⟨e, he⟩ := ih hp
    exact ⟨i :: e, by simp [he]⟩

theorem index_eq_of_mem_places {t : ErasedType V} {q p : Place} {i j : ℕ}
    (hi : p ∈ t.places (q ++ [i])) (hj : p ∈ t.places (q ++ [j])) : i = j := by
  obtain ⟨e, he⟩ := exists_append_of_mem_places hi
  obtain ⟨e', he'⟩ := exists_append_of_mem_places hj
  have h : i :: e = j :: e' := by
    rw [← List.append_cancel_left_eq q]
    simpa using he.symm.trans he'
  exact (List.cons.inj h).1

theorem nodup_places (t : ErasedType V) (q : Place) : (t.places q).Nodup := by
  induction t generalizing q with
  | element typeOps => exact List.nodup_singleton q
  | array t n ih =>
    apply List.nodup_flatMap.mpr
    constructor
    · intro i _
      exact ih (q ++ [i])
    · apply List.nodup_range.imp
      intro i j hne p hi hj
      exact hne (index_eq_of_mem_places hi hj)

/-- The places of the first `k` elements of an array at `q`. -/
def firstPlaces (t : ErasedType V) (q : Place) (k : ℕ) : List Place :=
  (List.range k).flatMap fun i => t.places (q ++ [i])

theorem firstPlaces_succ (t : ErasedType V) (q : Place) (k : ℕ) :
    t.firstPlaces q (k + 1) = t.firstPlaces q k ++ t.places (q ++ [k]) := by
  simp [firstPlaces, List.range_succ]

theorem mem_firstPlaces {t : ErasedType V} {q p : Place} {k : ℕ} :
    p ∈ t.firstPlaces q k ↔ ∃ i < k, p ∈ t.places (q ++ [i]) := by
  simp [firstPlaces]

theorem callDropInPlace_eq {t : ErasedType V} (hops : t.elementOps.isSome) (q : Place)
    (m : Slots V) : t.callDropInPlace q m = m.dropAll (t.places q) := by
  induction t generalizing q m with
  | element typeOps =>
    cases typeOps with
    | none => simp [elementOps] at hops
    | some ops => rfl
  | array t n ih =>
    rw [callDropInPlace, places, Slots.dropAll, List.foldl_flatMap]
    congr 1
    funext m i
    exact ih hops (q ++ [i]) m

theorem callDropInPlace_of_none {t : ErasedType V} (hops : t.elementOps = none) (q : Place)
    (m : Slots V) : t.callDropInPlace q m = m := by
  induction t generalizing q m with
  | element typeOps =>
    cases hops
    rfl
  | array t n ih =>
    have hid : (fun m i => t.callDropInPlace (q ++ [i]) m) = fun m (_ : ℕ) => m := by
      funext m i
      exact ih hops (q ++ [i]) m
    rw [callDropInPlace, hid, List.foldl_const]
    exact congrFun (Function.iterate_id (List.range n).length) m

/-- Elements that have been written have type operations, so dropping them drops them all. -/
theorem drop_written_eq {t : ErasedType V} {q : Place} {k : ℕ}
    (hwritten : ∀ p ∈ t.firstPlaces q k, ∃ v, t.elementDefault p = some v) (m : Slots V) :
    (List.range k).foldl (fun m j => t.callDropInPlace (q ++ [j]) m) m =
      m.dropAll (t.firstPlaces q k) := by
  cases hops : t.elementOps with
  | some ops => exact callDropInPlace_eq (t := .array t k) (by simp [elementOps, hops]) q m
  | none =>
    have hnone : t.firstPlaces q k = [] := by
      apply List.eq_nil_iff_forall_not_mem.mpr
      intro p hp
      obtain ⟨v, hv⟩ := hwritten p hp
      simp [elementDefault, hops] at hv
    rw [hnone]
    exact callDropInPlace_of_none (t := .array t k) hops q m

/-- What a call at a dead place answers: it writes the default values of all the elements,
or one of them has none and the call undoes. -/
def DefaultOutcome (t : ErasedType V) (g : Place → V) (ps : List Place) (m : Slots V)
    (answer : Bool × Slots V) : Prop :=
  ((∀ p ∈ ps, t.elementDefault p = some (g p)) ∧ answer = (true, m.writeAll ps g)) ∨
    ((∃ p ∈ ps, t.elementDefault p = none) ∧ answer.1 = false ∧ Undone m answer.2)

theorem undone_of_dropped_prefix {ps : List Place} (hnodup : ps.Nodup) {m m' : Slots V}
    (g : Place → V) (hdead : ∀ p ∈ ps, m.live p = none)
    (h : Undone (m.writeAll ps g) m') : Undone m (m'.dropAll ps) := by
  obtain ⟨hlive, hfault, made, dropped, hmade, hdropped, hperm⟩ := h
  have hvalues : ∀ p ∈ ps, m'.live p = some (g p) := by
    intro p hp
    rw [hlive, Slots.writeAll_live, if_pos hp]
  obtain ⟨hd, hf⟩ := Slots.dropAll_live_values m' hnodup g hvalues
  refine ⟨?_, ?_, ps.map g ++ made, dropped ++ ps.map g, ?_, ?_, ?_⟩
  · funext p
    rw [Slots.dropAll_live]
    split_ifs with hp
    · exact (hdead p hp).symm
    · rw [hlive, Slots.writeAll_live, if_neg hp]
  · rw [hf, hfault, Slots.writeAll_fault m hnodup g hdead]
  · rw [Slots.dropAll_made, hmade, Slots.writeAll_made, List.append_assoc]
  · rw [hd, hdropped, Slots.writeAll_dropped, List.append_assoc]
  · exact List.perm_append_comm.trans (hperm.append_left _)

/-- The loop, entered with the first `i` elements written. -/
theorem arrayDefault_outcome {t : ErasedType V} {g : Place → V} {q : Place}
    (helem : ∀ (i : ℕ) (m : Slots V), Uninit t (q ++ [i]) m →
      DefaultOutcome t g (t.places (q ++ [i])) m (t.callDefaultInPlace (q ++ [i]) m))
    (k : ℕ) {i : ℕ} {m : Slots V}
    (hdead : ∀ p ∈ t.firstPlaces q (i + k), m.live p = none)
    (hwritten : ∀ p ∈ t.firstPlaces q i, t.elementDefault p = some (g p)) :
    DefaultOutcome t g (t.firstPlaces q (i + k)) m
      (arrayDefault (fun i => t.callDefaultInPlace (q ++ [i]))
        (fun j => t.callDropInPlace (q ++ [j])) i k (m.writeAll (t.firstPlaces q i) g)) := by
  induction k generalizing i with
  | zero => exact .inl ⟨hwritten, rfl⟩
  | succ k ih =>
    have hnext : ∀ p ∈ t.places (q ++ [i]), p ∈ t.firstPlaces q (i + (k + 1)) := by
      intro p hp
      exact mem_firstPlaces.mpr ⟨i, by omega, hp⟩
    have hdead' : Uninit t (q ++ [i]) (m.writeAll (t.firstPlaces q i) g) := by
      intro p hp
      have hother : p ∉ t.firstPlaces q i := by
        intro hmem
        obtain ⟨j, hj, hpj⟩ := mem_firstPlaces.mp hmem
        have := index_eq_of_mem_places hpj hp
        omega
      rw [Slots.writeAll_live, if_neg hother]
      exact hdead p (hnext p hp)
    rw [arrayDefault]
    obtain ⟨hall, hcall⟩ | ⟨⟨p, hp, hnone⟩, hfalse, hundone⟩ := helem i _ hdead'
    · rw [hcall]
      have hwritten' : ∀ p ∈ t.firstPlaces q (i + 1), t.elementDefault p = some (g p) := by
        intro p hp
        rw [firstPlaces_succ] at hp
        exact (List.mem_append.mp hp).elim (hwritten p) (hall p)
      have := ih (i := i + 1) (by rwa [Nat.add_right_comm, Nat.add_assoc]) hwritten'
      rw [firstPlaces_succ, Slots.writeAll_append, Nat.add_right_comm, Nat.add_assoc] at this
      exact this
    · apply Or.inr
      obtain ⟨answer, hanswer⟩ : ∃ answer,
          t.callDefaultInPlace (q ++ [i]) (m.writeAll (t.firstPlaces q i) g) = answer := ⟨_, rfl⟩
      rw [hanswer] at hfalse hundone ⊢
      obtain ⟨ok, m'⟩ := answer
      cases hfalse
      refine ⟨⟨p, hnext p hp, hnone⟩, rfl, ?_⟩
      simp only [drop_written_eq fun p hp => ⟨g p, hwritten p hp⟩]
      apply undone_of_dropped_prefix _ g _ hundone
      · exact nodup_places (.array t i) q
      · intro p hp
        obtain ⟨j, hj, hpj⟩ := mem_firstPlaces.mp hp
        exact hdead p (mem_firstPlaces.mpr ⟨j, by omega, hpj⟩)

theorem callDefaultInPlace_outcome {t : ErasedType V} {g : Place → V}
    (hg : ∀ p v, t.elementDefault p = some v → v = g p) {q : Place} {m : Slots V}
    (hdead : Uninit t q m) :
    DefaultOutcome t g (t.places q) m (t.callDefaultInPlace q m) := by
  induction t generalizing q m with
  | element typeOps =>
    cases typeOps with
    | none => exact .inr ⟨⟨q, List.mem_singleton_self q, rfl⟩, rfl, Undone.refl m⟩
    | some ops =>
      cases hdefault : ops.defaultInPlace with
      | none =>
        refine .inr ⟨⟨q, List.mem_singleton_self q, ?_⟩, ?_⟩
        · simp [elementDefault, elementOps, hdefault]
        · simp [callDefaultInPlace, hdefault, Undone.refl]
      | some default =>
        have helem : ∀ p, (element (some ops)).elementDefault p = default p := by
          intro p
          simp [elementDefault, elementOps, hdefault]
        cases hvalue : default q with
        | none =>
          refine .inr ⟨⟨q, List.mem_singleton_self q, (helem q).trans hvalue⟩, ?_⟩
          simp [callDefaultInPlace, hdefault, hvalue, Undone.refl]
        | some v =>
          have hv : v = g q := hg q v ((helem q).trans hvalue)
          subst hv
          refine .inl ⟨?_, ?_⟩
          · intro p hp
            rw [List.mem_singleton.mp hp, helem, hvalue]
          · simp [callDefaultInPlace, hdefault, hvalue, places]
  | array t n ih =>
    have hloop := arrayDefault_outcome (fun i m hm => ih hg hm) n (i := 0) (m := m) (q := q)
      (by rw [Nat.zero_add]; exact hdead) (by simp [firstPlaces])
    rw [Nat.zero_add] at hloop
    exact hloop

theorem callDefaultInPlace_allOrNothing (t : ErasedType V) [Nonempty V] {q : Place} {m : Slots V}
    (hdead : Uninit t q m) : AllOrNothing (HoldsDefault t q) m (t.callDefaultInPlace q m) := by
  obtain ⟨v₀⟩ := ‹Nonempty V›
  have hg : ∀ p v, t.elementDefault p = some v → v = (t.elementDefault p).getD v₀ := by
    intro p v hv
    simp [hv]
  obtain ⟨hall, hcall⟩ | ⟨⟨p, hp, hnone⟩, hfalse, hundone⟩ := callDefaultInPlace_outcome hg hdead
  · rw [hcall]
    refine ⟨iff_of_true rfl ?_, fun h => nomatch h⟩
    intro p hp
    exact ⟨_, hall p hp, by rw [Slots.writeAll_live, if_pos hp]⟩
  · refine ⟨iff_of_false (by simp [hfalse]) ?_, fun _ => hundone⟩
    intro hholds
    obtain ⟨v, hv, _⟩ := hholds p hp
    simp [hnone] at hv

theorem places_eq_nil_iff (t : ErasedType V) (q : Place) :
    t.places q = [] ↔ t.hasZeroLength = true := by
  induction t generalizing q with
  | element typeOps => simp [places, hasZeroLength]
  | array t n ih =>
    simp only [places, List.flatMap_eq_nil_iff, List.mem_range, ih, hasZeroLength,
      Bool.or_eq_true, beq_iff_eq]
    constructor
    · intro h
      by_cases hn : n = 0
      · exact .inl hn
      · exact .inr (h 0 (by omega))
    · intro h i hi
      exact h.resolve_left (by omega)

/-- The destination places hold the clones of the source places, in order. -/
def Cloned (clone : V → V) (source : Place → V) (m : Slots V) (ss ps : List Place) : Prop :=
  List.Forall₂ (fun s p => m.live p = some (clone (source s))) ss ps

theorem Cloned.of_live_eq {clone : V → V} {source : Place → V} {m m' : Slots V}
    {ss ps : List Place} (h : Cloned clone source m ss ps)
    (heq : ∀ p ∈ ps, m'.live p = m.live p) : Cloned clone source m' ss ps := by
  induction h with
  | nil => exact .nil
  | @cons s p ss ps hp _ ih =>
    constructor
    · rw [heq p List.mem_cons_self, hp]
    · exact ih fun p hp => heq p (List.mem_cons_of_mem _ hp)

/-- What a call whose elements offer `clone` does. -/
def CloneOutcome (clone : V → V) (source : Place → V) (ss ps : List Place) (m m' : Slots V) :
    Prop :=
  Cloned clone source m' ss ps ∧ ∀ p, p ∉ ps → m'.live p = m.live p

theorem arrayClone_outcome {t : ErasedType V} {clone : V → V} {source : Place → V} {r q : Place}
    (helem : ∀ (i : ℕ) (m : Slots V), ∃ m',
      t.callCloneInto source (r ++ [i]) (q ++ [i]) m = (true, m') ∧
        CloneOutcome clone source (t.places (r ++ [i])) (t.places (q ++ [i])) m m')
    (k : ℕ) {i : ℕ} {m₀ m : Slots V}
    (h : CloneOutcome clone source (t.firstPlaces r i) (t.firstPlaces q i) m₀ m) :
    CloneOutcome clone source (t.firstPlaces r (i + k)) (t.firstPlaces q (i + k)) m₀
      (arrayClone (fun i => t.callCloneInto source (r ++ [i]) (q ++ [i])) i k m) := by
  induction k generalizing i m with
  | zero => exact h
  | succ k ih =>
    obtain ⟨m', hcall, hcloned, hframe⟩ := helem i m
    rw [arrayClone, hcall]
    rw [show i + (k + 1) = i + 1 + k by omega]
    apply ih
    rw [firstPlaces_succ, firstPlaces_succ]
    constructor
    · apply List.rel_append (h.1.of_live_eq _) hcloned
      intro p hp
      apply hframe
      intro hmem
      obtain ⟨j, hj, hpj⟩ := mem_firstPlaces.mp hp
      have := index_eq_of_mem_places hpj hmem
      omega
    · intro p hp
      rw [List.mem_append, not_or] at hp
      rw [hframe p hp.2, h.2 p hp.1]

theorem callCloneInto_outcome {t : ErasedType V} {clone : V → V}
    (hclone : t.elementClone = some clone) (source : Place → V) (r q : Place) (m : Slots V) :
    ∃ m', t.callCloneInto source r q m = (true, m') ∧
      CloneOutcome clone source (t.places r) (t.places q) m m' := by
  induction t generalizing r q m with
  | element typeOps =>
    cases typeOps with
    | none => simp [elementClone, elementOps] at hclone
    | some ops =>
      have hops : ops.cloneInto = some clone := by simpa [elementClone, elementOps] using hclone
      refine ⟨m.write q (clone (source r)), by simp [callCloneInto, hops], ?_, ?_⟩
      · exact .cons (by simp [Slots.write]) .nil
      · intro p hp
        have hne : p ≠ q := fun h => hp (h ▸ List.mem_singleton_self q)
        simp [Slots.write, hne]
  | array t n ih =>
    refine ⟨_, rfl, ?_⟩
    have hloop := arrayClone_outcome (fun i m => ih hclone (r ++ [i]) (q ++ [i]) m) n
      (i := 0) (m := m) ⟨.nil, fun p _ => rfl⟩
    rwa [Nat.zero_add] at hloop

/-- Without a clone function only a destination with no elements is complete. -/
theorem holdsClone_of_none {t : ErasedType V} (hclone : t.elementClone = none)
    (source : Place → V) (r q : Place) (m : Slots V) :
    HoldsClone t source r q m ↔ t.hasZeroLength = true := by
  rw [← places_eq_nil_iff t q]
  constructor
  · intro h
    cases hq : t.places q with
    | nil => rfl
    | cons p ps =>
      rw [HoldsClone, hq] at h
      obtain ⟨s, _, ⟨clone, hsome, _⟩, _⟩ := List.forall₂_cons_right_iff.mp h
      simp [hclone] at hsome
  · intro h
    have hr := (places_eq_nil_iff t r).mpr ((places_eq_nil_iff t q).mp h)
    rw [HoldsClone, h, hr]
    exact .nil

theorem callCloneInto_allOrNothing_iff (t : ErasedType V) (source : Place → V) (r q : Place)
    (m : Slots V) : AllOrNothing (HoldsClone t source r q) m (t.callCloneInto source r q m) ↔
      (t.isArray = true → t.elementClone.isSome = true ∨ t.hasZeroLength = true) := by
  cases hclone : t.elementClone with
  | some clone =>
    obtain ⟨m', hcall, hcloned, _⟩ := callCloneInto_outcome hclone source r q m
    rw [hcall]
    refine iff_of_true ⟨iff_of_true rfl ?_, fun h => nomatch h⟩ fun _ => .inl rfl
    exact hcloned.imp fun s p hp => ⟨clone, hclone, hp⟩
  | none =>
    have hholds := holdsClone_of_none hclone source r q
    cases t with
    | element typeOps =>
      have hcall : (element typeOps).callCloneInto source r q m = (false, m) := by
        cases typeOps with
        | none => rfl
        | some ops =>
          have hops : ops.cloneInto = none := by simpa [elementClone, elementOps] using hclone
          simp [callCloneInto, hops]
      rw [hcall]
      refine iff_of_true ⟨?_, fun _ => Undone.refl m⟩ fun h => nomatch h
      rw [hholds]
      simp [hasZeroLength]
    | array t n =>
      simp [AllOrNothing, hholds, callCloneInto, isArray]

end ErasedType

/-- Default is all or nothing for every type. Clone is exactly when the elements of an array
offer it or there are none: `array_clone` cannot report that an element was not cloned. -/
theorem allOrNothing_iff {V : Type} (t : ErasedType V) (source : Place → V) (r q : Place)
    (m : Slots V) (hdead : Uninit t q m) :
    (AllOrNothing (HoldsDefault t q) m (t.callDefaultInPlace q m) ∧
      AllOrNothing (HoldsClone t source r q) m (t.callCloneInto source r q m)) ↔
      (t.isArray = true → t.elementClone.isSome = true ∨ t.hasZeroLength = true) := by
  have : Nonempty V := ⟨source q⟩
  have hdefault := t.callDefaultInPlace_allOrNothing hdead
  rw [← t.callCloneInto_allOrNothing_iff source r q m]
  exact and_iff_right hdefault

/-- Memory in which nothing is live. -/
def emptySlots (V : Type) : Slots V := { live := fun _ => none }

/-- An array of two arrays of three values that can be cloned and defaulted. -/
def cloneableGrid : ErasedType ℕ :=
  .array (.array (.element (some { defaultInPlace := some fun _ => some 0, cloneInto := some id }))
    3) 2

theorem allOrNothing_cloneableGrid :
    AllOrNothing (HoldsDefault cloneableGrid [1]) (emptySlots ℕ)
        (cloneableGrid.callDefaultInPlace [1] (emptySlots ℕ)) ∧
      AllOrNothing (HoldsClone cloneableGrid List.sum [0] [1]) (emptySlots ℕ)
        (cloneableGrid.callCloneInto List.sum [0] [1] (emptySlots ℕ)) :=
  (allOrNothing_iff cloneableGrid List.sum [0] [1] (emptySlots ℕ) fun _ _ => rfl).mpr
    fun _ => .inl rfl

/-- An array of two values of a type that has drop but no clone. -/
def uncloneablePair : ErasedType ℕ := .array (.element (some {})) 2

/-- `array_clone` on it initialises nothing and the call answers `Some`. -/
theorem uncloneablePair_not_allOrNothing :
    ¬ AllOrNothing (HoldsClone uncloneablePair List.sum [0] [1]) (emptySlots ℕ)
      (uncloneablePair.callCloneInto List.sum [0] [1] (emptySlots ℕ)) := by
  rw [ErasedType.callCloneInto_allOrNothing_iff]
  decide

end Facet.ArrayOps
