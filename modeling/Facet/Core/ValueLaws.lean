import Facet.Core.ValueOrder

/-!
# Which laws hold

Hashing reads a set in iteration order, so equal values hash alike when their sets are
iterated in the same order, and some lawful hash of the leaves tells them apart when they
are not. A call of the hash function answers for the values that hold no `Vec`. Together with
equality and order this says for which values all laws hold.
-/

namespace Facet.ValueOps

variable {κ : Type} {V : κ → Type} (leaves : ∀ k, LeafOps (V k))

mutual

/-- Every part of the type has a hash. -/
def SizedType.offersHash : SizedType κ → Bool
  | .leaf _ => true
  | .vec _ => false
  | .array t _ | .option t | .hashSet t => t.offersHash
  | .tuple ts => ts.offersHash
  | .result t e => t.offersHash && e.offersHash

def SizedTypes.offersHash : SizedTypes κ → Bool
  | .nil => true
  | .cons t ts => t.offersHash && ts.offersHash

end

mutual

/-- The value holds no `Vec`, which has no hash. -/
def SizedType.Hashes : (t : SizedType κ) → t.Value V → Prop
  | .leaf _, _ => True
  | .vec _, _ => False
  | .array t _, a => ∀ x ∈ a.toList, t.Hashes x
  | .tuple ts, a => ts.Hashes a
  | .option t, a => ∀ x ∈ a, t.Hashes x
  | .result t e, a =>
    match a with
    | .ok x => t.Hashes x
    | .error x => e.Hashes x
  | .hashSet t, a => ∀ x ∈ a, t.Hashes x

def SizedTypes.Hashes : (ts : SizedTypes κ) → ts.Values V → Prop
  | .nil, _ => True
  | .cons t ts, a => t.Hashes a.1 ∧ ts.Hashes a.2

end

mutual

/-- The values are equal and their sets are iterated in the same order. -/
def SizedType.Aligned : (t : SizedType κ) → t.Value V → t.Value V → Prop
  | .leaf k, a, b => (leaves k).eq a b = true
  | .vec t, a, b => List.Forall₂ t.Aligned a b
  | .array t _, a, b => List.Forall₂ t.Aligned a.toList b.toList
  | .tuple ts, a, b => ts.Aligned a b
  | .option t, a, b =>
    match a, b with
    | none, none => True
    | some x, some y => t.Aligned x y
    | _, _ => False
  | .result t e, a, b =>
    match a, b with
    | .ok x, .ok y => t.Aligned x y
    | .error x, .error y => e.Aligned x y
    | _, _ => False
  | .hashSet t, a, b => List.Forall₂ t.Aligned a b

def SizedTypes.Aligned : (ts : SizedTypes κ) → ts.Values V → ts.Values V → Prop
  | .nil, _, _ => True
  | .cons t ts, a, b => t.Aligned a.1 b.1 ∧ ts.Aligned a.2 b.2

end

def offersHash : ValueType κ → Bool
  | .sized t | .slice t => t.offersHash

def Hashes : (t : ValueType κ) → t.Value V → Prop
  | .sized t, a => t.Hashes a
  | .slice t, a => ∀ x ∈ a, t.Hashes x

def Aligned : (t : ValueType κ) → t.Value V → t.Value V → Prop
  | .sized t, a, b => t.Aligned leaves a b
  | .slice t, a, b => List.Forall₂ (t.Aligned leaves) a b

section Hash

variable {W : Type} {hash : ∀ k, V k → List W}

theorem hashLoop_congr {α : Type} {call : α → HashCall W} {a b : List α}
    (h : List.Forall₂ (fun x y => call x = call y) a b) : hashLoop call a = hashLoop call b := by
  induction h with
  | nil => rfl
  | cons hxy _ ih => rw [hashLoop, hashLoop, hxy, ih]

variable {leaves}

mutual

theorem SizedType.callHash_of_aligned (hhash : LawfulHash leaves hash) :
    (t : SizedType κ) → {a b : t.Value V} → t.Aligned leaves a b →
    t.callHash hash a = t.callHash hash b
  | .leaf k, a, b, h => by rw [SizedType.callHash, SizedType.callHash, hhash k a b h]
  | .vec _, _, _, _ => rfl
  | .array t n, a, b, h => hashLoop_congr (h.imp fun _ _ => t.callHash_of_aligned hhash)
  | .tuple ts, a, b, h => ts.tupleHash_of_aligned hhash h
  | .option t, a, b, h => by
    cases a with
    | none =>
      cases b with
      | none => rfl
      | some y => cases h
    | some x =>
      cases b with
      | none => cases h
      | some y => exact congrArg (HashCall.andThen _) (t.callHash_of_aligned hhash h)
  | .result t e, a, b, h => by
    cases a with
    | ok x =>
      cases b with
      | ok y => exact congrArg (HashCall.andThen _) (t.callHash_of_aligned hhash h)
      | error y => cases h
    | error x =>
      cases b with
      | ok y => cases h
      | error y => exact congrArg (HashCall.andThen _) (e.callHash_of_aligned hhash h)
  | .hashSet t, a, b, h => by
    rw [SizedType.callHash, SizedType.callHash, List.Forall₂.length_eq h,
      hashLoop_congr (h.imp fun _ _ => t.callHash_of_aligned hhash)]

theorem SizedTypes.tupleHash_of_aligned (hhash : LawfulHash leaves hash) :
    (ts : SizedTypes κ) → {a b : ts.Values V} → ts.Aligned leaves a b →
    ts.tupleHash hash a = ts.tupleHash hash b
  | .nil, _, _, _ => rfl
  | .cons t ts, a, b, h => by
    rw [SizedTypes.tupleHash, SizedTypes.tupleHash, t.callHash_of_aligned hhash h.1,
      ts.tupleHash_of_aligned hhash h.2]

end

theorem callHash_of_aligned (hhash : LawfulHash leaves hash) : (t : ValueType κ) →
    {a b : t.Value V} → Aligned leaves t a b → callHash hash t a = callHash hash t b
  | .sized t, _, _, h => t.callHash_of_aligned hhash h
  | .slice t, _, _, h => hashLoop_congr (h.imp fun _ _ => t.callHash_of_aligned hhash)

/-- The class of a leaf, all that a lawful hash may tell of it. -/
def classHash (leaves : ∀ k, LeafOps (V k)) (k : κ) (a : V k) :
    List (Σ k, Quotient (leaves k).setoid) :=
  [⟨k, Quotient.mk (leaves k).setoid a⟩]

theorem lawfulHash_classHash : LawfulHash leaves (classHash leaves) := by
  intro k a b h
  have hclass : Quotient.mk (leaves k).setoid a = Quotient.mk (leaves k).setoid b :=
    Quotient.sound (((leaves k).eq_iff a b).mp h)
  rw [classHash, classHash, hclass]

theorem HashCall.writes_andThen {x y : HashCall W} (h : x.answered = true) :
    (x.andThen y).writes = x.writes ++ y.writes := by
  rw [andThen, if_pos h]

theorem HashCall.answered_andThen (x y : HashCall W) :
    (x.andThen y).answered = true ↔ x.answered = true ∧ y.answered = true := by
  cases hanswered : x.answered <;> simp [andThen, hanswered]

theorem answered_hashLoop {α : Type} (call : α → HashCall W) (a : List α) :
    (hashLoop call a).answered = true ↔ ∀ x ∈ a, (call x).answered = true := by
  induction a with
  | nil => simp [hashLoop]
  | cons x a ih => rw [hashLoop, HashCall.answered_andThen, ih, List.forall_mem_cons]

mutual

theorem SizedType.answered_callHash (hash : ∀ k, V k → List W) : (t : SizedType κ) →
    (a : t.Value V) → ((t.callHash hash a).answered = true ↔ t.Hashes a)
  | .leaf _, _ => by simp [SizedType.callHash, SizedType.Hashes]
  | .vec _, _ => by simp [SizedType.callHash, SizedType.Hashes]
  | .array t n, a => (answered_hashLoop _ _).trans
      (forall₂_congr fun x _ => t.answered_callHash hash x)
  | .tuple ts, a => ts.answered_tupleHash hash a
  | .option t, a => by
    cases a with
    | none => simp [SizedType.callHash, SizedType.Hashes, HashCall.write]
    | some x =>
      have ih := t.answered_callHash hash x
      simp [SizedType.callHash, SizedType.Hashes, HashCall.answered_andThen, HashCall.write, ih]
  | .result t e, a => by
    cases a with
    | ok x =>
      have ih := t.answered_callHash hash x
      simp [SizedType.callHash, SizedType.Hashes, HashCall.answered_andThen, HashCall.write, ih]
    | error x =>
      have ih := e.answered_callHash hash x
      simp [SizedType.callHash, SizedType.Hashes, HashCall.answered_andThen, HashCall.write, ih]
  | .hashSet t, a => by
    have ih := (answered_hashLoop (t.callHash hash) a).trans
      (forall₂_congr fun x _ => t.answered_callHash hash x)
    simp [SizedType.callHash, SizedType.Hashes, HashCall.answered_andThen, HashCall.write, ih]

theorem SizedTypes.answered_tupleHash (hash : ∀ k, V k → List W) : (ts : SizedTypes κ) →
    (a : ts.Values V) → ((ts.tupleHash hash a).answered = true ↔ ts.Hashes a)
  | .nil, _ => by simp [SizedTypes.tupleHash, SizedTypes.Hashes]
  | .cons t ts, a => by
    rw [SizedTypes.tupleHash, HashCall.answered_andThen, t.answered_callHash hash,
      ts.answered_tupleHash hash, SizedTypes.Hashes]

end

theorem answered_callHash (hash : ∀ k, V k → List W) : (t : ValueType κ) → (a : t.Value V) →
    ((callHash hash t a).answered = true ↔ Hashes t a)
  | .sized t, a => t.answered_callHash hash a
  | .slice t, _ => (answered_hashLoop _ _).trans
      (forall₂_congr fun x _ => t.answered_callHash hash x)

mutual

theorem SizedType.hashes_of_offersHash : (t : SizedType κ) → t.offersHash = true →
    (a : t.Value V) → t.Hashes a
  | .leaf _, _, _ => trivial
  | .vec _, h, _ => by cases h
  | .array t _, h, _ => fun x _ => t.hashes_of_offersHash h x
  | .tuple ts, h, a => ts.hashes_of_offersHash h a
  | .option t, h, _ => fun x _ => t.hashes_of_offersHash h x
  | .result t e, h, a => by
    obtain ⟨ht, he⟩ := Bool.and_eq_true_iff.mp h
    cases a with
    | ok x => exact t.hashes_of_offersHash ht x
    | error x => exact e.hashes_of_offersHash he x
  | .hashSet t, h, _ => fun x _ => t.hashes_of_offersHash h x

theorem SizedTypes.hashes_of_offersHash : (ts : SizedTypes κ) → ts.offersHash = true →
    (a : ts.Values V) → ts.Hashes a
  | .nil, _, _ => trivial
  | .cons t ts, h, a => by
    obtain ⟨ht, hts⟩ := Bool.and_eq_true_iff.mp h
    exact ⟨t.hashes_of_offersHash ht a.1, ts.hashes_of_offersHash hts a.2⟩

end

theorem hashes_of_offersHash : (t : ValueType κ) → offersHash t = true → (a : t.Value V) →
    Hashes t a
  | .sized t, h, a => t.hashes_of_offersHash h a
  | .slice t, h, _ => fun x _ => t.hashes_of_offersHash h x

/-- From what a call that answers writes, whatever follows, the value can be read off up to the
relation. -/
def Readable {α : Type} (call : α → HashCall W) (rel : α → α → Prop) : Prop :=
  ∀ x y, (call x).answered = true → (call y).answered = true →
    ∀ r r', (call x).writes ++ r = (call y).writes ++ r' → rel x y ∧ r = r'

theorem Readable.hashLoop {α : Type} {call : α → HashCall W} {rel : α → α → Prop}
    (h : Readable call rel) {a b : List α} (hlen : a.length = b.length)
    (ha : (hashLoop call a).answered = true) (hb : (hashLoop call b).answered = true)
    {r r' : List (Write W)} (hw : (hashLoop call a).writes ++ r = (hashLoop call b).writes ++ r') :
    List.Forall₂ rel a b ∧ r = r' := by
  induction a generalizing b with
  | nil =>
    cases b with
    | nil => exact ⟨.nil, by simpa [ValueOps.hashLoop] using hw⟩
    | cons y b => cases hlen
  | cons x a ih =>
    cases b with
    | nil => cases hlen
    | cons y b =>
      rw [ValueOps.hashLoop, HashCall.answered_andThen] at ha hb
      rw [ValueOps.hashLoop, ValueOps.hashLoop, HashCall.writes_andThen ha.1,
        HashCall.writes_andThen hb.1, List.append_assoc, List.append_assoc] at hw
      obtain ⟨hxy, hrest⟩ := h x y ha.1 hb.1 _ _ hw
      obtain ⟨hall, hr⟩ := ih (by simpa using hlen) ha.2 hb.2 hrest
      exact ⟨.cons hxy hall, hr⟩

mutual

theorem SizedType.readable : (t : SizedType κ) →
    Readable (t.callHash (classHash leaves)) (t.Aligned leaves)
  | .leaf k => by
    intro x y _ _ r r' hw
    obtain ⟨hhead, hr⟩ := List.cons.inj hw
    have hclass : Quotient.mk (leaves k).setoid x = Quotient.mk (leaves k).setoid y := by
      simpa using hhead
    exact ⟨((leaves k).eq_iff x y).mpr (Quotient.exact hclass), hr⟩
  | .vec _ => by
    intro x y hx
    cases hx
  | .array t n => fun _ _ hx hy _ _ hw => t.readable.hashLoop (by simp) hx hy hw
  | .tuple ts => ts.readable
  | .option t => by
    intro x y hx hy r r' hw
    cases x with
    | none =>
      cases y with
      | none => exact ⟨trivial, (List.cons.inj hw).2⟩
      | some y => simp [SizedType.callHash, HashCall.andThen, HashCall.write] at hw
    | some x =>
      cases y with
      | none => simp [SizedType.callHash, HashCall.andThen, HashCall.write] at hw
      | some y => exact t.readable x y hx hy r r' (List.cons.inj hw).2
  | .result t e => by
    intro x y hx hy r r' hw
    cases x with
    | ok x =>
      cases y with
      | ok y => exact t.readable x y hx hy r r' (List.cons.inj hw).2
      | error y => simp [SizedType.callHash, HashCall.andThen, HashCall.write] at hw
    | error x =>
      cases y with
      | ok y => simp [SizedType.callHash, HashCall.andThen, HashCall.write] at hw
      | error y => exact e.readable x y hx hy r r' (List.cons.inj hw).2
  | .hashSet t => by
    intro x y hx hy r r' hw
    obtain ⟨hhead, hrest⟩ := List.cons.inj hw
    have hlen : x.length = y.length := by simpa using hhead
    exact t.readable.hashLoop hlen hx hy hrest

theorem SizedTypes.readable : (ts : SizedTypes κ) →
    Readable (ts.tupleHash (classHash leaves)) (ts.Aligned leaves)
  | .nil => fun _ _ _ _ _ _ hw => ⟨trivial, hw⟩
  | .cons t ts => by
    intro x y hx hy r r' hw
    rw [SizedTypes.tupleHash, HashCall.answered_andThen] at hx hy
    rw [SizedTypes.tupleHash, SizedTypes.tupleHash, HashCall.writes_andThen hx.1,
      HashCall.writes_andThen hy.1, List.append_assoc, List.append_assoc] at hw
    obtain ⟨hfirst, hrest⟩ := t.readable x.1 y.1 hx.1 hy.1 _ _ hw
    obtain ⟨hothers, hr⟩ := ts.readable x.2 y.2 hx.2 hy.2 _ _ hrest
    exact ⟨⟨hfirst, hothers⟩, hr⟩

end

/-- Only values aligned with each other write the same classes. -/
theorem aligned_of_writes_eq : (t : ValueType κ) → {a b : t.Value V} → Hashes t a →
    Hashes t b → meaning leaves t a = meaning leaves t b →
    (callHash (classHash leaves) t a).writes = (callHash (classHash leaves) t b).writes →
    Aligned leaves t a b
  | .sized t, a, b, ha, hb, _, hw =>
    (t.readable a b ((t.answered_callHash _ a).mpr ha) ((t.answered_callHash _ b).mpr hb) [] []
      (congrArg (· ++ []) hw)).1
  | .slice t, a, b, ha, hb, hmeaning, hw => by
    have hlen : a.length = b.length := by
      have hmap : a.map (t.meaning leaves) = b.map (t.meaning leaves) := hmeaning
      simpa using congrArg List.length hmap
    have hanswered := (answered_callHash (classHash leaves) (.slice t) a).mpr ha
    have hanswered' := (answered_callHash (classHash leaves) (.slice t) b).mpr hb
    exact (t.readable.hashLoop hlen hanswered hanswered' (congrArg (· ++ []) hw)).1

end Hash

/-- The type-erased operations on two values obey equality, order and hash. Where every part of the
type has an order or a hash, the calls answer; the laws hold wherever they do. -/
structure LawfulOn {W : Type} (hash : ∀ k, V k → List W) (t : ValueType κ) (a b : t.Value V) :
    Prop where
  partialEq : ∃ r, callPartialEq leaves t a b = some r ∧
    (r = true ↔ meaning leaves t a = meaning leaves t b)
  ordered : offersOrd t = true →
    callCmp leaves t a b ≠ none ∧ callPartialCmp leaves t a b ≠ none
  cmp : ∀ o, callCmp leaves t a b = some o →
    o = rustCmp leaves t a b ∧ (o = .eq ↔ meaning leaves t a = meaning leaves t b)
  partialCmp : ∀ o, callPartialCmp leaves t a b = some o → o = some (rustCmp leaves t a b)
  hashed : offersHash t = true →
    (callHash hash t a).answered = true ∧ (callHash hash t b).answered = true
  hash : (callHash hash t a).answered = true → (callHash hash t b).answered = true →
    meaning leaves t a = meaning leaves t b →
      (callHash hash t a).writes = (callHash hash t b).writes

/-- For two values the operations are lawful, whatever lawful hashes the leaves have, exactly
when no `Ok` meets an `Err` at their first difference and, should they be equal and hold no `Vec`,
their sets are iterated in the same order. -/
theorem lawfulOn_iff (t : ValueType κ) {a b : t.Value V} (ha : Distinct leaves t a)
    (hb : Distinct leaves t b) :
    (∀ (W : Type) (hash : ∀ k, V k → List W), LawfulHash leaves hash →
        LawfulOn leaves hash t a b) ↔
      ¬ OkMeetsErr leaves t a b ∧
        (Hashes t a → Hashes t b → meaning leaves t a = meaning leaves t b →
          Aligned leaves t a b) := by
  obtain ⟨E, hequal, hcompares⟩ := callCmp_compares leaves t a b
  constructor
  · intro h
    have hlawful := h _ (classHash leaves) lawfulHash_classHash
    constructor
    · intro hmeets
      obtain ⟨o, ho⟩ := Option.ne_none_iff_exists'.mp (hcompares.answers hmeets)
      obtain ⟨hne, rfl⟩ := (hcompares.turned o ho).1 hmeets
      have hswap := (hlawful.cmp _ ho).1
      cases hcmp : rustCmp leaves t a b with
      | eq => exact hne hcmp
      | lt | gt => simp [hcmp] at hswap
    · intro hhashes hhashes' hmeaning
      apply aligned_of_writes_eq t hhashes hhashes' hmeaning
      exact hlawful.hash ((answered_callHash _ t a).mpr hhashes)
        ((answered_callHash _ t b).mpr hhashes') hmeaning
  · intro ⟨horder, haligned⟩ W hash hhash
    have hcmp : ∀ o, callCmp leaves t a b = some o → o = rustCmp leaves t a b :=
      fun o ho => (hcompares.turned o ho).2 horder
    constructor
    · exact callPartialEq_meaning leaves t ha hb
    · intro hord
      have hsome := Option.isSome_iff_ne_none.mp (isSome_callCmp leaves t hord a b)
      refine ⟨hsome, ?_⟩
      rw [callPartialCmp_eq]
      simpa using hsome
    · intro o ho
      refine ⟨hcmp o ho, ?_, fun hmeaning => hcompares.eq_of_same hmeaning o ho⟩
      intro heq
      rw [heq] at ho
      exact hequal (hcompares.eq_iff.mp ho)
    · intro o ho
      rw [callPartialCmp_eq] at ho
      obtain ⟨o', ho', rfl⟩ := Option.map_eq_some_iff.mp ho
      rw [hcmp o' ho']
    · intro hoffers
      exact ⟨(answered_callHash hash t a).mpr (hashes_of_offersHash t hoffers a),
        (answered_callHash hash t b).mpr (hashes_of_offersHash t hoffers b)⟩
    · intro hanswered hanswered' hmeaning
      rw [callHash_of_aligned hhash t (haligned ((answered_callHash hash t a).mp hanswered)
        ((answered_callHash hash t b).mp hanswered') hmeaning)]

/-- Numbers with their usual operations as the only leaves. -/
def numbers (_ : Unit) : LeafOps ℕ where
  eq a b := a == b
  partialCmp a b := some (compare a b)
  cmp := compare
  isTotal := inferInstance
  eq_iff a b := by rw [beq_iff_eq, Nat.compare_eq_eq]
  partialCmp_eq _ _ := rfl

theorem distinct_numbers {a : List ℕ} (h : a.Nodup) :
    Distinct numbers (.sized (.hashSet (.leaf ()))) a := by
  refine ⟨fun _ _ => trivial, h.map fun m n hmn => ?_⟩
  exact Nat.compare_eq_eq.mp (Quotient.exact hmn)

theorem lawfulOn_iff_numbers :
    (∀ (W : Type) (hash : Unit → ℕ → List W), LawfulHash numbers hash →
        LawfulOn numbers hash (.sized (.hashSet (.leaf ()))) [1, 2] [2, 1]) ↔
      ¬ OkMeetsErr numbers (.sized (.hashSet (.leaf ()))) [1, 2] [2, 1] ∧
        (Hashes (V := fun _ => ℕ) (.sized (.hashSet (.leaf ()))) [1, 2] →
          Hashes (V := fun _ => ℕ) (.sized (.hashSet (.leaf ()))) [2, 1] →
          meaning numbers (.sized (.hashSet (.leaf ()))) [1, 2] =
            meaning numbers (.sized (.hashSet (.leaf ()))) [2, 1] →
          Aligned numbers (.sized (.hashSet (.leaf ()))) [1, 2] [2, 1]) :=
  lawfulOn_iff numbers (.sized (.hashSet (.leaf ()))) (distinct_numbers (by decide))
    (distinct_numbers (by decide))

/-- `Ok(1)` comes out greater than `Err(1)`, and a set hashes as it is iterated. -/
theorem numbers_not_lawfulOn :
    LawfulHash numbers (fun _ n => [n]) ∧
      ¬ LawfulOn numbers (fun _ n => [n]) (.sized (.result (.leaf ()) (.leaf ())))
        (.ok 1) (.error 1) ∧
      Distinct numbers (.sized (.hashSet (.leaf ()))) [1, 2] ∧
      Distinct numbers (.sized (.hashSet (.leaf ()))) [2, 1] ∧
      ¬ LawfulOn numbers (fun _ n => [n]) (.sized (.hashSet (.leaf ()))) [1, 2] [2, 1] := by
  refine ⟨?_, ?_, distinct_numbers (by decide), distinct_numbers (by decide), ?_⟩
  · intro _ a b h
    rw [beq_iff_eq.mp h]
  · intro h
    exact absurd (h.cmp .gt rfl).1 (by decide)
  · intro h
    have hmeaning : meaning numbers (.sized (.hashSet (.leaf ()))) [1, 2] =
        meaning numbers (.sized (.hashSet (.leaf ()))) [2, 1] :=
      Set.ext fun m => (List.Perm.swap _ _ _).mem_iff
    exact absurd (h.hash rfl rfl hmeaning) (by decide)

end Facet.ValueOps
