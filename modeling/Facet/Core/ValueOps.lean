import Mathlib.Data.Vector.Basic
import Mathlib.Tactic

/-!
# Type-erased comparison and hashing

The vtables of the standard containers compare and hash values by calling the vtables of
their elements. Types are built from leaf types, which come with their own operations;
slices are unsized, so they are nobody's elements. Every operation answers `none` where
its slot in a vtable is empty, and hashing writes to the hasher what it gets to write
until then.
-/

namespace Facet.ValueOps

mutual

inductive SizedType (κ : Type)
  | leaf (k : κ)
  | vec (t : SizedType κ)
  | array (t : SizedType κ) (n : ℕ)
  | tuple (ts : SizedTypes κ)
  | option (t : SizedType κ)
  | result (t e : SizedType κ)
  | hashSet (t : SizedType κ)

/-- The types of the fields of a tuple. -/
inductive SizedTypes (κ : Type)
  | nil
  | cons (t : SizedType κ) (ts : SizedTypes κ)

end

inductive ValueType (κ : Type)
  | sized (t : SizedType κ)
  | slice (t : SizedType κ)

variable {κ : Type} (V : κ → Type)

mutual

/-- A set is given by its elements in iteration order. -/
@[reducible] def SizedType.Value : SizedType κ → Type
  | .leaf k => V k
  | .vec t => List t.Value
  | .array t n => List.Vector t.Value n
  | .tuple ts => ts.Values
  | .option t => Option t.Value
  | .result t e => Except e.Value t.Value
  | .hashSet t => List t.Value

@[reducible] def SizedTypes.Values : SizedTypes κ → Type
  | .nil => Unit
  | .cons t ts => t.Value × ts.Values

end

@[reducible] def ValueType.Value : ValueType κ → Type
  | .sized t => t.Value V
  | .slice t => List (t.Value V)

/-- Lawful equality and order of a leaf type. -/
structure LeafOps (α : Type) where
  eq : α → α → Bool
  partialCmp : α → α → Option Ordering
  cmp : α → α → Ordering
  isTotal : Std.TransCmp cmp
  eq_iff : ∀ a b, eq a b = true ↔ cmp a b = .eq
  partialCmp_eq : ∀ a b, partialCmp a b = some (cmp a b)

variable {V} (leaves : ∀ k, LeafOps (V k))

/-- Leaves that are equal write the same. -/
def LawfulHash {W : Type} (hash : ∀ k, V k → List W) : Prop :=
  ∀ k a b, (leaves k).eq a b = true → hash k a = hash k b

/-- Elements by their index, up to the first pair that is not equal. -/
def eqLoop {α : Type} (call : α → α → Option Bool) : List (α × α) → Option Bool
  | [] => some true
  | (x, y) :: rest =>
    match call x y with
    | some true => eqLoop call rest
    | some false => some false
    | none => none

/-- The slot is filled for every type here. -/
def SizedType.hasPartialEq : SizedType κ → Bool
  | .leaf _ | .vec _ | .array _ _ | .tuple _ | .option _ | .result _ _ | .hashSet _ => true

mutual

/-- Rust's own equality, by which a set finds its elements. -/
def SizedType.rustEq : (t : SizedType κ) → t.Value V → t.Value V → Bool
  | .leaf k, a, b => (leaves k).eq a b
  | .vec t, a, b => a.length == b.length && (a.zip b).all fun p => t.rustEq p.1 p.2
  | .array t _, a, b => (a.toList.zip b.toList).all fun p => t.rustEq p.1 p.2
  | .tuple ts, a, b => ts.rustEq a b
  | .option t, a, b =>
    match a, b with
    | none, none => true
    | some x, some y => t.rustEq x y
    | _, _ => false
  | .result t e, a, b =>
    match a, b with
    | .ok x, .ok y => t.rustEq x y
    | .error x, .error y => e.rustEq x y
    | _, _ => false
  | .hashSet t, a, b => a.length == b.length && a.all fun x => b.any fun y => t.rustEq x y

def SizedTypes.rustEq : (ts : SizedTypes κ) → ts.Values V → ts.Values V → Bool
  | .nil, _, _ => true
  | .cons t ts, a, b => t.rustEq a.1 b.1 && ts.rustEq a.2 b.2

end

/-- `HashSet::contains`. -/
def contains (t : SizedType κ) (set : List (t.Value V)) (x : t.Value V) : Bool :=
  set.any fun y => t.rustEq leaves x y

mutual

/-- `Shape::call_partial_eq`. -/
def SizedType.callPartialEq : (t : SizedType κ) → t.Value V → t.Value V → Option Bool
  | .leaf k, a, b => some ((leaves k).eq a b)
  | .vec t, a, b =>
    if !t.hasPartialEq then none
    else if a.length ≠ b.length then some false
    else eqLoop t.callPartialEq (a.zip b)
  | .array t _, a, b => eqLoop t.callPartialEq (a.toList.zip b.toList)
  | .tuple ts, a, b => ts.tuplePartialEq a b
  | .option t, a, b =>
    match a, b with
    | none, none => some true
    | some x, some y => t.callPartialEq x y
    | _, _ => some false
  | .result t e, a, b =>
    match a, b with
    | .ok x, .ok y => t.callPartialEq x y
    | .error x, .error y => e.callPartialEq x y
    | _, _ => some false
  | .hashSet t, a, b =>
    if a.length ≠ b.length then some false else some (a.all fun x => contains leaves t b x)

def SizedTypes.tuplePartialEq : (ts : SizedTypes κ) → ts.Values V → ts.Values V → Option Bool
  | .nil, _, _ => some true
  | .cons t ts, a, b =>
    match t.callPartialEq a.1 b.1 with
    | some true => ts.tuplePartialEq a.2 b.2
    | some false => some false
    | none => none

end

def slicePartialEq (t : SizedType κ) (a b : List (t.Value V)) : Option Bool :=
  if a.length ≠ b.length then some false else eqLoop (t.callPartialEq leaves) (a.zip b)

def callPartialEq : (t : ValueType κ) → t.Value V → t.Value V → Option Bool
  | .sized t, a, b => t.callPartialEq leaves a b
  | .slice t, a, b => slicePartialEq leaves t a b

/-- Elements by their index, up to the first pair that is not equal; `ends` after the last. -/
def cmpLoop {α : Type} (call : α → α → Option Ordering) (ends : Ordering) :
    List (α × α) → Option Ordering
  | [] => some ends
  | (x, y) :: rest =>
    match call x y with
    | some .eq => cmpLoop call ends rest
    | some order => some order
    | none => none

def partialCmpLoop {α : Type} (call : α → α → Option (Option Ordering)) (ends : Ordering) :
    List (α × α) → Option (Option Ordering)
  | [] => some (some ends)
  | (x, y) :: rest =>
    match call x y with
    | some (some .eq) => partialCmpLoop call ends rest
    | some order => some order
    | none => none

/-- The slots of `cmp` and `partial_cmp`, which a type fills or leaves empty together. -/
def SizedType.hasOrd : SizedType κ → Bool
  | .hashSet _ => false
  | .leaf _ | .vec _ | .array _ _ | .tuple _ | .option _ | .result _ _ => true

mutual

/-- `Shape::call_cmp`. -/
def SizedType.callCmp : (t : SizedType κ) → t.Value V → t.Value V → Option Ordering
  | .leaf k, a, b => some ((leaves k).cmp a b)
  | .vec t, a, b =>
    if !t.hasOrd then none
    else cmpLoop t.callCmp (compare a.length b.length) (a.zip b)
  | .array t _, a, b => cmpLoop t.callCmp .eq (a.toList.zip b.toList)
  | .tuple ts, a, b => ts.tupleCmp a b
  | .option t, a, b =>
    match a, b with
    | none, none => some .eq
    | none, some _ => some .lt
    | some _, none => some .gt
    | some x, some y => t.callCmp x y
  | .result t e, a, b =>
    match a, b with
    | .ok x, .ok y => t.callCmp x y
    | .error x, .error y => e.callCmp x y
    | .ok _, .error _ => some .gt
    | .error _, .ok _ => some .lt
  | .hashSet _, _, _ => none

def SizedTypes.tupleCmp : (ts : SizedTypes κ) → ts.Values V → ts.Values V → Option Ordering
  | .nil, _, _ => some .eq
  | .cons t ts, a, b =>
    match t.callCmp a.1 b.1 with
    | some .eq => ts.tupleCmp a.2 b.2
    | some order => some order
    | none => none

end

mutual

/-- `Shape::call_partial_cmp`. -/
def SizedType.callPartialCmp :
    (t : SizedType κ) → t.Value V → t.Value V → Option (Option Ordering)
  | .leaf k, a, b => some ((leaves k).partialCmp a b)
  | .vec t, a, b =>
    if !t.hasOrd then none
    else partialCmpLoop t.callPartialCmp (compare a.length b.length) (a.zip b)
  | .array t _, a, b => partialCmpLoop t.callPartialCmp .eq (a.toList.zip b.toList)
  | .tuple ts, a, b => ts.tuplePartialCmp a b
  | .option t, a, b =>
    match a, b with
    | none, none => some (some .eq)
    | none, some _ => some (some .lt)
    | some _, none => some (some .gt)
    | some x, some y => t.callPartialCmp x y
  | .result t e, a, b =>
    match a, b with
    | .ok x, .ok y => t.callPartialCmp x y
    | .error x, .error y => e.callPartialCmp x y
    | .ok _, .error _ => some (some .gt)
    | .error _, .ok _ => some (some .lt)
  | .hashSet _, _, _ => none

def SizedTypes.tuplePartialCmp :
    (ts : SizedTypes κ) → ts.Values V → ts.Values V → Option (Option Ordering)
  | .nil, _, _ => some (some .eq)
  | .cons t ts, a, b =>
    match t.callPartialCmp a.1 b.1 with
    | some (some .eq) => ts.tuplePartialCmp a.2 b.2
    | some order => some order
    | none => none

end

def sliceCmp (t : SizedType κ) (a b : List (t.Value V)) : Option Ordering :=
  cmpLoop (t.callCmp leaves) (compare a.length b.length) (a.zip b)

def slicePartialCmp (t : SizedType κ) (a b : List (t.Value V)) : Option (Option Ordering) :=
  partialCmpLoop (t.callPartialCmp leaves) (compare a.length b.length) (a.zip b)

def callCmp : (t : ValueType κ) → t.Value V → t.Value V → Option Ordering
  | .sized t, a, b => t.callCmp leaves a b
  | .slice t, a, b => sliceCmp leaves t a b

def callPartialCmp : (t : ValueType κ) → t.Value V → t.Value V → Option (Option Ordering)
  | .sized t, a, b => t.callPartialCmp leaves a b
  | .slice t, a, b => slicePartialCmp leaves t a b

/-- What goes to the hasher. -/
inductive Write (W : Type)
  | u8 (n : ℕ)
  | usize (n : ℕ)
  | leaf (w : W)
  deriving DecidableEq

/-- What a call of `hash` has written and whether it answered. -/
structure HashCall (W : Type) where
  writes : List (Write W)
  answered : Bool

namespace HashCall

variable {W : Type}

def write (w : Write W) : HashCall W := ⟨[w], true⟩

/-- The second call follows if the first one answers. -/
def andThen (x y : HashCall W) : HashCall W :=
  if x.answered then ⟨x.writes ++ y.writes, y.answered⟩ else x

end HashCall

def hashLoop {α W : Type} (call : α → HashCall W) : List α → HashCall W
  | [] => ⟨[], true⟩
  | x :: xs => (call x).andThen (hashLoop call xs)

section Hash

variable {W : Type} (hash : ∀ k, V k → List W)

mutual

/-- `Shape::call_hash`. -/
def SizedType.callHash : (t : SizedType κ) → t.Value V → HashCall W
  | .leaf k, a => ⟨(hash k a).map .leaf, true⟩
  | .vec _, _ => ⟨[], false⟩
  | .array t _, a => hashLoop t.callHash a.toList
  | .tuple ts, a => ts.tupleHash a
  | .option t, a =>
    match a with
    | some x => (HashCall.write (.u8 1)).andThen (t.callHash x)
    | none => HashCall.write (.u8 0)
  | .result t e, a =>
    match a with
    | .ok x => (HashCall.write (.u8 0)).andThen (t.callHash x)
    | .error x => (HashCall.write (.u8 1)).andThen (e.callHash x)
  | .hashSet t, a => (HashCall.write (.usize a.length)).andThen (hashLoop t.callHash a)

def SizedTypes.tupleHash : (ts : SizedTypes κ) → ts.Values V → HashCall W
  | .nil, _ => ⟨[], true⟩
  | .cons t ts, a => (t.callHash a.1).andThen (ts.tupleHash a.2)

end

def callHash : (t : ValueType κ) → t.Value V → HashCall W
  | .sized t, a => t.callHash hash a
  | .slice t, a => hashLoop (t.callHash hash) a

end Hash

end Facet.ValueOps
