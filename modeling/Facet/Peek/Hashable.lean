import Facet.Lib.ExceptList
import Facet.Peek.StructuralHash

/-!
# Values that can be hashed

Structural hashing returns on a value exactly if the value is finite below the hash functions of
its shapes and nothing is reached there that has no structure to hash: no scalar but a float, and
no enum without a variant that can be read.
-/

namespace Facet.Peek

open Pretty

variable {ι ν β : Type}

section Parts

variable (shapes : Shapes ι) (m : Hashing ι ν)

def dynamicParts : DynValue ν → List ν
  | .array elems => elems
  | .object entries => entries.map Prod.snd
  | _ => []

def resultParts : Option (Except ν ν) → List ν
  | some (.ok inner) => [inner]
  | some (.error inner) => [inner]
  | none => []

/-- The values that the branches on the semantic view hash, in order. -/
def contents (v : ν) : List ν :=
  let view := m.view v
  match (shapes view.shape).def with
  | .list _ | .array _ _ | .slice _ | .set _ | .ndArray _ => view.items
  | .map _ _ => view.entries.flatMap fun e => [e.1, e.2]
  | .option _ => view.option.toList
  | .result _ _ => resultParts view.result
  | .pointer _ => view.pointee.toList
  | .dynamicValue => dynamicParts view.dynamic
  | .scalar | .undefined => []

def payloadParts (view : View ι ν) (data : StructType ι) : List ν :=
  if data.kind = .unit then [] else data.fields.zipIdx.map fun e => view.field e.2

/-- The values that are hashed for the structure of a value, in order. -/
def hashedParts (v : ν) : List ν :=
  let view := m.view v
  match (shapes view.shape).ty with
  | .user (.struct st) =>
    (st.fields.zipIdx.filter fun e => !m.isMetadata e.1).map fun e => view.field e.2
  | .user (.enum en) =>
    ((view.activeVariant.bind (en.variants[·]?)).map fun variant =>
      payloadParts view variant.data).getD []
  | _ => contents shapes m v

/-- A scalar without a hash function of its own has to be a float. -/
def HasContents (shape : Shape ι) : Prop :=
  match shape.def with
  | .scalar | .undefined => shape.scalarType = some .f32 ∨ shape.scalarType = some .f64
  | _ => True

/-- The value has a structure to hash. -/
def Structured (v : ν) : Prop :=
  match (shapes (m.view v).shape).ty with
  | .user (.struct _) => True
  | .user (.enum en) => ((m.view v).activeVariant.bind (en.variants[·]?)).isSome
  | _ => HasContents (shapes (m.view v).shape)

/-- Where the hash function of a shape does not answer there is structure, down to the last
part. -/
inductive Hashable : ν → Prop
  | intro {v : ν} : ((m.callHash v).answered = false → Structured shapes m v) →
      ((m.callHash v).answered = false → ∀ x ∈ hashedParts shapes m v, Hashable x) → Hashable v

end Parts

section Returns

variable {f : β → Except HashStop (Hashed ι)}

/-- Hashing returns. -/
def Returns (result : Except HashStop (Hashed ι)) : Prop := ∃ w, result = .ok w

theorem returns_ok (w : Hashed ι) : Returns (.ok w) := ⟨w, rfl⟩

theorem not_returns_error (e : HashStop) : ¬ Returns (.error e : Except HashStop (Hashed ι)) := by
  intro ⟨w, h⟩
  cases h

theorem returns_map_iff {result : Except HashStop (Hashed ι)} {g : Hashed ι → Hashed ι} :
    Returns (result.map g) ↔ Returns result := by
  cases result with
  | error e => exact ⟨fun h => (not_returns_error e h).elim, fun h => (not_returns_error e h).elim⟩
  | ok w => exact ⟨fun _ => returns_ok w, fun _ => returns_ok (g w)⟩

theorem returns_hashEach_iff {xs : List β} : Returns (hashEach f xs) ↔ ∀ x ∈ xs, Returns (f x) := by
  constructor
  · intro ⟨w, h⟩ x hx
    obtain ⟨ws, hws, _⟩ := ExceptList.exists_of_map_ok h
    obtain ⟨y, _, hy⟩ := ExceptList.exists_ok_of_mapM_ok hws hx
    exact ⟨y, hy⟩
  · intro h
    cases hws : xs.mapM f with
    | ok ws => exact ⟨ws.flatten, by rw [hashEach, hws]; rfl⟩
    | error e =>
      obtain ⟨x, hx, he⟩ := ExceptList.exists_of_mapM_error hws
      have := h x hx
      rw [he] at this
      exact (not_returns_error e this).elim

theorem returns_hashCounted_iff {xs : List β} :
    Returns (hashCounted f xs) ↔ ∀ x ∈ xs, Returns (f x) := by
  rw [hashCounted, returns_map_iff, returns_hashEach_iff]

variable {shapes : Shapes ι} {m : Hashing ι ν} {hash : ν → Except HashStop (Hashed ι)} {v : ν}

theorem returns_hashNamed_iff {e : String × ν} :
    Returns (hashNamed hash e) ↔ Returns (hash e.2) := returns_map_iff

theorem returns_hashPair_iff {e : ν × ν} :
    Returns (hashPair hash e) ↔ Returns (hash e.1) ∧ Returns (hash e.2) := by
  unfold hashPair
  cases h : hash e.1 with
  | error stop =>
    constructor
    · exact fun hr => (not_returns_error stop hr).elim
    · exact fun hr => (not_returns_error stop hr.1).elim
  | ok key =>
    constructor
    · exact fun hr => ⟨returns_ok key, returns_map_iff.mp hr⟩
    · exact fun hr => returns_map_iff.mpr hr.2

theorem returns_hashDynamic_iff {d : DynValue ν} :
    Returns (hashDynamic m hash v d) ↔ ∀ x ∈ dynamicParts d, Returns (hash x) := by
  cases d with
  | array elems => exact returns_hashCounted_iff
  | object entries =>
    apply returns_hashCounted_iff.trans
    rw [dynamicParts, List.forall_mem_map]
    simp only [returns_hashNamed_iff]
  | _ =>
    constructor
    · intro _ x hx
      cases hx
    · exact fun _ => returns_ok _

theorem returns_hashOption_iff {o : Option ν} :
    Returns (hashOption hash o) ↔ ∀ x ∈ o.toList, Returns (hash x) := by
  cases o with
  | none => simp [hashOption, returns_ok]
  | some x => simp [hashOption, returns_map_iff]

theorem returns_hashResult_iff {r : Option (Except ν ν)} :
    Returns (hashResult hash r) ↔ ∀ x ∈ resultParts r, Returns (hash x) := by
  match r with
  | none => simp [hashResult, resultParts, returns_ok]
  | some (.ok x) => simp [hashResult, resultParts, returns_map_iff]
  | some (.error x) => simp [hashResult, resultParts, returns_map_iff]

theorem returns_hashPointee_iff {o : Option ν} :
    Returns (hashPointee hash o) ↔ ∀ x ∈ o.toList, Returns (hash x) := by
  cases o with
  | none => simp [hashPointee, returns_ok]
  | some x => simp [hashPointee]

theorem returns_hashPayload_iff {view : View ι ν} {data : StructType ι} :
    Returns (hashPayload hash view data) ↔ ∀ x ∈ payloadParts view data, Returns (hash x) := by
  unfold hashPayload payloadParts
  cases data.kind with
  | unit => simp [returns_ok]
  | tuple => simp [returns_hashEach_iff, -List.mem_map, List.forall_mem_map]
  | tupleStruct => simp [returns_hashEach_iff, -List.mem_map, List.forall_mem_map]
  | struct =>
    simp [returns_hashEach_iff, hashField, returns_hashNamed_iff, -List.mem_map, List.forall_mem_map]

theorem returns_hashByDef_iff : Returns (hashByDef shapes m hash v) ↔
    HasContents (shapes (m.view v).shape) ∧ ∀ x ∈ contents shapes m v, Returns (hash x) := by
  unfold hashByDef HasContents contents
  dsimp only
  cases (shapes (m.view v).shape).def with
  | list t => simp [returns_hashCounted_iff]
  | array t n => simp [returns_hashCounted_iff]
  | slice t => simp [returns_hashCounted_iff]
  | set t => simp [returns_hashCounted_iff]
  | ndArray t => simp [returns_map_iff, returns_hashEach_iff]
  | map k t =>
    simp only [returns_hashCounted_iff, returns_hashPair_iff, true_and, List.forall_mem_flatMap]
    simp
  | option t => simp [returns_hashOption_iff]
  | result t e => simp [returns_hashResult_iff]
  | pointer t => simp [returns_hashPointee_iff]
  | dynamicValue => simp [structuralHashInner, returns_map_iff, returns_hashDynamic_iff]
  | scalar | undefined =>
    cases (shapes (m.view v).shape).scalarType with
    | none => simp [not_returns_error]
    | some scalar => cases scalar <;> simp [returns_ok, not_returns_error]

theorem returns_hashParts_iff : Returns (hashParts shapes m hash v) ↔
    Structured shapes m v ∧ ∀ x ∈ hashedParts shapes m v, Returns (hash x) := by
  unfold hashParts Structured hashedParts
  dsimp only
  cases (shapes (m.view v).shape).ty with
  | user ty =>
    cases ty with
    | struct st =>
      simp [returns_map_iff, returns_hashEach_iff, hashField, returns_hashNamed_iff,
        -List.mem_map, List.forall_mem_map]
    | enum en =>
      dsimp only
      cases (m.view v).activeVariant.bind (en.variants[·]?) with
      | none => simp [not_returns_error]
      | some variant => simp [returns_map_iff, returns_hashPayload_iff]
    | union => exact returns_hashByDef_iff
    | opaqueTy => exact returns_hashByDef_iff
  | undefined => exact returns_hashByDef_iff
  | primitive ty => exact returns_hashByDef_iff
  | sequence ty => exact returns_hashByDef_iff
  | pointer ty => exact returns_hashByDef_iff

theorem returns_succ_iff {n : ℕ} : Returns (structuralHash shapes m (n + 1) v) ↔
    ((m.callHash v).answered = false → Structured shapes m v ∧
      ∀ x ∈ hashedParts shapes m v, Returns (structuralHash shapes m n x)) := by
  rw [structuralHash]
  cases (m.callHash v).answered with
  | true => simp [returns_ok]
  | false => simp [returns_map_iff, returns_hashParts_iff]

theorem returns_succ {n : ℕ} (h : Returns (structuralHash shapes m n v)) :
    Returns (structuralHash shapes m (n + 1) v) := by
  induction n generalizing v with
  | zero => exact (not_returns_error _ h).elim
  | succ n ih =>
    rw [returns_succ_iff] at h ⊢
    intro hanswered
    obtain ⟨hstructured, hparts⟩ := h hanswered
    exact ⟨hstructured, fun x hx => ih (hparts x hx)⟩

theorem returns_of_le {n k : ℕ} (hle : n ≤ k) (h : Returns (structuralHash shapes m n v)) :
    Returns (structuralHash shapes m k v) := by
  induction hle with
  | refl => exact h
  | step _ ih => exact returns_succ ih

theorem exists_fuel {xs : List ν} (h : ∀ x ∈ xs, ∃ n, Returns (structuralHash shapes m n x)) :
    ∃ n, ∀ x ∈ xs, Returns (structuralHash shapes m n x) := by
  induction xs with
  | nil => exact ⟨0, by simp⟩
  | cons x xs ih =>
    obtain ⟨n, hn⟩ := h x List.mem_cons_self
    obtain ⟨k, hk⟩ := ih fun y hy => h y (List.mem_cons_of_mem x hy)
    refine ⟨max n k, ?_⟩
    rw [List.forall_mem_cons]
    exact ⟨returns_of_le (le_max_left n k) hn,
      fun y hy => returns_of_le (le_max_right n k) (hk y hy)⟩

theorem hashable_of_returns {n : ℕ} (h : Returns (structuralHash shapes m n v)) :
    Hashable shapes m v := by
  induction n generalizing v with
  | zero => exact (not_returns_error _ h).elim
  | succ n ih =>
    rw [returns_succ_iff] at h
    exact .intro (fun ha => (h ha).1) fun ha x hx => ih ((h ha).2 x hx)

/-- Structural hashing of a value returns if and only if the value is hashable. -/
theorem exists_structuralHash_iff_hashable (v : ν) :
    (∃ n w, structuralHash shapes m n v = .ok w) ↔ Hashable shapes m v := by
  constructor
  · exact fun ⟨n, h⟩ => hashable_of_returns h
  · intro h
    induction h with
    | @intro v hstructured hparts ih =>
      cases hanswered : (m.callHash v).answered with
      | true => exact ⟨1, returns_succ_iff.mpr (by simp [hanswered])⟩
      | false =>
        obtain ⟨n, hn⟩ := exists_fuel (ih hanswered)
        exact ⟨n + 1, returns_succ_iff.mpr fun _ => ⟨hstructured hanswered, hn⟩⟩

end Returns

end Facet.Peek
