import Mathlib.Data.List.Basic
import Mathlib.Tactic

/-!
# The schema vocabulary

The kinds of schemas, over an arbitrary type of references: a schema of a batch refers
to the ids of the batch, the kind of a shape to other shapes. Changing the references of
a kind is `map`, and a kind unfolds through its references to any depth.
-/

namespace Facet.Taxon

inductive Primitive
  | unit
  | bool
  | char
  | string
  | f32
  | f64
  | u8
  | u16
  | u32
  | u64
  | u128
  | i8
  | i16
  | i32
  | i64
  | i128
  deriving DecidableEq, Repr

structure Field (ρ : Type) where
  name : String
  schema : ρ
  required : Bool
  deriving DecidableEq

inductive VariantPayload (ρ : Type)
  | unit
  | newtype (schema : ρ)
  | tuple (elements : List ρ)
  | struct (fields : List (Field ρ))
  deriving DecidableEq

structure Variant (ρ : Type) where
  name : String
  index : ℕ
  payload : VariantPayload ρ
  deriving DecidableEq

inductive Kind (ρ : Type)
  | primitive (p : Primitive)
  | struct (name : String) (fields : List (Field ρ))
  | enum (name : String) (variants : List (Variant ρ))
  | tuple (elements : List ρ)
  | list (element : ρ)
  | map (key value : ρ)
  | set (element : ρ)
  | array (element : ρ) (dimensions : List ℕ)
  | tensor (element : ρ) (rank : Option ℕ)
  | option (element : ρ)
  | dynamic
  | external (kind : String) (metadata : Option String)
  deriving DecidableEq

variable {ρ τ υ : Type}

namespace Field

def mapRef (f : ρ → τ) (x : Field ρ) : Field τ := ⟨x.name, f x.schema, x.required⟩

def traverse {m : Type → Type} [Monad m] (f : ρ → m τ) (x : Field ρ) : m (Field τ) := do
  let schema ← f x.schema
  return ⟨x.name, schema, x.required⟩

/-- `x'` is `x` with its reference resolved. -/
def Resolves (f : ρ → Option τ) (x : Field ρ) (x' : Field τ) : Prop :=
  x.mapRef f = x'.mapRef some

theorem Resolves.mono {f g : ρ → Option τ} {x : Field ρ} {x' : Field τ} (h : x.Resolves f x')
    (hfg : ∀ r r', f r = some r' → g r = some r') : x.Resolves g x' := by
  simp only [Resolves, mapRef, mk.injEq] at h ⊢
  exact ⟨h.1, hfg _ _ h.2.1, h.2.2⟩

end Field

namespace VariantPayload

def mapRef (f : ρ → τ) : VariantPayload ρ → VariantPayload τ
  | unit => unit
  | newtype schema => newtype (f schema)
  | tuple elements => tuple (elements.map f)
  | struct fields => struct (fields.map (Field.mapRef f))

def traverse {m : Type → Type} [Monad m] (f : ρ → m τ) : VariantPayload ρ → m (VariantPayload τ)
  | unit => return unit
  | newtype schema => return newtype (← f schema)
  | tuple elements => return tuple (← elements.mapM f)
  | struct fields => return struct (← fields.mapM (Field.traverse f))

def refs : VariantPayload ρ → List ρ
  | unit => []
  | newtype schema => [schema]
  | tuple elements => elements
  | struct fields => fields.map Field.schema

theorem mapRef_mapRef (f : ρ → τ) (g : τ → υ) (p : VariantPayload ρ) :
    (p.mapRef f).mapRef g = p.mapRef (g ∘ f) := by
  cases p <;> simp [mapRef, Field.mapRef]

theorem refs_mapRef (f : ρ → τ) (p : VariantPayload ρ) : (p.mapRef f).refs = p.refs.map f := by
  cases p <;> simp [mapRef, refs, Field.mapRef]

theorem mapRef_congr {f g : ρ → τ} {p : VariantPayload ρ} (h : ∀ r ∈ p.refs, f r = g r) :
    p.mapRef f = p.mapRef g := by
  cases p with
  | unit => rfl
  | newtype schema => exact congrArg newtype (h schema List.mem_cons_self)
  | tuple elements => exact congrArg tuple (List.map_congr_left h)
  | struct fields =>
    apply congrArg struct
    apply List.map_congr_left
    intro x hx
    simp [Field.mapRef, h x.schema (List.mem_map_of_mem hx)]

end VariantPayload

namespace Variant

def mapRef (f : ρ → τ) (v : Variant ρ) : Variant τ := ⟨v.name, v.index, v.payload.mapRef f⟩

def traverse {m : Type → Type} [Monad m] (f : ρ → m τ) (v : Variant ρ) : m (Variant τ) := do
  let payload ← v.payload.traverse f
  return ⟨v.name, v.index, payload⟩

/-- `v'` is `v` with every reference resolved. -/
def Resolves (f : ρ → Option τ) (v : Variant ρ) (v' : Variant τ) : Prop :=
  v.mapRef f = v'.mapRef some

theorem Resolves.mono {f g : ρ → Option τ} {v : Variant ρ} {v' : Variant τ}
    (h : v.Resolves f v') (hfg : ∀ r r', f r = some r' → g r = some r') : v.Resolves g v' := by
  simp only [Resolves, mapRef, mk.injEq] at h ⊢
  refine ⟨h.1, h.2.1, ?_⟩
  rw [← h.2.2]
  apply VariantPayload.mapRef_congr
  intro r hr
  have hmem : f r ∈ (v.payload.mapRef f).refs := by
    rw [VariantPayload.refs_mapRef]
    exact List.mem_map_of_mem hr
  rw [h.2.2, VariantPayload.refs_mapRef] at hmem
  obtain ⟨r', -, hr'⟩ := List.mem_map.mp hmem
  rw [← hr', hfg r r' hr'.symm]

end Variant

namespace Kind

/-- The same kind with every reference changed. -/
def mapRef (f : ρ → τ) : Kind ρ → Kind τ
  | primitive p => primitive p
  | struct name fields => struct name (fields.map (Field.mapRef f))
  | enum name variants => enum name (variants.map (Variant.mapRef f))
  | tuple elements => tuple (elements.map f)
  | list element => list (f element)
  | map key value => map (f key) (f value)
  | set element => set (f element)
  | array element dimensions => array (f element) dimensions
  | tensor element rank => tensor (f element) rank
  | option element => option (f element)
  | dynamic => dynamic
  | external kind metadata => external kind metadata

/-- The same kind with every reference changed by a step, from left to right. -/
def traverse {m : Type → Type} [Monad m] (f : ρ → m τ) : Kind ρ → m (Kind τ)
  | primitive p => return primitive p
  | struct name fields => return struct name (← fields.mapM (Field.traverse f))
  | enum name variants => return enum name (← variants.mapM (Variant.traverse f))
  | tuple elements => return tuple (← elements.mapM f)
  | list element => return list (← f element)
  | map key value => do
    let key ← f key
    let value ← f value
    return map key value
  | set element => return set (← f element)
  | array element dimensions => return array (← f element) dimensions
  | tensor element rank => return tensor (← f element) rank
  | option element => return option (← f element)
  | dynamic => return dynamic
  | external kind metadata => return external kind metadata

/-- The references, in order. -/
def refs : Kind ρ → List ρ
  | struct _ fields => fields.map Field.schema
  | enum _ variants => variants.flatMap fun v => v.payload.refs
  | tuple elements => elements
  | list element | set element | array element _ | tensor element _ | option element => [element]
  | map key value => [key, value]
  | primitive _ | dynamic | external .. => []

theorem mapRef_mapRef (f : ρ → τ) (g : τ → υ) (k : Kind ρ) :
    (k.mapRef f).mapRef g = k.mapRef (g ∘ f) := by
  cases k <;> simp [mapRef, Field.mapRef, Variant.mapRef, VariantPayload.mapRef_mapRef]

theorem refs_mapRef (f : ρ → τ) (k : Kind ρ) : (k.mapRef f).refs = k.refs.map f := by
  cases k <;>
    simp [mapRef, refs, Field.mapRef, Variant.mapRef, VariantPayload.refs_mapRef,
      List.flatMap_map, List.map_flatMap]

theorem mapRef_congr {f g : ρ → τ} {k : Kind ρ} (h : ∀ r ∈ k.refs, f r = g r) :
    k.mapRef f = k.mapRef g := by
  cases k with
  | primitive p => rfl
  | struct name fields =>
    apply congrArg (struct name)
    apply List.map_congr_left
    intro x hx
    simp [Field.mapRef, h x.schema (List.mem_map_of_mem hx)]
  | enum name variants =>
    apply congrArg (enum name)
    apply List.map_congr_left
    intro v hv
    have hpayload : v.payload.mapRef f = v.payload.mapRef g := by
      apply VariantPayload.mapRef_congr
      intro r hr
      exact h r (List.mem_flatMap.mpr ⟨v, hv, hr⟩)
    simp [Variant.mapRef, hpayload]
  | tuple elements => exact congrArg tuple (List.map_congr_left h)
  | list element => exact congrArg list (h element List.mem_cons_self)
  | map key value =>
    exact congrArg₂ map (h key (by simp [refs])) (h value (by simp [refs]))
  | set element => exact congrArg set (h element List.mem_cons_self)
  | array element dimensions =>
    exact congrArg (array · dimensions) (h element List.mem_cons_self)
  | tensor element rank => exact congrArg (tensor · rank) (h element List.mem_cons_self)
  | option element => exact congrArg option (h element List.mem_cons_self)
  | dynamic => rfl
  | external kind metadata => rfl

theorem mapRef_eq_dynamic {f : ρ → τ} {k : Kind ρ} : k.mapRef f = dynamic ↔ k = dynamic := by
  cases k <;> simp [mapRef]

/-- `k'` is `k` with every reference resolved. -/
def Resolves (f : ρ → Option τ) (k : Kind ρ) (k' : Kind τ) : Prop :=
  k.mapRef f = k'.mapRef some

namespace Resolves

variable {f g : ρ → Option τ} {k : Kind ρ} {k' : Kind τ}

theorem refs_eq (h : k.Resolves f k') : k.refs.map f = k'.refs.map some := by
  rw [← refs_mapRef, ← refs_mapRef]
  exact congrArg refs h

theorem exists_ref (h : k.Resolves f k') {r : ρ} (hr : r ∈ k.refs) :
    ∃ r' ∈ k'.refs, f r = some r' := by
  have hmem : f r ∈ k'.refs.map some := h.refs_eq ▸ List.mem_map_of_mem hr
  obtain ⟨r', hr', heq⟩ := List.mem_map.mp hmem
  exact ⟨r', hr', heq.symm⟩

theorem exists_ref_of_mem (h : k.Resolves f k') {r' : τ} (hr' : r' ∈ k'.refs) :
    ∃ r ∈ k.refs, f r = some r' := by
  have hmem : some r' ∈ k.refs.map f := h.refs_eq ▸ List.mem_map_of_mem hr'
  exact List.mem_map.mp hmem

theorem mono (h : k.Resolves f k') (hfg : ∀ r r', f r = some r' → g r = some r') :
    k.Resolves g k' := by
  rw [Resolves, ← h]
  apply mapRef_congr
  intro r hr
  obtain ⟨r', _, hr'⟩ := h.exists_ref hr
  rw [hr', hfg r r' hr']

/-- Functions that agree along the references agree on the two kinds. -/
theorem mapRef_eq [Inhabited υ] (h : k.Resolves f k') {u : ρ → υ} {w : τ → υ}
    (huw : ∀ r r', f r = some r' → u r = w r') : k.mapRef u = k'.mapRef w := by
  let read : Option τ → υ := fun o => (o.map w).getD default
  have hleft : k.mapRef u = (k.mapRef f).mapRef read := by
    rw [mapRef_mapRef]
    apply mapRef_congr
    intro r hr
    obtain ⟨r', _, hr'⟩ := h.exists_ref hr
    simp [read, hr', huw r r' hr']
  calc k.mapRef u = (k.mapRef f).mapRef read := hleft
    _ = (k'.mapRef some).mapRef read := by rw [h]
    _ = k'.mapRef w := mapRef_mapRef some read k'

end Resolves

end Kind

end Facet.Taxon
