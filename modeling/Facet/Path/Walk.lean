import Facet.Path.Path

/-!
# Walking a shape

The walker visits the shapes below a root depth first and hands the visitor a path to each
of them. Which steps it pushes is decided by the form of the shape it leaves; which
shapes it enters is decided by the visitor and by the shapes already being walked.
-/

namespace Facet.Path

variable {ι : Type}

/-- The branch of `walk_children` that a shape takes. -/
inductive Form (ι : Type)
  | option (t : ι)
  | struct (ty : StructType ι)
  | enum (ty : EnumType ι)
  | sequence (t : ι)
  | collection (t : ι)
  | map (k v : ι)
  | result (t e : ι)
  | pointee (t : ι)
  | inner (t : ι)
  | leaf

/-- The branch taken by the definition of a shape that is neither struct nor enum. -/
def definitionForm (shape : Shape ι) : Form ι :=
  match shape.def with
  | .list t | .array t _ | .slice t => .sequence t
  | .ndArray t | .set t => .collection t
  | .map k v => .map k v
  | .option t => .option t
  | .result t e => .result t e
  | .pointer (some t) => .pointee t
  | _ =>
    match shape.inner with
    | some t => .inner t
    | none => .leaf

/-- Options come first, because an option is also an enum; then fields and variants. -/
def form (shape : Shape ι) : Form ι :=
  match shape.def with
  | .option t => .option t
  | _ =>
    match shape.ty with
    | .user (.struct ty) => .struct ty
    | .user (.enum ty) => .enum ty
    | _ => definitionForm shape

/-- A descent of the walker: the variant pushed first, if any, the step into the child,
the child, and the field the walker went through. -/
structure Child (ι : Type) where
  variant : Option ℕ := none
  step : PathStep
  shape : ι
  field : Option (Field ι) := none

/-- The cast `as u32`. -/
def asU32 (n : ℕ) : ℕ := n % 2 ^ 32

def fieldChildren (variant : Option ℕ) (fields : List (Field ι)) : List (Child ι) :=
  fields.zipIdx.map fun e =>
    { variant, step := .field (asU32 e.2), shape := e.1.shape, field := some e.1 }

def Form.children : Form ι → List (Child ι)
  | .option t => [{ step := .optionSome, shape := t }]
  | .struct ty => fieldChildren none ty.fields
  | .enum ty => ty.variants.zipIdx.flatMap fun e =>
      fieldChildren (some (asU32 e.2)) e.1.data.fields
  | .sequence t | .collection t => [{ step := .index 0, shape := t }]
  | .map k v => [{ step := .mapKey 0, shape := k }, { step := .mapValue 0, shape := v }]
  -- a result has no variants of its own; the walker makes up `Ok` and `Err`
  | .result t e =>
    [{ variant := some 0, step := .field 0, shape := t },
      { variant := some 1, step := .field 0, shape := e }]
  | .pointee t => [{ step := .deref, shape := t }]
  | .inner t => [{ step := .inner, shape := t }]
  | .leaf => []

def children (shape : Shape ι) : List (Child ι) := (form shape).children

/-- The descents from the root to the current shape. -/
abbrev Trail (ι : Type) := List (Child ι)

def Child.steps (c : Child ι) : List PathStep :=
  c.variant.toList.map .variant ++ [c.step]

/-- The path the visitor sees. -/
def Trail.path (trail : Trail ι) : List PathStep := trail.flatMap Child.steps

/-- The shape a trail leads to. -/
def Trail.target (root : ι) : Trail ι → ι
  | [] => root
  | c :: cs => Trail.target c.shape cs

inductive VisitDecision
  | recurse
  | skipChildren
  | stop
  deriving DecidableEq, Repr

structure Visitor (ι σ : Type) where
  enter : List PathStep → ι → σ → VisitDecision × σ
  leave : List PathStep → ι → σ → σ

/-- The visitor's state, and the trails of the shapes entered so far. -/
structure Visits (ι σ : Type) where
  state : σ
  entered : List (Trail ι) := []

/-- How a walk ends; the fuel bounds the depth of the recursion. -/
inductive Outcome
  | completed
  | stopped
  | outOfFuel
  deriving DecidableEq, Repr

/-- The children in order, until one of them ends the walk. -/
def walkChildren {β : Type} (walk : Child ι → β → Outcome × β) : List (Child ι) → β → Outcome × β
  | [], run => (.completed, run)
  | c :: cs, run =>
    match walk c run with
    | (.completed, run) => walkChildren walk cs run
    | ended => ended

section Walk

variable {σ : Type} [DecidableEq ι] (S : Shapes ι) (visitor : Visitor ι σ)

def Visitor.left (path : List PathStep) (shape : ι) (run : Visits ι σ) : Visits ι σ :=
  { run with state := visitor.leave path shape run.state }

def walkRecursive : ℕ → ι → Trail ι → List ι → Visits ι σ → Outcome × Visits ι σ
  | 0, _, _, _, run => (.outOfFuel, run)
  | fuel + 1, shape, trail, ancestors, run =>
    let entry := visitor.enter trail.path shape run.state
    let run : Visits ι σ := ⟨entry.2, run.entered ++ [trail]⟩
    match entry.1 with
    | .stop => (.stopped, run)
    | .skipChildren => (.completed, visitor.left trail.path shape run)
    | .recurse =>
      -- a shape that is its own ancestor is reported, but not walked again
      if shape ∈ ancestors then (.completed, visitor.left trail.path shape run)
      else
        match walkChildren
            (fun c => walkRecursive fuel c.shape (trail ++ [c]) (shape :: ancestors))
            (children (S shape)) run with
        | (.completed, run) => (.completed, visitor.left trail.path shape run)
        | ended => ended

def walkShape (fuel : ℕ) (shape : ι) (state : σ) : Outcome × Visits ι σ :=
  walkRecursive S visitor fuel shape [] [] { state }

end Walk

end Facet.Path
