import Facet.Pretty.Layout
import Mathlib.Logic.Function.Basic

/-!
# The two formatting recursions

`format` and `format_peek` share one recursion, `format_peek_with_spans` has another one
that also records where each part of the value was written. Both follow pointers and
transparent wrappers to the innermost value, guard against cycles with a map of the
values being formatted, and convert a value whose shape has a proxy.
-/

namespace Facet.Pretty

variable {ι ν : Type}

/-- What a pointer that can be borrowed points to. -/
def borrowInner (P : Program ι ν) (m : Memory ι ν) (v : ν) : Option ν :=
  match (P.shapes (m.view v).shape).def with
  | .pointer (some _) => (m.view v).pointee
  | _ => none

/-- What a transparent wrapper wraps. -/
def tryBorrowInner (P : Program ι ν) (m : Memory ι ν) (v : ν) : Option ν :=
  match (P.shapes (m.view v).shape).inner with
  | some _ => (m.view v).inner
  | none => none

/-- The loop at the head of both recursions. -/
def derefPointers (P : Program ι ν) (m : Memory ι ν) : ℕ → ν → Option ν
  | 0, _ => none
  | fuel + 1, v =>
    match borrowInner P m v with
    | some pointee => derefPointers P m fuel pointee
    | none => some v

/-- What a pointer or a wrapper has inside, the pointer tried first. -/
def lookThrough (P : Program ι ν) (m : Memory ι ν) (v : ν) : Option ν :=
  (borrowInner P m v).or (tryBorrowInner P m v)

def innermostPeek (P : Program ι ν) (m : Memory ι ν) : ℕ → ν → Option ν
  | 0, _ => none
  | fuel + 1, v =>
    match lookThrough P m v with
    | some inner => innermostPeek P m fuel inner
    | none => some v

inductive PathSegment
  | field (name : String)
  | variant (name : String)
  | index (i : ℕ)
  | key (text : String)
  deriving DecidableEq, Repr

abbrev Path := List PathSegment

/-- The positions in the output of a key and of its value. -/
structure FieldSpan where
  key : ℕ × ℕ
  value : ℕ × ℕ
  deriving DecidableEq, Repr

/-- A finished call: the values being formatted higher up, whether the cycle marker was
written, and the visited map before and after. Nothing reads these records. -/
structure Visit (ν : Type) where
  value : ν
  above : List ν
  marked : Bool
  before : ν → Option ℕ
  after : ν → Option ℕ

structure PrintState (ν : Type) where
  output : String := ""
  /-- The values being formatted, with the type depth they were first seen at. -/
  visited : ν → Option ℕ := fun _ => none
  /-- The recorded spans; a path recorded again gets the new span. -/
  spans : Path → Option FieldSpan := fun _ => none
  visits : List (Visit ν) := []

/-- A step of printing; `none` is a recursion that has used up its budget. -/
abbrev Print (ν : Type) := StateT (PrintState ν) Option

/-- The recursive call: a value, the format depth, the type depth, and whether to be short. -/
abbrev Formatter (ν : Type) := ν → ℕ → ℕ → Bool → Print ν Unit

def write (text : String) : Print ν Unit :=
  modify fun st => { st with output := st.output ++ text }

/-- The current byte position in the output. -/
def position : Print ν ℕ := return (← get).output.utf8ByteSize

def recordFieldSpan (path : Path) (key value : ℕ × ℕ) : Print ν Unit :=
  modify fun st => { st with spans := Function.update st.spans path (some ⟨key, value⟩) }

def recordSpan (path : Path) (span : ℕ × ℕ) : Print ν Unit := recordFieldSpan path span span

section

variable [DecidableEq ν]

/-- The cycle guard around the formatting of one value. -/
def guarded (above : List ν) (v : ν) (typeDepth : ℕ) (cycle : ℕ → String)
    (body : Print ν Unit) : Print ν Unit := do
  let before := (← get).visited
  modify fun st => { st with visited := Function.update st.visited v (some typeDepth) }
  (match before v with
    | some prevTypeDepth => write (cycle prevTypeDepth)
    | none => body)
  modify fun st =>
    let after := Function.update st.visited v none
    { st with
      visited := after
      visits := st.visits ++ [⟨v, above, (before v).isSome, before, after⟩] }

end

/-- Formats the value of a call, or the proxy it converts to. -/
def formatCall (P : Program ι ν) (m : Memory ι ν) (fmt : Formatter ν) (c : Call ι ν) :
    Print ν Unit :=
  match c.proxy with
  | none => fmt c.value c.formatDepth c.typeDepth c.short
  | some p =>
    if (P.shapes p).sized then
      match m.convertOut c.value p with
      | .ok proxy => fmt proxy c.formatDepth c.typeDepth c.short
      | .error msg => write ("/* proxy conversion failed: " ++ msg ++ " */")
    else write "/* proxy type must be sized for formatting */"

section Recursions

variable [DecidableEq ι] [DecidableEq ν]
variable (P : Program ι ν) (pp : PrettyPrinter ι) (m : Memory ι ν)

/-- The pieces of a value: its proxy alone, or the layout of its shape. -/
def pieces (fuel : ℕ) (v : ν) (formatDepth typeDepth : ℕ) (short : Bool) :
    Option (List (Piece ι ν)) :=
  match (P.shapes (m.view v).shape).proxy with
  | some p => some [.call ⟨v, some p, formatDepth, typeDepth, short⟩]
  | none => layout P pp m fuel (m.view v) formatDepth typeDepth short

def runPiece (fmt : Formatter ν) : Piece ι ν → Print ν Unit
  | .text s => write s
  | .call c => formatCall P m fmt c

def cycleText (v : ν) (prevTypeDepth : ℕ) : String :=
  pp.styled .typeName (P.shapes (m.view v).shape).typeName ++ pp.styled .punctuation " \x7b "
    ++ pp.styled .comment ("/* cycle detected at " ++ P.valueId v ++ " (first seen at type_depth "
      ++ toString prevTypeDepth ++ ") */")

/-- The recursion of `format` and `format_peek`; `above` are the values being formatted
higher up. -/
def formatPeekInternal : ℕ → List ν → Formatter ν
  | 0, _ => fun _ _ _ _ => failure
  | fuel + 1, above => fun value formatDepth typeDepth short => do
    let value ← derefPointers P m fuel value
    let value ← innermostPeek P m fuel value
    guarded above value typeDepth (cycleText P pp m value) do
      let ps ← pieces P pp m fuel value formatDepth typeDepth short
      ps.forM (runPiece P m (formatPeekInternal fuel (value :: above)))

def formatPeek (fuel : ℕ) (root : ν) : Option String :=
  ((formatPeekInternal P pp m fuel [] root 0 0 false).run {}).map (·.2.output)

/-- A key's text, formatted on its own with a visited map of its own. -/
def formatKey (fuel : ℕ) (above : List ν) (key : ν) : Print ν String := do
  let (_, st) ← (formatPeekInternal P pp m fuel above key 0 0 false).run {}
  modify fun outer => { outer with visits := outer.visits ++ st.visits }
  return st.output

end Recursions

end Facet.Pretty
