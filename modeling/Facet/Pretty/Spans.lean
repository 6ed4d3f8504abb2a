import Facet.Pretty.Printer

/-!
# The recursion that records spans

`format_peek_with_spans` writes plain text and remembers for every path of fields,
variants, indices and keys where in the text its key and its value stand. A layout of
this recursion is again a sequence of pieces; the pieces that print a part name the path
the part is recorded under.
-/

namespace Facet.Pretty

variable {ι ν : Type}

inductive SpanPiece (ι ν : Type)
  | text (s : String)
  /-- A part under the value's own path. -/
  | call (path : Path) (c : Call ι ν)
  /-- A part whose span is recorded once more by the value that holds it. -/
  | elem (path : Path) (c : Call ι ν)
  /-- A named field. -/
  | field (path : Path) (name : String) (c : Call ι ν)
  /-- A map entry; its path ends with the text of the key. -/
  | entry (path : Path) (key value : Call ι ν)

/-- The arms of `format_peek_with_spans`, tried in this order. -/
def unifiedArm (P : Program ι ν) (shape : Shape ι) : Arm ι :=
  match shape.def, shape.ty with
  | _, .primitive (.textual .str) => .str
  | .scalar, _ => .scalar
  | .option _, _ => .option
  | .result _ _, _ => .result
  | _, .user (.struct ty) => .struct ty
  | _, .user (.enum ty) => .enum ty
  | d, _ =>
    match listLike P shape with
    | some elem => .listLike elem
    | none =>
      match d with
      | .map k _ => .map k
      | _ => .unsupported

section Arms

variable (P : Program ι ν) (pp : PrettyPrinter ι)

def newlineToOutput (b : Bool) (depth : ℕ) : SpanPiece ι ν :=
  .text (if b then "\n" ++ times (depth * pp.indentSize) ' ' else "")

/-- The fields of a struct or of a struct variant, between braces. -/
def unifiedStructFields (fields : List (Field ι)) (view : View ι ν)
    (formatDepth typeDepth : ℕ) (short : Bool) (path : Path) : List (SpanPiece ι ν) :=
  let line (field : Field ι) (i : ℕ) : List (SpanPiece ι ν) :=
    [newlineToOutput pp (!short) (formatDepth + 1),
      .field (path ++ [.field field.name]) field.name
        ⟨view.field i, field.proxy, formatDepth + 1, typeDepth + 1, short⟩,
      .text (if !short || i + 1 < fields.length then "," else "")]
  [.text " \x7b"] ++ fields.zipIdx.flatMap (fun e => line e.1 e.2) ++
    [newlineToOutput pp (!short) formatDepth, .text "\x7d"]

/-- The fields of a tuple or of a tuple variant, between parentheses. -/
def unifiedTupleFields (fields : List (Field ι)) (view : View ι ν) (formatDepth typeDepth : ℕ)
    (short : Bool) (path : Path) : List (SpanPiece ι ν) :=
  let elem (field : Field ι) (i : ℕ) : List (SpanPiece ι ν) :=
    [.text (if i > 0 then ", " else ""),
      .elem (path ++ [.index i])
        ⟨view.field i, field.proxy, formatDepth + 1, typeDepth + 1, short⟩]
  [.text "("] ++ fields.zipIdx.flatMap (fun e => elem e.1 e.2) ++ [.text ")"]

def unifiedStruct (ty : StructType ι) (view : View ι ν) (formatDepth typeDepth : ℕ)
    (short : Bool) (path : Path) : List (SpanPiece ι ν) :=
  .text (P.shapes view.shape).typeName ::
  match ty.kind with
  | .unit => []
  | .struct => unifiedStructFields pp ty.fields view formatDepth typeDepth short path
  | .tuple =>
    .text " " :: unifiedTupleFields ty.fields view formatDepth typeDepth short path
  | .tupleStruct => unifiedTupleFields ty.fields view formatDepth typeDepth short path

def unifiedEnum (ty : EnumType ι) (view : View ι ν) (formatDepth typeDepth : ℕ) (short : Bool)
    (path : Path) : List (SpanPiece ι ν) :=
  let typeName := (P.shapes view.shape).typeName
  match view.activeVariant.bind (ty.variants[·]?) with
  | none => [.text (typeName ++ " \x7b /* cannot determine variant */ \x7d")]
  | some variant =>
    let path := path ++ [.variant variant.name]
    .text (typeName ++ "::" ++ variant.name) ::
    match variant.data.kind with
    | .unit => []
    | .struct => unifiedStructFields pp variant.data.fields view formatDepth typeDepth short path
    | _ => unifiedTupleFields variant.data.fields view formatDepth typeDepth short path

def unifiedOption (view : View ι ν) (formatDepth typeDepth : ℕ) (short : Bool) (path : Path) :
    List (SpanPiece ι ν) :=
  match view.option with
  | some inner =>
    [.text "Some(", .call path ⟨inner, none, formatDepth, typeDepth + 1, short⟩, .text ")"]
  | none => [.text "None"]

def unifiedResult (view : View ι ν) (formatDepth typeDepth : ℕ) (short : Bool) (path : Path) :
    List (SpanPiece ι ν) :=
  let payload (keyword : String) (value : ν) : List (SpanPiece ι ν) :=
    [.text ((P.shapes view.shape).typeName ++ keyword),
      .call path ⟨value, none, formatDepth, typeDepth + 1, short⟩, .text ")"]
  match view.result with
  | some (.ok okVal) => payload " Ok(" okVal
  | some (.error errVal) => payload " Err(" errVal
  -- no value of a result shape is neither
  | none => []

def unifiedList (isSimple : Bool) (view : View ι ν) (formatDepth typeDepth : ℕ) (short : Bool)
    (path : Path) : List (SpanPiece ι ν) :=
  let inline := short || isSimple
  let line (item : ν) (i : ℕ) : List (SpanPiece ι ν) :=
    [.text (if !inline then "\n" ++ times ((formatDepth + 1) * pp.indentSize) ' '
        else if i > 0 then " " else ""),
      .elem (path ++ [.index i]) ⟨item, none, formatDepth + 1, typeDepth + 1, inline⟩,
      .text (if !inline || i + 1 < view.items.length then "," else "")]
  [.text "["] ++ view.items.zipIdx.flatMap (fun e => line e.1 e.2) ++
    [newlineToOutput pp (!inline) formatDepth, .text "]"]

def unifiedMap (view : View ι ν) (formatDepth typeDepth : ℕ) (short : Bool) (path : Path) :
    List (SpanPiece ι ν) :=
  let line (key value : ν) (i : ℕ) : List (SpanPiece ι ν) :=
    [newlineToOutput pp (!short) (formatDepth + 1),
      .entry path ⟨key, none, formatDepth + 1, typeDepth + 1, true⟩
        ⟨value, none, formatDepth + 1, typeDepth + 1, short⟩,
      .text (if !short || i + 1 < view.entries.length then "," else "")]
  [.text "\x7b"] ++ view.entries.zipIdx.flatMap (fun e => line e.1.1 e.1.2 e.2) ++
    [newlineToOutput pp (!short && !view.entries.isEmpty) formatDepth, .text "\x7d"]

variable [DecidableEq ι]

/-- The layout of a value of the given view, chosen by its shape. -/
def unifiedLayout (fuel : ℕ) (view : View ι ν) (formatDepth typeDepth : ℕ) (short : Bool)
    (path : Path) : Option (List (SpanPiece ι ν)) :=
  match unifiedArm P (P.shapes view.shape) with
  | .str => some [.text ("\"" ++ view.str ++ "\"")]
  | .scalar =>
    if view.shape = P.stringShape then some [.text ("\"" ++ view.str ++ "\"")]
    else some [.text (scalarText P view)]
  | .option => some (unifiedOption view formatDepth typeDepth short path)
  | .result => some (unifiedResult P view formatDepth typeDepth short path)
  | .struct ty => some (unifiedStruct P pp ty view formatDepth typeDepth short path)
  | .enum ty => some (unifiedEnum P pp ty view formatDepth typeDepth short path)
  | .listLike elem => do
    let chunkiness ← shapeChunkiness P.shapes fuel elem
    return unifiedList pp (chunkiness ≤ 1) view formatDepth typeDepth short path
  | .map _ => some (unifiedMap pp view formatDepth typeDepth short path)
  | _ => some [.text ((P.shapes view.shape).typeName ++ " \x7b ... \x7d")]

/-- The pieces of a value: its proxy alone, or the layout of its shape. -/
def unifiedPieces (m : Memory ι ν) (fuel : ℕ) (v : ν) (formatDepth typeDepth : ℕ) (short : Bool)
    (path : Path) : Option (List (SpanPiece ι ν)) :=
  match (P.shapes (m.view v).shape).proxy with
  | some p => some [.call path ⟨v, some p, formatDepth, typeDepth, short⟩]
  | none => unifiedLayout P pp fuel (m.view v) formatDepth typeDepth short path

end Arms

/-- Runs a step and returns the positions around what it wrote. -/
def spanOf (step : Print ν Unit) : Print ν (ℕ × ℕ) := do
  let start ← position
  step
  return (start, ← position)

/-- `fmt` is the recursive call, `formatKey` formats a key without spans. -/
def runSpanPiece (P : Program ι ν) (m : Memory ι ν) (fmt : Path → Formatter ν)
    (formatKey : ν → Print ν String) : SpanPiece ι ν → Print ν Unit
  | .text s => write s
  | .call path c => formatCall P m (fmt path) c
  | .elem path c => do
    let span ← spanOf (formatCall P m (fmt path) c)
    recordSpan path span
  | .field path name c => do
    let key ← spanOf (write name)
    write ": "
    let value ← spanOf (formatCall P m (fmt path) c)
    recordFieldSpan path key value
  | .entry path key value => do
    let keySpan ← spanOf (formatCall P m (fmt []) key)
    write ": "
    let entryPath := path ++ [.key (← formatKey key.value)]
    let valueSpan ← spanOf (formatCall P m (fmt entryPath) value)
    recordFieldSpan entryPath keySpan valueSpan

section Recursion

variable [DecidableEq ι] [DecidableEq ν]
variable (P : Program ι ν) (pp : PrettyPrinter ι) (m : Memory ι ν)

def unifiedCycleText (v : ν) (prevTypeDepth : ℕ) : String :=
  (P.shapes (m.view v).shape).typeName ++ " \x7b /* cycle detected at " ++ P.valueId v
    ++ " (first seen at type_depth " ++ toString prevTypeDepth ++ ") */"

/-- The recursion of `format_peek_with_spans`; `above` are the values being formatted
higher up. -/
def formatUnified : ℕ → List ν → Path → Formatter ν
  | 0, _, _ => fun _ _ _ _ => failure
  | fuel + 1, above, path => fun value formatDepth typeDepth short => do
    let value ← derefPointers P m fuel value
    let value ← innermostPeek P m fuel value
    let above' := value :: above
    let span ← spanOf <| guarded above value typeDepth (unifiedCycleText P m value) do
      let ps ← unifiedPieces P pp m fuel value formatDepth typeDepth short path
      ps.forM (runSpanPiece P m (formatUnified fuel above') (formatKey P pp m fuel above'))
    recordSpan path span

/-- The text and the spans; colors are always off. -/
def formatPeekWithSpans (fuel : ℕ) (root : ν) : Option (String × (Path → Option FieldSpan)) :=
  let printer := { pp with useColors := false }
  ((formatUnified P printer m fuel [] [] root 0 0 false).run {}).map fun r =>
    (r.2.output, r.2.spans)

end Recursion

end Facet.Pretty
