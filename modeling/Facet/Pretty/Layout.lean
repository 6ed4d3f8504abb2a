import Facet.Pretty.Output

/-!
# The layout of a value

What the pretty-printer writes for one value, as a sequence of pieces: texts, and calls
that format a part of the value in between. A layout looks at the value itself and, for
lists of bytes and for skip predicates, at its direct parts; everything below is left
to the calls.
-/

namespace Facet.Pretty

variable {ι ν : Type}

/-- A request to format a value, converted to a proxy first where one is given. -/
structure Call (ι ν : Type) where
  value : ν
  proxy : Option ι := none
  formatDepth : ℕ
  typeDepth : ℕ
  short : Bool

inductive Piece (ι ν : Type)
  | text (s : String)
  | call (c : Call ι ν)

def saturatingAdd (a b : ℕ) : ℕ := min (a + b) usizeMax

def saturatingMul (a b : ℕ) : ℕ := min (a * b) usizeMax

def shapeChunkiness (shapes : Shapes ι) : ℕ → ι → Option ℕ
  | 0, _ => none
  | fuel + 1, s =>
    let fields (fs : List (Field ι)) : Option ℕ :=
      fs.foldlM (fun sum f => return saturatingAdd sum (← shapeChunkiness shapes fuel f.shape)) 0
    match (shapes s).ty with
    | .pointer (.reference target) => shapeChunkiness shapes fuel target
    | .pointer _ | .primitive _ => some 1
    | .sequence (.array t n) => return saturatingMul (← shapeChunkiness shapes fuel t) n
    | .sequence (.slice _) => some usizeMax
    | .user (.struct ty) => fields ty.fields
    | .user (.enum ty) => ty.variants.foldlM (fun m v => return max m (← fields v.data.fields)) 0
    | .user _ => some 1
    | .undefined => some 1

/-- The text of a scalar, by its own `Display` or `Debug`. -/
def scalarText (P : Program ι ν) (view : View ι ν) : String :=
  let shape := P.shapes view.shape
  if shape.isDisplay then view.display
  else if shape.isDebug then view.debug
  else shape.typeName ++ "(…)"

/-- The element shape of a list, an array, a slice, or a pointer to a slice. -/
def listLike (P : Program ι ν) (shape : Shape ι) : Option ι :=
  match shape.def with
  | .list t | .array t _ | .slice t => some t
  | _ =>
    match shape.ty with
    | .pointer (.reference target) | .pointer (.raw target) =>
      match (P.shapes target).def with
      | .slice t => some t
      | _ => none
    | _ => none

/-- The arms of a printer's match on a shape's two views. -/
inductive Arm (ι : Type)
  | str
  | scalar
  | option
  | result
  | address
  | union
  | struct (ty : StructType ι)
  | enum (ty : EnumType ι)
  | listLike (elem : ι)
  | set
  | map (k : ι)
  | dynamicValue
  | unsupported

/-- The arms of `format`, tried in this order. -/
def arm (P : Program ι ν) (shape : Shape ι) : Arm ι :=
  match shape.def, shape.ty with
  | _, .primitive (.textual .str) => .str
  | .scalar, _ => .scalar
  | .option _, _ => .option
  | .result _ _, _ => .result
  | _, .pointer (.raw _) | _, .pointer .function => .address
  | _, .user .union => .union
  | _, .user (.struct ty) => .struct ty
  | _, .user (.enum ty) => .enum ty
  | d, _ =>
    match listLike P shape with
    | some elem => .listLike elem
    | none =>
      match d with
      | .set _ => .set
      | .map k _ => .map k
      | .dynamicValue => .dynamicValue
      | _ => .unsupported

/-- The field is left out of serialized output, and of printed output. -/
def shouldSkipSerializing (m : Memory ι ν) (field : Field ι) (fieldValue : ν) : Bool :=
  field.skipSerializing || (field.skipSerializingIf && m.skipPredicate fieldValue)

/-- The only field, where it has no doc comment. -/
def soleUndocumented : List (Field ι) → Option (Field ι)
  | [field] => if field.doc.isEmpty then some field else none
  | _ => none

section Arms

variable (P : Program ι ν) (pp : PrettyPrinter ι) (m : Memory ι ν)

def punctuation (text : String) : Piece ι ν := .text (pp.styled .punctuation text)

def typeNameOf (view : View ι ν) : Piece ι ν :=
  .text (pp.styled .typeName (P.shapes view.shape).typeName)

def newlineIf (b : Bool) (depth : ℕ) : Piece ι ν := .text (if b then pp.newline depth else "")

def formatScalar (view : View ι ν) : List (Piece ι ν) :=
  [.text (pp.styled (.accentShape view.shape) (scalarText P view))]

def formatOption (view : View ι ν) (formatDepth typeDepth : ℕ) (short : Bool) :
    List (Piece ι ν) :=
  let name := if pp.minimalOptionNames then [] else [typeNameOf P pp view]
  match view.option with
  | some inner =>
    name ++ [punctuation pp (if pp.minimalOptionNames then "Some(" else "::Some("),
      .call ⟨inner, none, formatDepth, typeDepth + 1, short⟩, punctuation pp ")"]
  | none => name ++ [punctuation pp (if pp.minimalOptionNames then "None" else "::None")]

def formatResult (view : View ι ν) (formatDepth typeDepth : ℕ) (short : Bool) :
    List (Piece ι ν) :=
  let payload (keyword : String) (value : ν) : List (Piece ι ν) :=
    [typeNameOf P pp view, punctuation pp keyword,
      .call ⟨value, none, formatDepth, typeDepth + 1, short⟩, punctuation pp ")"]
  match view.result with
  | some (.ok okVal) => payload " Ok(" okVal
  | some (.error errVal) => payload " Err(" errVal
  -- no value of a result shape is neither
  | none => []

/-- A raw or function pointer's address, printed as a `*const ()`. -/
def formatAddress (view : View ι ν) : List (Piece ι ν) :=
  [typeNameOf P pp view, .text (pp.styled (.accentShape P.constPtrShape) view.address)]

def shapeDoc (view : View ι ν) (formatDepth : ℕ) (short : Bool) : Piece ι ν :=
  .text (if !short && pp.showDocComments then pp.docText (P.shapes view.shape).doc formatDepth
    else "")

def formatUnion (view : View ι ν) (formatDepth : ℕ) (short : Bool) : List (Piece ι ν) :=
  [shapeDoc P pp view formatDepth short, typeNameOf P pp view, punctuation pp " \x7b ",
    .text (pp.styled .comment "/* contents of untagged union */"), punctuation pp " \x7d"]

def redacted : Piece ι ν := .text (pp.styled .redacted "[REDACTED]")

/-- The line after the visible entries that says how many were left out. -/
def omittedText (visible len formatDepth : ℕ) (noun : String) (short : Bool) : Piece ι ν :=
  .text (if visible < len then
      (if !short then pp.newline (formatDepth + 1) else if visible > 0 then " " else "")
        ++ pp.collectionEllipsis (len - visible) noun
    else "")

/-- What separates an entry from the next one. -/
def separator (idx visible len : ℕ) (short : Bool) : Piece ι ν :=
  .text (if !short || idx + 1 < visible || visible < len then pp.styled .punctuation "," else " ")

/-- A field's value, or the marker in its place. -/
def fieldValue (field : Field ι) (value : ν) (formatDepth typeDepth : ℕ) (short : Bool) :
    Piece ι ν :=
  if field.isSensitive then redacted pp
  else .call ⟨value, field.proxy, formatDepth, typeDepth, short⟩

def formatTupleFields (fields : List (Field ι)) (peekField : ℕ → ν) (formatDepth typeDepth : ℕ)
    (short forceTrailingComma : Bool) : List (Piece ι ν) :=
  let visible := pp.visibleCollectionLen fields.length
  let line (field : Field ι) (idx : ℕ) : List (Piece ι ν) :=
    [newlineIf pp (!short) (formatDepth + 1),
      .text (if !short && pp.showDocComments then pp.docText field.doc (formatDepth + 1) else ""),
      fieldValue pp field (peekField idx) (formatDepth + 1) (typeDepth + 1) short,
      separator pp idx visible fields.length short]
  [punctuation pp "("] ++
  (match soleUndocumented fields with
  -- the sensitive flag of a sole field without docs is not looked at
  | some field =>
    [.call ⟨peekField 0, field.proxy, formatDepth, typeDepth, short⟩,
      .text (if forceTrailingComma then pp.styled .punctuation "," else "")]
  | none =>
    if fields.isEmpty then []
    else
      (fields.take visible).zipIdx.flatMap (fun e => line e.1 e.2) ++
      [omittedText pp visible fields.length formatDepth "fields" short,
        newlineIf pp (!short) formatDepth]) ++
  [punctuation pp ")"]

/-- The fields that are not skipped, with their indices. -/
def visibleIndices (fields : List (Field ι)) (peekField : ℕ → ν) : List (Field ι × ℕ) :=
  fields.zipIdx.filter fun e => !shouldSkipSerializing m e.1 (peekField e.2)

def formatStructFields (fields : List (Field ι)) (peekField : ℕ → ν)
    (formatDepth typeDepth : ℕ) (short : Bool) : List (Piece ι ν) :=
  let visible := visibleIndices m fields peekField
  let shown := visible.take (pp.visibleCollectionLen visible.length)
  let line (field : Field ι) (idx i : ℕ) : List (Piece ι ν) :=
    [newlineIf pp (!short) (formatDepth + 1),
      .text (if pp.showDocComments then pp.docText field.doc (formatDepth + 1) else ""),
      .text (pp.styled .fieldName field.name), punctuation pp ": ",
      fieldValue pp field (peekField idx) (formatDepth + 1) (typeDepth + 1) short,
      .text (if !short || i + 1 ≠ shown.length then pp.styled .punctuation "," else " ")]
  [punctuation pp " \x7b"] ++
  (if shown.isEmpty then []
  else
    shown.zipIdx.flatMap (fun e => line e.1.1 e.1.2 e.2) ++
    [.text (if shown.length < visible.length then
        (if !short then pp.newline (formatDepth + 1) else " ")
          ++ pp.collectionEllipsis (visible.length - shown.length) "fields"
      else ""),
      newlineIf pp (!short) formatDepth]) ++
  [punctuation pp "\x7d"]

def formatStruct (ty : StructType ι) (view : View ι ν) (formatDepth typeDepth : ℕ)
    (short : Bool) : List (Piece ι ν) :=
  [shapeDoc P pp view formatDepth short, typeNameOf P pp view] ++
  match ty.kind with
  | .tuple =>
    .text " " :: formatTupleFields pp ty.fields view.field formatDepth typeDepth short true
  | .tupleStruct => formatTupleFields pp ty.fields view.field formatDepth typeDepth short false
  | .struct => formatStructFields pp m ty.fields view.field formatDepth typeDepth short
  | .unit => []

def formatEnum (ty : EnumType ι) (view : View ι ν) (formatDepth typeDepth : ℕ) (short : Bool) :
    List (Piece ι ν) :=
  match view.activeVariant.bind (ty.variants[·]?) with
  | none =>
    [typeNameOf P pp view, punctuation pp " \x7b",
      .text (pp.styled .comment " /* cannot determine variant */ "), punctuation pp "\x7d"]
  | some variant =>
    let data := variant.data
    [shapeDoc P pp view formatDepth short,
      .text (if !short && pp.showDocComments then pp.docText variant.doc formatDepth else ""),
      typeNameOf P pp view, punctuation pp "::", .text (pp.styled .variantName variant.name)] ++
    match data.kind with
    | .unit => []
    | .struct => formatStructFields pp m data.fields view.field formatDepth typeDepth short
    | _ => formatTupleFields pp data.fields view.field formatDepth typeDepth short false

/-- One byte, with a new line before every sixteenth. -/
def formatByte (item : ν) (displayIdx formatDepth : ℕ) (short : Bool) : Piece ι ν :=
  let byte := (m.view item).byte
  .text ((if !short && displayIdx % 16 = 0 then pp.newline (formatDepth + 1) else "") ++ " "
    ++ pp.styled (.accentByte byte) (hexByte byte))

def formatByteList (items : List ν) (formatDepth : ℕ) (short : Bool) : List (Piece ι ν) :=
  let bytes (items : List ν) (start : ℕ) : List (Piece ι ν) :=
    (items.zipIdx start).map fun e => formatByte pp m e.1 e.2 formatDepth short
  [punctuation pp " ["] ++
  (match pp.exceeds items.length with
  | some max =>
    let half := max / 2
    bytes (items.take half) 0 ++
    [newlineIf pp (!short) (formatDepth + 1),
      .text (" ...(" ++ toString (items.length - half - half) ++ " bytes)..."),
      newlineIf pp (!short) (formatDepth + 1)] ++
    bytes (items.drop (items.length - half)) (half + 1)
  | none => bytes items 0) ++
  [newlineIf pp (!short) formatDepth, punctuation pp "]"]

def formatItems (isSimple : Bool) (items : List ν) (formatDepth typeDepth : ℕ) (short : Bool) :
    List (Piece ι ν) :=
  let visible := pp.visibleCollectionLen items.length
  let inline := short || isSimple
  let line (item : ν) (idx : ℕ) : List (Piece ι ν) :=
    [.text (if !inline then pp.newline (formatDepth + 1) else if idx > 0 then " " else ""),
      .call ⟨item, none, formatDepth + 1, typeDepth + 1, inline⟩,
      .text (if !inline || idx + 1 < visible || visible < items.length then
        pp.styled .punctuation "," else "")]
  [punctuation pp " ["] ++
  (items.take visible).zipIdx.flatMap (fun e => line e.1 e.2) ++
  [omittedText pp visible items.length formatDepth "items" inline,
    newlineIf pp (!inline) formatDepth, punctuation pp "]"]

variable [DecidableEq ι]

def formatListLike (fuel : ℕ) (elem : ι) (view : View ι ν) (formatDepth typeDepth : ℕ)
    (short : Bool) : Option (List (Piece ι ν)) :=
  if view.items.isEmpty then some [typeNameOf P pp view, punctuation pp "[]"]
  else if elem = P.u8Shape ∧ pp.listU8AsBytes then
    some (typeNameOf P pp view :: formatByteList pp m view.items formatDepth short)
  else do
    let chunkiness ← shapeChunkiness P.shapes fuel elem
    return typeNameOf P pp view ::
      formatItems pp (chunkiness ≤ 1) view.items formatDepth typeDepth short

/-- The entries of a set, a map, or a dynamic array or object, each on a line of its own
unless the output is to be short. -/
def formatEntries {α : Type} (entries : List α) (noun : String) (formatDepth : ℕ) (short : Bool)
    (entry : α → List (Piece ι ν)) : List (Piece ι ν) :=
  let visible := pp.visibleCollectionLen entries.length
  (entries.take visible).zipIdx.flatMap (fun e =>
    newlineIf pp (!short) (formatDepth + 1) ::
      (entry e.1 ++ [separator pp e.2 visible entries.length short])) ++
  [omittedText pp visible entries.length formatDepth noun short,
    newlineIf pp (!short) formatDepth]

def formatSet (view : View ι ν) (formatDepth typeDepth : ℕ) (short : Bool) :
    List (Piece ι ν) :=
  [typeNameOf P pp view, punctuation pp " ["] ++
  (if view.items.isEmpty then []
  else formatEntries pp view.items "items" formatDepth short fun item =>
    [.call ⟨item, none, formatDepth + 1, typeDepth + 1, short⟩]) ++
  [punctuation pp "]"]

def formatMap (fuel : ℕ) (k : ι) (view : View ι ν) (formatDepth typeDepth : ℕ) (short : Bool) :
    Option (List (Piece ι ν)) := do
  let keyIsShort := (← shapeChunkiness P.shapes fuel k) ≤ 2
  return [typeNameOf P pp view, punctuation pp " ["] ++
    (if view.entries.isEmpty then []
    else formatEntries pp view.entries "entries" formatDepth short fun e =>
      [.call ⟨e.1, none, formatDepth + 1, typeDepth + 1, keyIsShort⟩, punctuation pp " => ",
        .call ⟨e.2, none, formatDepth + 1, typeDepth + 1, short⟩]) ++
    [punctuation pp "]"]

def DynNumber.text : DynNumber → String
  | .i64 n => toString n
  | .u64 n => toString n
  | .f64 text => text

def formatDynamicValue (view : View ι ν) (formatDepth typeDepth : ℕ) (short : Bool) :
    List (Piece ι ν) :=
  match view.dynamic with
  | .null => [.text (pp.styled .keyword "null")]
  | .bool b => [.text (pp.styled .keyword (if b then "true" else "false"))]
  | .number n => [.text (pp.styled .number n.text)]
  | .string s => [.text (pp.formatString P s)]
  | .bytes bytes => [.text (pp.formatBytes bytes)]
  | .array elems =>
    if elems.isEmpty then [punctuation pp "[]"]
    else
      [punctuation pp "["] ++
      formatEntries pp elems "items" formatDepth short (fun elem =>
        [.call ⟨elem, none, formatDepth + 1, typeDepth + 1, short⟩]) ++
      [punctuation pp "]"]
  | .object entries =>
    if entries.isEmpty then [punctuation pp "\x7b\x7d"]
    else
      [punctuation pp "\x7b"] ++
      formatEntries pp entries "entries" formatDepth short (fun e =>
        [.text (pp.styled .fieldName e.1), punctuation pp ": ",
          .call ⟨e.2, none, formatDepth + 1, typeDepth + 1, short⟩]) ++
      [punctuation pp "\x7d"]
  | .dateTime dt => [.text dt.text]
  | .qName => [.text "<qname>"]
  | .uuid => [.text "<uuid>"]

def formatUnsupported (view : View ι ν) : List (Piece ι ν) :=
  let shape := P.shapes view.shape
  let debug := if shape.isDebug then view.debug else "⟨" ++ shape.typeName ++ "⟩"
  [.text ("unsupported peek variant: " ++ debug ++ " " ++ shape.debugViews)]

/-- The layout of a value of the given view, chosen by its shape. -/
def layout (fuel : ℕ) (view : View ι ν) (formatDepth typeDepth : ℕ) (short : Bool) :
    Option (List (Piece ι ν)) :=
  match arm P (P.shapes view.shape) with
  | .str => some [.text (pp.formatStrValue view.str)]
  | .scalar =>
    if view.shape = P.stringShape then some [.text (pp.formatStrValue view.str)]
    else some (formatScalar P pp view)
  | .option => some (formatOption P pp view formatDepth typeDepth short)
  | .result => some (formatResult P pp view formatDepth typeDepth short)
  | .address => some (formatAddress P pp view)
  | .union => some (formatUnion P pp view formatDepth short)
  | .struct ty => some (formatStruct P pp m ty view formatDepth typeDepth short)
  | .enum ty => some (formatEnum P pp m ty view formatDepth typeDepth short)
  | .listLike elem => formatListLike P pp m fuel elem view formatDepth typeDepth short
  | .set => some (formatSet P pp view formatDepth typeDepth short)
  | .map k => formatMap P pp fuel k view formatDepth typeDepth short
  | .dynamicValue => some (formatDynamicValue P pp view formatDepth typeDepth short)
  | .unsupported => some (formatUnsupported P view)

end Arms

end Facet.Pretty
