import Mathlib.Data.List.Basic
import Mathlib.Data.Nat.Notation

/-!
# Plugin templates

A plugin of the derive macro is a template: Rust tokens with directives behind `@`. It is
evaluated against a parsed type by a loop over its tokens. A directive takes the groups it needs
from the tokens that follow, and the bodies of loops and conditions are evaluated under frames
that are pushed on a stack, in which the accessors look up the variant, field and attribute they
speak of.
-/

namespace Facet.Macros

inductive Delimiter
  | parenthesis
  | brace
  | bracket
  | none
  deriving DecidableEq, Repr

inductive TokenTree
  | ident (name : String)
  | punct (ch : Char)
  /-- A string literal, by its value. -/
  | string (value : String)
  /-- Any other literal, by its text. -/
  | literal (text : String)
  | group (delimiter : Delimiter) (stream : List TokenTree)

abbrev TokenStream := List TokenTree

inductive IdentOrLiteral
  | ident (name : String)
  | literal (index : ℕ)
  deriving DecidableEq, Repr

structure PFacetAttr where
  ns : Option String
  key : String
  args : TokenStream := []

structure PAttrs where
  doc : List String := []
  facet : List PFacetAttr := []

/-- The name as it is in the source, and without `r#`. -/
structure PName where
  raw : IdentOrLiteral
  original : String

structure PStructField where
  name : PName
  ty : TokenStream
  attrs : PAttrs := {}

inductive PVariantKind
  | unit
  | tuple (fields : List PStructField)
  | struct (fields : List PStructField)

structure PVariant where
  name : PName
  attrs : PAttrs := {}
  kind : PVariantKind

inductive PStructKind
  | struct (fields : List PStructField)
  | tupleStruct (fields : List PStructField)
  | unitStruct

structure PContainer where
  name : String
  attrs : PAttrs := {}
  /-- The generic parameters with and without their bounds. -/
  withBounds : TokenStream := []
  withoutBounds : TokenStream := []
  whereClauses : Option (List TokenStream) := none

inductive PType
  | struct (container : PContainer) (kind : PStructKind)
  | enum (container : PContainer) (variants : List PVariant)

def PType.container : PType → PContainer
  | .struct container _ => container
  | .enum container _ => container

inductive ContextFrame
  | variant (variant : PVariant)
  | field (field : PStructField) (index : ℕ)
  | attr (attr : PFacetAttr)

/-- The stack has its innermost frame first. -/
structure EvalContext where
  parsedType : PType
  stack : List ContextFrame := []

/-- What the innermost frames of each kind speak of. -/
structure Scope where
  parsedType : PType
  currentVariant : Option PVariant := none
  currentField : Option (PStructField × ℕ) := none
  currentAttr : Option PFacetAttr := none

namespace EvalContext

def push (ctx : EvalContext) (frame : ContextFrame) : EvalContext :=
  { ctx with stack := frame :: ctx.stack }

def pop (ctx : EvalContext) : EvalContext := { ctx with stack := ctx.stack.tail }

def currentVariant (ctx : EvalContext) : Option PVariant :=
  ctx.stack.findSome? fun
    | .variant variant => some variant
    | _ => none

def currentField (ctx : EvalContext) : Option (PStructField × ℕ) :=
  ctx.stack.findSome? fun
    | .field field index => some (field, index)
    | _ => none

def currentAttr (ctx : EvalContext) : Option PFacetAttr :=
  ctx.stack.findSome? fun
    | .attr attr => some attr
    | _ => none

def scope (ctx : EvalContext) : Scope where
  parsedType := ctx.parsedType
  currentVariant := ctx.currentVariant
  currentField := ctx.currentField
  currentAttr := ctx.currentAttr

end EvalContext

def PVariantKind.fields : PVariantKind → Option (List PStructField)
  | .tuple fields => some fields
  | .struct fields => some fields
  | .unit => none

def PStructKind.fields : PStructKind → Option (List PStructField)
  | .struct fields => some fields
  | .tupleStruct fields => some fields
  | .unitStruct => none

namespace Scope

/-- The fields of the variant, or of the struct outside of any variant. -/
def currentFields (s : Scope) : Option (List PStructField) :=
  match s.currentVariant with
  | some variant => variant.kind.fields
  | none =>
    match s.parsedType with
    | .struct _ kind => kind.fields
    | .enum _ _ => none

/-- The attributes of the field, else of the variant, else of the container. -/
def currentAttrs (s : Scope) : PAttrs :=
  match s.currentField with
  | some (field, _) => field.attrs
  | none =>
    match s.currentVariant with
    | some variant => variant.attrs
    | none => s.parsedType.container.attrs

end Scope

/-- A query such as `error::source`. -/
structure AttrQuery where
  ns : String
  key : String

namespace AttrQuery

def parse : TokenStream → Option AttrQuery
  | .ident ns :: .punct ':' :: .punct ':' :: .ident key :: _ => some ⟨ns, key⟩
  | _ => none

def matchesAttr (query : AttrQuery) (attr : PFacetAttr) : Bool :=
  attr.ns == some query.ns && attr.key == query.key

def findIn (query : AttrQuery) (attrs : List PFacetAttr) : Option PFacetAttr :=
  attrs.find? query.matchesAttr

end AttrQuery

/-- Rust's `char::is_whitespace`. -/
def isWhitespace (c : Char) : Bool :=
  9 ≤ c.toNat && c.toNat ≤ 13 || 0x2000 ≤ c.toNat && c.toNat ≤ 0x200a ||
    [0x20, 0x85, 0xa0, 0x1680, 0x2028, 0x2029, 0x202f, 0x205f, 0x3000].contains c.toNat

def trim (s : String) : String :=
  String.ofList (((s.toList.dropWhile isWhitespace).reverse.dropWhile isWhitespace).reverse)

/-- The doc comment in one line. -/
def PAttrs.docText (attrs : PAttrs) : String := trim (" ".intercalate attrs.doc)

/-- Items with commas between them. -/
def separated (items : List TokenStream) : TokenStream := List.intercalate [.punct ','] items

theorem separated_singleton (item : TokenStream) : separated [item] = item :=
  List.intercalate_singleton

theorem separated_cons (item : TokenStream) {items : List TokenStream} (hitems : items ≠ []) :
    separated (item :: items) = item ++ .punct ',' :: separated items := by
  obtain ⟨next, items, rfl⟩ := List.exists_cons_of_ne_nil hitems
  rw [separated, List.intercalate_cons_cons, List.append_assoc]
  rfl

/-- `v0`, `v1` and so on. -/
def tupleName (index : ℕ) : TokenTree := .ident ("v" ++ toString index)

namespace Scope

def emitSelfType (s : Scope) : TokenStream :=
  .ident s.parsedType.container.name :: s.parsedType.container.withoutBounds

def emitGenericParams (s : Scope) : TokenStream := s.parsedType.container.withBounds

def emitWhereClause (s : Scope) : TokenStream :=
  match s.parsedType.container.whereClauses with
  | none => []
  | some clauses => if clauses.isEmpty then [] else .ident "where" :: separated clauses

def emitVariantName (s : Scope) : TokenStream :=
  match s.currentVariant with
  | none => []
  | some variant =>
    match variant.name.raw with
    | .ident name => [.ident name]
    | .literal _ => []

/-- The tokens for the fields that have an identifier. -/
def named (fields : List PStructField) (tokens : String → PStructField → TokenStream) :
    List TokenStream :=
  fields.filterMap fun f =>
    match f.name.raw with
    | .ident id => some (tokens id f)
    | .literal _ => none

def emitVariantPattern (s : Scope) : TokenStream :=
  match s.currentVariant.map PVariant.kind with
  | some (.tuple fields) =>
    [.group .parenthesis (separated ((List.range fields.length).map fun i => [tupleName i]))]
  | some (.struct fields) => [.group .brace (separated (named fields fun id _ => [.ident id]))]
  | some .unit | none => []

/-- The field has an attribute that the query finds. -/
def hasAttr (query : AttrQuery) (f : PStructField) : Bool := (query.findIn f.attrs.facet).isSome

/-- What `@variant_pattern_only` emits. -/
def variantPatternOnly (s : Scope) (query : AttrQuery) : TokenStream :=
  match s.currentVariant.map PVariant.kind with
  | some (.tuple fields) =>
    [.group .parenthesis (separated (fields.zipIdx.map fun entry =>
      if hasAttr query entry.1 then [tupleName entry.2] else [.ident "_"]))]
  | some (.struct fields) =>
    [.group .brace (separated (named fields fun id f =>
      if hasAttr query f then [.ident id] else [.ident id, .punct ':', .ident "_"]))]
  | some .unit | none => []

def emitFieldName (s : Scope) : TokenStream :=
  match s.currentField with
  | none => []
  | some (field, index) =>
    match field.name.raw with
    | .ident id => [.ident id]
    | .literal _ => [tupleName index]

def emitFieldType (s : Scope) : TokenStream :=
  match s.currentField with
  | none => []
  | some (field, _) => field.ty

def emitFieldExpr (s : Scope) : TokenStream := s.emitFieldName

def emitAttrArgs (s : Scope) : TokenStream :=
  match s.currentAttr with
  | none => []
  | some attr => attr.args

def emitDoc (s : Scope) : TokenStream :=
  let doc := s.currentAttrs.docText
  if doc.isEmpty then [] else [.string doc]

end Scope

/-- `::core::default::Default::default()`. -/
def defaultCall : TokenStream :=
  (["core", "default", "Default", "default"].flatMap fun segment =>
    [.punct ':', .punct ':', .ident segment]) ++ [.group .parenthesis []]

/-- `(args).try_into().expect(…)`. -/
def convertedDefault (args : TokenStream) : TokenStream :=
  [.group .parenthesis args, .punct '.', .ident "try_into", .group .parenthesis [], .punct '.',
    .ident "expect", .group .parenthesis
      [.string "facet-default: failed to convert default value to field type"]]

def isBuiltinDefault (attr : PFacetAttr) : Bool := attr.ns.isNone && attr.key == "default"

def fieldDefaultTokens (field : PStructField) : TokenStream :=
  match field.attrs.facet.find? isBuiltinDefault with
  | some attr => if attr.args.isEmpty then defaultCall else convertedDefault attr.args
  | none => defaultCall

namespace Scope

def emitFieldDefaultExpr (s : Scope) : TokenStream :=
  match s.currentField with
  | none => []
  | some (field, _) => fieldDefaultTokens field

def emitVariantDefaultConstruction (s : Scope) : TokenStream :=
  match s.currentVariant.map PVariant.kind with
  | some (.tuple fields) => [.group .parenthesis (separated (fields.map fieldDefaultTokens))]
  | some (.struct fields) =>
    [.group .brace (separated (named fields fun id f =>
      .ident id :: .punct ':' :: fieldDefaultTokens f))]
  | some .unit | none => []

def emitFormatDocComment (s : Scope) : TokenStream :=
  match s.currentVariant with
  | none => []
  | some variant =>
    let doc := variant.attrs.docText
    let formatStr := if doc.isEmpty then variant.name.original else doc
    match variant.kind with
    | .tuple fields =>
      if formatStr.toList.tails.any "\x7b0\x7d".toList.isPrefixOf then
        .string formatStr :: .punct ',' ::
          separated ((List.range fields.length).map fun i => [tupleName i])
      else [.string formatStr]
    | .unit | .struct _ => [.string formatStr]

end Scope

inductive Accessor
  | selfType
  | genericParams
  | whereClause
  | variantName
  | variantPattern
  | fieldName
  | fieldType
  | fieldExpr
  | attrArgs
  | doc
  | fieldDefaultExpr
  | variantDefaultConstruction
  | formatDocComment
  deriving DecidableEq, Repr

def Scope.emit (s : Scope) : Accessor → TokenStream
  | .selfType => s.emitSelfType
  | .genericParams => s.emitGenericParams
  | .whereClause => s.emitWhereClause
  | .variantName => s.emitVariantName
  | .variantPattern => s.emitVariantPattern
  | .fieldName => s.emitFieldName
  | .fieldType => s.emitFieldType
  | .fieldExpr => s.emitFieldExpr
  | .attrArgs => s.emitAttrArgs
  | .doc => s.emitDoc
  | .fieldDefaultExpr => s.emitFieldDefaultExpr
  | .variantDefaultConstruction => s.emitVariantDefaultConstruction
  | .formatDocComment => s.emitFormatDocComment

/-- The conditions on the kind of type or variant. -/
inductive KindTest
  | ifStruct
  | ifEnum
  | ifUnitVariant
  | ifTupleVariant
  | ifStructVariant
  deriving DecidableEq, Repr

def Scope.passes (s : Scope) : KindTest → Bool
  | .ifStruct => (s.parsedType matches .struct _ _)
  | .ifEnum => (s.parsedType matches .enum _ _)
  | .ifUnitVariant => (s.currentVariant.map PVariant.kind matches some .unit)
  | .ifTupleVariant => (s.currentVariant.map PVariant.kind matches some (.tuple _))
  | .ifStructVariant => (s.currentVariant.map PVariant.kind matches some (.struct _))

inductive Directive
  | accessor (accessor : Accessor)
  | forVariant
  | forField
  | ifAttr
  | ifFieldAttr
  | ifAnyFieldAttr
  | ifKind (test : KindTest)
  | variantPatternOnly
  deriving DecidableEq, Repr

def directive : String → Option Directive
  | "Self" => some (.accessor .selfType)
  | "GenericParams" => some (.accessor .genericParams)
  | "WhereClause" => some (.accessor .whereClause)
  | "for_variant" => some .forVariant
  | "for_field" => some .forField
  | "if_attr" => some .ifAttr
  | "if_field_attr" => some .ifFieldAttr
  | "if_any_field_attr" => some .ifAnyFieldAttr
  | "if_struct" => some (.ifKind .ifStruct)
  | "if_enum" => some (.ifKind .ifEnum)
  | "if_unit_variant" => some (.ifKind .ifUnitVariant)
  | "if_tuple_variant" => some (.ifKind .ifTupleVariant)
  | "if_struct_variant" => some (.ifKind .ifStructVariant)
  | "variant_name" => some (.accessor .variantName)
  | "variant_pattern" => some (.accessor .variantPattern)
  | "variant_pattern_only" => some .variantPatternOnly
  | "field_name" => some (.accessor .fieldName)
  | "field_type" => some (.accessor .fieldType)
  | "field_expr" => some (.accessor .fieldExpr)
  | "attr_args" => some (.accessor .attrArgs)
  | "doc" => some (.accessor .doc)
  | "field_default_expr" => some (.accessor .fieldDefaultExpr)
  | "variant_default_construction" => some (.accessor .variantDefaultConstruction)
  | "format_doc_comment" => some (.accessor .formatDocComment)
  | _ => none

/-- Tokens evaluated in a context, with the context afterwards; nothing where the fuel runs out. -/
abbrev Evaluation := Option (TokenStream × EvalContext)

section Handlers

variable (evaluate : TokenStream → EvalContext → Evaluation)

/-- The body under each of the frames, pushed before it and popped afterwards. -/
def evaluateEach (body : TokenStream) : List ContextFrame → EvalContext → Evaluation
  | [], ctx => some ([], ctx)
  | frame :: frames, ctx => do
    let expanded ← evaluate body (ctx.push frame)
    let rest ← evaluateEach body frames expanded.2.pop
    return (expanded.1 ++ rest.1, rest.2)

def handleForVariant (body : TokenStream) (ctx : EvalContext) : Evaluation :=
  match ctx.parsedType with
  | .enum _ variants => evaluateEach evaluate body (variants.map .variant) ctx
  | .struct _ _ => some ([], ctx)

def handleForField (body : TokenStream) (ctx : EvalContext) : Evaluation :=
  match ctx.scope.currentFields with
  | some fields =>
    evaluateEach evaluate body (fields.zipIdx.map fun entry => .field entry.1 entry.2) ctx
  | none => some ([], ctx)

def handleIfAttr (query : AttrQuery) (body : TokenStream) (ctx : EvalContext) : Evaluation :=
  match query.findIn ctx.scope.currentAttrs.facet with
  | some attr => do
    let expanded ← evaluate body (ctx.push (.attr attr))
    return (expanded.1, expanded.2.pop)
  | none => some ([], ctx)

/-- The first of the fields with an attribute that the query finds. -/
def AttrQuery.findField (query : AttrQuery) (fields : List PStructField) :
    Option (PStructField × ℕ × PFacetAttr) :=
  fields.zipIdx.findSome? fun entry =>
    (query.findIn entry.1.attrs.facet).map fun attr => (entry.1, entry.2, attr)

def handleIfFieldAttr (query : AttrQuery) (body : TokenStream) (ctx : EvalContext) : Evaluation :=
  match ctx.scope.currentFields.bind query.findField with
  | some (field, index, attr) => do
    let expanded ← evaluate body ((ctx.push (.field field index)).push (.attr attr))
    return (expanded.1, expanded.2.pop.pop)
  | none => some ([], ctx)

def handleIfAnyFieldAttr (query : AttrQuery) (body : TokenStream) (ctx : EvalContext) :
    Evaluation :=
  if ctx.scope.currentFields.any (·.any (Scope.hasAttr query)) then evaluate body ctx
  else some ([], ctx)

def handleIfKind (test : KindTest) (body : TokenStream) (ctx : EvalContext) : Evaluation :=
  if ctx.scope.passes test then evaluate body ctx else some ([], ctx)

/-- A directive with one group behind it; any other token there is lost. -/
def withBody (handle : TokenStream → EvalContext → Evaluation) (iter : TokenStream)
    (ctx : EvalContext) : Option (TokenStream × TokenStream × EvalContext) :=
  match iter with
  | .group _ body :: iter => (handle body ctx).map (iter, ·)
  | _ :: iter => some (iter, [], ctx)
  | [] => some ([], [], ctx)

/-- A directive with a query behind it. -/
def withQuery (handle : AttrQuery → TokenStream → EvalContext →
      Option (TokenStream × TokenStream × EvalContext))
    (iter : TokenStream) (ctx : EvalContext) : Option (TokenStream × TokenStream × EvalContext) :=
  match iter with
  | .group _ query :: iter =>
    match AttrQuery.parse query with
    | some query => handle query iter ctx
    | none => some (iter, [], ctx)
  | _ :: iter => some (iter, [], ctx)
  | [] => some ([], [], ctx)

/-- A directive with a query and a body behind it, both taken before the query is read. -/
def withQueryAndBody (handle : AttrQuery → TokenStream → EvalContext → Evaluation)
    (iter : TokenStream) (ctx : EvalContext) : Option (TokenStream × TokenStream × EvalContext) :=
  match iter with
  | .group _ query :: iter =>
    withBody (fun body ctx =>
      match AttrQuery.parse query with
      | some query => handle query body ctx
      | none => some ([], ctx)) iter ctx
  | _ :: iter => some (iter, [], ctx)
  | [] => some ([], [], ctx)

/-- What a directive emits, after the tokens it leaves to be read. -/
def runDirective (d : Directive) (iter : TokenStream) (ctx : EvalContext) :
    Option (TokenStream × TokenStream × EvalContext) :=
  match d with
  | .accessor a => some (iter, ctx.scope.emit a, ctx)
  | .forVariant => withBody (handleForVariant evaluate) iter ctx
  | .forField => withBody (handleForField evaluate) iter ctx
  | .ifAttr => withQueryAndBody (handleIfAttr evaluate) iter ctx
  | .ifFieldAttr => withQueryAndBody (handleIfFieldAttr evaluate) iter ctx
  | .ifAnyFieldAttr => withQueryAndBody (handleIfAnyFieldAttr evaluate) iter ctx
  | .ifKind test => withBody (handleIfKind evaluate test) iter ctx
  | .variantPatternOnly =>
    withQuery (fun query iter ctx => some (iter, ctx.scope.variantPatternOnly query, ctx)) iter ctx

/-- The tokens behind `@`. -/
def handleDirective (iter : TokenStream) (ctx : EvalContext) :
    Option (TokenStream × TokenStream × EvalContext) :=
  match iter with
  | [] => some ([], [.punct '@'], ctx)
  | .ident name :: iter =>
    match directive name with
    | some d => runDirective evaluate d iter ctx
    | none => some (iter, [.punct '@', .ident name], ctx)
  | next :: iter => some (iter, [.punct '@', next], ctx)

end Handlers

def evaluateWithContext : ℕ → TokenStream → EvalContext → Evaluation
  | 0, _, _ => none
  | _ + 1, [], ctx => some ([], ctx)
  | n + 1, .punct '@' :: iter, ctx => do
    let handled ← handleDirective (evaluateWithContext n) iter ctx
    let rest ← evaluateWithContext n handled.1 handled.2.2
    return (handled.2.1 ++ rest.1, rest.2)
  | n + 1, .group delimiter stream :: iter, ctx => do
    let inner ← evaluateWithContext n stream ctx
    let rest ← evaluateWithContext n iter inner.2
    return (.group delimiter inner.1 :: rest.1, rest.2)
  | n + 1, tt :: iter, ctx => do
    let rest ← evaluateWithContext n iter ctx
    return (tt :: rest.1, rest.2)

end Facet.Macros
