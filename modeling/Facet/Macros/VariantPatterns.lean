import Facet.Macros.PluginScopes

/-!
# The names that a variant's pattern binds

A plugin matches on a variant with one directive and names its fields with others. For a variant
that comes from the parser, the pattern binds exactly the names that the other directives emit.
-/

namespace Facet.Macros

/-- A named field; `_` is no name. -/
structure StructField where
  attributes : PAttrs := {}
  name : String
  typ : TokenStream
  isName : name ≠ "_"

structure TupleField where
  attributes : PAttrs := {}
  typ : TokenStream

inductive EnumVariantData
  | unit
  | tuple (fields : List TupleField)
  | struct (fields : List StructField)

/-- Drops every `r#` at the start. -/
def trimRaw : List Char → List Char
  | 'r' :: '#' :: cs => trimRaw cs
  | cs => cs

def PName.new (raw : IdentOrLiteral) : PName where
  raw := raw
  original :=
    match raw with
    | .ident name => String.ofList (trimRaw name.toList)
    | .literal index => toString index

namespace PStructField

def fromStructField (f : StructField) : PStructField where
  name := .new (.ident f.name)
  ty := f.typ
  attrs := f.attributes

def fromEnumField (f : TupleField) (idx : ℕ) : PStructField where
  name := .new (.literal idx)
  ty := f.typ
  attrs := f.attributes

end PStructField

/-- The kind of a variant, as `PVariant::parse` builds it. -/
def PVariantKind.parse : EnumVariantData → PVariantKind
  | .unit => .unit
  | .tuple fields => .tuple (fields.zipIdx.map fun entry => .fromEnumField entry.1 entry.2)
  | .struct fields => .struct (fields.map .fromStructField)

/-- The items between commas. -/
def commaItems : TokenStream → List TokenStream
  | [] => [[]]
  | .punct ',' :: tokens => [] :: commaItems tokens
  | tt :: tokens => (tt :: (commaItems tokens).headD []) :: (commaItems tokens).tail

/-- The name that an item of a pattern binds. -/
def boundName : TokenStream → Option String
  | [.ident name] => if name = "_" then none else some name
  | _ => none

/-- The names that a pattern in parentheses or braces binds. -/
def patternNames : TokenStream → List String
  | [.group _ items] => (commaItems items).filterMap boundName
  | _ => []

theorem commaItems_append {item : TokenStream} (hitem : ∀ tt ∈ item, tt ≠ .punct ',')
    (tokens : TokenStream) : commaItems (item ++ .punct ',' :: tokens) = item :: commaItems tokens := by
  induction item with
  | nil => rw [List.nil_append, commaItems]
  | cons tt item ih =>
    rw [List.forall_mem_cons] at hitem
    rw [List.cons_append, commaItems, ih hitem.2]
    · rfl
    · exact hitem.1

theorem commaItems_item {item : TokenStream} (hitem : ∀ tt ∈ item, tt ≠ .punct ',') :
    commaItems item = [item] := by
  induction item with
  | nil => rfl
  | cons tt item ih =>
    rw [List.forall_mem_cons] at hitem
    rw [commaItems, ih hitem.2]
    · rfl
    · exact hitem.1

/-- Items that are put together with commas are read back, but for an empty list. -/
theorem filterMap_commaItems_separated {items : List TokenStream}
    (hitems : ∀ item ∈ items, ∀ tt ∈ item, tt ≠ .punct ',') :
    (commaItems (separated items)).filterMap boundName = items.filterMap boundName := by
  induction items with
  | nil => rfl
  | cons item items ih =>
    rw [List.forall_mem_cons] at hitems
    cases items with
    | nil => rw [separated_singleton, commaItems_item hitems.1]
    | cons item' items =>
      rw [separated_cons item (List.cons_ne_nil item' items), commaItems_append hitems.1,
        List.filterMap_cons, List.filterMap_cons, ih hitems.2]

theorem boundName_tupleName (i : ℕ) : boundName [tupleName i] = some ("v" ++ toString i) := by
  have hne : "v" ++ toString i ≠ "_" := by
    intro h
    have := congrArg (fun s => s.toList.head?) h
    simp at this
  rw [tupleName, boundName, if_neg hne]

/-- What the accessors call the field at an index. -/
def fieldName (entry : PStructField × ℕ) : String :=
  match entry.1.name.raw with
  | .ident id => id
  | .literal _ => "v" ++ toString entry.2

theorem emitFieldName_eq (s : Scope) (entry : PStructField × ℕ)
    (h : s.currentField = some entry) : s.emitFieldName = [.ident (fieldName entry)] := by
  obtain ⟨field, index⟩ := entry
  unfold Scope.emitFieldName fieldName
  rw [h]
  dsimp only
  cases field.name.raw <;> rfl

/-- The fields of the variant that have an attribute the query finds, by their names. -/
def namesWith (query : AttrQuery) (s : Scope) : List String :=
  ((s.currentFields.getD []).zipIdx.filter fun entry => Scope.hasAttr query entry.1).map fieldName

theorem currentFields_of_variant {s : Scope} {variant : PVariant}
    (h : s.currentVariant = some variant) : s.currentFields = variant.kind.fields := by
  rw [Scope.currentFields, h]

/-- A pattern in which each item binds the name of its field or none. -/
theorem patternNames_items {entries : List (PStructField × ℕ)} {p : PStructField × ℕ → Bool}
    {item : PStructField × ℕ → TokenStream} (delimiter : Delimiter)
    (h : ∀ entry ∈ entries,
      boundName (item entry) = if p entry then some (fieldName entry) else none)
    (hcomma : ∀ entry ∈ entries, ∀ tt ∈ item entry, tt ≠ .punct ',') :
    patternNames [.group delimiter (separated (entries.map item))] =
      (entries.filter p).map fieldName := by
  rw [patternNames, filterMap_commaItems_separated (List.forall_mem_map.mpr hcomma)]
  clear hcomma
  induction entries with
  | nil => rfl
  | cons entry entries ih =>
    rw [List.forall_mem_cons] at h
    rw [List.map_cons, List.filterMap_cons, h.1, ih h.2, List.filter_cons]
    cases p entry <;> rfl

theorem raw_of_parsed_tuple {fields : List TupleField} {entry : PStructField × ℕ}
    (h : entry ∈ (fields.zipIdx.map fun e => PStructField.fromEnumField e.1 e.2).zipIdx) :
    ∃ index, entry.1.name.raw = .literal index := by
  obtain ⟨e, _, he⟩ := List.mem_map.mp (List.fst_mem_of_mem_zipIdx h)
  exact ⟨e.2, by rw [← he]; rfl⟩

theorem raw_of_parsed_struct {fields : List StructField} {entry : PStructField × ℕ}
    (h : entry ∈ (fields.map PStructField.fromStructField).zipIdx) :
    ∃ id, id ≠ "_" ∧ entry.1.name.raw = .ident id := by
  obtain ⟨f, _, hf⟩ := List.mem_map.mp (List.fst_mem_of_mem_zipIdx h)
  exact ⟨f.name, f.isName, by rw [← hf]; rfl⟩

/-- Where every field has an identifier, each of them gets its tokens. -/
theorem named_eq {fields : List PStructField} {tokens : String → PStructField → TokenStream}
    (h : ∀ entry ∈ fields.zipIdx, ∃ id, id ≠ "_" ∧ entry.1.name.raw = .ident id) :
    Scope.named fields tokens =
      fields.zipIdx.map fun entry => tokens (fieldName entry) entry.1 := by
  have hfst : fields = fields.zipIdx.map Prod.fst := by simp
  unfold Scope.named
  conv_lhs => rw [hfst]
  rw [List.filterMap_map, ← List.filterMap_eq_map]
  apply List.filterMap_congr
  intro entry hentry
  obtain ⟨id, _, hraw⟩ := h entry hentry
  simp [fieldName, hraw]

theorem patternNames_variantPatternOnly {s : Scope} {variant : PVariant} {data : EnumVariantData}
    (hvariant : s.currentVariant = some variant) (hkind : variant.kind = .parse data)
    (query : AttrQuery) : patternNames (s.variantPatternOnly query) = namesWith query s := by
  unfold Scope.variantPatternOnly namesWith
  rw [currentFields_of_variant hvariant, hvariant, Option.map_some, hkind]
  cases data with
  | unit => rfl
  | tuple fields =>
    apply patternNames_items
    · intro entry hentry
      obtain ⟨index, hraw⟩ := raw_of_parsed_tuple hentry
      split
      · rw [boundName_tupleName, fieldName, hraw]
      · rfl
    · intro entry _ tt htt
      split at htt <;> simp_all [tupleName]
  | struct fields =>
    dsimp only [PVariantKind.parse]
    rw [named_eq fun entry hentry => raw_of_parsed_struct hentry]
    apply patternNames_items
    · intro entry hentry
      obtain ⟨id, hid, hraw⟩ := raw_of_parsed_struct hentry
      split
      · rw [boundName, fieldName, hraw, if_neg hid]
      · rfl
    · intro entry _ tt htt
      split at htt <;> simp only [List.mem_cons, List.not_mem_nil, or_false] at htt
      · rw [htt]
        simp
      · rcases htt with rfl | rfl | rfl <;> simp

theorem patternNames_emitVariantPattern {s : Scope} {variant : PVariant} {data : EnumVariantData}
    (hvariant : s.currentVariant = some variant) (hkind : variant.kind = .parse data) :
    patternNames s.emitVariantPattern = (s.currentFields.getD []).zipIdx.map fieldName := by
  unfold Scope.emitVariantPattern
  rw [currentFields_of_variant hvariant, hvariant, Option.map_some, hkind]
  cases data with
  | unit => rfl
  | tuple fields =>
    dsimp only [PVariantKind.parse, PVariantKind.fields, Option.getD]
    have hindices : ∀ gs : List PStructField, (List.range gs.length).map (fun i => [tupleName i]) =
        gs.zipIdx.map fun entry => [tupleName entry.2] := by
      intro gs
      rw [List.range_eq_range', ← List.zipIdx_map_snd, List.map_map]
      rfl
    rw [hindices, patternNames_items (p := fun _ => true), List.filter_true]
    · intro entry hentry
      obtain ⟨index, hraw⟩ := raw_of_parsed_tuple hentry
      rw [boundName_tupleName, fieldName, hraw, if_pos rfl]
    · intro entry _ tt htt
      simp_all [tupleName]
  | struct fields =>
    dsimp only [PVariantKind.parse, PVariantKind.fields, Option.getD]
    rw [named_eq fun entry hentry => raw_of_parsed_struct hentry,
      patternNames_items (p := fun _ => true), List.filter_true]
    · intro entry hentry
      obtain ⟨id, hid, hraw⟩ := raw_of_parsed_struct hentry
      rw [boundName, fieldName, hraw, if_neg hid, if_pos rfl]
    · intro entry _ tt htt
      simp_all

/-- What the tokens emit under a context, given enough fuel. -/
def Emits (tokens : TokenStream) (ctx : EvalContext) (output : TokenStream) : Prop :=
  ∃ n, ∀ k, n ≤ k → evaluateWithContext k tokens ctx = some (output, ctx)

theorem emits_denote (tokens : TokenStream) (ctx : EvalContext) :
    Emits tokens ctx ((parseTemplate tokens).denote ctx.scope) :=
  ⟨sizeOf tokens + 1, fun _ hk => evaluateWithContext_eq hk ctx⟩

def directiveTokens (name : String) : TokenStream := [.punct '@', .ident name]

/-- `@for_field { body }`. -/
def forField (body : TokenStream) : TokenStream :=
  directiveTokens "for_field" ++ [.group .brace body]

/-- `@if_attr(query) { body }`, or another condition with a query. -/
def withAttr (name : String) (query body : TokenStream) : TokenStream :=
  directiveTokens name ++ [.group .parenthesis query, .group .brace body]

/-- `@variant_pattern_only(query)`. -/
def patternOnly (query : TokenStream) : TokenStream :=
  directiveTokens "variant_pattern_only" ++ [.group .parenthesis query]

theorem denote_accessor (name : String) {a : Accessor} (h : directive name = some (.accessor a))
    (s : Scope) : (parseTemplate (directiveTokens name)).denote s = s.emit a := by
  simp [directiveTokens, parseTemplate, readPiece, h, readDirective, Piece.template,
    Template.denote]

theorem denote_forField (body : TokenStream) (s : Scope) :
    (parseTemplate (forField body)).denote s =
      (Block.forField.scopes s).flatMap (parseTemplate body).denote := by
  simp [forField, directiveTokens, parseTemplate, readPiece, directive, readDirective, takeBody,
    Piece.template, Piece.body, Template.denote]

theorem denote_withAttr (name : String) {d : Directive} {block : AttrQuery → Block}
    (h : directive name = some d) (hd : ∀ iter, readDirective iter d = takeQueryAndBody block iter)
    (query body : TokenStream) (s : Scope) :
    (parseTemplate (withAttr name query body)).denote s =
      (AttrQuery.parse query).elim [] fun query =>
        ((block query).scopes s).flatMap (parseTemplate body).denote := by
  simp only [withAttr, directiveTokens, List.cons_append, List.nil_append]
  rw [parseTemplate, readPiece]
  simp only [h, hd, takeQueryAndBody]
  cases AttrQuery.parse query <;>
    simp [parseTemplate, Piece.template, Piece.body, Template.denote]

theorem denote_patternOnly (query : TokenStream) (s : Scope) :
    (parseTemplate (patternOnly query)).denote s =
      (AttrQuery.parse query).elim [] s.variantPatternOnly := by
  simp only [patternOnly, directiveTokens, List.cons_append, List.nil_append]
  rw [parseTemplate, readPiece]
  simp only [directive, readDirective, takeQuery]
  cases AttrQuery.parse query <;>
    simp [parseTemplate, Piece.template, Piece.body, Template.denote]

/-- Scopes in which the name of the field is emitted if the field passes. -/
theorem flatMap_fieldName {entries : List (PStructField × ℕ)} {p : PStructField × ℕ → Bool}
    {emit : PStructField × ℕ → TokenStream}
    (h : ∀ entry, emit entry = if p entry then [.ident (fieldName entry)] else []) :
    entries.flatMap emit = ((entries.filter p).map fieldName).map .ident := by
  induction entries with
  | nil => rfl
  | cons entry entries ih =>
    rw [List.flatMap_cons, h, ih, List.filter_cons]
    cases p entry <;> rfl

theorem denote_ifAttr_fieldName (query : TokenStream) (s : Scope) :
    (parseTemplate (forField (withAttr "if_attr" query (directiveTokens "field_name")))).denote s =
      ((AttrQuery.parse query).elim [] (namesWith · s)).map .ident := by
  rw [denote_forField]
  simp only [Block.scopes, List.flatMap_map, denote_withAttr "if_attr" rfl fun _ => rfl,
    denote_accessor "field_name" rfl]
  cases AttrQuery.parse query with
  | none => simp
  | some query =>
    apply flatMap_fieldName
    intro entry
    unfold Scope.hasAttr
    dsimp only [Option.elim, Scope.currentAttrs]
    cases query.findIn entry.1.attrs.facet with
    | none => rfl
    | some attr =>
      simp [Scope.emit, emitFieldName_eq]

theorem denote_fieldName (s : Scope) :
    (parseTemplate (forField (directiveTokens "field_name"))).denote s =
      ((s.currentFields.getD []).zipIdx.map fieldName).map .ident := by
  rw [denote_forField]
  simp only [Block.scopes, List.flatMap_map, denote_accessor "field_name" rfl]
  rw [flatMap_fieldName (p := fun _ => true), List.filter_true]
  intro entry
  rw [Scope.emit, emitFieldName_eq _ entry rfl, if_pos rfl]

theorem findField_name (query : AttrQuery) (fields : List PStructField) :
    (query.findField fields).map (fun found => fieldName (found.1, found.2.1)) =
      ((fields.zipIdx.filter fun entry => Scope.hasAttr query entry.1).map fieldName).head? := by
  unfold AttrQuery.findField
  induction fields.zipIdx with
  | nil => rfl
  | cons entry entries ih =>
    rw [List.findSome?_cons, List.filter_cons]
    unfold Scope.hasAttr
    cases query.findIn entry.1.attrs.facet with
    | none => exact ih
    | some attr => rfl

theorem denote_ifFieldAttr_fieldExpr (query : TokenStream) (s : Scope) :
    (parseTemplate (withAttr "if_field_attr" query (directiveTokens "field_expr"))).denote s =
      ((AttrQuery.parse query).elim [] (namesWith · s)).head?.toList.map .ident := by
  rw [denote_withAttr "if_field_attr" rfl fun _ => rfl]
  cases AttrQuery.parse query with
  | none => rfl
  | some query =>
    dsimp only [Option.elim]
    rw [namesWith]
    simp only [Block.scopes, List.flatMap_map, denote_accessor "field_expr" rfl]
    cases s.currentFields with
    | none => rfl
    | some fields =>
      rw [Option.getD_some, ← findField_name, Option.bind_some]
      cases query.findField fields with
      | none => rfl
      | some found =>
        simp [Scope.emit, Scope.emitFieldExpr, emitFieldName_eq]

/-- The patterns bind the names that are emitted under the same context. -/
structure PatternsBind (ctx : EvalContext) (query : TokenStream) : Prop where
  /-- `@variant_pattern` binds what `@field_name` emits for the fields. -/
  all : ∃ pattern names, Emits (directiveTokens "variant_pattern") ctx pattern ∧
    Emits (forField (directiveTokens "field_name")) ctx (names.map .ident) ∧
    patternNames pattern = names
  /-- `@variant_pattern_only` binds what it emits for the fields with the attribute, of which
  `@if_field_attr` takes the first. -/
  only : ∃ pattern names, Emits (patternOnly query) ctx pattern ∧
    Emits (forField (withAttr "if_attr" query (directiveTokens "field_name"))) ctx
      (names.map .ident) ∧
    Emits (withAttr "if_field_attr" query (directiveTokens "field_expr")) ctx
      (names.head?.toList.map .ident) ∧
    patternNames pattern = names

def sourceQuery : TokenStream := [.ident "error", .punct ':', .punct ':', .ident "source"]

/-- `Io(String, #[facet(error::source)] io::Error)`. -/
def ioData : EnumVariantData :=
  .tuple [{ typ := [.ident "String"] },
    { attributes := { facet := [⟨some "error", "source", []⟩] }, typ := [.ident "Error"] }]

def ioVariant : PVariant where
  name := .new (.ident "Io")
  kind := .parse ioData

def ioContext : EvalContext where
  parsedType := .enum { name := "Failure" } [ioVariant]
  stack := [.variant ioVariant]

theorem ioContext_variant : ioContext.currentVariant = some ioVariant := rfl

theorem ioVariant_kind : ioVariant.kind = .parse ioData := rfl

/-- For a variant from the parser, the patterns bind exactly the names that are emitted. -/
theorem patterns_bind_names {ctx : EvalContext} {variant : PVariant} {data : EnumVariantData}
    (hvariant : ctx.currentVariant = some variant) (hkind : variant.kind = .parse data)
    (query : TokenStream) : PatternsBind ctx query := by
  have hscope : ctx.scope.currentVariant = some variant := hvariant
  constructor
  · refine ⟨_, (ctx.scope.currentFields.getD []).zipIdx.map fieldName, emits_denote _ ctx, ?_, ?_⟩
    · rw [← denote_fieldName]
      exact emits_denote _ ctx
    · rw [denote_accessor "variant_pattern" rfl]
      exact patternNames_emitVariantPattern hscope hkind
  · refine ⟨_, (AttrQuery.parse query).elim [] (namesWith · ctx.scope), emits_denote _ ctx, ?_, ?_,
      ?_⟩
    · rw [← denote_ifAttr_fieldName]
      exact emits_denote _ ctx
    · rw [← denote_ifFieldAttr_fieldExpr]
      exact emits_denote _ ctx
    · rw [denote_patternOnly]
      cases AttrQuery.parse query with
      | none => rfl
      | some query => exact patternNames_variantPatternOnly hscope hkind query

theorem patterns_bind_names_io : ioVariant.kind = .parse ioData ∧ PatternsBind ioContext sourceQuery :=
  ⟨ioVariant_kind, patterns_bind_names ioContext_variant ioVariant_kind sourceQuery⟩

end Facet.Macros
