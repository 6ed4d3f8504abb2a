import Facet.Macros.PluginScopes

/-!
# The plugin chain

A derive with plugins expands to a macro of the first plugin. Each plugin adds its template to the
call and hands it on, to the next plugin or to `__facet_finalize`, which parses the type once,
generates the base implementation and evaluates the templates. Whatever the plugins are, the
expansion ends with the base implementation and the templates of the plugins in the order in which
they were asked for, each evaluated once.
-/

namespace Facet.Macros

inductive PluginRef
  /-- A name such as `Error`, looked up by convention. -/
  | simple (name : String)
  /-- A path such as `some_crate::SomeTrait`. -/
  | path (crateName pluginName : String)
  deriving DecidableEq, Repr

section References

variable (isUppercase : Char → Bool)

def PluginRef.toSnakeCase (s : String) : String :=
  String.ofList (s.toList.zipIdx.flatMap fun entry =>
    if isUppercase entry.1 then (if 0 < entry.2 then ['_'] else []) ++ [entry.1.toLower]
    else [entry.1])

/-- The crate of a plugin. -/
def PluginRef.crateName : PluginRef → String
  | .simple name => "facet_" ++ PluginRef.toSnakeCase isUppercase name
  | .path crateName _ => crateName

end References

def hasPathSeparator : TokenStream → Bool
  | .punct ':' :: .punct ':' :: _ => true
  | _ :: rest => hasPathSeparator rest
  | [] => false

def parsePluginRef (tokens : TokenStream) : Option PluginRef :=
  if hasPathSeparator tokens then
    match tokens with
    | .ident crateName :: .punct ':' :: .punct ':' :: .ident pluginName :: _ =>
      some (.path crateName pluginName)
    | _ => none
  else
    match tokens with
    | .ident name :: _ => some (.simple name)
    | _ => none

/-- The references between commas; `item` holds the tokens since the last one. -/
def parsePluginItems (item : TokenStream) : TokenStream → List PluginRef
  | [] => (parsePluginRef item).toList
  | .punct ',' :: rest => (parsePluginRef item).toList ++ parsePluginItems [] rest
  | tt :: rest => parsePluginItems (item ++ [tt]) rest

def parsePluginList (tokens : TokenStream) : List PluginRef := parsePluginItems [] tokens

def isPluginItem : TokenStream → Bool
  | .ident "derive" :: _ => true
  | _ => false

def keepItem (item : TokenStream) : List TokenStream :=
  if item.isEmpty || isPluginItem item then [] else [item]

/-- The items between commas that are kept; `item` holds the tokens since the last one. -/
def keptItems (item : TokenStream) : TokenStream → List TokenStream
  | [] => keepItem item
  | .punct ',' :: rest => keepItem item ++ keptItems [] rest
  | tt :: rest => keptItems (item ++ [tt]) rest

def stripPluginItemsFromContent (content : TokenStream) : TokenStream :=
  separated (keptItems [] content)

def stripPluginItemsFromFacetAttr : TokenStream → Option TokenStream
  | .ident "facet" :: .group .parenthesis content :: _ =>
    some [.ident "facet", .group .parenthesis (stripPluginItemsFromContent content)]
  | _ => none

def stripDeriveAttrs : TokenStream → TokenStream
  | [] => []
  | .punct '#' :: .group .bracket inner :: rest =>
    match stripPluginItemsFromFacetAttr inner with
    | some filtered =>
      if filtered.isEmpty then stripDeriveAttrs rest
      else .punct '#' :: .group .bracket filtered :: stripDeriveAttrs rest
    | none => .punct '#' :: .group .bracket inner :: stripDeriveAttrs rest
  | tt :: rest => tt :: stripDeriveAttrs rest

/-- The contents of transparent groups stand in place of the groups. -/
def flattenTransparentGroups : TokenStream → TokenStream
  | [] => []
  | .group .none stream :: rest => flattenTransparentGroups stream ++ flattenTransparentGroups rest
  | .group delimiter stream :: rest =>
    .group delimiter (flattenTransparentGroups stream) :: flattenTransparentGroups rest
  | tt :: rest => tt :: flattenTransparentGroups rest

structure MacroCall where
  path : TokenStream
  args : TokenStream

/-- `@name { content }`. -/
def sectionTokens (name : String) (content : TokenStream) : TokenStream :=
  [.punct '@', .ident name, .group .brace content]

def takeSection (name : String) : TokenStream → Option (TokenStream × TokenStream)
  | .punct '@' :: .ident other :: .group .brace content :: rest =>
    if other = name then some (content, rest) else none
  | _ => none

/-- What the macros of the chain are called with. -/
structure ChainArgs where
  tokens : TokenStream
  remaining : TokenStream
  plugins : TokenStream
  facetCrate : TokenStream

namespace ChainArgs

def toTokens (args : ChainArgs) : TokenStream :=
  sectionTokens "tokens" args.tokens ++ sectionTokens "remaining" args.remaining ++
    sectionTokens "plugins" args.plugins ++ sectionTokens "facet_crate" args.facetCrate

/-- The four sections in their order, and nothing behind them. -/
def ofTokens (input : TokenStream) : Option ChainArgs := do
  let (tokens, rest) ← takeSection "tokens" input
  let (remaining, rest) ← takeSection "remaining" rest
  let (plugins, rest) ← takeSection "plugins" rest
  let (facetCrate, rest) ← takeSection "facet_crate" rest
  if rest.isEmpty then some { tokens, remaining, plugins, facetCrate } else none

end ChainArgs

/-- `::first::second` and so on. -/
def pathTokens (segments : List String) : TokenStream :=
  segments.flatMap fun segment => [.punct ':', .punct ':', .ident segment]

/-- The paths between commas, with or without a comma at the end; `path` holds the segments since
the last one. -/
def readPaths (path : List String) : TokenStream → Option (List (List String))
  | [] => some (if path = [] then [] else [path])
  | .punct ':' :: .punct ':' :: .ident segment :: rest => readPaths (path ++ [segment]) rest
  | .punct ',' :: rest => if path = [] then none else (readPaths [] rest).map (path :: ·)
  | _ => none

/-- `::crate::__facet_invoke`. -/
def invokePath (crateName : String) : List String := [crateName, "__facet_invoke"]

def internalPath (crateName : String) : List String := [crateName, "__facet_invoke_internal"]

def finalizePath : List String := ["__facet_finalize"]

/-- A crate whose macro adds a template to the chain. -/
structure PluginCrate where
  name : String
  template : TokenStream

def PluginCrate.pluginTokens (plugin : PluginCrate) : TokenStream :=
  [.punct '@', .ident "plugin", .group .brace
    (sectionTokens "name" [.string plugin.name] ++ sectionTokens "template" plugin.template)]

def ChainArgs.addPlugin (args : ChainArgs) (plugin : PluginCrate) : ChainArgs :=
  { args with plugins := args.plugins ++ plugin.pluginTokens }

/-- `__facet_invoke!` of a plugin's crate. -/
def facetInvoke (crateName : String) (plugin : PluginCrate) (input : TokenStream) :
    Option MacroCall := do
  let args ← ChainArgs.ofTokens input
  return {
    path := pathTokens (internalPath crateName)
    args := (args.addPlugin plugin).toTokens }

/-- What `__facet_finalize!` is called with. -/
def ChainArgs.finalizeArgs (args : ChainArgs) : TokenStream :=
  sectionTokens "tokens" args.tokens ++ sectionTokens "plugins" args.plugins ++
    sectionTokens "facet_crate" args.facetCrate

/-- `__facet_invoke_internal!`, which is the same in every plugin's crate. -/
def facetInvokeInternal (input : TokenStream) : Option MacroCall := do
  let args ← ChainArgs.ofTokens input
  match readPaths [] args.remaining with
  | none => none
  | some [] => some {
      path := args.facetCrate ++ pathTokens finalizePath
      args := args.finalizeArgs }
  | some (next :: rest) => some {
      path := pathTokens next
      args := { args with remaining := separated (rest.map pathTokens) : ChainArgs }.toTokens }

def generatePluginChain (isUppercase : Char → Bool) (inputTokens : TokenStream)
    (plugins : List PluginRef) (facetCrate : TokenStream) : Option MacroCall :=
  match plugins.map fun p => pathTokens (invokePath (p.crateName isUppercase)) with
  | [] => none
  | first :: rest => some {
      path := first
      args := { tokens := inputTokens, remaining := separated rest, plugins := [], facetCrate :
        ChainArgs }.toTokens }

def compileError (message : String) : TokenStream :=
  [.ident "compile_error", .punct '!', .group .parenthesis [.string message], .punct ';']

structure FinalizeSections where
  tokens : Option TokenStream := none
  plugins : Option TokenStream := none

/-- Reads sections up to the first tokens that are none. -/
def readSections (sections : FinalizeSections) : TokenStream → Except String FinalizeSections
  | .punct '@' :: .ident name :: .group .brace content :: rest =>
    match name with
    | "tokens" => readSections { sections with tokens := some content } rest
    | "plugins" => readSections { sections with plugins := some content } rest
    -- evaluation does not use the crate's path
    | "facet_crate" => readSections sections rest
    | other => .error ("unknown section in __facet_finalize: @" ++ other)
  | _ => .ok sections

/-- The template of a plugin that has a name. -/
structure PluginContent where
  named : Bool := false
  template : Option TokenStream := none

def isLiteral : TokenTree → Bool
  | .string _ | .literal _ => true
  | _ => false

def PluginContent.put (found : PluginContent) (key : String) (content : TokenStream) :
    PluginContent :=
  match key with
  | "name" => if content.head?.any isLiteral then { found with named := true } else found
  | "template" => { found with template := some content }
  | _ => found

def readPluginContent (found : PluginContent) : TokenStream → PluginContent
  | .punct '@' :: .ident key :: .group .brace content :: rest =>
    readPluginContent (found.put key content) rest
  -- whatever is behind the key is taken
  | .punct '@' :: .ident _ :: _ :: rest => readPluginContent found rest
  | _ :: rest => readPluginContent found rest
  | [] => found

def parsePluginContent (tokens : TokenStream) : Option TokenStream :=
  let found := readPluginContent {} tokens
  if found.named then found.template else none

/-- The templates of the sections, in their order. -/
def parsePluginSections : TokenStream → List TokenStream
  | .punct '@' :: .ident "plugin" :: .group .brace content :: rest =>
    (parsePluginContent content).toList ++ parsePluginSections rest
  | .punct '@' :: .ident "plugin" :: _ :: rest => parsePluginSections rest
  | _ :: rest => parsePluginSections rest
  | [] => []

/-- The grammar of type declarations and the generator of the base implementation. -/
structure Grammar (δ : Type) where
  /-- Reads tokens that are one declaration. -/
  parseWhole : TokenStream → Except String δ
  /-- Reads the declaration that tokens start with. -/
  parseFront : TokenStream → Except String δ
  /-- The arguments of `derive` in the attributes. -/
  deriveArgs : δ → List TokenStream
  facetCrate : δ → TokenStream
  process : δ → TokenStream
  parsedType : δ → PType

section Grammar

variable {δ : Type} (grammar : Grammar δ) (fuel : ℕ)

def evaluateTemplate (template : TokenStream) (parsedType : PType) : Option TokenStream :=
  (evaluateWithContext fuel template { parsedType }).map Prod.fst

def extractPluginTemplates (pluginsTokens typeTokens : TokenStream) :
    Option (List TokenStream) :=
  let plugins := parsePluginSections pluginsTokens
  match grammar.parseFront typeTokens with
  | .error e => some
      [compileError ("failed to parse type for plugin templates: failed to parse type: " ++ e)]
  | .ok decl => plugins.mapM fun template =>
      evaluateTemplate fuel template (grammar.parsedType decl)

def facetFinalize (input : TokenStream) : Option TokenStream :=
  match readSections {} input with
  | .error message => some (compileError message)
  | .ok { tokens := none, .. } =>
    some (compileError "__facet_finalize: missing @tokens section")
  | .ok { tokens := some tokens, plugins } =>
    let filteredTokens := stripDeriveAttrs tokens
    match grammar.parseWhole filteredTokens with
    | .error err => some (compileError ("__facet_finalize: could not parse type: " ++ err))
    | .ok decl => do
      let pluginImpls ←
        match plugins with
        | some pluginsTokens => extractPluginTemplates grammar fuel pluginsTokens filteredTokens
        | none => some []
      return grammar.process decl ++ pluginImpls.flatten

variable (isUppercase : Char → Bool) (crates : String → Option PluginCrate)

def extractDerivePlugins (decl : δ) : List PluginRef :=
  (grammar.deriveArgs decl).flatMap parsePluginList

inductive Expansion
  | output (tokens : TokenStream)
  | call (call : MacroCall)

/-- The derive macro; nothing where it panics. -/
def facetMacros (input : TokenStream) : Option Expansion :=
  let input := flattenTransparentGroups input
  match grammar.parseWhole input with
  | .error _ => none
  | .ok decl =>
    match generatePluginChain isUppercase input (extractDerivePlugins grammar decl)
        (grammar.facetCrate decl) with
    | some chain => some (.call chain)
    | none => some (.output (grammar.process decl))

def isFinalizePath (path : TokenStream) : Bool :=
  match path.reverse with
  | .ident "__facet_finalize" :: .punct ':' :: .punct ':' :: _ => true
  | _ => false

/-- What a macro call expands to: the macros of the plugins' crates, by their paths, and else
`__facet_finalize`. -/
def expandCall (call : MacroCall) : Option Expansion :=
  match readPaths [] call.path with
  | some [[crateName, "__facet_invoke"]] => do
    let plugin ← crates crateName
    return .call (← facetInvoke crateName plugin call.args)
  | some [[_, "__facet_invoke_internal"]] => (facetInvokeInternal call.args).map .call
  | _ =>
    if isFinalizePath call.path then (facetFinalize grammar fuel call.args).map .output else none

/-- Expands what is left to expand. -/
def expand : ℕ → Expansion → Option TokenStream
  | _, .output tokens => some tokens
  | 0, .call _ => none
  | n + 1, .call call => (expandCall grammar fuel crates call).bind (expand n)

/-- The whole expansion of the derive macro. -/
def deriveFacet (input : TokenStream) : Option TokenStream :=
  (facetMacros grammar isUppercase input).bind (expand grammar fuel crates fuel)

end Grammar

end Facet.Macros
