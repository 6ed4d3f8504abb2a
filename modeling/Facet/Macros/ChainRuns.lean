import Facet.Macros.PluginChain

/-!
# Runs of the plugin chain

Each plugin's macro puts its template behind those that the chain already holds and takes itself
off the paths that remain. By induction on these, the chain ends in `__facet_finalize` with all
the templates in the order of the plugins.
-/

namespace Facet.Macros

@[simp] theorem takeSection_sectionTokens (name : String) (content rest : TokenStream) :
    takeSection name (sectionTokens name content ++ rest) = some (content, rest) := by
  simp [takeSection, sectionTokens]

@[simp] theorem ChainArgs.ofTokens_toTokens (args : ChainArgs) :
    ChainArgs.ofTokens args.toTokens = some args := by
  have hlast : takeSection "facet_crate" (sectionTokens "facet_crate" args.facetCrate) =
      some (args.facetCrate, []) := by
    simp [takeSection, sectionTokens]
  simp only [ofTokens, toTokens, List.append_assoc, takeSection_sectionTokens, hlast,
    Option.bind_eq_bind, Option.bind_some, List.isEmpty_nil, if_true]

theorem readPaths_pathTokens (path segments : List String) (rest : TokenStream) :
    readPaths path (pathTokens segments ++ rest) = readPaths (path ++ segments) rest := by
  induction segments generalizing path with
  | nil => simp [pathTokens]
  | cons segment segments ih =>
    have hsplit : pathTokens (segment :: segments) ++ rest =
        .punct ':' :: .punct ':' :: .ident segment :: (pathTokens segments ++ rest) := rfl
    rw [hsplit, readPaths, ih, List.append_assoc]
    rfl

theorem readPaths_path {path : List String} (h : path ≠ []) :
    readPaths [] (pathTokens path) = some [path] := by
  have hread := readPaths_pathTokens [] path []
  rw [List.append_nil] at hread
  simp [hread, readPaths, h]

theorem readPaths_separated {paths : List (List String)} (h : ∀ path ∈ paths, path ≠ []) :
    readPaths [] (separated (paths.map pathTokens)) = some paths := by
  induction paths with
  | nil => rfl
  | cons path paths ih =>
    have hpath : path ≠ [] := h path List.mem_cons_self
    rw [List.map_cons]
    by_cases hpaths : paths = []
    · subst hpaths
      rw [List.map_nil, separated_singleton, readPaths_path hpath]
    · rw [separated_cons _ (by simpa using hpaths), readPaths_pathTokens, List.nil_append,
        readPaths, if_neg hpath, ih fun p hp => h p (List.mem_cons_of_mem path hp)]
      rfl

theorem isFinalizePath_append (facetCrate : TokenStream) :
    isFinalizePath (facetCrate ++ pathTokens finalizePath) = true := by
  simp [isFinalizePath, pathTokens, finalizePath]

theorem readPaths_getLast {path : List String} {tokens : TokenStream} {paths : List (List String)}
    {name : String} (h : readPaths path tokens = some paths)
    (hlast : tokens.getLast? = some (.ident name)) :
    paths.getLast?.bind List.getLast? = some name := by
  induction path, tokens using readPaths.induct generalizing paths with
  | case1 path => cases hlast
  | case2 path segment rest ih =>
    rw [readPaths] at h
    cases rest with
    | nil =>
      obtain rfl : segment = name := by simpa using hlast
      obtain rfl : [path ++ [segment]] = paths := by simpa [readPaths] using h
      simp
    | cons tt rest => exact ih h (by simpa using hlast)
  | case3 rest =>
    rw [readPaths, if_pos rfl] at h
    cases h
  | case4 path rest hpath ih =>
    rw [readPaths, if_neg hpath] at h
    obtain ⟨others, hothers, rfl⟩ := Option.map_eq_some_iff.mp h
    have hrest : rest.getLast? = some (.ident name) := by
      cases rest with
      | nil => simp at hlast
      | cons tt rest => simpa using hlast
    have hname := ih hothers hrest
    cases others with
    | nil => cases hname
    | cons next others => simpa using hname
  | case5 path tokens hnil hseg hcomma =>
    rw [readPaths] at h
    · cases h
    · exact hnil
    · exact hseg
    · exact hcomma

section Steps

variable {δ : Type} (grammar : Grammar δ) (fuel : ℕ) (crates : String → Option PluginCrate)

theorem expandCall_invoke {crateName : String} {plugin : PluginCrate}
    (h : crates crateName = some plugin) (args : ChainArgs) :
    expandCall grammar fuel crates ⟨pathTokens (invokePath crateName), args.toTokens⟩ =
      some (.call ⟨pathTokens (internalPath crateName), (args.addPlugin plugin).toTokens⟩) := by
  have hpath : readPaths [] (pathTokens (invokePath crateName)) = some [invokePath crateName] :=
    readPaths_path (by simp [invokePath])
  unfold expandCall
  dsimp only
  rw [hpath]
  simp only [invokePath, h, facetInvoke, ChainArgs.ofTokens_toTokens, Option.bind_eq_bind,
    Option.bind_some, Option.pure_def]

theorem expandCall_internal (crateName : String) (args : TokenStream) :
    expandCall grammar fuel crates ⟨pathTokens (internalPath crateName), args⟩ =
      (facetInvokeInternal args).map .call := by
  have hpath : readPaths [] (pathTokens (internalPath crateName)) =
      some [internalPath crateName] := readPaths_path (by simp [internalPath])
  unfold expandCall
  dsimp only
  rw [hpath]
  rfl

theorem expandCall_finalize (facetCrate args : TokenStream) :
    expandCall grammar fuel crates ⟨facetCrate ++ pathTokens finalizePath, args⟩ =
      (facetFinalize grammar fuel args).map .output := by
  unfold expandCall
  dsimp only
  have hlast : (facetCrate ++ pathTokens finalizePath).getLast? =
      some (.ident "__facet_finalize") := by
    simp [pathTokens, finalizePath]
  split
  · rename_i hread
    exact absurd (readPaths_getLast hread hlast) (by simp)
  · rename_i hread
    exact absurd (readPaths_getLast hread hlast) (by simp)
  · rw [if_pos (isFinalizePath_append facetCrate)]

theorem facetInvokeInternal_last {args : ChainArgs} (h : args.remaining = []) :
    facetInvokeInternal args.toTokens =
      some ⟨args.facetCrate ++ pathTokens finalizePath, args.finalizeArgs⟩ := by
  simp only [facetInvokeInternal, ChainArgs.ofTokens_toTokens, Option.bind_eq_bind,
    Option.bind_some, h]
  rfl

theorem facetInvokeInternal_next {args : ChainArgs} {next : List String}
    {rest : List (List String)} (hpaths : ∀ path ∈ next :: rest, path ≠ [])
    (h : args.remaining = separated ((next :: rest).map pathTokens)) :
    facetInvokeInternal args.toTokens = some ⟨pathTokens next,
      { args with remaining := separated (rest.map pathTokens) : ChainArgs }.toTokens⟩ := by
  simp only [facetInvokeInternal, ChainArgs.ofTokens_toTokens, Option.bind_eq_bind,
    Option.bind_some, h, readPaths_separated hpaths]

/-- A plugin's crate puts its template into the call and passes it on. -/
theorem expand_invoke {crateName : String} {plugin : PluginCrate}
    (h : crates crateName = some plugin) (args : ChainArgs) (n : ℕ) :
    expand grammar fuel crates (n + 2) (.call ⟨pathTokens (invokePath crateName), args.toTokens⟩) =
      (facetInvokeInternal (args.addPlugin plugin).toTokens).bind
        fun call => expand grammar fuel crates n (.call call) := by
  rw [expand, expandCall_invoke grammar fuel crates h, Option.bind_some, expand,
    expandCall_internal, Option.bind_map]
  rfl

theorem expand_output (n : ℕ) (tokens : TokenStream) :
    expand grammar fuel crates n (.output tokens) = some tokens := by
  cases n <;> rfl

theorem finalizeArgs_foldl (plugins : List PluginCrate) (args : ChainArgs) :
    (plugins.foldl ChainArgs.addPlugin args).finalizeArgs =
      sectionTokens "tokens" args.tokens ++
        sectionTokens "plugins" (args.plugins ++ plugins.flatMap PluginCrate.pluginTokens) ++
        sectionTokens "facet_crate" args.facetCrate := by
  induction plugins generalizing args with
  | nil => simp [ChainArgs.finalizeArgs]
  | cons plugin plugins ih => simp [ih, ChainArgs.addPlugin]

/-- The chain ends in `__facet_finalize`, with the templates of all plugins behind those that it
held. -/
theorem expand_chain {pluginOf : String → PluginCrate} {crateName : String} {rest : List String}
    (h : ∀ c ∈ crateName :: rest, crates c = some (pluginOf c)) (args : ChainArgs)
    (hargs : args.remaining = separated ((rest.map invokePath).map pathTokens)) (n : ℕ) :
    expand grammar fuel crates (2 * rest.length + 3 + n)
        (.call ⟨pathTokens (invokePath crateName), args.toTokens⟩) =
      facetFinalize grammar fuel
        (((crateName :: rest).map pluginOf).foldl ChainArgs.addPlugin args).finalizeArgs := by
  have hcrate := h crateName List.mem_cons_self
  induction rest generalizing crateName args with
  | nil =>
    have hsteps : 2 * ([] : List String).length + 3 + n = n + 1 + 2 := by
      simp only [List.length_nil]
      omega
    have hlast : (args.addPlugin (pluginOf crateName)).remaining = [] := hargs
    rw [hsteps, expand_invoke grammar fuel crates hcrate, facetInvokeInternal_last hlast,
      Option.bind_some, expand, expandCall_finalize, Option.bind_map]
    have houtput : expand grammar fuel crates n ∘ Expansion.output = some :=
      funext (expand_output grammar fuel crates n)
    rw [houtput, Option.bind_fun_some]
    rfl
  | cons next rest ih =>
    have hsteps : 2 * (next :: rest).length + 3 + n = 2 * rest.length + 3 + n + 2 := by
      simp only [List.length_cons]
      omega
    have hpaths : ∀ path ∈ invokePath next :: rest.map invokePath, path ≠ [] := by
      intro path hpath
      obtain ⟨c, _, rfl⟩ := List.mem_map.mp (List.map_cons ▸ hpath)
      simp [invokePath]
    have hrest : ∀ c ∈ next :: rest, crates c = some (pluginOf c) :=
      fun c hc => h c (List.mem_cons_of_mem crateName hc)
    have hnext : (args.addPlugin (pluginOf crateName)).remaining =
        separated ((invokePath next :: rest.map invokePath).map pathTokens) := hargs
    rw [hsteps, expand_invoke grammar fuel crates hcrate, facetInvokeInternal_next hpaths hnext,
      Option.bind_some, ih hrest _ rfl (hrest next List.mem_cons_self)]
    simp only [List.map_cons, List.foldl_cons, finalizeArgs_foldl]
    rfl

theorem readSections_finalize (tokens plugins facetCrate : TokenStream) :
    readSections {} (sectionTokens "tokens" tokens ++ sectionTokens "plugins" plugins ++
      sectionTokens "facet_crate" facetCrate) = .ok ⟨some tokens, some plugins⟩ := by
  simp [sectionTokens, readSections]

theorem parsePluginContent_pluginTokens (name : String) (template : TokenStream) :
    parsePluginContent (sectionTokens "name" [.string name] ++ sectionTokens "template" template) =
      some template := by
  simp [parsePluginContent, sectionTokens, readPluginContent, PluginContent.put, isLiteral]

theorem parsePluginSections_pluginTokens (plugins : List PluginCrate) :
    parsePluginSections (plugins.flatMap PluginCrate.pluginTokens) =
      plugins.map PluginCrate.template := by
  induction plugins with
  | nil => rfl
  | cons plugin plugins ih =>
    rw [List.flatMap_cons, PluginCrate.pluginTokens]
    simp only [List.cons_append, List.nil_append]
    rw [parsePluginSections, parsePluginContent_pluginTokens, ih]
    rfl

/-- A template means what it means in the scope of the type alone. -/
def templateMeaning (parsedType : PType) (template : TokenStream) : TokenStream :=
  (parseTemplate template).denote { parsedType }

theorem evaluateTemplate_eq {template : TokenStream} (h : sizeOf template < fuel)
    (parsedType : PType) :
    evaluateTemplate fuel template parsedType = some (templateMeaning parsedType template) := by
  rw [evaluateTemplate, evaluateWithContext_eq h]
  rfl

theorem mapM_evaluateTemplate {templates : List TokenStream} (h : sizeOf templates ≤ fuel)
    (parsedType : PType) :
    templates.mapM (evaluateTemplate fuel · parsedType) =
      some (templates.map (templateMeaning parsedType)) := by
  induction templates with
  | nil => rfl
  | cons template templates ih =>
    rw [List.cons.sizeOf_spec] at h
    rw [List.mapM_cons, evaluateTemplate_eq fuel (by omega), ih (by omega)]
    rfl

end Steps

section Derive

variable {δ : Type} (grammar : Grammar δ)

/-- What the type's own tokens give: the base implementation, and the meaning of the templates. -/
def Grammar.emitted (templates : List TokenStream) (typeTokens : TokenStream) : TokenStream :=
  match grammar.parseWhole typeTokens with
  | .error err => compileError ("__facet_finalize: could not parse type: " ++ err)
  | .ok decl => grammar.process decl ++
    match grammar.parseFront typeTokens with
    | .error e =>
      compileError ("failed to parse type for plugin templates: failed to parse type: " ++ e)
    | .ok front => templates.flatMap (templateMeaning (grammar.parsedType front))

theorem facetFinalize_eq {fuel : ℕ} {plugins : List PluginCrate}
    (h : sizeOf (plugins.map PluginCrate.template) ≤ fuel) (tokens facetCrate : TokenStream) :
    facetFinalize grammar fuel (sectionTokens "tokens" tokens ++
        sectionTokens "plugins" (plugins.flatMap PluginCrate.pluginTokens) ++
        sectionTokens "facet_crate" facetCrate) =
      some (grammar.emitted (plugins.map PluginCrate.template) (stripDeriveAttrs tokens)) := by
  rw [facetFinalize, readSections_finalize]
  dsimp only [Grammar.emitted]
  cases grammar.parseWhole (stripDeriveAttrs tokens) with
  | error err => rfl
  | ok decl =>
    dsimp only [extractPluginTemplates]
    rw [parsePluginSections_pluginTokens]
    cases grammar.parseFront (stripDeriveAttrs tokens) with
    | error e => simp
    | ok front =>
      dsimp only
      rw [mapM_evaluateTemplate fuel h]
      simp only [Option.bind_eq_bind, Option.bind_some, List.flatMap_def]
      rfl

variable (isUppercase : Char → Bool) (crates : String → Option PluginCrate)

theorem generatePluginChain_cons (input : TokenStream) (plugin : PluginRef)
    (plugins : List PluginRef) (facetCrate : TokenStream) :
    generatePluginChain isUppercase input (plugin :: plugins) facetCrate =
      some ⟨pathTokens (invokePath (plugin.crateName isUppercase)),
        (ChainArgs.mk input
          (separated (((plugins.map (PluginRef.crateName isUppercase)).map invokePath).map
            pathTokens)) [] facetCrate).toTokens⟩ := by
  rw [generatePluginChain, List.map_map, List.map_map]
  rfl

/-- `#[facet(derive(Error, other::Clear))] struct Pair;`. -/
def pairTokens : TokenStream :=
  [.punct '#', .group .bracket [.ident "facet", .group .parenthesis [.ident "derive",
    .group .parenthesis ([.ident "Error", .punct ',', .ident "other"] ++ pathTokens ["Clear"])]],
    .ident "struct", .ident "Pair", .punct ';']

/-- Reads `pairTokens`, with and without the items of its attribute. -/
def pairGrammar : Grammar TokenStream where
  parseWhole tokens := .ok tokens
  parseFront tokens := .ok tokens
  deriveArgs
    | .punct '#' :: .group .bracket [.ident "facet", .group .parenthesis [.ident "derive",
        .group .parenthesis args]] :: _ => [args]
    | _ => []
  facetCrate _ := pathTokens ["facet"]
  process _ := [.ident "impl", .ident "Facet", .ident "for", .ident "Pair", .group .brace []]
  parsedType _ := .struct { name := "Pair" } .unitStruct

def pairCrate : String → PluginCrate
  | "other" => ⟨"Clear", [.ident "impl", .ident "Clear", .ident "for", .punct '@', .ident "Self"]⟩
  | _ => ⟨"Error", [.ident "impl", .ident "Error", .ident "for", .punct '@', .ident "Self"]⟩

theorem pairGrammar_parseWhole :
    pairGrammar.parseWhole (flattenTransparentGroups pairTokens) = .ok pairTokens := by
  simp [pairGrammar, pairTokens, pathTokens, flattenTransparentGroups]

theorem extractDerivePlugins_pair : extractDerivePlugins pairGrammar pairTokens =
    [.simple "Error", .path "other" "Clear"] := by decide

/-- The derive of a type with plugins ends, and emits the base implementation of the type without
its `derive` attributes, and then the meaning of every plugin's template for it, in the order and
as often as the plugins were asked for. -/
theorem deriveFacet_ends {input : TokenStream} {decl : δ} {pluginOf : String → PluginCrate}
    (hparse : grammar.parseWhole (flattenTransparentGroups input) = .ok decl)
    (hplugins : extractDerivePlugins grammar decl ≠ [])
    (hcrates : ∀ p ∈ extractDerivePlugins grammar decl,
      crates (p.crateName isUppercase) = some (pluginOf (p.crateName isUppercase))) :
    ∃ n, ∀ k, n ≤ k → deriveFacet grammar k isUppercase crates input =
      some (grammar.emitted
        ((extractDerivePlugins grammar decl).map fun p =>
          (pluginOf (p.crateName isUppercase)).template)
        (stripDeriveAttrs (flattenTransparentGroups input))) := by
  obtain ⟨plugin, plugins, heq⟩ := List.exists_cons_of_ne_nil hplugins
  rw [heq] at hcrates ⊢
  let names := plugins.map (PluginRef.crateName isUppercase)
  have hnames : ∀ c ∈ plugin.crateName isUppercase :: names, crates c = some (pluginOf c) := by
    intro c hc
    obtain ⟨p, hp, rfl⟩ := List.mem_map.mp ((List.map_cons ▸ hc :
      c ∈ (plugin :: plugins).map (PluginRef.crateName isUppercase)))
    exact hcrates p hp
  have htemplates : ((plugin :: plugins).map fun p =>
      (pluginOf (p.crateName isUppercase)).template) =
        ((plugin.crateName isUppercase :: names).map pluginOf).map PluginCrate.template := by
    simp [names]
  rw [htemplates]
  refine ⟨2 * names.length + 3 + sizeOf (((plugin.crateName isUppercase :: names).map
    pluginOf).map PluginCrate.template), ?_⟩
  intro k hk
  obtain ⟨m, rfl⟩ := Nat.exists_eq_add_of_le (Nat.le_trans (Nat.le_add_right _ _) hk)
  simp only [deriveFacet, facetMacros, hparse]
  rw [heq, generatePluginChain_cons]
  simp only [Option.bind_some]
  rw [expand_chain grammar _ crates hnames _ rfl, finalizeArgs_foldl, List.nil_append]
  exact facetFinalize_eq grammar (by omega) _ _

theorem deriveFacet_ends_pair :
    ∃ n, ∀ k, n ≤ k → deriveFacet pairGrammar k Char.isUpper (some ∘ pairCrate) pairTokens =
      some (pairGrammar.emitted
        ((extractDerivePlugins pairGrammar pairTokens).map fun p =>
          (pairCrate (p.crateName Char.isUpper)).template)
        (stripDeriveAttrs (flattenTransparentGroups pairTokens))) :=
  deriveFacet_ends pairGrammar Char.isUpper (some ∘ pairCrate) pairGrammar_parseWhole
    (by rw [extractDerivePlugins_pair]; simp) fun _ _ => rfl

end Derive

end Facet.Macros
