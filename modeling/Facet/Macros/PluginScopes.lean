import Facet.Macros.Plugin
import Mathlib.Order.Basic

/-!
# The meaning of a plugin template

A template is read as a tree of loops, conditions and accessors, and its meaning depends only on
the variant, field and attribute that it is read under: a block means its body in each of the
scopes that the block opens. Evaluation with the stack of frames always ends, emits what the
template means in the scope of the innermost frames, and leaves the stack as it was.
-/

namespace Facet.Macros

inductive Block
  | forVariant
  | forField
  | ifAttr (query : AttrQuery)
  | ifFieldAttr (query : AttrQuery)
  | ifAnyFieldAttr (query : AttrQuery)
  | ifKind (test : KindTest)

inductive Template
  | done
  | tokens (tokens : TokenStream) (rest : Template)
  | group (delimiter : Delimiter) (body rest : Template)
  | accessor (accessor : Accessor) (rest : Template)
  | variantPatternOnly (query : AttrQuery) (rest : Template)
  | block (block : Block) (body rest : Template)

/-- What is read behind `@`: a malformed directive is nothing. -/
inductive Piece
  | nothing
  | tokens (tokens : TokenStream)
  | accessor (accessor : Accessor)
  | variantPatternOnly (query : AttrQuery)
  | block (block : Block) (body : TokenStream)

def takeBody (block : Block) : TokenStream → Piece × TokenStream
  | .group _ body :: iter => (.block block body, iter)
  | _ :: iter => (.nothing, iter)
  | [] => (.nothing, [])

def takeQuery : TokenStream → Piece × TokenStream
  | .group _ query :: iter => ((AttrQuery.parse query).elim .nothing .variantPatternOnly, iter)
  | _ :: iter => (.nothing, iter)
  | [] => (.nothing, [])

def takeQueryAndBody (block : AttrQuery → Block) : TokenStream → Piece × TokenStream
  | .group _ query :: .group _ body :: iter =>
    ((AttrQuery.parse query).elim .nothing fun query => .block (block query) body, iter)
  | .group _ _ :: _ :: iter => (.nothing, iter)
  | _ :: iter => (.nothing, iter)
  | [] => (.nothing, [])

def readDirective (iter : TokenStream) : Directive → Piece × TokenStream
  | .accessor a => (.accessor a, iter)
  | .forVariant => takeBody .forVariant iter
  | .forField => takeBody .forField iter
  | .ifAttr => takeQueryAndBody .ifAttr iter
  | .ifFieldAttr => takeQueryAndBody .ifFieldAttr iter
  | .ifAnyFieldAttr => takeQueryAndBody .ifAnyFieldAttr iter
  | .ifKind test => takeBody (.ifKind test) iter
  | .variantPatternOnly => takeQuery iter

def readPiece : TokenStream → Piece × TokenStream
  | [] => (.tokens [.punct '@'], [])
  | .ident name :: iter =>
    match directive name with
    | some d => readDirective iter d
    | none => (.tokens [.punct '@', .ident name], iter)
  | next :: iter => (.tokens [.punct '@', next], iter)

/-- The tokens a piece leaves to be evaluated. -/
def Piece.body : Piece → TokenStream
  | .block _ body => body
  | _ => []

theorem sizeOf_takeBody (block : Block) (iter : TokenStream) :
    sizeOf (takeBody block iter).1.body ≤ sizeOf iter ∧
      sizeOf (takeBody block iter).2 ≤ sizeOf iter := by
  unfold takeBody
  split <;> simp [Piece.body] <;> omega

theorem sizeOf_takeQuery (iter : TokenStream) :
    sizeOf (takeQuery iter).1.body ≤ sizeOf iter ∧ sizeOf (takeQuery iter).2 ≤ sizeOf iter := by
  unfold takeQuery
  split
  · cases AttrQuery.parse _ <;> simp [Piece.body] <;> omega
  · simp [Piece.body]
    omega
  · simp [Piece.body]

theorem sizeOf_takeQueryAndBody (block : AttrQuery → Block) (iter : TokenStream) :
    sizeOf (takeQueryAndBody block iter).1.body ≤ sizeOf iter ∧
      sizeOf (takeQueryAndBody block iter).2 ≤ sizeOf iter := by
  unfold takeQueryAndBody
  split
  · cases AttrQuery.parse _ <;> simp [Piece.body] <;> omega
  all_goals simp [Piece.body] <;> omega

theorem sizeOf_readPiece (iter : TokenStream) :
    sizeOf (readPiece iter).1.body ≤ sizeOf iter ∧ sizeOf (readPiece iter).2 ≤ sizeOf iter := by
  unfold readPiece
  split
  · simp [Piece.body]
  · rename_i name iter
    have hlt : sizeOf iter ≤ sizeOf (TokenTree.ident name :: iter) := by
      simp
    cases directive name with
    | none =>
      simp [Piece.body]
      omega
    | some d =>
      have hd : sizeOf (readDirective iter d).1.body ≤ sizeOf iter ∧
          sizeOf (readDirective iter d).2 ≤ sizeOf iter := by
        cases d with
        | accessor a =>
          refine ⟨?_, Nat.le_refl _⟩
          cases iter <;> simp [readDirective, Piece.body]
          omega
        | variantPatternOnly => exact sizeOf_takeQuery iter
        | forVariant => exact sizeOf_takeBody _ iter
        | forField => exact sizeOf_takeBody _ iter
        | ifKind test => exact sizeOf_takeBody _ iter
        | ifAttr => exact sizeOf_takeQueryAndBody _ iter
        | ifFieldAttr => exact sizeOf_takeQueryAndBody _ iter
        | ifAnyFieldAttr => exact sizeOf_takeQueryAndBody _ iter
      exact ⟨Nat.le_trans hd.1 hlt, Nat.le_trans hd.2 hlt⟩
  · simp [Piece.body]
    omega

def Piece.template : Piece → (body rest : Template) → Template
  | .nothing, _, rest => rest
  | .tokens ts, _, rest => .tokens ts rest
  | .accessor a, _, rest => .accessor a rest
  | .variantPatternOnly query, _, rest => .variantPatternOnly query rest
  | .block b _, body, rest => .block b body rest

/-- The tree of a template. -/
def parseTemplate : TokenStream → Template
  | [] => .done
  | .punct '@' :: iter =>
    (readPiece iter).1.template (parseTemplate (readPiece iter).1.body)
      (parseTemplate (readPiece iter).2)
  | .group delimiter stream :: iter =>
    .group delimiter (parseTemplate stream) (parseTemplate iter)
  | tt :: iter => .tokens [tt] (parseTemplate iter)
termination_by tokens => sizeOf tokens
decreasing_by
  all_goals
    have hpiece := sizeOf_readPiece iter
    simp only [List.cons.sizeOf_spec, TokenTree.group.sizeOf_spec]
    omega

/-- The scopes that the body of a block is read in, one after another. -/
def Block.scopes : Block → Scope → List Scope
  | .forVariant, s =>
    match s.parsedType with
    | .enum _ variants => variants.map fun variant => { s with currentVariant := some variant }
    | .struct _ _ => []
  | .forField, s =>
    (s.currentFields.getD []).zipIdx.map fun entry => { s with currentField := some entry }
  | .ifAttr query, s =>
    (query.findIn s.currentAttrs.facet).toList.map fun attr => { s with currentAttr := some attr }
  | .ifFieldAttr query, s =>
    (s.currentFields.bind query.findField).toList.map fun found =>
      { s with currentField := some (found.1, found.2.1), currentAttr := some found.2.2 }
  | .ifAnyFieldAttr query, s =>
    if s.currentFields.any (·.any (Scope.hasAttr query)) then [s] else []
  | .ifKind test, s => if s.passes test then [s] else []

def Template.denote : Template → Scope → TokenStream
  | .done, _ => []
  | .tokens ts rest, s => ts ++ rest.denote s
  | .group delimiter body rest, s => .group delimiter (body.denote s) :: rest.denote s
  | .accessor a rest, s => s.emit a ++ rest.denote s
  | .variantPatternOnly query rest, s => s.variantPatternOnly query ++ rest.denote s
  | .block b body rest, s => ((b.scopes s).flatMap fun s => body.denote s) ++ rest.denote s

section Evaluation

variable {evaluate : TokenStream → EvalContext → Evaluation} {body : TokenStream}
  {meaning : Scope → TokenStream}

theorem EvalContext.pop_push (ctx : EvalContext) (frame : ContextFrame) :
    (ctx.push frame).pop = ctx := rfl

/-- Evaluation of the body emits its meaning and leaves the context alone. -/
def Evaluates (evaluate : TokenStream → EvalContext → Evaluation) (body : TokenStream)
    (meaning : Scope → TokenStream) : Prop :=
  ∀ ctx, evaluate body ctx = some (meaning ctx.scope, ctx)

theorem evaluateEach_eq (h : Evaluates evaluate body meaning) (frames : List ContextFrame)
    (ctx : EvalContext) : evaluateEach evaluate body frames ctx =
      some (frames.flatMap fun frame => meaning (ctx.push frame).scope, ctx) := by
  induction frames with
  | nil => rfl
  | cons frame frames ih =>
    rw [evaluateEach, h (ctx.push frame)]
    simp only [Option.bind_eq_bind, Option.bind_some, EvalContext.pop_push, ih]
    rfl

theorem handleForVariant_eq (h : Evaluates evaluate body meaning) (ctx : EvalContext) :
    handleForVariant evaluate body ctx =
      some ((Block.forVariant.scopes ctx.scope).flatMap meaning, ctx) := by
  obtain ⟨parsedType, stack⟩ := ctx
  cases parsedType with
  | struct container kind => rfl
  | enum container variants =>
    dsimp only [handleForVariant, Block.scopes, EvalContext.scope]
    rw [evaluateEach_eq h, List.flatMap_map, List.flatMap_map]
    rfl

theorem handleForField_eq (h : Evaluates evaluate body meaning) (ctx : EvalContext) :
    handleForField evaluate body ctx =
      some ((Block.forField.scopes ctx.scope).flatMap meaning, ctx) := by
  unfold handleForField
  simp only [Block.scopes]
  cases ctx.scope.currentFields with
  | none => rfl
  | some fields =>
    dsimp only [Option.getD]
    rw [evaluateEach_eq h, List.flatMap_map, List.flatMap_map]
    rfl

theorem handleIfAttr_eq (h : Evaluates evaluate body meaning) (query : AttrQuery)
    (ctx : EvalContext) : handleIfAttr evaluate query body ctx =
      some (((Block.ifAttr query).scopes ctx.scope).flatMap meaning, ctx) := by
  unfold handleIfAttr
  simp only [Block.scopes]
  cases query.findIn ctx.scope.currentAttrs.facet with
  | none => rfl
  | some attr =>
    dsimp only
    rw [h (ctx.push (.attr attr))]
    simp only [Option.bind_eq_bind, Option.bind_some, EvalContext.pop_push, Option.toList_some,
      List.map_cons, List.map_nil, List.flatMap_singleton]
    rfl

theorem handleIfFieldAttr_eq (h : Evaluates evaluate body meaning) (query : AttrQuery)
    (ctx : EvalContext) : handleIfFieldAttr evaluate query body ctx =
      some (((Block.ifFieldAttr query).scopes ctx.scope).flatMap meaning, ctx) := by
  unfold handleIfFieldAttr
  simp only [Block.scopes]
  cases ctx.scope.currentFields.bind query.findField with
  | none => rfl
  | some found =>
    obtain ⟨field, index, attr⟩ := found
    dsimp only
    rw [h ((ctx.push (.field field index)).push (.attr attr))]
    simp only [Option.bind_eq_bind, Option.bind_some, EvalContext.pop_push, Option.toList_some,
      List.map_cons, List.map_nil, List.flatMap_singleton]
    rfl

theorem handleIfAnyFieldAttr_eq (h : Evaluates evaluate body meaning) (query : AttrQuery)
    (ctx : EvalContext) : handleIfAnyFieldAttr evaluate query body ctx =
      some (((Block.ifAnyFieldAttr query).scopes ctx.scope).flatMap meaning, ctx) := by
  unfold handleIfAnyFieldAttr
  simp only [Block.scopes]
  split
  · rw [h ctx, List.flatMap_singleton]
  · rfl

theorem handleIfKind_eq (h : Evaluates evaluate body meaning) (test : KindTest)
    (ctx : EvalContext) : handleIfKind evaluate test body ctx =
      some (((Block.ifKind test).scopes ctx.scope).flatMap meaning, ctx) := by
  unfold handleIfKind
  simp only [Block.scopes]
  split
  · rw [h ctx, List.flatMap_singleton]
  · rfl

/-- What a piece means, apart from the tokens behind it. -/
def Piece.denote (piece : Piece) : Scope → TokenStream :=
  (piece.template (parseTemplate piece.body) .done).denote

theorem Piece.denote_template (piece : Piece) (rest : Template) (s : Scope) :
    (piece.template (parseTemplate piece.body) rest).denote s =
      piece.denote s ++ rest.denote s := by
  cases piece <;> simp [Piece.denote, Piece.template, Template.denote]

theorem Piece.denote_block (b : Block) (s : Scope) :
    (Piece.block b body).denote s = (b.scopes s).flatMap (parseTemplate body).denote := by
  simp [Piece.denote, Piece.template, Piece.body, Template.denote]

/-- The bodies in a piece evaluate to their meaning. -/
def BodyEvaluates (evaluate : TokenStream → EvalContext → Evaluation) (piece : Piece) : Prop :=
  Evaluates evaluate piece.body (parseTemplate piece.body).denote

theorem withBody_eq {handle : TokenStream → EvalContext → Evaluation} {b : Block}
    (hhandle : ∀ body, Evaluates evaluate body (parseTemplate body).denote → ∀ ctx,
      handle body ctx = some ((b.scopes ctx.scope).flatMap (parseTemplate body).denote, ctx))
    (iter : TokenStream) (h : BodyEvaluates evaluate (takeBody b iter).1) (ctx : EvalContext) :
    withBody handle iter ctx =
      some ((takeBody b iter).2, (takeBody b iter).1.denote ctx.scope, ctx) := by
  match iter with
  | [] => rfl
  | .group _ body :: iter =>
    rw [withBody, hhandle body h ctx, takeBody, Piece.denote_block]
    rfl
  | .ident _ :: _ | .punct _ :: _ | .string _ :: _ | .literal _ :: _ => rfl

theorem withQueryAndBody_eq
    {handle : AttrQuery → TokenStream → EvalContext → Evaluation} {b : AttrQuery → Block}
    (hhandle : ∀ query body, Evaluates evaluate body (parseTemplate body).denote → ∀ ctx,
      handle query body ctx =
        some (((b query).scopes ctx.scope).flatMap (parseTemplate body).denote, ctx))
    (iter : TokenStream) (h : BodyEvaluates evaluate (takeQueryAndBody b iter).1)
    (ctx : EvalContext) : withQueryAndBody handle iter ctx =
      some ((takeQueryAndBody b iter).2, (takeQueryAndBody b iter).1.denote ctx.scope, ctx) := by
  match iter with
  | [] => rfl
  | .group _ query :: .group _ body :: iter =>
    unfold takeQueryAndBody at h ⊢
    unfold withQueryAndBody withBody
    dsimp only at h ⊢
    cases hquery : AttrQuery.parse query with
    | none => rfl
    | some query =>
      rw [hquery] at h
      dsimp only [Option.elim]
      rw [hhandle query body h ctx, Piece.denote_block]
      rfl
  | .group _ query :: [] => rfl
  | .group _ query :: .ident _ :: _ | .group _ query :: .punct _ :: _
  | .group _ query :: .string _ :: _ | .group _ query :: .literal _ :: _ => rfl
  | .ident _ :: _ | .punct _ :: _ | .string _ :: _ | .literal _ :: _ => rfl

theorem variantPatternOnly_eq (iter : TokenStream) (ctx : EvalContext) :
    withQuery (fun query iter ctx => some (iter, ctx.scope.variantPatternOnly query, ctx)) iter ctx =
      some ((takeQuery iter).2, (takeQuery iter).1.denote ctx.scope, ctx) := by
  match iter with
  | [] => rfl
  | .group _ query :: iter =>
    unfold withQuery takeQuery
    dsimp only
    cases AttrQuery.parse query with
    | none => rfl
    | some query => simp [Piece.denote, Piece.template, Template.denote]
  | .ident _ :: _ | .punct _ :: _ | .string _ :: _ | .literal _ :: _ => rfl

theorem runDirective_eq (d : Directive) (iter : TokenStream)
    (h : BodyEvaluates evaluate (readDirective iter d).1) (ctx : EvalContext) :
    runDirective evaluate d iter ctx =
      some ((readDirective iter d).2, (readDirective iter d).1.denote ctx.scope, ctx) := by
  cases d with
  | accessor a => simp [runDirective, readDirective, Piece.denote, Piece.template, Template.denote]
  | forVariant => exact withBody_eq (fun _ hbody => handleForVariant_eq hbody) iter h ctx
  | forField => exact withBody_eq (fun _ hbody => handleForField_eq hbody) iter h ctx
  | ifAttr =>
    exact withQueryAndBody_eq (fun query _ hbody => handleIfAttr_eq hbody query) iter h ctx
  | ifFieldAttr =>
    exact withQueryAndBody_eq (fun query _ hbody => handleIfFieldAttr_eq hbody query) iter h ctx
  | ifAnyFieldAttr =>
    exact withQueryAndBody_eq (fun query _ hbody => handleIfAnyFieldAttr_eq hbody query) iter h ctx
  | ifKind test => exact withBody_eq (fun _ hbody => handleIfKind_eq hbody test) iter h ctx
  | variantPatternOnly => exact variantPatternOnly_eq iter ctx

theorem handleDirective_eq (iter : TokenStream) (h : BodyEvaluates evaluate (readPiece iter).1)
    (ctx : EvalContext) : handleDirective evaluate iter ctx =
      some ((readPiece iter).2, (readPiece iter).1.denote ctx.scope, ctx) := by
  match iter with
  | [] => rfl
  | .ident name :: iter =>
    unfold readPiece at h ⊢
    unfold handleDirective
    dsimp only at h ⊢
    cases hd : directive name with
    | none => rfl
    | some d =>
      rw [hd] at h
      exact runDirective_eq d iter h ctx
  | .group _ _ :: _ | .punct _ :: _ | .string _ :: _ | .literal _ :: _ => rfl

end Evaluation

/-- A token that is no directive and no group is emitted as it is. -/
theorem evaluateWithContext_token {n : ℕ} {tt : TokenTree} {iter : TokenStream} {ctx : EvalContext}
    (hat : tt ≠ .punct '@') (hgroup : ∀ delimiter stream, tt ≠ .group delimiter stream)
    (h : evaluateWithContext n iter ctx = some ((parseTemplate iter).denote ctx.scope, ctx)) :
    evaluateWithContext (n + 1) (tt :: iter) ctx =
      some ((parseTemplate (tt :: iter)).denote ctx.scope, ctx) := by
  rw [evaluateWithContext, h, parseTemplate]
  · rfl
  all_goals first | exact hat | exact hgroup

theorem evaluateWithContext_eq {n : ℕ} {tokens : TokenStream} (h : sizeOf tokens < n)
    (ctx : EvalContext) : evaluateWithContext n tokens ctx =
      some ((parseTemplate tokens).denote ctx.scope, ctx) := by
  induction n generalizing tokens ctx with
  | zero => omega
  | succ n ih =>
    match tokens with
    | [] =>
      rw [parseTemplate]
      rfl
    | tt :: iter =>
      rw [List.cons.sizeOf_spec] at h
      by_cases hat : tt = .punct '@'
      · subst hat
        -- The body and the tokens behind the directive are smaller than what it was found in.
        have hsize := sizeOf_readPiece iter
        have hbody : BodyEvaluates (evaluateWithContext n) (readPiece iter).1 :=
          fun ctx => ih (by omega) ctx
        rw [evaluateWithContext, handleDirective_eq iter hbody ctx, parseTemplate]
        simp only [Option.bind_eq_bind, Option.bind_some]
        rw [ih (by omega), Piece.denote_template]
        rfl
      · cases tt with
        | group delimiter stream =>
          rw [TokenTree.group.sizeOf_spec] at h
          rw [evaluateWithContext, ih (by omega), parseTemplate]
          simp only [Option.bind_eq_bind, Option.bind_some]
          rw [ih (by omega)]
          rfl
        | _ => exact evaluateWithContext_token hat (fun _ _ heq => by cases heq) (ih (by omega) ctx)

/-- Evaluating a template always ends, emits what the template means in the scope of the innermost
frames, and leaves the context as it was. -/
theorem evaluateWithContext_ends (tokens : TokenStream) (ctx : EvalContext) :
    ∃ n, ∀ k, n ≤ k → evaluateWithContext k tokens ctx =
      some ((parseTemplate tokens).denote ctx.scope, ctx) :=
  ⟨sizeOf tokens + 1, fun _ hk => evaluateWithContext_eq hk ctx⟩

end Facet.Macros
