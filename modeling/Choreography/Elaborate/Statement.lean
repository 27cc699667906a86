import Choreography.Elaborate.Branch
import Choreography.Elaborate.Loop
import Choreography.Elaborate.Round

/-!
The rule of evaluation for lists of statements, given an evaluator for their parts. A statement is
evaluated together with those after it, because some statements put the rest of the list inside
the code that they emit.
-/

namespace Choreography

/-- Stops unless a value is null, which is what statements are worth. -/
def Value.expectNull (v : Value) (loc : Loc) : Eval Unit :=
  match v.typed? with
  | some (.null, _) => pure ()
  | _ => Eval.fail (.statementNotNull loc v.describe)

namespace Evaluator

/-- Goes on in an extended environment. -/
def extend (ev : Evaluator) (ctx : Ctx) (loc : Loc) (scope : Scope) (code : Ir.Code)
    (env : Bindings) (rest : List Surface.Stmt) : Eval (Lifted Outcome) := do
  let next ← ev.stmts ctx loc { scope with env } rest
  return next.after code

/-- An expression as a statement. Some values act when they stand as statements: a finished
`only`, a round, a commit and an exit. Everything else must be null. -/
def exprStmt (ev : Evaluator) (ctx : Ctx) (loc : Loc) (scope : Scope) (e : Surface.Expr)
    (rest : List Surface.Stmt) : Eval (Lifted Outcome) := do
  let r ← ev.expr ctx scope.env e
  match ctx.mode, r.value.value with
  | .step _, .prim _ .exited =>
    expectLast loc rest
    return { code := r.code, value := { env := scope.env } }
  | .step parties, .form formLoc _ (.onlyDone who view result) =>
    result.value.expectNull loc
    let parties := { parties with views := parties.views.insert who view }
    let next ← ev.stmts { ctx with mode := .step parties } loc scope rest
    return next.after [.only formLoc who r.code]
  | .step parties, .form roundLoc _ (.round round) =>
    match round.stage with
    | none => ev.takeRound ctx parties loc scope r.code roundLoc round rest
    | some _ => Eval.fail (.statementNotNull loc r.value.value.describe)
  | .consensus opened parties, .prim _ .committed =>
    ev.commitRound ctx opened parties loc scope r.code rest
  | _, v =>
    v.expectNull loc
    ev.extend ctx loc scope r.code scope.env rest

def ret (ev : Evaluator) (ctx : Ctx) (loc : Loc) (scope : Scope) (value : Option Surface.Expr)
    (rest : List Surface.Stmt) : Eval (Lifted Outcome) := do
  let r ← match value with
    | some e => ev.expr ctx scope.env e
    | none => pure (.plain (.pub (.null loc)))
  let slot ← Eval.orFail scope.slot (.noReturn loc)
  Eval.ensure (scope.style != .cannotReturn) (.cannotReturn loc)
  expectLast loc rest
  return { code := r.code ++ [.ret loc slot (some r.value.value)],
           value := { env := scope.env, exits := [{ loc, value := r.value }] } }

/-- Evaluates a list of statements. `loc` is where the list stands. -/
def evalStmts (ev : Evaluator) (ctx : Ctx) (loc : Loc) (scope : Scope) (stmts : List Surface.Stmt) :
    Eval (Lifted Outcome) := do
  match stmts with
  | [] =>
    let exits := if scope.style = .implicitNull then [Exit.implicit loc .pub] else []
    return .plain { env := scope.env, exits }
  | .block body :: rest =>
    let first ← ev.stmts ctx body.loc scope body.stmts
    ev.continueWith ctx body.loc scope first rest
  | .constDecl stmtLoc decls :: rest =>
    let bound ← ev.decls ctx scope.env decls
    let env ← scope.env.merge stmtLoc bound.value
    ev.extend ctx stmtLoc scope bound.code env rest
  | .cont stmtLoc :: rest =>
    ev.continueLoop ctx stmtLoc scope stmtLoc (.array stmtLoc []) (.array stmtLoc []) rest
  | .function stmtLoc name formals body :: rest =>
    let name ← Eval.orFail name (.namelessFunction stmtLoc)
    let tag ← Eval.freshTag
    let c : Closure := { loc := stmtLoc, name := some name, formals, body, env := scope.env }
    let env ← scope.env.bind stmtLoc name (.pub (.closure tag c))
    ev.extend ctx stmtLoc scope [] env rest
  | .branch stmtLoc cond onTrue onFalse :: rest =>
    ev.branch ctx stmtLoc scope cond onTrue onFalse rest
  | .empty stmtLoc :: rest => ev.stmts ctx stmtLoc scope rest
  | .expr stmtLoc e :: rest => ev.exprStmt ctx stmtLoc scope e rest
  | .methodCall stmtLoc callee args :: rest =>
    ev.exprStmt ctx stmtLoc scope (.call stmtLoc callee args) rest
  | .assign stmtLoc .assign lhs rhs :: .cont contLoc :: rest =>
    ev.continueLoop ctx contLoc scope stmtLoc lhs rhs rest
  | .assign stmtLoc .. :: _ => Eval.fail (.strayAssignment stmtLoc)
  | .ret stmtLoc value :: rest => ev.ret ctx stmtLoc scope value rest
  | .varDecl stmtLoc decls :: .methodCall invariantLoc (.ident _ "invariant") invariant
      :: .loop loopLoc cond body :: rest =>
    ev.loop ctx stmtLoc scope decls invariantLoc invariant loopLoc cond body rest
  | .varDecl stmtLoc _ :: _ => Eval.fail (.strayVar stmtLoc)
  | .loop stmtLoc .. :: _ => Eval.fail (.strayLoop stmtLoc)
  | .foreign stmtLoc what :: _ => Eval.fail (.foreignStatement stmtLoc what.construct)

end Evaluator

end Choreography
