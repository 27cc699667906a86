import Choreography.Elaborate.Declaration
import Choreography.Elaborate.Primitive
import Choreography.Elaborate.Sequence

/-!
Loops of consensus. Inside the loop and after it, each loop variable is an unknown of the type of
its initial value; `continue` gives new values to some of them.
-/

namespace Choreography

/-- The variables of a loop: each with its initial value. -/
def Ctx.loopVars (ctx : Ctx) (loc : Loc) :
    List (String × SecValue) → Eval (List (String × Ir.Var × Ir.Arg))
  | [] => pure []
  | (name, sv) :: rest => do
    let id ← ctx.alloc loc
    let (type, arg) ← sv.value.typeOf loc
    let v : Ir.Var := { loc, name, type, id }
    let vars ← ctx.loopVars loc rest
    return (name, v, arg) :: vars

/-- What `continue` assigns. Only loop variables are assigned, and only what everyone knows. -/
def assignLoopVars (loc : Loc) (vars : NameMap Ir.Var) :
    List (String × SecValue) → Eval Ir.Assignment
  | [] => pure []
  | (name, sv) :: rest => do
    let v ← Eval.orFail (vars.get? name) (.notLoopVariable loc name)
    let value ← sv.requirePublic loc
    let arg ← value.checkType loc v.type
    let assignment ← assignLoopVars loc vars rest
    return (v, arg) :: assignment

namespace Evaluator

/-- `continue` after an assignment to loop variables. -/
def continueLoop (ev : Evaluator) (ctx : Ctx) (loc : Loc) (scope : Scope) (assignLoc : Loc)
    (lhs rhs : Surface.Expr) (rest : List Surface.Stmt) : Eval (Lifted Outcome) := do
  ctx.expectMode assignLoc "continue" Mode.isConsensus
  let updates ← ev.decl ctx {} scope.env { loc := assignLoc, lhs, init := some rhs }
  let vars ← Eval.orFail scope.loopVars (.continueOutsideLoop loc)
  let assignment ← assignLoopVars assignLoc vars updates.value.entries
  expectLast loc rest
  return { code := updates.code ++ [.cont loc assignment], value := { env := scope.env } }

/-- A boolean that is computed anew in each turn of a loop. -/
def boolBlock (ev : Evaluator) (ctx : Ctx) (loc : Loc) (env : Bindings) (e : Surface.Expr) :
    Eval Ir.Block := do
  let r ← ev.expr ctx env e
  let result ← r.value.value.checkType loc .bool
  return { loc, frames := ctx.frames, code := r.code, result }

def loop (ev : Evaluator) (ctx : Ctx) (loc : Loc) (scope : Scope) (decls : List Surface.Decl)
    (invariantLoc : Loc) (invariant : List Surface.Expr) (loopLoc : Loc) (cond : Surface.Expr)
    (body : Surface.Stmt) (rest : List Surface.Stmt) : Eval (Lifted Outcome) := do
  ctx.expectMode loc "while" Mode.isConsensus
  let init ← ev.decls ctx scope.env decls
  let vars ← ctx.loopVars loc init.value.entries
  let unknowns : Bindings := .ofList (vars.map fun (name, v, _) => (name, .pub (.var v)))
  let env ← scope.env.merge loc unknowns
  match invariant with
  | [condition] =>
    let invariantBlock ← ev.boolBlock ctx invariantLoc env condition
    let condBlock ← ev.boolBlock ctx cond.loc env cond
    let slots : NameMap Ir.Var := vars.foldl (fun m (name, v, _) => m.insertNew name v) {}
    let turn ← ev.stmts ctx loopLoc
      { scope with style := .needExplicit, env, loopVars := some slots } [body]
    let after ← ev.stmts ctx loopLoc { scope with env } rest
    let loop : Ir.Stmt :=
      .loop loc (vars.map fun (_, v, arg) => (v, arg)) invariantBlock condBlock turn.code
    return { code := init.code ++ loop :: after.code,
             value := { env := after.value.env, exits := turn.value.exits ++ after.value.exits } }
  | _ => Eval.fail (.invariantArity invariantLoc invariant.length)

end Evaluator

end Choreography
