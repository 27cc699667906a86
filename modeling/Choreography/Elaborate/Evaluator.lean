import Choreography.Elaborate.Binding
import Choreography.Elaborate.Context
import Choreography.Elaborate.Typing

/-!
Evaluation is recursive through expressions and statements. Each rule of the language is written
against an evaluator for the parts of what it evaluates, so that the rules themselves do not
recurse; the recursion is tied in one place, on a bound for its depth.
-/

namespace Choreography

/-- How the parts of a program are evaluated. -/
structure Evaluator where
  expr : Ctx → Bindings → Surface.Expr → Eval (Lifted SecValue)
  stmts : Ctx → Loc → Scope → List Surface.Stmt → Eval (Lifted Outcome)

namespace Evaluator

/-- The evaluator that has no depth left. -/
def exhausted : Evaluator where
  expr _ _ _ := throw .outOfFuel
  stmts _ _ _ _ := throw .outOfFuel

/-- Evaluates expressions from left to right. -/
def exprs (ev : Evaluator) (ctx : Ctx) (env : Bindings) :
    List Surface.Expr → Eval (Lifted (List SecValue))
  | [] => pure (.plain [])
  | e :: es => do
    let r ← ev.expr ctx env e
    let rs ← ev.exprs ctx env es
    return { code := r.code ++ rs.code, value := r.value :: rs.value }

end Evaluator

end Choreography
