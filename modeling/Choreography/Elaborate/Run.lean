import Choreography.Elaborate.Expression
import Choreography.Elaborate.Statement

/-!
Evaluation to a bounded depth. Programs can apply functions to themselves and so need not have an
end; the fuel bounds how deep evaluation goes, and running out of it is an outcome of its own.
-/

namespace Choreography

/-- The evaluator of a given depth. -/
def evaluator : Nat → Evaluator
  | 0 => .exhausted
  | fuel + 1 =>
    { expr := fun ctx env e => (evaluator fuel).evalExpr ctx env e
      stmts := fun ctx loc scope stmts => (evaluator fuel).evalStmts ctx loc scope stmts }

theorem evaluator_zero : evaluator 0 = .exhausted := rfl

theorem evaluator_succ_expr (fuel : Nat) :
    (evaluator (fuel + 1)).expr = (evaluator fuel).evalExpr := rfl

theorem evaluator_succ_stmts (fuel : Nat) :
    (evaluator (fuel + 1)).stmts = (evaluator fuel).evalStmts := rfl

end Choreography
