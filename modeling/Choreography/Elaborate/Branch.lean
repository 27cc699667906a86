import Choreography.Elaborate.Choice
import Choreography.Elaborate.Sequence

/-!
The conditional statement. A constant condition leaves only the branch taken. Otherwise both
branches are emitted; their bindings end with them, and what they return is as secret as the
condition.
-/

namespace Choreography.Evaluator

/-- Evaluates a branch, which may be missing. -/
def branchBody (ev : Evaluator) (ctx : Ctx) (loc : Loc) (scope : Scope) (body : Option Surface.Stmt) :
    Eval (Lifted Outcome) :=
  ev.stmts ctx loc scope body.toList

def branch (ev : Evaluator) (ctx : Ctx) (loc : Loc) (scope : Scope) (cond : Surface.Expr)
    (onTrue : Surface.Stmt) (onFalse : Option Surface.Stmt) (rest : List Surface.Stmt) :
    Eval (Lifted Outcome) := do
  let c ← ev.expr ctx scope.env cond
  let rest := Surface.dropEmpty rest
  let inner := if rest.isEmpty then scope else { scope with style := .mayBeEmpty }
  let falseLoc := (onFalse.map (·.loc)).getD loc
  match c.value.value.condition? with
  | some (.constant b) =>
    let taken ←
      if b then ev.branchBody ctx onTrue.loc inner (some onTrue)
      else ev.branchBody ctx falseLoc inner onFalse
    ev.continueWith ctx loc scope (taken.after c.code) rest
  | some (.runTime v) =>
    let t ← ev.branchBody ctx onTrue.loc inner (some onTrue)
    let f ← ev.branchBody ctx falseLoc inner onFalse
    let level := c.value.level
    let exits := Exit.combine loc level
      (t.value.exits.map (Exit.taint level)) (f.value.exits.map (Exit.taint level))
    let joined : Lifted Outcome :=
      { code := c.code ++ [.branch loc (.var v) t.code f.code], value := { env := scope.env, exits } }
    ev.continueWith ctx loc scope joined rest
  | none => Eval.fail (.condNotBool cond.loc c.value.value.describe)

end Choreography.Evaluator
