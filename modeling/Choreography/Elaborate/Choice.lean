import Choreography.Elaborate.Evaluator
import Choreography.Elaborate.Operation

/-!
The conditional expression. Both branches are evaluated whatever the condition is, and the result
is as secret as the most secret of the three. A constant condition takes its branch's code alone.
-/

namespace Choreography

/-- A condition as branching needs it. -/
inductive Condition
  | constant (b : Bool)
  | runTime (v : Ir.Var)

/-- The condition that a value makes: a constant, or a boolean known at run time. -/
def Value.condition? : Value → Option Condition
  | .bool _ b => some (.constant b)
  | .var v => if v.type = .bool then some (.runTime v) else none
  | _ => none

/-- Joins two branches that have effects: each runs only when it is chosen, and returns its value
to a prompt. -/
def Ctx.joinBranches (ctx : Ctx) (loc : Loc) (cond : Ir.Var) (trueLoc falseLoc : Loc)
    (onTrue onFalse : Lifted SecValue) : Eval (Ir.Stmt × Ir.Var) := do
  let slot ← ctx.alloc loc
  let (trueType, _) ← onTrue.value.value.typeOf trueLoc
  let (falseType, _) ← onFalse.value.value.typeOf falseLoc
  let type ← Ty.join loc (trueLoc, trueType) (falseLoc, falseType)
  let result : Ir.Var := { loc, name := ctx.localName "clo app", type, id := slot }
  let trueCode := onTrue.code ++ [.ret trueLoc slot (some onTrue.value.value)]
  let falseCode := onFalse.code ++ [.ret falseLoc slot (some onFalse.value.value)]
  return (.prompt loc slot (some result) [.branch loc (.var cond) trueCode falseCode], result)

namespace Evaluator

def ternary (ev : Evaluator) (ctx : Ctx) (loc : Loc) (env : Bindings)
    (cond onTrue onFalse : Surface.Expr) : Eval (Lifted SecValue) := do
  let c ← ev.expr ctx env cond
  let t ← ev.expr ctx env onTrue
  let f ← ev.expr ctx env onFalse
  let level := Level.meetAll [c.value.level, t.value.level, f.value.level]
  match c.value.value.condition? with
  | some (.constant b) =>
    let taken := if b then t else f
    return { code := c.code ++ taken.code, value := taken.value.taint level }
  | some (.runTime v) =>
    if Ir.codeIsPure t.code && Ir.codeIsPure f.code then
      let selected ← ctx.applyOp loc .ifThenElse [c.value, t.value, f.value]
      return { code := c.code ++ t.code ++ f.code ++ selected.code,
               value := selected.value.taint level }
    else
      let (prompt, result) ← ctx.joinBranches loc v onTrue.loc onFalse.loc t f
      return { code := c.code ++ [prompt], value := ⟨level, .var result⟩ }
  | none => Eval.fail (.condNotBool loc c.value.value.describe)

end Evaluator

end Choreography
