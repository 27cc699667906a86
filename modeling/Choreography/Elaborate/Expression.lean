import Choreography.Elaborate.Access
import Choreography.Elaborate.Choice
import Choreography.Elaborate.Form
import Choreography.Elaborate.ObjectLiteral

/-!
The rule of evaluation for each expression, given an evaluator for its parts.
-/

namespace Choreography

/-- A function as written here, closed over the environment. -/
def Ctx.makeClosure (ctx : Ctx) (loc : Loc) (env : Bindings) (label : String)
    (formals : List String) (body : Surface.Block) : Eval (Lifted SecValue) := do
  let tag ← Eval.freshTag
  let c : Closure := { loc, name := some (ctx.localName label), formals, body, env }
  return .plain (.pub (.closure tag c))

namespace Evaluator

def evalExpr (ev : Evaluator) (ctx : Ctx) (env : Bindings) (e : Surface.Expr) :
    Eval (Lifted SecValue) := do
  match e with
  | .ident loc name => return .plain (← env.identify loc name)
  | .int loc text radix => return .plain (.pub (.int loc (Integer.ofLiteral text radix)))
  | .string loc text => return .plain (.pub (.bytes loc (Text.unquote text)))
  | .bool loc value => return .plain (.pub (.bool loc value))
  | .null loc => return .plain (.pub (.null loc))
  | .array loc elems =>
    let vs ← ev.exprs ctx env elems
    return { code := vs.code,
             value := ⟨Labelled.levelOf vs.value, .tuple loc (vs.value.map (·.value))⟩ }
  | .object loc props => ev.objectLiteral ctx loc env props
  | .call loc callee args =>
    let rator ← ev.expr ctx env callee
    let result ← ev.apply ctx loc env rator.value.value args
    return { code := rator.code ++ result.code, value := result.value.taint rator.value.level }
  | .dot loc base field =>
    let object ← ev.expr ctx env base
    let result ← ctx.field loc object.value.value field
    return { code := object.code ++ result.code, value := result.value.taint object.value.level }
  | .index loc base position =>
    let v ← ev.expr ctx env base
    let i ← ev.expr ctx env position
    let level := v.value.level.meet i.value.level
    let result ← ctx.element loc v.value.value i.value.value level
    return result.after (v.code ++ i.code)
  | .binary loc op lhs rhs =>
    let rator ← op.rator loc env
    ev.apply ctx loc env rator [lhs, rhs]
  | .unary loc op operand =>
    let rator ← op.rator loc env
    ev.apply ctx loc env rator [operand]
  | .paren _ inner => ev.expr ctx env inner
  | .ternary loc cond onTrue onFalse => ev.ternary ctx loc env cond onTrue onFalse
  | .arrow loc formals body => ctx.makeClosure loc env "arrow" formals body
  | .function loc none formals body => ctx.makeClosure loc env "function" formals body
  | .function loc (some name) _ _ => Eval.fail (.namedFunctionExpr loc name)
  | .foreign loc what => Eval.fail (.foreignExpression loc what.construct)

end Evaluator

end Choreography
