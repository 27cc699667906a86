import Choreography.Elaborate.Evaluator
import Choreography.Elaborate.Primitive
import Choreography.Value.Same

/-!
Application of functions to evaluated arguments. The body of a closure is evaluated in place;
where its ways out join, a prompt delimits its returns.
-/

namespace Choreography

/-- The code of a body that has at most one way out. Nothing needs to be delimited when that way
is the body's last statement, and a body without code needs no code. -/
def Ir.Code.unprompted (code : Ir.Code) (loc : Loc) (slot : Nat) (result : Value) : Ir.Code :=
  match code.getLast? with
  | none => []
  | some (.ret _ slot' (some v)) =>
    if slot' = slot && v.same result then code.dropLast else [.prompt loc slot none code]
  | some _ => [.prompt loc slot none code]

/-- The types of all ways out, each with the place where it leaves. -/
def Exit.types : List Exit → Eval (List (Loc × Ty))
  | [] => pure []
  | exit :: exits => do
    let (t, _) ← exit.value.value.typeOf exit.loc
    let rest ← types exits
    return (exit.loc, t) :: rest

/-- What remains of an evaluated body: its value, and the code that computes it. More than one way
out must agree on a type, and a new variable named by the slot stands for the result. -/
def Ctx.joinExits (ctx : Ctx) (loc : Loc) (slot : Nat) (body : Lifted Outcome) :
    Eval (Lifted Applied) :=
  let env := body.value.env
  match body.value.exits with
  | [] =>
    let value : SecValue := .pub (.null loc)
    pure { code := Ir.Code.unprompted body.code loc slot value.value, value := { env, value } }
  | [exit] =>
    pure { code := Ir.Code.unprompted body.code loc slot exit.value.value,
           value := { env, value := exit.value } }
  | exits => do
    let types ← Exit.types exits
    let type ← Ty.joinAll loc types
    let result : Ir.Var := { loc, name := ctx.localName "clo app", type, id := slot }
    let level := Labelled.levelOf (exits.map (·.value))
    return { code := [.prompt loc slot (some result) body.code],
             value := { env, value := ⟨level, .var result⟩ } }

namespace Evaluator

/-- Applies a closure: its formals are bound in the environment it was written in, and its body is
evaluated there. -/
def applyClosure (ev : Evaluator) (ctx : Ctx) (loc : Loc) (c : Closure) (args : List SecValue) :
    Eval (Lifted Applied) := do
  let slot ← ctx.alloc loc
  Eval.ensure (c.formals.length = args.length)
    (.applyArity loc c.formals.length args.length c.loc)
  let env ← Bindings.bindAll c.env c.loc (c.formals.zip args)
  let frame : Ir.Frame := { callLoc := loc, defLoc := c.loc, name := c.name }
  let inner := { ctx with frames := ctx.frames ++ [frame] }
  let body ← ev.stmts inner c.body.loc { slot := some slot, style := .implicitNull, env } c.body.stmts
  ctx.joinExits c.body.loc slot body

/-- Applies a function to values. -/
def applyValues (ev : Evaluator) (ctx : Ctx) (loc : Loc) (env : Bindings) (rator : Value)
    (args : List SecValue) : Eval (Lifted Applied) :=
  match rator with
  | .prim _ p => do
    let result ← ctx.applyPrim loc env p args
    return { code := result.code, value := { env, value := result.value } }
  | .closure _ c => ev.applyClosure ctx loc c args
  | _ => Eval.fail (.notApplicableToValues loc rator.describe)

end Evaluator

end Choreography
