import Choreography.Elaborate.Evaluator

/-!
Declarations: a name or an array of names with an initial value. All right-hand sides of a
declaration see the environment before it.
-/

namespace Choreography

/-- What stands on the left of a declaration. -/
inductive Target
  | single (n : String)
  | several (ns : List String)

namespace Target

def all : Target → List String
  | .single n => [n]
  | .several ns => ns

/-- The names of an array on the left, which must all be identifiers. -/
def identifiers : List Surface.Expr → Eval (List String)
  | [] => pure []
  | .ident _ name :: rest => do
    let names ← identifiers rest
    return name :: names
  | e :: _ => Eval.fail (.expectedIdentifier e.loc e.kind.construct)

def ofExpr : Surface.Expr → Eval Target
  | .ident _ name => pure (.single name)
  | .array _ elems => do
    let ns ← identifiers elems
    return .several ns
  | e => Eval.fail (.bindingTarget e.loc e.kind.construct)

end Target

/-- The components of a tuple that is only known at run time, from position `i` on. -/
def Ctx.tupleParts (ctx : Ctx) (loc : Loc) (v : Ir.Var) (i : Nat) :
    List Ty → Eval (Lifted (List Value))
  | [] => pure (.plain [])
  | t :: ts => do
    let x ← ctx.lift loc "tuple idx" t (.tupleRef (.var v) i)
    let rest ← ctx.tupleParts loc v (i + 1) ts
    return { code := x.code ++ rest.code, value := .var x.value :: rest.value }

/-- The elements of an array that is only known at run time, at the given positions. -/
def Ctx.arrayParts (ctx : Ctx) (loc : Loc) (v : Ir.Var) (elem : Ty) (size : Nat) :
    List Nat → Eval (Lifted (List Value))
  | [] => pure (.plain [])
  | i :: positions => do
    let x ← ctx.lift loc "array idx" elem (.arrayRef ctx.frames (.var v) size (.int i))
    let rest ← ctx.arrayParts loc v elem size positions
    return { code := x.code ++ rest.code, value := .var x.value :: rest.value }

/-- The components that destructuring takes from a value, projected where the value is only known
at run time. -/
def Ctx.components (ctx : Ctx) (loc : Loc) (v : Value) : Eval (Lifted (List Value)) :=
  match v with
  | .tuple _ elems => pure (.plain elems)
  | .var x =>
    match x.type with
    | .tuple elems => ctx.tupleParts loc x 0 elems
    | .array elem size => ctx.arrayParts loc x elem size (List.range size)
    | _ => Eval.fail (.notDestructurable loc v.describe)
  | _ => Eval.fail (.notDestructurable loc v.describe)

namespace Evaluator

/-- Adds the bindings of one declaration to `bound`; the initial value is evaluated in `env`. -/
def decl (ev : Evaluator) (ctx : Ctx) (bound env : Bindings) (d : Surface.Decl) :
    Eval (Lifted Bindings) := do
  let init ← Eval.orFail d.init (.noInitializer d.loc)
  let target ← Target.ofExpr d.lhs
  let ctx := { ctx with localNames := some target.all }
  let rhs ← ev.expr ctx env init
  match target with
  | .single n =>
    let bound ← bound.bind d.lhs.loc n rhs.value
    return { code := rhs.code, value := bound }
  | .several ns =>
    let parts ← ctx.components init.loc rhs.value.value
    Eval.ensure (parts.value.length = ns.length)
      (.destructureLength d.lhs.loc ns.length parts.value.length)
    let bound ← bound.bindAll d.lhs.loc (ns.zip (parts.value.map fun v => ⟨rhs.value.level, v⟩))
    return { code := rhs.code ++ parts.code, value := bound }

/-- Adds the bindings of each declaration in turn. -/
def declsFrom (ev : Evaluator) (ctx : Ctx) (bound env : Bindings) :
    List Surface.Decl → Eval (Lifted Bindings)
  | [] => pure (.plain bound)
  | d :: ds => do
    let first ← ev.decl ctx bound env d
    let rest ← ev.declsFrom ctx first.value env ds
    return rest.after first.code

/-- The bindings that a list of declarations makes. -/
def decls (ev : Evaluator) (ctx : Ctx) (env : Bindings) (ds : List Surface.Decl) :
    Eval (Lifted Bindings) :=
  ev.declsFrom ctx {} env ds

end Evaluator

end Choreography
