import Choreography.Elaborate.Evaluator

/-!
Object literals. Fields are collected from left to right; each name may be bound once. The levels
of computed names and of spread objects show in the level of the whole object.
-/

namespace Choreography

/-- An object literal read up to some property. -/
structure PartialObject where
  code : Ir.Code := []
  level : Level := .pub
  fields : Bindings := {}

namespace Evaluator

/-- The name of a field and its level. -/
def propertyName (ev : Evaluator) (ctx : Ctx) (env : Bindings) (loc : Loc) :
    Surface.PropertyName → Eval (Lifted (Level × String))
  | .ident name => pure (.plain (.pub, name))
  | .string text => pure (.plain (.pub, Text.unquote text))
  | .number text => Eval.fail (.numberField loc text)
  | .computed key => do
    let k ← ev.expr ctx env key
    match k.value with
    | ⟨level, .bytes _ name⟩ => return { code := k.code, value := (level, name) }
    | _ => Eval.fail (.computedField key.loc k.value.value.describe)

/-- Adds what one property contributes. -/
def property (ev : Evaluator) (ctx : Ctx) (env : Bindings) (object : PartialObject) :
    Surface.Property → Eval PartialObject
  | .value loc name value => do
    let n ← ev.propertyName ctx env loc name
    let v ← ev.expr ctx env value
    let fields ← object.fields.bind loc n.value.2 v.value
    return { code := object.code ++ n.code ++ v.code, level := object.level.meet n.value.1, fields }
  | .shorthand loc name => do
    let v ← env.identify loc name
    let fields ← object.fields.bind loc name v
    return { object with fields }
  | .spread loc base => do
    let v ← ev.expr ctx env base
    match v.value with
    | ⟨level, .object _ more⟩ =>
      let fields ← object.fields.merge loc more
      return { code := object.code ++ v.code, level := object.level.meet level, fields }
    | _ => Eval.fail (.spreadNotObject loc v.value.value.describe)
  | .method loc _ => Eval.fail (.methodField loc)

/-- Adds what each property contributes. -/
def properties (ev : Evaluator) (ctx : Ctx) (env : Bindings) (object : PartialObject) :
    List Surface.Property → Eval PartialObject
  | [] => pure object
  | p :: ps => do
    let object ← ev.property ctx env object p
    ev.properties ctx env object ps

def objectLiteral (ev : Evaluator) (ctx : Ctx) (loc : Loc) (env : Bindings)
    (props : List Surface.Property) : Eval (Lifted SecValue) := do
  let object ← ev.properties ctx env {} props
  return { code := object.code, value := ⟨object.level, .object loc object.fields⟩ }

end Evaluator

end Choreography
