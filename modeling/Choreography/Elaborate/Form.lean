import Choreography.Elaborate.Application

/-!
Forms: constructs that see their arguments before they are evaluated. An app only collects what it
needs; an `only` evaluates a function in a participant's view; the stages of a round keep names
and expressions for when the round takes place.
-/

namespace Choreography

/-- What a participant's frontend offers, from an object of public types. -/
def interfaceOf (loc : Loc) : List (String × SecValue) → Eval (List (String × Ty))
  | [] => pure []
  | (method, sv) :: rest =>
    match sv with
    | ⟨.pub, .type _ t⟩ => do
      let methods ← interfaceOf loc rest
      return (method, t) :: methods
    | _ => Eval.fail (.interactSpec (sv.value.loc.orElse loc) method sv.value.describe)

/-- A participant from its specification: a pair of a name and an interface. -/
def participantOf (loc : Loc) (spec : Value) : Eval Participant :=
  match spec with
  | .tuple specLoc [.bytes _ who, .object interfaceLoc fields] => do
    let interface ← interfaceOf interfaceLoc fields.entries
    return { loc := specLoc, who, interfaceLoc, interface, displayName := none, address := none }
  | _ => Eval.fail (.participantSpec loc spec.describe)

/-- The participants of an app, each with a new identity. -/
def participantsOf (loc : Loc) : List Value → Eval (List (Tag × Participant))
  | [] => pure []
  | spec :: specs => do
    let p ← participantOf loc spec
    let tag ← Eval.freshTag
    let rest ← participantsOf loc specs
    return (tag, p) :: rest

/-- The names that a round publishes, which must be written as identifiers. -/
def publishedNames : List Surface.Expr → Eval (List String)
  | [] => pure []
  | .ident _ name :: rest => do
    let names ← publishedNames rest
    return name :: names
  | e :: _ => Eval.fail (.expectedIdentifier e.loc e.kind.construct)

/-- Fills in one stage of a round. No stage is filled in twice. -/
def Round.fill (r : Round) (loc : Loc) (stage : Stage) (args : List Surface.Expr) : Eval Round := do
  let repeated : Fault := .repeatedStage loc stage.name
  match stage with
  | .publish =>
    Eval.ensure r.publish.isNone repeated
    let names ← publishedNames args
    return { r with stage := none, publish := some names }
  | .pay =>
    Eval.ensure r.pay.isNone repeated
    match args with
    | [amount] => return { r with stage := none, pay := some amount }
    | _ => Eval.fail (.formArgs loc "pay" args.length)
  | .timeout =>
    Eval.ensure r.timeout.isNone repeated
    match args with
    | [delay, .arrow _ [] handler] =>
      return { r with stage := none, timeout := some { loc, delay, handler } }
    | _ => Eval.fail (.timeoutArgs loc)

namespace Evaluator

/-- An app: its options, its participants, and a function of the participants that waits to be
compiled. -/
def appForm (ev : Evaluator) (ctx : Ctx) (loc : Loc) (env : Bindings) (args : List Surface.Expr) :
    Eval (Lifted SecValue) := do
  ctx.expectMode loc "Reach.App" Mode.isModule
  match args with
  | [options, parts, .arrow topLoc formals body] =>
    let evaluated ← ev.exprs ctx env [options, parts]
    match evaluated.value with
    | [⟨_, .object _ options⟩, ⟨_, .tuple _ specs⟩] =>
      let parts ← participantsOf loc specs
      Eval.ensure (formals.length = parts.length)
        (.applyArity loc formals.length parts.length topLoc)
      let env ← env.bindAll loc
        (formals.zip (parts.map fun (tag, p) => .secret (.participant tag p)))
      let tag ← Eval.freshTag
      let app : App := { options, parts := parts.map (·.2), body, env }
      return { code := evaluated.code, value := .pub (.prim loc (.app tag app)) }
    | _ => Eval.fail (.appArgs loc)
  | _ => Eval.fail (.appArgs loc)

/-- The values of an `only` function's formals, taken from the shared environment. -/
def sharedArgs (loc : Loc) (env : Bindings) : List String → Eval (List SecValue)
  | [] => pure []
  | formal :: formals => do
    let v ← env.identify loc formal
    let vs ← sharedArgs loc env formals
    return v :: vs

/-- Private computation: a function is made in the participant's view, where nothing may be
emitted, and then applied there. The view afterwards is that of the function's end, without its
formals. -/
def onlyForm (ev : Evaluator) (ctx : Ctx) (loc : Loc) (env : Bindings) (who : String)
    (args : List Surface.Expr) : Eval (Lifted SecValue) := do
  match ctx.mode with
  | .step parties =>
    let view ← Eval.orFail (parties.views.get? who) (.noView loc who)
    let made ← ev.exprs { ctx with mode := .pureLocal, canLift := false } view args
    match made.value with
    | [⟨_, .closure tag c⟩] =>
      let shared ← sharedArgs loc env c.formals
      let applied ← ev.applyValues { ctx with mode := .localStep } loc view (.closure tag c) shared
      let done : Form := .onlyDone who (applied.value.env.without c.formals) applied.value.value
      return { code := made.code ++ applied.code, value := .pub (.form loc (← Eval.freshTag) done) }
    | _ => Eval.fail (.formArgs loc "only" made.value.length)
  | mode => Eval.fail (.wrongMode loc "only" mode.name)

/-- Applies a form to unevaluated arguments. A round keeps the location where it began. -/
def applyForm (ev : Evaluator) (ctx : Ctx) (loc : Loc) (env : Bindings) (formLoc : Loc) (f : Form)
    (args : List Surface.Expr) : Eval (Lifted SecValue) :=
  match f with
  | .app => ev.appForm ctx loc env args
  | .only who => ev.onlyForm ctx loc env who args
  | .onlyDone .. => Eval.fail (.notApplicable loc "only result")
  | .round r => do
    ctx.expectMode loc "toConsensus" Mode.isStep
    let stage ← Eval.orFail r.stage (.notApplicable loc "toConsensus")
    let next ← r.fill loc stage args
    return .plain (.pub (.form formLoc (← Eval.freshTag) (.round next)))

/-- Applies a value to unevaluated arguments. -/
def apply (ev : Evaluator) (ctx : Ctx) (loc : Loc) (env : Bindings) (rator : Value)
    (rands : List Surface.Expr) : Eval (Lifted SecValue) :=
  match rator with
  | .prim .. | .closure .. => do
    let args ← ev.exprs ctx env rands
    let result ← ev.applyValues ctx loc env rator args.value
    return { code := args.code ++ result.code, value := result.value.value }
  | .form formLoc _ f => ev.applyForm ctx loc env formLoc f rands
  | _ => Eval.fail (.notApplicable loc rator.describe)

end Evaluator

end Choreography
