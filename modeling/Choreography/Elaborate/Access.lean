import Choreography.Elaborate.Context
import Choreography.Elaborate.Typing

/-!
Access to the parts of values: fields of objects, the constructs that participants and rounds
offer like fields, and elements of arrays and tuples.
-/

namespace Choreography

/-- A field of an object that is only known at run time. -/
def Ctx.fieldRef (ctx : Ctx) (loc : Loc) (type : Ty) (object : Ir.Arg) (field : String)
    (level : Level) : Eval (Lifted SecValue) :=
  match type.field? field with
  | some fieldType => ctx.liftValue loc "object ref" fieldType (.objectRef object field) level
  | none => Eval.fail (.noField loc field type.fieldNames)

/-- The stages by which a participant can begin a round, and those that a round can go on with. -/
def Stage.ofField? (stages : List Stage) (field : String) : Option Stage :=
  stages.find? (·.name == field)

/-- What a participant offers: private computation, and the beginnings of a round. -/
def Participant.field (p : Participant) (loc : Loc) (field : String) : Eval Value := do
  if field = "only" then
    return .form loc (← Eval.freshTag) (.only p.who)
  else
    match Stage.ofField? [.publish, .pay] field with
    | some stage =>
      let round : Round := { who := p.who, displayName := p.displayName, stage := some stage }
      return .form loc (← Eval.freshTag) (.round round)
    | none => Eval.fail (.noField loc field ["only", "publish", "pay"])

/-- The next stage of a round. The round keeps the location where it began. -/
def Round.field (r : Round) (loc roundLoc : Loc) (field : String) : Eval Value := do
  match Stage.ofField? Stage.all field with
  | some stage =>
    return .form roundLoc (← Eval.freshTag) (.round { r with stage := some stage })
  | none => Eval.fail (.noField loc field (Stage.all.map (·.name)))

/-- The field of a value. -/
def Ctx.field (ctx : Ctx) (loc : Loc) (v : Value) (field : String) : Eval (Lifted SecValue) :=
  let notObject : Eval (Lifted SecValue) := Eval.fail (.notObject loc v.describe)
  match v with
  | .object _ fields =>
    match fields.find? field with
    | some sv => pure (.plain sv)
    | none => Eval.fail (.noField loc field fields.names)
  | .var x =>
    match x.type with
    | .object _ => ctx.fieldRef loc x.type (.var x) field .pub
    | _ => notObject
  | .prim _ (.interact who method type) =>
    match type with
    | .object _ => ctx.fieldRef loc type (.interact who method type) field .secret
    | _ => notObject
  | .participant _ p => do
    let construct ← p.field loc field
    return .plain (.pub construct)
  | .form roundLoc _ (.round r) =>
    match r.stage with
    | some _ => notObject
    | none => do
      let construct ← r.field loc roundLoc field
      return .plain (.pub construct)
  | _ => notObject

/-- A constant index, which must lie below the size. -/
def checkIndex (loc : Loc) (size : Nat) (index : Int) : Eval Nat :=
  match Integer.count? index with
  | some i => if i < size then pure i else Eval.fail (.outOfBounds loc size index)
  | none => Eval.fail (.outOfBounds loc size index)

/-- The element of an array that is only known at run time. -/
def Ctx.arrayRef (ctx : Ctx) (loc : Loc) (array : Ir.Var) (elem : Ty) (size : Nat) (index : Ir.Arg)
    (level : Level) : Eval (Lifted SecValue) :=
  ctx.liftValue loc "ref" elem (.arrayRef ctx.frames (.var array) size index) level

/-- The element of a value at an index. Only arrays take an index that is not constant. -/
def Ctx.element (ctx : Ctx) (loc : Loc) (v index : Value) (level : Level) :
    Eval (Lifted SecValue) := do
  match index with
  | .int _ n =>
    match v with
    | .tuple _ elems =>
      let i ← checkIndex loc elems.length n
      let elem ← Eval.orFail elems[i]? (.outOfBounds loc elems.length n)
      return .plain ⟨level, elem⟩
    | .var x =>
      match x.type with
      | .tuple elems =>
        let i ← checkIndex loc elems.length n
        let elem ← Eval.orFail elems[i]? (.outOfBounds loc elems.length n)
        ctx.liftValue loc "ref" elem (.tupleRef (.var x) i) level
      | .array elem size =>
        let _ ← checkIndex loc size n
        ctx.arrayRef loc x elem size (.int n) level
      | _ => Eval.fail (.notIndexable loc v.describe)
    | _ => Eval.fail (.notIndexable loc v.describe)
  | .var i =>
    if i.type = .uint256 then
      match v with
      | .var x =>
        match x.type with
        | .array elem size => ctx.arrayRef loc x elem size (.var i) level
        | _ => Eval.fail (.indirectNotArray loc v.describe)
      | _ => Eval.fail (.indirectNotArray loc v.describe)
    else Eval.fail (.indexNotInt loc index.describe)
  | _ => Eval.fail (.indexNotInt loc index.describe)

end Choreography
