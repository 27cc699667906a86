import Choreography.Elaborate.Operation

/-!
Application of primitives. Each primitive checks its mode and its arguments; which check comes
first is part of the language, because it decides which fault a program with both mistakes has.
-/

namespace Choreography

/-- The types that a list of values denotes, when all of them are types. -/
def Value.types? (values : List Value) : Option (List Ty) :=
  values.mapM fun
    | .type _ t => some t
    | _ => none

/-- The fields that an object of types denotes. -/
def Value.fieldTypes? (fields : Bindings) : Option (List (String × Ty)) :=
  fields.entries.mapM fun
    | (name, ⟨_, .type _ t⟩) => some (name, t)
    | _ => none

/-- The type that a type constructor makes of its arguments. -/
def Prim.makeType? : Prim → List Value → Option Ty
  | .funType, [.tuple _ dom, .type _ rng] => (Value.types? dom).map (.func · rng)
  | .arrayType, [.type _ elem, .int _ n] => (Integer.count? n).map (.array elem ·)
  | .tupleType, elems => (Value.types? elems).map .tuple
  | .objectType, [.object _ fields] => (Value.fieldTypes? fields).map .objectOf
  | _, _ => none

/-- The body of the function that tells the members of an enumeration: whether its argument is at
least zero and below `n`. -/
def enumBody (loc : Loc) (n : Nat) : Surface.Block :=
  .returning loc (.binary loc .and
    (.binary loc .le (.int loc "0" 10) (.ident loc "x"))
    (.binary loc .lt (.ident loc "x") (.int loc (Integer.decimal n) 10)))

namespace Mode

def isModule : Mode → Bool
  | .module => true
  | _ => false

def isStep : Mode → Bool
  | .step _ => true
  | _ => false

def isLocalStep : Mode → Bool
  | .localStep => true
  | _ => false

def isConsensus : Mode → Bool
  | .consensus .. => true
  | _ => false

end Mode

namespace Ctx

/-- An enumeration of `n` members: the function that tells them, then the members. -/
def makeEnum (ctx : Ctx) (loc : Loc) (env : Bindings) (n : Nat) : Eval Value := do
  let tag ← Eval.freshTag
  let member : Closure :=
    { loc, name := some (ctx.localName "makeEnum"), formals := ["x"], body := enumBody loc n, env }
  return .tuple loc (.closure tag member :: (List.range n).map fun (i : Nat) => .int loc i)

/-- Asks a participant's own frontend, which only that participant's private code may do. The
answer is secret. -/
def askFrontend (ctx : Ctx) (loc : Loc) (who method : String) (type : Ty) (args : List Value) :
    Eval (Lifted SecValue) := do
  ctx.expectMode loc "interact" Mode.isLocalStep
  let (rng, operands) ← type.convert loc args
  ctx.liftValue loc "interact" rng (.interact who method rng operands) .secret

/-- States a claim about a boolean. -/
def claim (ctx : Ctx) (loc : Loc) (c : Ir.Claim) (args : List Value) : Eval (Lifted SecValue) := do
  let (_, operands) ← Ty.convert (.func [.bool] .null) loc args
  return { code := operands.map (.claim loc ctx.frames c), value := .pub (.null loc) }

/-- Digests any number of values of any types. -/
def digest (ctx : Ctx) (loc : Loc) (args : List SecValue) : Eval (Lifted SecValue) := do
  let typed ← Value.typeOfAll loc (args.map (·.value))
  ctx.liftValue loc "digest" .uint256 (.digest (typed.map (·.2))) (Labelled.levelOf args)

/-- Begins a transfer: an object whose field `to` takes the recipient. The amount must be public;
`invalid` is the fault of arguments that are not an amount. -/
def beginTransfer (ctx : Ctx) (loc : Loc) (args : List SecValue) (invalid : Fault) :
    Eval (Lifted SecValue) := do
  ctx.expectMode loc "transfer" Mode.isConsensus
  match args with
  | [arg] =>
    let amount ← arg.requirePublic loc
    match amount.typed? with
    | some (.uint256, operand) =>
      let tag ← Eval.freshTag
      let take : SecValue := .pub (.prim loc (.transferTo tag operand))
      return .plain (.pub (.object loc (.ofList [("to", take)])))
    | _ => Eval.fail invalid
  | _ => Eval.fail invalid

/-- Transfers an amount to an address. -/
def transferTo (ctx : Ctx) (loc : Loc) (amount : Ir.Arg) (args : List Value) :
    Eval (Lifted SecValue) := do
  ctx.expectMode loc "transfer.to" Mode.isConsensus
  let (_, operands) ← Ty.convert (.func [.address] .null) loc args
  return { code := operands.map (.transfer loc ctx.frames · amount), value := .pub (.null loc) }

/-- Marks the end of a round. -/
def commit (ctx : Ctx) (loc : Loc) (args : List SecValue) (invalid : Fault) :
    Eval (Lifted SecValue) := do
  Eval.ensure args.isEmpty invalid
  ctx.expectMode loc "commit" Mode.isConsensus
  return .plain (.pub (.prim loc .committed))

/-- Ends the protocol. -/
def exit (ctx : Ctx) (loc : Loc) (args : List SecValue) (invalid : Fault) :
    Eval (Lifted SecValue) := do
  ctx.expectMode loc "exit" Mode.isStep
  Eval.ensure args.isEmpty invalid
  return { code := [.stop loc ctx.frames], value := .pub (.prim loc .exited) }

/-- Applies a primitive to evaluated arguments. -/
def applyPrim (ctx : Ctx) (loc : Loc) (env : Bindings) (p : Prim) (args : List SecValue) :
    Eval (Lifted SecValue) :=
  let values : List Value := args.map (·.value)
  let invalid : Fault := .primitiveArgs loc p.name (values.map (·.describe))
  match p with
  | .op o => ctx.applyOp loc o args
  | .funType | .arrayType | .tupleType | .objectType => do
    let t ← Eval.orFail (p.makeType? values) invalid
    return .plain ⟨Labelled.levelOf args, .type loc t⟩
  | .makeEnum =>
    match args with
    | [⟨level, .int enumLoc n⟩] => do
      let count ← Eval.orFail (Integer.count? n) invalid
      let enumeration ← ctx.makeEnum enumLoc env count
      return .plain ⟨level, enumeration⟩
    | _ => Eval.fail invalid
  | .app .. => Eval.fail (.notApplicable loc "Reach.App")
  | .interact who method type => ctx.askFrontend loc who method type values
  | .declassify =>
    match args with
    | [arg] => do
      let known ← arg.declassify loc
      return .plain known
    | _ => Eval.fail invalid
  | .commit => ctx.commit loc args invalid
  | .digest => ctx.digest loc args
  | .claim c => ctx.claim loc c values
  | .transfer => ctx.beginTransfer loc args invalid
  | .transferTo _ amount => ctx.transferTo loc amount values
  | .exit => ctx.exit loc args invalid
  | .committed | .exited => Eval.fail invalid

end Ctx

end Choreography
