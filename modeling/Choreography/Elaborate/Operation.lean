import Choreography.Elaborate.Binding
import Choreography.Elaborate.Context
import Choreography.Elaborate.Typing

/-!
Operations. Applied to integer constants most of them are computed at once; otherwise they are
emitted.
-/

namespace Choreography

/-- The result of an operation on two integer constants, for the operations that are computed
during elaboration. Division is left to the run. -/
def Ir.Op.fold? (op : Ir.Op) (loc : Loc) (a b : Int) : Option Value :=
  match op with
  | .add => some (.int loc (a + b))
  | .sub => some (.int loc (a - b))
  | .mul => some (.int loc (a * b))
  | .bitAnd => some (.int loc (Integer.land a b))
  | .bitOr => some (.int loc (Integer.lor a b))
  | .bitXor => some (.int loc (Integer.lxor a b))
  | .shiftLeft => (Integer.shiftLeft a b).map (.int loc)
  | .shiftRight => (Integer.shiftRight a b).map (.int loc)
  | .lt => some (.bool loc (a < b))
  | .le => some (.bool loc (a ≤ b))
  | .eq => some (.bool loc (a = b))
  | .ge => some (.bool loc (a ≥ b))
  | .gt => some (.bool loc (a > b))
  | .div | .mod | .ifThenElse | .bytesEq | .balance | .txnValue => none

/-- The value of an operation that is known during elaboration. -/
def Ir.Op.constant? (op : Ir.Op) (loc : Loc) (args : List SecValue) : Option Value :=
  match args with
  | [⟨_, .int _ a⟩, ⟨_, .int _ b⟩] => op.fold? loc a b
  | _ => none

/-- Applies an operation. The result is as secret as the most secret argument. -/
def Ctx.applyOp (ctx : Ctx) (loc : Loc) (op : Ir.Op) (args : List SecValue) :
    Eval (Lifted SecValue) :=
  match op.constant? loc args with
  | some v => pure (.plain ⟨Labelled.levelOf args, v⟩)
  | none => do
    let (type, operands) ← op.type.convert loc (args.map (·.value))
    ctx.liftValue loc "prim" type (.prim op operands) (Labelled.levelOf args)

/-- The value that a binary operator applies: an operation, or a function of the standard
library. -/
def Surface.BinaryOp.rator (op : Surface.BinaryOp) (loc : Loc) (env : Bindings) : Eval Value :=
  let operation (o : Ir.Op) : Eval Value := pure (.prim .synthetic (.op o))
  let function (name : String) : Eval Value := do
    let sv ← env.lookup loc name
    return sv.value
  match op with
  | .and => function "and"
  | .or => function "or"
  | .neq => function "neq"
  | .strictNeq => function "bytes_neq"
  | .strictEq => operation .bytesEq
  | .eq => operation .eq
  | .plus => operation .add
  | .minus => operation .sub
  | .times => operation .mul
  | .divide => operation .div
  | .mod => operation .mod
  | .lt => operation .lt
  | .le => operation .le
  | .gt => operation .gt
  | .ge => operation .ge
  | .shiftLeft => operation .shiftLeft
  | .shiftRight => operation .shiftRight
  | .bitAnd => operation .bitAnd
  | .bitOr => operation .bitOr
  | .bitXor => operation .bitXor
  | .shiftRightUnsigned | .inside | .instanceOf => Eval.fail (.foreignBinary loc op.symbol)

/-- The function of the standard library that a unary operator applies. -/
def Surface.UnaryOp.rator (op : Surface.UnaryOp) (loc : Loc) (env : Bindings) : Eval Value :=
  let function (name : String) : Eval Value := do
    let sv ← env.lookup loc name
    return sv.value
  match op with
  | .minus => function "minus"
  | .not => function "not"
  | .plus | .bitNot | .typeOf | .void | .delete | .increment | .decrement =>
    Eval.fail (.foreignUnary loc op.symbol)

end Choreography
