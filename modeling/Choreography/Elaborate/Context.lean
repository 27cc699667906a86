import Choreography.Elaborate.Eval

/-!
What the evaluation of a program depends on besides its environment: the mode, which says where
in the protocol it is, and the scope, which says where returns and continues go.
-/

namespace Choreography

/-- The participants as the protocol knows them: the addresses of those on the ledger, and the
private view of each. -/
structure Parties where
  joined : NameMap Ir.Var := {}
  views : NameMap Bindings := {}
  deriving Inhabited

/-- Where in the protocol evaluation is. -/
inductive Mode
  /-- At the top level of a module. -/
  | module
  /-- Between rounds, where participants act on their own. -/
  | step (parties : Parties)
  /-- Inside an `only`, before its function is applied. -/
  | pureLocal
  /-- Inside the function of an `only`. -/
  | localStep
  /-- Inside a round, with the environment that was shared when it opened. -/
  | consensus (opened : Bindings) (parties : Parties)
  deriving Inhabited

namespace Mode

def names : List String := ["module", "step", "pure computation", "local step", "consensus step"]

def name : Mode → String
  | .module => "module"
  | .step _ => "step"
  | .pureLocal => "pure computation"
  | .localStep => "local step"
  | .consensus .. => "consensus step"

end Mode

structure Ctx where
  mode : Mode
  /-- Whether code may be emitted at all. -/
  canLift : Bool
  /-- The applications in progress, outermost first. -/
  frames : List Ir.Frame := []
  /-- The names that the enclosing declaration binds, for display. -/
  localNames : Option (List String) := none
  deriving Inhabited

/-- What may happen at the end of a list of statements. -/
inductive ReturnStyle
  /-- Falling off the end returns null. -/
  | implicitNull
  | needExplicit
  | cannotReturn
  | mayBeEmpty
  deriving DecidableEq, Inhabited

structure Scope where
  /-- Where `return` delivers its value. -/
  slot : Option Nat := none
  style : ReturnStyle := .cannotReturn
  env : Bindings := {}
  /-- The variables of the enclosing loop. -/
  loopVars : Option (NameMap Ir.Var) := none
  deriving Inhabited

/-- One way in which statements return. -/
structure Exit where
  loc : Loc
  value : SecValue

/-- What a list of statements leaves behind: its bindings, and the ways in which it returns. -/
structure Outcome where
  env : Bindings
  exits : List Exit := []

/-- What an application leaves behind: the bindings at the end of the function's body, and its
value. -/
structure Applied where
  env : Bindings
  value : SecValue

namespace Ctx

/-- How a variable or closure made here is displayed: by what it is, and by the names that are
being declared. -/
def localName (ctx : Ctx) (label : String) : String :=
  match ctx.localNames with
  | none => label
  | some [name] => name ++ " (as " ++ label ++ ")"
  | some names => "one of " ++ Text.nameList names ++ " (as " ++ label ++ ")"

/-- A new number for a variable or a slot, where code may be emitted. -/
def alloc (ctx : Ctx) (loc : Loc) : Eval Nat :=
  if ctx.canLift then Eval.freshId else Eval.fail (.illegalLift loc ctx.mode.name)

/-- Names the result of a computation by a new variable. -/
def lift (ctx : Ctx) (loc : Loc) (label : String) (type : Ty) (e : Ir.Expr) :
    Eval (Lifted Ir.Var) := do
  let id ← ctx.alloc loc
  let v : Ir.Var := { loc, name := ctx.localName label, type, id }
  return { code := [.letIn loc v e], value := v }

/-- Emits a computation and gives the value that stands for its result. -/
def liftValue (ctx : Ctx) (loc : Loc) (label : String) (type : Ty) (e : Ir.Expr) (level : Level) :
    Eval (Lifted SecValue) := do
  let lifted ← ctx.lift loc label type e
  return { code := lifted.code, value := ⟨level, .var lifted.value⟩ }

/-- Stops unless an operation may be used in the present mode. -/
def expectMode (ctx : Ctx) (loc : Loc) (operation : String) (allowed : Mode → Bool) : Eval Unit :=
  Eval.ensure (allowed ctx.mode) (.wrongMode loc operation ctx.mode.name)

end Ctx

end Choreography
