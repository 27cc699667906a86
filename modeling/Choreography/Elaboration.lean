import Choreography.Compile

/-!
An elaboration in progress: the session it reports to, and what later operations depend on. The
first fault is reported to the session's log and remembered; later ones change nothing.
-/

namespace Choreography

structure Elaboration where
  session : Session := {}
  options : Options := {}
  firstFault : Option Fault := none
  supply : Supply := {}

namespace Elaboration

def failed (e : Elaboration) : Bool := e.firstFault.isSome

/-- Remembers and reports a fault, unless there was one before. -/
def record (e : Elaboration) (f : Fault) : Elaboration :=
  match e.firstFault with
  | some _ => e
  | none =>
    { e with
      firstFault := some f
      session := e.session.report (f.diagnostic e.options.maxSuggestions) }

/-- Performs an operation: its result if it has one, and the elaboration after it. -/
def perform {α : Type} (e : Elaboration) (x : Eval α) : Except Stop α × Elaboration :=
  match x.runFrom e.supply with
  | (.error (.fault f), supply) => (.error (.fault f), { e with supply }.record f)
  | (result, supply) => (result, { e with supply })

/-! ### Operations -/

def evalExpr (fuel : Nat) (ctx : Ctx) (env : Bindings) (e : Surface.Expr) :
    Eval (Lifted SecValue) :=
  (evaluator fuel).expr ctx env e

def evalExprs (fuel : Nat) (ctx : Ctx) (env : Bindings) (es : List Surface.Expr) :
    Eval (Lifted (List SecValue)) :=
  (evaluator fuel).exprs ctx env es

def evalStmts (fuel : Nat) (ctx : Ctx) (loc : Loc) (scope : Scope) (stmts : List Surface.Stmt) :
    Eval (Lifted Outcome) :=
  (evaluator fuel).stmts ctx loc scope stmts

def applyValues (fuel : Nat) (ctx : Ctx) (loc : Loc) (env : Bindings) (rator : Value)
    (args : List SecValue) : Eval (Lifted Applied) :=
  (evaluator fuel).applyValues ctx loc env rator args

end Elaboration

/-- Compiles a bundle and reports the first fault to the session. -/
def compileBundle (fuel : Nat) (options : Options) (session : Session) (bundle : Bundle)
    (top : String) : Except Stop Ir.Program × Session :=
  let (result, e) := Elaboration.perform { session, options }
    (compile fuel options session.sources bundle top)
  (result, e.session)

/-- Links a bundle and reports the first fault to the session. -/
def linkBundle (fuel : Nat) (options : Options) (session : Session) (bundle : Bundle) :
    Except Stop Libraries × Session :=
  let (result, e) := Elaboration.perform { session, options }
    (link fuel options session.sources bundle)
  (result, e.session)

end Choreography
