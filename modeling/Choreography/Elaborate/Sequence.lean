import Choreography.Elaborate.Evaluator

/-!
How statements follow each other: the ways out of several parts are put together, and some
statements must be the last of their list.
-/

namespace Choreography

def Surface.dropEmpty (stmts : List Surface.Stmt) : List Surface.Stmt :=
  stmts.filter fun s => !s.isEmpty

namespace Exit

/-- Falling off the end. -/
def implicit (loc : Loc) (level : Level) : Exit := { loc, value := ⟨level, .null loc⟩ }

/-- The same way out, as secret as `level` asks for. -/
def taint (level : Level) (exit : Exit) : Exit := { exit with value := exit.value.taint level }

/-- Joins the ways out of two alternatives. When only one of them returns, falling off the end of
the other counts as a way out too. -/
def combine (loc : Loc) (level : Level) (left right : List Exit) : List Exit :=
  let orImplicit (exits : List Exit) := if exits.isEmpty then [implicit loc level] else exits
  if left.isEmpty && right.isEmpty then [] else orImplicit left ++ orImplicit right

end Exit

/-- Stops unless nothing follows. -/
def expectLast (loc : Loc) : List Surface.Stmt → Eval Unit
  | [] => pure ()
  | s :: rest => Eval.fail (.tailNotEmpty (s.loc.orElse loc) (rest.length + 1))

/-- Goes on after statements that have been evaluated. Once they may have returned, falling off
the end must return as well. -/
def Evaluator.continueWith (ev : Evaluator) (ctx : Ctx) (loc : Loc) (scope : Scope)
    (first : Lifted Outcome) (rest : List Surface.Stmt) : Eval (Lifted Outcome) :=
  match Surface.dropEmpty rest with
  | [] => pure first
  | rest => do
    let style := if first.value.exits.isEmpty then scope.style else .implicitNull
    let next ← ev.stmts ctx loc { scope with style } rest
    return { code := first.code ++ next.code,
             value := { env := next.value.env, exits := first.value.exits ++ next.value.exits } }

end Choreography
