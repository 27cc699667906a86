import Choreography.Ir.Code

/-!
The locations of an intermediate program, which its text leaves out: for each statement where it
comes from, and through which applications it was reached.
-/

namespace Choreography.Ir

/-- The applications in progress, outermost first. -/
private def framesText (frames : List Frame) : String :=
  String.join (frames.map fun f =>
    " <" ++ f.callLoc.text ++ " " ++ f.defLoc.text ++ " " ++ f.name.getD "-" ++ ">")

private def exprFrames : Expr → String
  | .arrayRef frames .. => framesText frames
  | _ => ""

mutual

/-- What is listed for a statement, in program order. -/
def Stmt.sites : Stmt → List String
  | .letIn loc v e =>
    ["let@" ++ loc.text ++ " var@" ++ v.loc.text ++ " expr@" ++ loc.text ++ exprFrames e]
  | .claim loc frames _ _ => ["claim@" ++ loc.text ++ framesText frames]
  | .transfer loc frames _ _ => ["transfer@" ++ loc.text ++ framesText frames]
  | .stop loc frames => ["stop@" ++ loc.text ++ framesText frames]
  | .ret loc _ _ => ["return@" ++ loc.text]
  | .prompt loc _ _ body => ("prompt@" ++ loc.text) :: codeSites body
  | .branch loc _ onTrue onFalse =>
    ("if@" ++ loc.text) :: codeSites onTrue ++ "else" :: codeSites onFalse
  | .only loc _ body => ("only@" ++ loc.text) :: codeSites body
  | .toConsensus loc round => round.sites loc
  | .fromConsensus loc body => ("from-consensus@" ++ loc.text) :: codeSites body
  | .loop loc _ invariant cond body =>
    ("while@" ++ loc.text) :: invariant.sites "invariant" ++ cond.sites "cond"
      ++ "body" :: codeSites body
  | .cont loc _ => ["continue@" ++ loc.text]

def Transition.sites (loc : Loc) : Transition → List String
  | ⟨_, _, whoVar, _, _, timeout, body⟩ =>
    ("to-consensus@" ++ loc.text ++ " who@" ++ whoVar.loc.text)
      :: (match timeout with
        | some ⟨_, late⟩ => "timeout" :: codeSites late
        | none => [])
      ++ "body" :: codeSites body

def Block.sites (label : String) : Block → List String
  | ⟨loc, frames, code, _⟩ => (label ++ "@" ++ loc.text ++ framesText frames) :: codeSites code

/-- What is listed for statements in order. -/
def codeSites : List Stmt → List String
  | [] => []
  | s :: rest => s.sites ++ codeSites rest

end

end Choreography.Ir
