import Choreography.Source.Loc
import Choreography.Source.Table

/-!
Diagnostics and the log that collects them. A diagnostic can be written out only when its file
is registered, so rendering may be refused.
-/

namespace Choreography

inductive Severity
  | error
  | note
  deriving DecidableEq

def Severity.name : Severity → String
  | .error => "error"
  | .note => "note"

structure Diagnostic where
  severity : Severity
  loc : Loc
  /-- The kind of fault reported; empty when there is none to name. -/
  code : String
  message : String
  deriving DecidableEq

/-- One line of text: where, how severe, which kind, and the message. Synthetic locations show
the path alone. -/
def Diagnostic.format? (d : Diagnostic) (sources : SourceTable) : Option String :=
  (sources.path? d.loc.file).map fun path =>
    path ++ (if d.loc.isSynthetic then "" else s!":{d.loc.line}:{d.loc.column}")
      ++ ": " ++ d.severity.name ++ (if d.code.isEmpty then "" else "[" ++ d.code ++ "]")
      ++ ": " ++ d.message

/-- The modules of one compilation and what has been reported about them, oldest first. -/
structure Session where
  sources : SourceTable := {}
  log : List Diagnostic := []
  deriving Inhabited

namespace Session

def register (session : Session) (path : String) : Nat × Session :=
  let (id, sources) := session.sources.add path
  (id, { session with sources })

def report (session : Session) (d : Diagnostic) : Session :=
  { session with log := session.log ++ [d] }

def hasErrors (session : Session) : Bool :=
  session.log.any (·.severity == .error)

/-- Every diagnostic on a line of its own. -/
def render? (session : Session) : Option String :=
  (session.log.mapM fun (d : Diagnostic) =>
    (d.format? session.sources).map (· ++ "\n")).map String.join

end Session

end Choreography
