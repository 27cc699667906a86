import Choreography.Env
import Choreography.Ir.Arg
import Choreography.Level
import Choreography.Surface.Tree

/-!
Values of elaboration. Data is compared by content. Closures, forms, participants and two of the
primitives are compared by identity, which is modelled by a tag drawn when the value is made.
-/

namespace Choreography

/-- Identity of values that are not compared by content. -/
abbrev Tag := Nat

/-- A party to the protocol. -/
structure Participant where
  loc : Loc
  who : String
  /-- Where the participant's interface was written, and what it offers. -/
  interfaceLoc : Loc
  interface : List (String × Ty)
  /-- The name under which programs first referred to the participant. -/
  displayName : Option String
  /-- The address with which the participant joined the ledger, once it has. -/
  address : Option Ir.Var
  deriving Inhabited

/-- The stages that make up a round. -/
inductive Stage
  | publish | pay | timeout
  deriving DecidableEq, Inhabited

namespace Stage

def all : List Stage := [.publish, .pay, .timeout]

def name : Stage → String
  | .publish => "publish"
  | .pay => "pay"
  | .timeout => "timeout"

end Stage

/-- What happens when a round's sender stays away for too long. -/
structure Timeout where
  loc : Loc
  delay : Surface.Expr
  handler : Surface.Block

/-- A round under construction: the participant that sends, and the stages filled in so far. -/
structure Round where
  who : String
  displayName : Option String
  /-- The stage that the next application fills in. -/
  stage : Option Stage
  publish : Option (List String) := none
  pay : Option Surface.Expr := none
  timeout : Option Timeout := none

mutual

inductive Value
  | null (loc : Loc)
  | bool (loc : Loc) (b : Bool)
  | int (loc : Loc) (n : Int)
  | bytes (loc : Loc) (s : String)
  | closure (tag : Tag) (c : Closure)
  | prim (loc : Loc) (p : Prim)
  | form (loc : Loc) (tag : Tag) (f : Form)
  | type (loc : Loc) (t : Ty)
  | tuple (loc : Loc) (elems : List Value)
  | object (loc : Loc) (fields : Env (Labelled Value))
  | participant (tag : Tag) (p : Participant)
  /-- Known only at run time. -/
  | var (v : Ir.Var)

/-- A function together with the environment it was written in. -/
structure Closure where
  loc : Loc
  name : Option String
  formals : List String
  body : Surface.Block
  env : Env (Labelled Value)

/-- Built-in functions, and what some of them answer. -/
inductive Prim
  | op (o : Ir.Op)
  | claim (c : Ir.Claim)
  | interact (who method : String) (type : Ty)
  | declassify
  | commit
  | committed
  | digest
  | transfer
  | transferTo (tag : Tag) (amount : Ir.Arg)
  | exit
  | exited
  | arrayType
  | tupleType
  | objectType
  | funType
  | makeEnum
  /-- An app whose body waits to be compiled. -/
  | app (tag : Tag) (a : App)

/-- A protocol: its options, its participants, and its body with the environment it runs in. -/
structure App where
  options : Env (Labelled Value)
  parts : List Participant
  body : Surface.Block
  env : Env (Labelled Value)

/-- Constructs that see their arguments unevaluated. -/
inductive Form
  | app
  | only (who : String)
  | round (r : Round)
  /-- A finished `only`: the participant's view after it, and the result. -/
  | onlyDone (who : String) (view : Env (Labelled Value)) (result : Labelled Value)

end

instance : Inhabited Value := ⟨.null default⟩

/-- A value and who may know it. -/
abbrev SecValue := Labelled Value

/-- The bindings that programs are evaluated in. -/
abbrev Bindings := Env SecValue

namespace Value

def loc : Value → Loc
  | .null loc | .bool loc _ | .int loc _ | .bytes loc _ | .prim loc _ | .form loc _ _ | .type loc _
  | .tuple loc _ | .object loc _ => loc
  | .closure _ c => c.loc
  | .participant _ p => p.loc
  | .var v => v.loc

def kindNames : List String :=
  ["null", "bool", "int", "bytes", "closure", "primitive", "form", "type", "tuple", "object",
   "participant", "ir var"]

/-- The kind of a value, as faults call it. -/
def kindName : Value → String
  | .null _ => "null"
  | .bool .. => "bool"
  | .int .. => "int"
  | .bytes .. => "bytes"
  | .closure .. => "closure"
  | .prim .. => "primitive"
  | .form .. => "form"
  | .type .. => "type"
  | .tuple .. => "tuple"
  | .object .. => "object"
  | .participant .. => "participant"
  | .var _ => "ir var"

end Value

namespace Prim

def names : List String :=
  ["op", "claim", "interact", "declassify", "commit", "committed", "digest", "transfer",
   "transfer_amt_to", "exit", "exitted", "Array", "Tuple", "Object", "Fun", "makeEnum", "App_Delay"]

def name : Prim → String
  | .op _ => "op"
  | .claim _ => "claim"
  | .interact .. => "interact"
  | .declassify => "declassify"
  | .commit => "commit"
  | .committed => "committed"
  | .digest => "digest"
  | .transfer => "transfer"
  | .transferTo .. => "transfer_amt_to"
  | .exit => "exit"
  | .exited => "exitted"
  | .arrayType => "Array"
  | .tupleType => "Tuple"
  | .objectType => "Object"
  | .funType => "Fun"
  | .makeEnum => "makeEnum"
  | .app .. => "App_Delay"

end Prim

/-- The object through which a participant's own code reaches its interface. Everything it offers
is secret. -/
def Participant.interactValue (p : Participant) : Value :=
  .object p.interfaceLoc ⟨p.interface.map fun (method, type) =>
    (method, .secret (.prim p.interfaceLoc (.interact p.who method type)))⟩

end Choreography
