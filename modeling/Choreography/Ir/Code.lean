import Choreography.OrderedMap
import Choreography.Value.Basic

/-!
Intermediate programs. They are linear: every move between a participant's private knowledge and
the shared ledger, and every point where control flow joins, is a statement of its own.
-/

namespace Choreography.Ir

/-- Variables with what is assigned to them. -/
abbrev Assignment := List (Var × Arg)

mutual

inductive Stmt
  | letIn (loc : Loc) (v : Var) (e : Expr)
  | claim (loc : Loc) (frames : List Frame) (c : Claim) (arg : Arg)
  | transfer (loc : Loc) (frames : List Frame) (recipient amount : Arg)
  | stop (loc : Loc) (frames : List Frame)
  /-- Delivers a value to the enclosing prompt that owns the slot. -/
  | ret (loc : Loc) (slot : Nat) (value : Option Value)
  /-- Delimits the returns to its slot. The result names the value when there is more than one
  way out. -/
  | prompt (loc : Loc) (slot : Nat) (result : Option Var) (body : List Stmt)
  | branch (loc : Loc) (cond : Arg) (onTrue onFalse : List Stmt)
  | only (loc : Loc) (who : String) (body : List Stmt)
  | toConsensus (loc : Loc) (round : Transition)
  | fromConsensus (loc : Loc) (body : List Stmt)
  | loop (loc : Loc) (init : Assignment) (invariant cond : Block) (body : List Stmt)
  | cont (loc : Loc) (assignment : Assignment)

/-- The step of all participants into consensus. -/
structure Transition where
  who : String
  /-- Whether the sender joins the ledger with this round; later rounds use the same address. -/
  join : Bool
  whoVar : Var
  /-- What is published, with the variables that everyone else knows it by. -/
  messages : List (Arg × Var)
  amount : Arg
  timeout : Option Deadline
  body : List Stmt

/-- How long a round waits, and what happens after that. -/
structure Deadline where
  delay : Arg
  body : List Stmt

/-- A computation of its own that ends in a value. -/
structure Block where
  loc : Loc
  frames : List Frame
  code : List Stmt
  result : Arg

end

instance : Inhabited Stmt := ⟨.stop default []⟩

abbrev Code := List Stmt

structure Program where
  loc : Loc
  /-- What each participant's frontend offers, by participant and by method. -/
  participants : NameMap (NameMap Ty)
  body : Code

mutual

/-- The statement has no effect that anyone can observe. -/
def Stmt.isPure : Stmt → Bool
  | .letIn _ _ e => e.isPure
  | .branch _ _ onTrue onFalse => codeIsPure onTrue && codeIsPure onFalse
  | .prompt _ _ _ body => codeIsPure body
  | .ret .. => true
  | .claim .. | .transfer .. | .stop .. | .only .. | .toConsensus .. | .fromConsensus ..
  | .loop .. | .cont .. => false

/-- No statement has an effect that anyone can observe. -/
def codeIsPure : List Stmt → Bool
  | [] => true
  | s :: rest => s.isPure && codeIsPure rest

end

end Choreography.Ir
