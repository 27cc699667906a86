import Choreography.Ir.Code
import Choreography.Surface.Outline
import Choreography.Value.Text

/-!
The text of intermediate programs: one statement a line, bodies indented between braces.
-/

namespace Choreography.Ir

open Outline (indent)

private def assignmentText (assignment : Assignment) : String :=
  "[" ++ String.intercalate ", " (assignment.map fun (v, a) => v.text ++ " = " ++ a.text) ++ "]"

private def messagesText (messages : List (Arg × Var)) : String :=
  String.intercalate ", " (messages.map fun (a, v) => a.text ++ " -> " ++ v.text)

/-- Indented lines between braces; the closing brace stands at the level of the statement. -/
private def braced (level : Int) (lines : String) : String :=
  "\x7b\n" ++ lines ++ indent level ++ "\x7d"

mutual

def Stmt.text (level : Int) : Stmt → String
  | .letIn _ v e => "let " ++ v.text ++ " : " ++ v.type.full ++ " = " ++ e.text
  | .claim _ _ c arg => "claim " ++ c.name ++ " " ++ arg.text
  | .transfer _ _ recipient amount => "transfer " ++ amount.text ++ " to " ++ recipient.text
  | .stop _ _ => "stop"
  | .ret _ slot value =>
    "return#" ++ toString slot ++ " " ++ (match value with
      | some value => value.text
      | none => "")
  | .prompt _ slot result body =>
    "prompt#" ++ toString slot ++ (match result with
      | some v => " -> " ++ v.text ++ " : " ++ v.type.full
      | none => "") ++ " " ++ braced level (codeText (level + 1) body)
  | .branch _ cond onTrue onFalse =>
    "if " ++ cond.text ++ " " ++ braced level (codeText (level + 1) onTrue)
      ++ " else " ++ braced level (codeText (level + 1) onFalse)
  | .only _ who body => "only " ++ who ++ " " ++ braced level (codeText (level + 1) body)
  | .toConsensus _ round => round.text level
  | .fromConsensus _ body => "from-consensus " ++ braced level (codeText (level + 1) body)
  | .loop _ init invariant cond body =>
    "while " ++ assignmentText init ++ " invariant " ++ invariant.text level
      ++ " cond " ++ cond.text level ++ " " ++ braced level (codeText (level + 1) body)
  | .cont _ assignment => "continue " ++ assignmentText assignment

def Transition.text (level : Int) : Transition → String
  | ⟨who, join, whoVar, messages, amount, timeout, body⟩ =>
    "to-consensus " ++ who ++ (if join then " join " else " again ") ++ whoVar.text
      ++ " publish(" ++ messagesText messages ++ ") pay " ++ amount.text
      ++ (match timeout with
        | some ⟨delay, late⟩ =>
          " timeout " ++ delay.text ++ " " ++ braced level (codeText (level + 1) late)
        | none => "")
      ++ " " ++ braced level (codeText (level + 1) body)

def Block.text (level : Int) : Block → String
  | ⟨_, _, code, result⟩ =>
    braced level (codeText (level + 1) code ++ indent (level + 1) ++ "result " ++ result.text ++ "\n")

/-- Each statement on lines of its own, from the given level of nesting on. -/
def codeText (level : Int) : List Stmt → String
  | [] => ""
  | s :: rest => indent level ++ s.text level ++ "\n" ++ codeText level rest

end

/-- One line for a participant, with what its frontend offers. -/
private def interfaceText (who : String) (interface : NameMap Ty) : String :=
  "participant " ++ who ++ " \x7b" ++
    (if interface.entries.isEmpty then "\x7d\n"
     else " " ++ String.intercalate ", " (interface.entries.map fun (field, t) =>
      field ++ ": " ++ t.full) ++ " \x7d\n")

/-- The participants of a program, then its statements. -/
def Program.text (p : Program) : String :=
  String.join (p.participants.entries.map fun (who, interface) => interfaceText who interface)
    ++ codeText 0 p.body

end Choreography.Ir
