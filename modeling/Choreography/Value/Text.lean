import Choreography.Value.Basic

/-!
The text of values, as emitted programs and answers show them.
-/

namespace Choreography

namespace Value

mutual

/-- Values as programs and messages show them. -/
def text : Value → String
  | .null _ => "null"
  | .bool _ b => if b then "true" else "false"
  | .int _ n => Integer.decimal n
  | .bytes _ s => Text.quoted s
  | .type _ t => "type " ++ t.full
  | .var v => v.text
  | .tuple _ elems => "[" ++ String.intercalate ", " (texts elems) ++ "]"
  | .object _ ⟨fields⟩ => "\x7b" ++ String.intercalate ", " (fieldTexts fields) ++ "\x7d"
  | .closure _ c => "<closure " ++ c.name.getD "anonymous" ++ ">"
  | .prim _ p => "<primitive " ++ p.name ++ ">"
  | .form .. => "<form>"
  | .participant _ p => "<participant " ++ p.who ++ ">"

def texts : List Value → List String
  | [] => []
  | v :: vs => text v :: texts vs

def fieldTexts : List (String × Labelled Value) → List String
  | [] => []
  | (name, ⟨_, v⟩) :: fields => (name ++ ": " ++ text v) :: fieldTexts fields

end

end Value

end Choreography
