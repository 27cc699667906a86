import Choreography.Text.EditDistance
import Choreography.Text.Escape

/-!
Suggestions for a name that was not found: the names in scope that are closest to it.
-/

namespace Choreography.Suggestion

/-- How far a candidate is from the text that was written, in bytes to edit. -/
def distance (wanted candidate : String) : Nat :=
  Text.editDistance (Text.bytes wanted) (Text.bytes candidate)

/-- The nearer candidate comes first, and of equally near ones the first by name. -/
def precedes (a b : Nat × String) : Bool :=
  a.1 < b.1 || (a.1 == b.1 && decide (a.2 ≤ b.2))

/-- The closest candidates, at most `limit` of them, best first. -/
def closest (wanted : String) (candidates : List String) (limit : Nat) : List String :=
  (((candidates.map fun c => (distance wanted c, c)).mergeSort precedes).map (·.2)).take limit

/-- The end of a message about a name that was not found; nothing when there is nothing to
choose from. -/
def hint (wanted : String) (candidates : List String) (limit : Nat) : String :=
  if candidates.isEmpty then ""
  else ". Did you mean: " ++ Text.nameList (closest wanted candidates limit)

end Choreography.Suggestion
