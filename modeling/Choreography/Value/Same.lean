import Choreography.Value.Basic

/-!
Sameness of values: by content for data, by identity for everything that holds a computation.
-/

namespace Choreography

/-- Whether two primitives are the same: by content, except those that hold a computation. -/
def Prim.same : Prim → Prim → Bool
  | .op o, .op o' => o == o'
  | .claim c, .claim c' => c == c'
  | .interact who method type, .interact who' method' type' =>
    who == who' && method == method' && type == type'
  | .transferTo tag _, .transferTo tag' _ => tag == tag'
  | .app tag _, .app tag' _ => tag == tag'
  | p, p' => p.name == p'.name

namespace Value

mutual

/-- Whether two values are the same: data by content wherever it was made, closures, forms and
participants by identity. Fields of objects must agree in their levels too. -/
def same : Value → Value → Bool
  | .null _, .null _ => true
  | .bool _ b, .bool _ b' => b == b'
  | .int _ n, .int _ n' => n == n'
  | .bytes _ s, .bytes _ s' => s == s'
  | .type _ t, .type _ t' => t == t'
  | .var v, .var v' => v.id == v'.id
  | .tuple _ elems, .tuple _ elems' => sameList elems elems'
  | .object _ ⟨fields⟩, .object _ other =>
    fields.length == other.size && sameFields fields other
  | .prim _ p, .prim _ p' => p.same p'
  | .closure tag _, .closure tag' _ => tag == tag'
  | .form _ tag _, .form _ tag' _ => tag == tag'
  | .participant tag _, .participant tag' _ => tag == tag'
  | _, _ => false

/-- Whether two lists hold the same values in the same places. -/
def sameList : List Value → List Value → Bool
  | [], [] => true
  | v :: vs, v' :: vs' => same v v' && sameList vs vs'
  | _, _ => false

/-- Whether every listed field is found in `other` with the same level and the same value. -/
def sameFields : List (String × Labelled Value) → Env (Labelled Value) → Bool
  | [], _ => true
  | (name, ⟨level, v⟩) :: fields, other =>
    (match other.find? name with
      | some w => level == w.level && same v w.value
      | none => false) && sameFields fields other

end

end Value

end Choreography
