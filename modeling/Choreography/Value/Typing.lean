import Choreography.Value.Basic

/-!
The types of values. Data has a first-order type and a form in which programs can mention it at
run time; functions, forms and types have neither.
-/

namespace Choreography

/-- The type of a primitive that stands for data, with the operand that mentions it. Only fields
of an interface that are not functions are data. -/
def Prim.typed? : Prim → Option (Ty × Ir.Arg)
  | .interact who method type =>
    match type with
    | .func .. | .forAll .. => none
    | _ => some (type, .interact who method type)
  | _ => none

namespace Value

mutual

/-- The type of a value and the operand that mentions it, for values that have one. -/
def typed? : Value → Option (Ty × Ir.Arg)
  | .null _ => some (.null, .const .null)
  | .bool _ b => some (.bool, .const (.bool b))
  | .int _ n => some (.uint256, .int n)
  | .bytes _ s => some (.bytes, .const (.bytes s))
  | .var v => some (v.type, .var v)
  | .tuple _ elems =>
    (typedList? elems).map fun ts => (.tuple (ts.map (·.1)), .tuple (ts.map (·.2)))
  | .object _ ⟨fields⟩ =>
    (typedFields? fields).map fun fs =>
      let fs := Ty.sortFields fs
      (.object (fs.map fun f => (f.1, f.2.1)), .object (fs.map fun f => (f.1, f.2.2)))
  | .participant _ p => p.address.map fun v => (.address, .var v)
  | .prim _ p => p.typed?
  | .closure .. | .form .. | .type .. => none

/-- The types of all of a list of values. -/
def typedList? : List Value → Option (List (Ty × Ir.Arg))
  | [] => some []
  | v :: vs => do
    let t ← typed? v
    let ts ← typedList? vs
    return t :: ts

/-- The types of all fields. -/
def typedFields? : List (String × Labelled Value) → Option (List (String × Ty × Ir.Arg))
  | [] => some []
  | (name, ⟨_, v⟩) :: fields => do
    let t ← typed? v
    let ts ← typedFields? fields
    return (name, t) :: ts

end

/-- How faults speak of a value: by its type, or by its kind when it has none. -/
def describe (v : Value) : String :=
  match v.typed? with
  | some (t, _) => t.short
  | none => v.kindName

end Value

end Choreography
