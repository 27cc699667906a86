import Choreography.Elaborate.Eval
import Choreography.Value.Typing

/-!
Type checking. Functions are applied at types that match their domain; type variables of the
domain are solved on the way, and the range is read with the solutions put in.
-/

namespace Choreography

namespace Ty

mutual

/-- Matches an actual type against an expected one. Variables of the expected type stand for the
type that they first meet. The solutions found so far are kept even when the match fails. -/
def solve (expected actual : Ty) (solved : NameMap Ty) : Bool × NameMap Ty :=
  match expected with
  | .var name =>
    match solved.get? name with
    | some t => (t = actual, solved)
    | none => (true, solved.insert name actual)
  | .array elem size =>
    if .array elem size = actual then (true, solved)
    else match actual with
      | .array elem' size' => if size = size' then solve elem elem' solved else (false, solved)
      | _ => (false, solved)
  | .tuple elems =>
    if .tuple elems = actual then (true, solved)
    else match actual with
      | .tuple elems' =>
        if elems.length = elems'.length then solveList elems elems' solved else (false, solved)
      | _ => (false, solved)
  | .object fields =>
    if .object fields = actual then (true, solved)
    else match actual with
      | .object fields' =>
        if fields.length = fields'.length then solveFields fields fields' solved
        else (false, solved)
      | _ => (false, solved)
  | .func dom rng =>
    if .func dom rng = actual then (true, solved)
    else match actual with
      | .func dom' rng' =>
        if dom.length = dom'.length then
          match solveList dom dom' solved with
          | (true, solved) => solve rng rng' solved
          | failed => failed
        else (false, solved)
      | _ => (false, solved)
  | .null => (.null = actual, solved)
  | .bool => (.bool = actual, solved)
  | .uint256 => (.uint256 = actual, solved)
  | .bytes => (.bytes = actual, solved)
  | .address => (.address = actual, solved)
  | .forAll name body => (.forAll name body = actual, solved)

/-- Matches types pairwise, up to the first that does not match. -/
def solveList (expected actual : List Ty) (solved : NameMap Ty) : Bool × NameMap Ty :=
  match expected, actual with
  | t :: ts, t' :: ts' =>
    match solve t t' solved with
    | (true, solved) => solveList ts ts' solved
    | failed => failed
  | _, _ => (true, solved)

/-- Matches fields pairwise, up to the first that differs in name or does not match. -/
def solveFields (expected actual : List (String × Ty)) (solved : NameMap Ty) :
    Bool × NameMap Ty :=
  match expected, actual with
  | (name, t) :: fields, (name', t') :: fields' =>
    if name = name' then
      match solve t t' solved with
      | (true, solved) => solveFields fields fields' solved
      | failed => failed
    else (false, solved)
  | _, _ => (true, solved)

end

end Ty

namespace Value

/-- The type of a value and the operand that mentions it. -/
def typeOf (v : Value) (loc : Loc) : Eval (Ty × Ir.Arg) :=
  Eval.orFail v.typed? (.untyped loc v.kindName)

/-- The operand that mentions a value, which must have the given type. -/
def checkType (v : Value) (loc : Loc) (expected : Ty) : Eval Ir.Arg := do
  let (t, arg) ← v.typeOf loc
  Eval.ensure (t = expected) (.typeMismatch loc expected.short t.short)
  return arg

/-- The types and operands of several values. -/
def typeOfAll (loc : Loc) : List Value → Eval (List (Ty × Ir.Arg))
  | [] => pure []
  | v :: vs => do
    let t ← v.typeOf loc
    let ts ← typeOfAll loc vs
    return t :: ts

end Value

namespace Ty

/-- Matches arguments against a domain from left to right and gives their operands, with the
solutions for the domain's variables. -/
def convertArgs (loc : Loc) : List Ty → List Value → NameMap Ty → Eval (List Ir.Arg × NameMap Ty)
  | expected :: dom, v :: vs, solved => do
    let (t, arg) ← v.typeOf loc
    match expected.solve t solved with
    | (true, solved) =>
      let (args, solved) ← convertArgs loc dom vs solved
      return (arg :: args, solved)
    | (false, solved) =>
      Eval.fail (.typeMismatch loc (expected.substAll solved.entries).short t.short)
  | _, _, solved => pure ([], solved)

/-- Applies a function type to arguments: the range with all solutions put in, and the operands. -/
def convert (funType : Ty) (loc : Loc) (args : List Value) : Eval (Ty × List Ir.Arg) :=
  match funType.stripForAll with
  | .func dom rng => do
    Eval.ensure (dom.length = args.length) (.typeArity loc dom.length args.length)
    let (operands, solved) ← convertArgs loc dom args {}
    return (rng.substAll solved.entries, operands)
  | _ => Eval.fail (.notAFunctionType loc funType.full)

/-- Joins the types of two ways to reach one place: they must be the same. -/
def join (loc : Loc) (a b : Loc × Ty) : Eval Ty :=
  if a.2 = b.2 then pure a.2
  else Eval.fail (.joinMismatch (a.1.orElse loc) a.2.short b.2.short b.1)

/-- Joins the types of further ways to reach a place with that of the first. -/
def joinRest (loc : Loc) (first : Loc × Ty) : List (Loc × Ty) → Eval Ty
  | [] => pure first.2
  | next :: rest => do
    let t ← join loc first next
    joinRest loc (first.1, t) rest

/-- Joins the types of all ways to reach one place; there must be at least one. -/
def joinAll (loc : Loc) : List (Loc × Ty) → Eval Ty
  | [] => Eval.fail (.joinEmpty loc)
  | first :: rest => joinRest loc first rest

end Ty

end Choreography
