import Choreography.Surface.Tree

/-!
The standard library: a module of the language itself. It defines the operators that have no
operation of their own.
-/

namespace Choreography

/-- The standard library as file `file`, opening with the given header. -/
def standardLibrary (file : Nat) (header : String) : Surface.Module :=
  let loc : Loc := { file }
  let x : Surface.Expr := .ident loc "x"
  let y : Surface.Expr := .ident loc "y"
  let bool (b : Bool) : Surface.Expr := .bool loc b
  let not (e : Surface.Expr) : Surface.Expr := .call loc (.ident loc "not") [e]
  let function (name : String) (formals : List String) (result : Surface.Expr) : Surface.Item :=
    .exported loc (.function loc (some name) formals (.returning loc result))
  { loc
    items := [
      .plain loc (.expr loc (.string loc ("'" ++ header ++ "'"))),
      function "not" ["x"] (.ternary loc x (bool false) (bool true)),
      function "neq" ["x", "y"] (not (.binary loc .eq x y)),
      function "bytes_neq" ["x", "y"] (not (.binary loc .strictEq x y)),
      function "minus" ["x"] (.binary loc .minus (.int loc "0" 10) x),
      function "and" ["x", "y"] (.ternary loc x y (bool false)),
      function "or" ["x", "y"] (.ternary loc x (bool true) y)] }

end Choreography
