import Choreography.Integer
import Choreography.Source.Loc
import Choreography.Text.Escape
import Choreography.Ty.Basic

/-!
The atoms of intermediate programs: primitive operations, claims, variables, constants and
arguments, and the right-hand sides built from them.
-/

namespace Choreography.Ir

/-- Operations evaluated at run time. -/
inductive Op
  | add | sub | mul | div | mod
  | lt | le | eq | ge | gt
  | ifThenElse
  | shiftLeft | shiftRight | bitAnd | bitOr | bitXor
  | bytesEq | balance | txnValue
  deriving DecidableEq, Inhabited

namespace Op

def all : List Op :=
  [.add, .sub, .mul, .div, .mod, .lt, .le, .eq, .ge, .gt, .ifThenElse,
   .shiftLeft, .shiftRight, .bitAnd, .bitOr, .bitXor, .bytesEq, .balance, .txnValue]

def name : Op → String
  | .add => "ADD"
  | .sub => "SUB"
  | .mul => "MUL"
  | .div => "DIV"
  | .mod => "MOD"
  | .lt => "PLT"
  | .le => "PLE"
  | .eq => "PEQ"
  | .ge => "PGE"
  | .gt => "PGT"
  | .ifThenElse => "IF_THEN_ELSE"
  | .shiftLeft => "LSH"
  | .shiftRight => "RSH"
  | .bitAnd => "BAND"
  | .bitOr => "BIOR"
  | .bitXor => "BXOR"
  | .bytesEq => "BYTES_EQ"
  | .balance => "BALANCE"
  | .txnValue => "TXN_VALUE"

/-- The type at which an operation is applied. Selection works at any one type. -/
def type : Op → Ty
  | .add | .sub | .mul | .div | .mod | .shiftLeft | .shiftRight | .bitAnd | .bitOr | .bitXor =>
    .func [.uint256, .uint256] .uint256
  | .lt | .le | .eq | .ge | .gt => .func [.uint256, .uint256] .bool
  | .ifThenElse => .forAll "b" (.func [.bool, .var "b", .var "b"] (.var "b"))
  | .bytesEq => .func [.bytes, .bytes] .bool
  | .balance | .txnValue => .func [] .uint256

end Op

/-- What a program asserts about its own run: to be proved, to be assumed of a participant, to be
required of a transaction, or to be possible. -/
inductive Claim
  | assert | assume | require | possible
  deriving DecidableEq, Inhabited

namespace Claim

def all : List Claim := [.assert, .assume, .require, .possible]

def name : Claim → String
  | .assert => "assert"
  | .assume => "assume"
  | .require => "require"
  | .possible => "possible"

end Claim

/-- A variable. Its number tells it apart; its name is for display. -/
structure Var where
  loc : Loc
  name : String
  type : Ty
  id : Nat
  deriving DecidableEq, Inhabited

def Var.text (v : Var) : String := v.name ++ "/" ++ toString v.id

inductive Const
  | null
  | bool (b : Bool)
  | int (n : Int)
  | bytes (s : String)
  deriving DecidableEq, Inhabited

def Const.text : Const → String
  | .null => "null"
  | .bool b => if b then "true" else "false"
  | .int n => Integer.decimal n
  | .bytes s => Text.quoted s

/-- Operands: what can be written without computing. -/
inductive Arg
  | var (v : Var)
  | const (c : Const)
  | tuple (elems : List Arg)
  | object (fields : List (String × Arg))
  /-- Data that a participant's own frontend supplies. -/
  | interact (who method : String) (type : Ty)
  deriving Inhabited

namespace Arg

def int (n : Int) : Arg := .const (.int n)

mutual

def text : Arg → String
  | .var v => v.text
  | .const c => c.text
  | .tuple elems => "[" ++ String.intercalate ", " (texts elems) ++ "]"
  | .object fields => "\x7b" ++ String.intercalate ", " (fieldTexts fields) ++ "\x7d"
  | .interact who method _ => "interact(" ++ who ++ ")." ++ method

def texts : List Arg → List String
  | [] => []
  | a :: args => text a :: texts args

def fieldTexts : List (String × Arg) → List String
  | [] => []
  | (name, a) :: fields => (name ++ ": " ++ text a) :: fieldTexts fields

end

end Arg

/-- A closure being applied: where it was called, where it was written, and its display name. -/
structure Frame where
  callLoc : Loc
  defLoc : Loc
  name : Option String
  deriving DecidableEq, Inhabited

/-- Computations whose result a `let` names. -/
inductive Expr
  | arg (a : Arg)
  | prim (op : Op) (args : List Arg)
  | arrayRef (frames : List Frame) (array : Arg) (size : Nat) (index : Arg)
  | tupleRef (tuple : Arg) (index : Nat)
  | objectRef (object : Arg) (field : String)
  | interact (who method : String) (type : Ty) (args : List Arg)
  | digest (args : List Arg)
  deriving Inhabited

namespace Expr

private def argList (args : List Arg) : String := String.intercalate ", " (Arg.texts args)

def text : Expr → String
  | .arg a => a.text
  | .prim op args => op.name ++ "(" ++ argList args ++ ")"
  | .arrayRef _ array size index =>
    array.text ++ "[" ++ index.text ++ " < " ++ toString size ++ "]"
  | .tupleRef tuple index => tuple.text ++ "[" ++ toString index ++ "]"
  | .objectRef object field => object.text ++ "." ++ field
  | .interact who method _ args =>
    "interact(" ++ who ++ ")." ++ method ++ "(" ++ argList args ++ ")"
  | .digest args => "digest(" ++ argList args ++ ")"

/-- Running the computation has no effect that anyone can observe: it asks no participant, and it
cannot reach outside an array. -/
def isPure : Expr → Bool
  | .arrayRef .. | .interact .. => false
  | .arg _ | .prim .. | .tupleRef .. | .objectRef .. | .digest _ => true

end Expr

end Choreography.Ir
