/-!
Operators of the surface language, with the spelling they have in programs.
-/

namespace Choreography.Surface

inductive UnaryOp
  | minus | not | plus | bitNot | typeOf | void | delete | increment | decrement
  deriving DecidableEq, Inhabited

namespace UnaryOp

def all : List UnaryOp :=
  [.minus, .not, .plus, .bitNot, .typeOf, .void, .delete, .increment, .decrement]

def symbol : UnaryOp → String
  | .minus => "-"
  | .not => "!"
  | .plus => "+"
  | .bitNot => "~"
  | .typeOf => "typeof"
  | .void => "void"
  | .delete => "delete"
  | .increment => "++"
  | .decrement => "--"

end UnaryOp

inductive BinaryOp
  | and | or | plus | minus | times | divide | mod
  | eq | neq | strictEq | strictNeq | lt | le | gt | ge
  | shiftLeft | shiftRight | shiftRightUnsigned | bitAnd | bitOr | bitXor
  | inside | instanceOf
  deriving DecidableEq, Inhabited

namespace BinaryOp

def all : List BinaryOp :=
  [.and, .or, .plus, .minus, .times, .divide, .mod,
   .eq, .neq, .strictEq, .strictNeq, .lt, .le, .gt, .ge,
   .shiftLeft, .shiftRight, .shiftRightUnsigned, .bitAnd, .bitOr, .bitXor,
   .inside, .instanceOf]

def symbol : BinaryOp → String
  | .and => "&&"
  | .or => "||"
  | .plus => "+"
  | .minus => "-"
  | .times => "*"
  | .divide => "/"
  | .mod => "%"
  | .eq => "=="
  | .neq => "!="
  | .strictEq => "==="
  | .strictNeq => "!=="
  | .lt => "<"
  | .le => "<="
  | .gt => ">"
  | .ge => ">="
  | .shiftLeft => "<<"
  | .shiftRight => ">>"
  | .shiftRightUnsigned => ">>>"
  | .bitAnd => "&"
  | .bitOr => "|"
  | .bitXor => "^"
  | .inside => "in"
  | .instanceOf => "instanceof"

end BinaryOp

inductive AssignOp
  | assign | plus | minus | times | divide | mod | shiftLeft | shiftRight | bitAnd | bitOr | bitXor
  deriving DecidableEq, Inhabited

namespace AssignOp

def all : List AssignOp :=
  [.assign, .plus, .minus, .times, .divide, .mod, .shiftLeft, .shiftRight, .bitAnd, .bitOr, .bitXor]

def symbol : AssignOp → String
  | .assign => "="
  | .plus => "+="
  | .minus => "-="
  | .times => "*="
  | .divide => "/="
  | .mod => "%="
  | .shiftLeft => "<<="
  | .shiftRight => ">>="
  | .bitAnd => "&="
  | .bitOr => "|="
  | .bitXor => "^="

end AssignOp

end Choreography.Surface
