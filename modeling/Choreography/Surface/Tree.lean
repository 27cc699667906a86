import Choreography.Source.Loc
import Choreography.Surface.Kind
import Choreography.Surface.Operator

/-!
Program trees. Every node carries the location of its text.
-/

namespace Choreography.Surface

mutual

inductive Expr
  | ident (loc : Loc) (name : String)
  /-- The literal as written, mark of the radix included. -/
  | int (loc : Loc) (text : String) (radix : Nat)
  /-- The literal as written, quotes included. -/
  | string (loc : Loc) (text : String)
  | bool (loc : Loc) (value : Bool)
  | null (loc : Loc)
  | array (loc : Loc) (elems : List Expr)
  | object (loc : Loc) (props : List Property)
  | call (loc : Loc) (callee : Expr) (args : List Expr)
  | dot (loc : Loc) (base : Expr) (field : String)
  | index (loc : Loc) (base : Expr) (position : Expr)
  | binary (loc : Loc) (op : BinaryOp) (lhs rhs : Expr)
  | unary (loc : Loc) (op : UnaryOp) (operand : Expr)
  | paren (loc : Loc) (inner : Expr)
  | ternary (loc : Loc) (cond onTrue onFalse : Expr)
  | arrow (loc : Loc) (formals : List String) (body : Block)
  | function (loc : Loc) (name : Option String) (formals : List String) (body : Block)
  | foreign (loc : Loc) (what : ForeignExpr)

/-- The name of an object's field. Strings keep their quotes and numbers their text. -/
inductive PropertyName
  | ident (name : String)
  | string (text : String)
  | number (text : String)
  | computed (key : Expr)

inductive Property
  | value (loc : Loc) (name : PropertyName) (value : Expr)
  | shorthand (loc : Loc) (name : String)
  | spread (loc : Loc) (base : Expr)
  | method (loc : Loc) (name : String)

/-- One declaration of a `const` or `var`: a name or an array of names, and an initial value. -/
structure Decl where
  loc : Loc
  lhs : Expr
  init : Option Expr

structure Block where
  loc : Loc
  stmts : List Stmt

inductive Stmt
  | block (body : Block)
  | constDecl (loc : Loc) (decls : List Decl)
  | varDecl (loc : Loc) (decls : List Decl)
  | function (loc : Loc) (name : Option String) (formals : List String) (body : Block)
  | branch (loc : Loc) (cond : Expr) (onTrue : Stmt) (onFalse : Option Stmt)
  | empty (loc : Loc)
  | expr (loc : Loc) (e : Expr)
  | assign (loc : Loc) (op : AssignOp) (lhs rhs : Expr)
  /-- A call written as a statement. -/
  | methodCall (loc : Loc) (callee : Expr) (args : List Expr)
  | ret (loc : Loc) (value : Option Expr)
  | cont (loc : Loc)
  | loop (loc : Loc) (cond : Expr) (body : Stmt)
  | foreign (loc : Loc) (what : ForeignStmt)

end

instance : Inhabited Expr := ⟨.null default⟩

instance : Inhabited Stmt := ⟨.empty default⟩

instance : Inhabited Block := ⟨⟨default, []⟩⟩

instance : Inhabited Decl := ⟨⟨default, default, none⟩⟩

inductive Item
  | importFrom (loc : Loc) (source : String)
  | exported (loc : Loc) (stmt : Stmt)
  | plain (loc : Loc) (stmt : Stmt)
  | foreign (loc : Loc) (what : ForeignItem)

structure Module where
  loc : Loc
  items : List Item

def Expr.loc : Expr → Loc
  | .ident loc .. | .int loc .. | .string loc .. | .bool loc .. | .null loc | .array loc ..
  | .object loc .. | .call loc .. | .dot loc .. | .index loc .. | .binary loc .. | .unary loc ..
  | .paren loc .. | .ternary loc .. | .arrow loc .. | .function loc .. | .foreign loc .. => loc

def Expr.kind : Expr → Kind
  | .ident .. => .ident
  | .int .. => .int
  | .string .. => .string
  | .bool .. => .bool
  | .null _ => .null
  | .array .. => .array
  | .object .. => .object
  | .call .. => .call
  | .dot .. => .dot
  | .index .. => .index
  | .binary .. => .binary
  | .unary .. => .unary
  | .paren .. => .paren
  | .ternary .. => .ternary
  | .arrow .. => .arrow
  | .function .. => .functionExpr
  | .foreign _ what => .foreignExpr what

def Property.loc : Property → Loc
  | .value loc .. | .shorthand loc .. | .spread loc .. | .method loc .. => loc

def Stmt.loc : Stmt → Loc
  | .block body => body.loc
  | .constDecl loc .. | .varDecl loc .. | .function loc .. | .branch loc .. | .empty loc
  | .expr loc .. | .assign loc .. | .methodCall loc .. | .ret loc .. | .cont loc | .loop loc ..
  | .foreign loc .. => loc

def Stmt.isEmpty : Stmt → Bool
  | .empty _ => true
  | _ => false

def Item.loc : Item → Loc
  | .importFrom loc .. | .exported loc .. | .plain loc .. | .foreign loc .. => loc

/-- The block of a function whose body is a single expression. -/
def Block.returning (loc : Loc) (e : Expr) : Block := ⟨loc, [.ret loc (some e)]⟩

end Choreography.Surface
