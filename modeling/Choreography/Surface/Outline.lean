import Choreography.Surface.Tree

/-!
Outlines of program trees: one line for each node, indented under its parent.
-/

namespace Choreography

/-- A tree of labels. -/
inductive Outline
  | node (label : String) (children : List Outline)

namespace Outline

/-- Two blanks for each level of nesting. Whatever stands below level zero is not indented, so a
text that starts there begins to step in only once its nesting has come up to zero. -/
def indent (level : Int) : String := String.ofList (List.replicate (2 * level.toNat) ' ')

/-- The outline of a tree that is not there. -/
def missing : Outline := .node "<null>" []

mutual

/-- The lines of an outline, from the given level of nesting on. -/
def render (level : Int) : Outline → String
  | .node label children => indent level ++ label ++ "\n" ++ renderAll (level + 1) children

/-- The lines of several outlines, one after the other. -/
def renderAll (level : Int) : List Outline → String
  | [] => ""
  | child :: rest => render level child ++ renderAll level rest

end

end Outline

namespace Surface

/-- Formal parameters between parentheses. -/
def formalsText (formals : List String) : String := "(" ++ String.intercalate ", " formals ++ ")"

/-- The name and the parameters of a function; anonymous functions show the parameters alone. -/
def signatureText (name : Option String) (formals : List String) : String :=
  (match name with
    | some name => " " ++ name
    | none => "") ++ formalsText formals

mutual

def Expr.outline : Expr → Outline
  | .ident _ name => .node (Kind.ident.name ++ " " ++ name) []
  | .int _ text _ => .node (Kind.int.name ++ " " ++ text) []
  | .string _ text => .node (Kind.string.name ++ " " ++ text) []
  | .bool _ value => .node (Kind.bool.name ++ (if value then " true" else " false")) []
  | .null _ => .node Kind.null.name []
  | .array _ elems => .node Kind.array.name (exprOutlines elems)
  | .object _ props => .node Kind.object.name (propertyOutlines props)
  | .call _ callee args => .node Kind.call.name (callee.outline :: exprOutlines args)
  | .dot _ base field => .node (Kind.dot.name ++ " ." ++ field) [base.outline]
  | .index _ base position => .node Kind.index.name [base.outline, position.outline]
  | .binary _ op lhs rhs => .node (Kind.binary.name ++ " " ++ op.symbol) [lhs.outline, rhs.outline]
  | .unary _ op operand => .node (Kind.unary.name ++ " " ++ op.symbol) [operand.outline]
  | .paren _ inner => .node Kind.paren.name [inner.outline]
  | .ternary _ cond onTrue onFalse =>
    .node Kind.ternary.name [cond.outline, onTrue.outline, onFalse.outline]
  | .arrow _ formals body => .node (Kind.arrow.name ++ formalsText formals) [body.outline]
  | .function _ name formals body =>
    .node (Kind.functionExpr.name ++ signatureText name formals) [body.outline]
  | .foreign _ what => .node what.name []

def exprOutlines : List Expr → List Outline
  | [] => []
  | e :: es => e.outline :: exprOutlines es

def Property.outline : Property → Outline
  | .value _ (.ident name) value => .node (Kind.propValue.name ++ " " ++ name) [value.outline]
  | .value _ (.string text) value => .node (Kind.propValue.name ++ " " ++ text) [value.outline]
  | .value _ (.number text) value => .node (Kind.propValue.name ++ " " ++ text) [value.outline]
  | .value _ (.computed key) value =>
    .node (Kind.propValue.name ++ " ") [key.outline, value.outline]
  | .shorthand _ name => .node (Kind.propShorthand.name ++ " " ++ name) []
  | .spread _ base => .node Kind.propSpread.name [base.outline]
  | .method _ name => .node (Kind.propMethod.name ++ " " ++ name) []

def propertyOutlines : List Property → List Outline
  | [] => []
  | p :: ps => p.outline :: propertyOutlines ps

def Decl.outline : Decl → Outline
  | ⟨_, lhs, none⟩ => .node Kind.varDecl.name [lhs.outline]
  | ⟨_, lhs, some init⟩ => .node Kind.varDecl.name [lhs.outline, init.outline]

def declOutlines : List Decl → List Outline
  | [] => []
  | d :: ds => d.outline :: declOutlines ds

def Block.outline : Block → Outline
  | ⟨_, stmts⟩ => .node Kind.block.name (stmtOutlines stmts)

def Stmt.outline : Stmt → Outline
  | .block body => body.outline
  | .constDecl _ decls => .node Kind.constDecl.name (declOutlines decls)
  | .varDecl _ decls => .node Kind.varStmt.name (declOutlines decls)
  | .function _ name formals body =>
    .node (Kind.functionDecl.name ++ signatureText name formals) [body.outline]
  | .branch _ cond onTrue none => .node Kind.branch.name [cond.outline, onTrue.outline]
  | .branch _ cond onTrue (some onFalse) =>
    .node Kind.branch.name [cond.outline, onTrue.outline, onFalse.outline]
  | .empty _ => .node Kind.empty.name []
  | .expr _ e => .node Kind.exprStmt.name [e.outline]
  | .assign _ _ lhs rhs => .node Kind.assign.name [lhs.outline, rhs.outline]
  | .methodCall _ callee args => .node Kind.methodCall.name (callee.outline :: exprOutlines args)
  | .ret _ none => .node Kind.ret.name []
  | .ret _ (some value) => .node Kind.ret.name [value.outline]
  | .cont _ => .node Kind.cont.name []
  | .loop _ cond body => .node Kind.loop.name [cond.outline, body.outline]
  | .foreign _ what => .node what.name []

def stmtOutlines : List Stmt → List Outline
  | [] => []
  | s :: ss => s.outline :: stmtOutlines ss

end

def Item.outline : Item → Outline
  | .importFrom _ source => .node (Kind.importItem.name ++ " " ++ source) []
  | .exported _ stmt => .node Kind.exportItem.name [stmt.outline]
  | .plain _ stmt => .node Kind.stmtItem.name [stmt.outline]
  | .foreign _ what => .node what.name []

def Module.outline (m : Module) : Outline :=
  .node Kind.module.name (m.items.map Item.outline)

end Surface

end Choreography
