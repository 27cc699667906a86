/-!
Kinds of tree nodes. The surface grammar is wider than the language: shapes that the language
does not have are kept as foreign nodes, so that faults can name them.
-/

namespace Choreography.Surface

/-- Expression shapes outside the language. -/
inductive ForeignExpr
  | assignment | await | classExpr | comma | postStep | new | spread | template | yield | regex
  deriving DecidableEq, Inhabited

/-- Statement shapes outside the language. -/
inductive ForeignStmt
  | letDecl | breakOut | classDecl | doWhile
  | forLoop | forIn | forOf
  | forVar | forVarIn | forVarOf
  | forLet | forLetIn | forLetOf
  | forConst | forConstIn | forConstOf
  | asyncFunction | generator | labelled | switch | throw | tryCatch | withObject
  deriving DecidableEq, Inhabited

/-- Import and export shapes outside the language. -/
inductive ForeignItem
  | otherImport | otherExport
  deriving DecidableEq, Inhabited

namespace ForeignExpr

def all : List ForeignExpr :=
  [.assignment, .await, .classExpr, .comma, .postStep, .new, .spread, .template, .yield, .regex]

def name : ForeignExpr → String
  | .assignment => "ExprAssign"
  | .await => "ExprAwait"
  | .classExpr => "ExprClass"
  | .comma => "ExprComma"
  | .postStep => "ExprPostfix"
  | .new => "ExprNew"
  | .spread => "ExprSpread"
  | .template => "ExprTemplate"
  | .yield => "ExprYield"
  | .regex => "ExprRegex"

/-- How programs spell the shape. -/
def construct : ForeignExpr → String
  | .assignment => "assignment expression"
  | .await => "await"
  | .classExpr => "class expression"
  | .comma => "comma expression"
  | .postStep => "postfix expression"
  | .new => "new"
  | .spread => "spread"
  | .template => "template literal"
  | .yield => "yield"
  | .regex => "regular expression"

end ForeignExpr

namespace ForeignStmt

def all : List ForeignStmt :=
  [.letDecl, .breakOut, .classDecl, .doWhile, .forLoop, .forIn, .forOf, .forVar, .forVarIn,
   .forVarOf, .forLet, .forLetIn, .forLetOf, .forConst, .forConstIn, .forConstOf,
   .asyncFunction, .generator, .labelled, .switch, .throw, .tryCatch, .withObject]

def name : ForeignStmt → String
  | .letDecl => "StmtLet"
  | .breakOut => "StmtBreak"
  | .classDecl => "StmtClass"
  | .doWhile => "StmtDoWhile"
  | .forLoop => "StmtFor"
  | .forIn => "StmtForIn"
  | .forOf => "StmtForOf"
  | .forVar => "StmtForVar"
  | .forVarIn => "StmtForVarIn"
  | .forVarOf => "StmtForVarOf"
  | .forLet => "StmtForLet"
  | .forLetIn => "StmtForLetIn"
  | .forLetOf => "StmtForLetOf"
  | .forConst => "StmtForConst"
  | .forConstIn => "StmtForConstIn"
  | .forConstOf => "StmtForConstOf"
  | .asyncFunction => "StmtAsyncFunction"
  | .generator => "StmtGenerator"
  | .labelled => "StmtLabelled"
  | .switch => "StmtSwitch"
  | .throw => "StmtThrow"
  | .tryCatch => "StmtTry"
  | .withObject => "StmtWith"

/-- How programs spell the shape. -/
def construct : ForeignStmt → String
  | .letDecl => "let"
  | .breakOut => "break"
  | .classDecl => "class"
  | .doWhile => "do while"
  | .forLoop => "for"
  | .forIn => "for in"
  | .forOf => "for of"
  | .forVar => "for var"
  | .forVarIn => "for var in"
  | .forVarOf => "for var of"
  | .forLet => "for let"
  | .forLetIn => "for let in"
  | .forLetOf => "for let of"
  | .forConst => "for const"
  | .forConstIn => "for const in"
  | .forConstOf => "for const of"
  | .asyncFunction => "async function"
  | .generator => "generator"
  | .labelled => "labelled"
  | .switch => "switch"
  | .throw => "throw"
  | .tryCatch => "try"
  | .withObject => "with"

end ForeignStmt

namespace ForeignItem

def all : List ForeignItem := [.otherImport, .otherExport]

def name : ForeignItem → String
  | .otherImport => "ItemImportOther"
  | .otherExport => "ItemExportOther"

/-- How programs spell the shape. -/
def construct : ForeignItem → String
  | .otherImport => "import"
  | .otherExport => "export"

end ForeignItem

/-- What a tree node is. -/
inductive Kind
  | module
  | ident | int | string | bool | null | array | object | call | dot | index | binary | unary
  | paren | ternary | arrow | functionExpr
  | foreignExpr (what : ForeignExpr)
  | propValue | propShorthand | propSpread | propMethod
  | varDecl
  | block | constDecl | varStmt | functionDecl | branch | empty | exprStmt | assign | methodCall
  | ret | cont | loop
  | foreignStmt (what : ForeignStmt)
  | importItem | exportItem | stmtItem
  | foreignItem (what : ForeignItem)
  deriving DecidableEq, Inhabited

namespace Kind

def all : List Kind :=
  ([.module,
    .ident, .int, .string, .bool, .null, .array, .object, .call, .dot, .index, .binary, .unary,
    .paren, .ternary, .arrow, .functionExpr] : List Kind)
  ++ ForeignExpr.all.map .foreignExpr
  ++ ([.propValue, .propShorthand, .propSpread, .propMethod,
       .varDecl,
       .block, .constDecl, .varStmt, .functionDecl, .branch, .empty, .exprStmt, .assign, .methodCall,
       .ret, .cont, .loop] : List Kind)
  ++ ForeignStmt.all.map .foreignStmt
  ++ ([.importItem, .foreignItem .otherImport, .exportItem, .foreignItem .otherExport,
       .stmtItem] : List Kind)

def name : Kind → String
  | .module => "Module"
  | .ident => "ExprIdent"
  | .int => "ExprInt"
  | .string => "ExprString"
  | .bool => "ExprBool"
  | .null => "ExprNull"
  | .array => "ExprArray"
  | .object => "ExprObject"
  | .call => "ExprCall"
  | .dot => "ExprDot"
  | .index => "ExprIndex"
  | .binary => "ExprBinary"
  | .unary => "ExprUnary"
  | .paren => "ExprParen"
  | .ternary => "ExprTernary"
  | .arrow => "ExprArrow"
  | .functionExpr => "ExprFunction"
  | .foreignExpr what => what.name
  | .propValue => "PropValue"
  | .propShorthand => "PropShorthand"
  | .propSpread => "PropSpread"
  | .propMethod => "PropMethod"
  | .varDecl => "VarDecl"
  | .block => "StmtBlock"
  | .constDecl => "StmtConst"
  | .varStmt => "StmtVar"
  | .functionDecl => "StmtFunction"
  | .branch => "StmtIf"
  | .empty => "StmtEmpty"
  | .exprStmt => "StmtExpr"
  | .assign => "StmtAssign"
  | .methodCall => "StmtMethodCall"
  | .ret => "StmtReturn"
  | .cont => "StmtContinue"
  | .loop => "StmtWhile"
  | .foreignStmt what => what.name
  | .importItem => "ItemImport"
  | .exportItem => "ItemExport"
  | .stmtItem => "ItemStmt"
  | .foreignItem what => what.name

/-- The name that faults use: foreign shapes by their spelling, others by the node's own name. -/
def construct : Kind → String
  | .foreignExpr what => what.construct
  | .foreignStmt what => what.construct
  | .foreignItem what => what.construct
  | kind => kind.name

end Kind

end Choreography.Surface
