import Choreography.Elaborate.Sequence

/-!
The identifiers that a program mentions: those it refers to, and the formals of its functions.
Names of fields are not identifiers.
-/

namespace Choreography.Surface

mutual

def Expr.idents : Expr → List String
  | .ident _ name => [name]
  | .array _ elems => exprsIdents elems
  | .object _ props => propsIdents props
  | .call _ callee args => callee.idents ++ exprsIdents args
  | .dot _ base _ => base.idents
  | .index _ base position => base.idents ++ position.idents
  | .binary _ _ lhs rhs => lhs.idents ++ rhs.idents
  | .unary _ _ operand => operand.idents
  | .paren _ inner => inner.idents
  | .ternary _ cond onTrue onFalse => cond.idents ++ onTrue.idents ++ onFalse.idents
  | .arrow _ formals body | .function _ _ formals body => formals ++ body.idents
  | .int .. | .string .. | .bool .. | .null _ | .foreign .. => []

def PropertyName.idents : PropertyName → List String
  | .computed key => key.idents
  | .ident _ | .string _ | .number _ => []

def Property.idents : Property → List String
  | .value _ name value => name.idents ++ value.idents
  | .shorthand _ name => [name]
  | .spread _ base => base.idents
  | .method .. => []

def Decl.idents : Decl → List String
  | ⟨_, lhs, some init⟩ => lhs.idents ++ init.idents
  | ⟨_, lhs, none⟩ => lhs.idents

def Block.idents : Block → List String
  | ⟨_, stmts⟩ => stmtsIdents stmts

def Stmt.idents : Stmt → List String
  | .block body => body.idents
  | .constDecl _ decls | .varDecl _ decls => declsIdents decls
  | .function _ _ formals body => formals ++ body.idents
  | .branch _ cond onTrue (some onFalse) => cond.idents ++ onTrue.idents ++ onFalse.idents
  | .branch _ cond onTrue none => cond.idents ++ onTrue.idents
  | .expr _ e => e.idents
  | .assign _ _ lhs rhs => lhs.idents ++ rhs.idents
  | .methodCall _ callee args => callee.idents ++ exprsIdents args
  | .ret _ (some value) => value.idents
  | .loop _ cond body => cond.idents ++ body.idents
  | .ret _ none | .empty _ | .cont _ | .foreign .. => []

def exprsIdents : List Expr → List String
  | [] => []
  | e :: es => e.idents ++ exprsIdents es

def propsIdents : List Property → List String
  | [] => []
  | p :: ps => p.idents ++ propsIdents ps

def declsIdents : List Decl → List String
  | [] => []
  | d :: ds => d.idents ++ declsIdents ds

def stmtsIdents : List Stmt → List String
  | [] => []
  | s :: ss => s.idents ++ stmtsIdents ss

end

def Item.idents : Item → List String
  | .exported _ stmt | .plain _ stmt => stmt.idents
  | .importFrom .. | .foreign .. => []

def Module.idents (m : Module) : List String := m.items.flatMap Item.idents

theorem Block.idents_eq (b : Block) : b.idents = stmtsIdents b.stmts := by
  cases b
  simp only [Block.idents]

theorem dropEmpty_cons (s : Stmt) (rest : List Stmt) :
    dropEmpty (s :: rest) = if !s.isEmpty then s :: dropEmpty rest else dropEmpty rest :=
  List.filter_cons

theorem dropEmpty_dropEmpty (stmts : List Stmt) :
    dropEmpty (dropEmpty stmts) = dropEmpty stmts := by
  simp [dropEmpty]

/-- Dropping empty statements drops no identifier. -/
theorem stmtsIdents_dropEmpty (stmts : List Stmt) :
    stmtsIdents (dropEmpty stmts) = stmtsIdents stmts := by
  induction stmts with
  | nil => rfl
  | cons s rest ih =>
    rw [dropEmpty_cons]
    cases s <;> simp [Stmt.isEmpty, stmtsIdents, Stmt.idents, ih]

end Choreography.Surface
