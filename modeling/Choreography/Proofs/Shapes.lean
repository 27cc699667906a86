import Choreography.Proofs.Amounts
import Choreography.Proofs.PrivateViews

/-!
Shapes. Evaluation can go on for ever only through functions that reach themselves, through their
arguments or through the names of the program. A shape says how a value may be used: a function has a
shape of its own for each argument and for its result, as in the simply typed calculus, so that no
function is an argument of itself. Names have one shape in the whole program, because the parts of a
round are evaluated where the round is taken and not where they are written. The shapes of expressions
and the shapes that statements return are computed from the shapes of names.
-/

namespace Choreography

/-- How a value may be used. -/
inductive Shape
  /-- The value is never applied, and never stands as a statement. -/
  | any
  /-- The value holds no function of the program. -/
  | data
  /-- The primitive that makes enumerations, or data. -/
  | enumerator
  /-- The primitive that makes secrets known, or data. -/
  | revealer
  /-- A function of the program, or data. -/
  | fn (args : List Shape) (result : Shape)
  deriving Inhabited

namespace Shape

mutual

def same : Shape → Shape → Bool
  | .any, .any => true
  | .data, .data => true
  | .enumerator, .enumerator => true
  | .revealer, .revealer => true
  | .fn args result, .fn args' result' => sameList args args' && same result result'
  | _, _ => false

def sameList : List Shape → List Shape → Bool
  | [], [] => true
  | σ :: σs, τ :: τs => same σ τ && sameList σs τs
  | _, _ => false

end

mutual

theorem same_iff : ∀ σ τ : Shape, same σ τ = true ↔ σ = τ
  | .any, τ => by cases τ <;> simp [same]
  | .data, τ => by cases τ <;> simp [same]
  | .enumerator, τ => by cases τ <;> simp [same]
  | .revealer, τ => by cases τ <;> simp [same]
  | .fn args result, τ => by cases τ <;> simp [same, sameList_iff args, same_iff result]

theorem sameList_iff : ∀ σs τs : List Shape, sameList σs τs = true ↔ σs = τs
  | [], τs => by cases τs <;> simp [sameList]
  | σ :: σs, τs => by cases τs <;> simp [sameList, same_iff σ, sameList_iff σs]

end

instance : DecidableEq Shape := fun σ τ => decidable_of_iff (same σ τ = true) (same_iff σ τ)

/-- Values of the first shape may be used as those of the second may. -/
def le (σ τ : Shape) : Bool := τ = .any || σ = .data || σ = τ

/-- A shape for values of either shape. -/
def join (σ τ : Shape) : Shape := if σ.le τ then τ else if τ.le σ then σ else .any

def joinAll (σs : List Shape) : Shape := σs.foldr join .data

/-- Arguments of the first shapes may be passed for formals of the second. -/
def leAll : List Shape → List Shape → Bool
  | [], [] => true
  | σ :: σs, τ :: τs => σ.le τ && leAll σs τs
  | _, _ => false

variable {σ τ : Shape}

theorem le_iff : σ.le τ = true ↔ τ = .any ∨ σ = .data ∨ σ = τ := by simp [le, or_assoc]

theorem le_rfl : σ.le σ = true := le_iff.2 (.inr (.inr rfl))

theorem data_le : le .data σ = true := le_iff.2 (.inr (.inl rfl))

theorem le_any : σ.le .any = true := le_iff.2 (.inl rfl)

theorem le_join_left (σ τ : Shape) : σ.le (σ.join τ) = true := by
  unfold join
  split
  · assumption
  · split
    · exact le_rfl
    · exact le_any

theorem le_join_right (σ τ : Shape) : τ.le (σ.join τ) = true := by
  unfold join
  split
  · exact le_rfl
  · split
    · assumption
    · exact le_any

@[simp] theorem data_join : join .data σ = σ := by simp [join, data_le]

@[simp] theorem join_data : σ.join .data = σ := by
  unfold join
  split
  · rename_i h
    rcases le_iff.1 h with h | h | h
    · cases h
    · exact h.symm
    · exact h.symm
  · simp [data_le]

/-- What the application of a value gives for arguments of the given shapes. -/
def applied (σ : Shape) (args : List Shape) : Option Shape :=
  match σ with
  | .data => some .data
  | .fn formals result => if leAll args formals then some result else none
  | .any | .enumerator | .revealer => none

/-- The shapes of what is no function of the program. -/
def isBuiltin : Shape → Bool
  | .data | .enumerator | .revealer => true
  | .any | .fn .. => false

end Shape

/-- The shape of a value of the base environment. -/
def Value.baseShape : Value → Shape
  | .prim _ .makeEnum => .enumerator
  | .prim _ .declassify => .revealer
  | _ => .data

theorem Value.isBuiltin_baseShape (v : Value) : v.baseShape.isBuiltin = true := by
  unfold baseShape
  split <;> rfl

/-- What is known of the value of an expression. -/
inductive Use
  | value (σ : Shape)
  /-- The value acts when it stands as a statement. It may first ask for the arguments of a
  construct. -/
  | act (construct : Option String)

/-- The fields by which participants and rounds offer their constructs. -/
def constructs : List String := ["only", "publish", "pay", "timeout"]

namespace Use

/-- The shape under which the value may be kept. -/
def shape : Use → Shape
  | .value σ => σ
  | .act _ => .any

/-- Whether the value may be a participant or a round, which offer constructs. -/
def offers : Use → Bool
  | .act _ | .value .data => true
  | .value _ => false

/-- The shape of an element of the value. -/
def element : Use → Shape
  | .act _ => .data
  | .value σ => σ

/-- What is known of a field of the value. -/
def field (name : String) (u : Use) : Use :=
  if name ∈ constructs then
    if u.offers then .act (some name) else .value .any
  else .value u.element

/-- Whether the value may stand as a statement. -/
def isStatement : Use → Bool
  | .value .any => false
  | _ => true

/-- A function without formals whose result is more than data. -/
def isTelling : Use → Bool
  | .value (.fn [] σ) => σ ≠ .data
  | _ => false

end Use

/-- The shapes of the names of a program. -/
abbrev Shaping := String → Shape

namespace Surface

/-- The arguments that a construct asks for. The function of an `only` is written in place, an amount
applies no function of the program, and a handler returns data only. -/
def suitsConstruct (construct : Option String) (args : List Expr) (uses : List Use) : Bool :=
  if construct = some "only" then
    match args with
    | [f] => f.isFunction
    | _ => false
  else if construct = some Stage.pay.name then exprsCalm args
  else if construct = some Stage.timeout.name then uses.all (!·.isTelling)
  else true

end Surface

namespace Shaping

variable (Γ : Shaping)

/-- What is known of a call, from what is known of the callee and of the arguments. -/
def call (args : List Surface.Expr) (callee : Option Use) (uses : Option (List Use)) :
    Option Use := do
  let callee ← callee
  let uses ← uses
  let shapes := uses.map (·.shape)
  match callee with
  | .act construct => if Surface.suitsConstruct construct args uses then some (.act none) else none
  | .value .enumerator =>
    let result ← Shape.applied (Γ "and") [.data, .data]
    return .value (.fn [Γ "x"] result)
  | .value .revealer => return .value (Shape.joinAll shapes)
  | .value σ =>
    let result ← σ.applied shapes
    return .value result

/-- What is known of an operator, from what is known of its operands. -/
def operate (function : Option String) (operands : List Use) : Option Use :=
  match function with
  | some name => ((Γ name).applied (operands.map (·.shape))).map .value
  | none => some (.value .data)

/-- Whether a value of some shape may be bound to the names on the left of a declaration. -/
def binds (lhs : Surface.Expr) (σ : Shape) : Bool := lhs.targets.all fun name => σ.le (Γ name)

/-- The names of the base environment have the shapes of what they are bound to, and so has the name
that the invariants of loops are written with. -/
structure Based : Prop where
  base : ∀ b ∈ baseEnv.entries, Γ b.1 = b.2.value.baseShape
  invariant : Γ "invariant" = .data

theorem Based.quiet {Γ : Shaping} (h : Γ.Based) {name : String} (hname : name ∈ quietNames) :
    (Γ name).isBuiltin = true := by
  obtain ⟨b, hb, hquiet⟩ := List.mem_filterMap.1 hname
  have hshape := h.base b hb
  split at hquiet
  · rename_i p hvalue
    simp only [Option.ite_none_right_eq_some, Option.some.injEq] at hquiet
    rw [← hquiet.2, hshape]
    exact Value.isBuiltin_baseShape _
  · cases hquiet

end Shaping

namespace Surface

variable (Γ : Shaping)

mutual

/-- What is known of the value of an expression, if it has a shape. -/
def Expr.use : Expr → Option Use
  | .ident _ name => some (.value (Γ name))
  | .array _ elems => (exprsUse elems).map fun uses => .value (Shape.joinAll (uses.map (·.shape)))
  | .object _ props => (propsShape props).map .value
  | .call _ callee args => Γ.call args callee.use (exprsUse args)
  | .dot _ base field => base.use.map (·.field field)
  | .index _ base position => do
    let b ← base.use
    let _ ← position.use
    return .value b.element
  | .binary _ op lhs rhs => do
    let l ← lhs.use
    let r ← rhs.use
    Γ.operate op.function? [l, r]
  | .unary _ op operand => do
    let u ← operand.use
    Γ.operate op.function? [u]
  | .paren _ inner => inner.use
  | .ternary _ cond onTrue onFalse => do
    let _ ← cond.use
    let t ← onTrue.use
    let f ← onFalse.use
    return .value (t.shape.join f.shape)
  | .arrow _ formals body => body.returnShape.map fun result => .value (.fn (formals.map Γ) result)
  | .function _ _ formals body =>
    body.returnShape.map fun result => .value (.fn (formals.map Γ) result)
  | .int .. | .string .. | .bool .. | .null _ | .foreign .. => some (.value .data)

/-- Whether a field's name has a shape, where it is computed. -/
def PropertyName.isShaped : PropertyName → Bool
  | .computed key => key.use.isSome
  | .ident _ | .string _ | .number _ => true

/-- The shape of what a property contributes. -/
def Property.shape : Property → Option Shape
  | .value _ name value => if name.isShaped then value.use.map (·.shape) else none
  | .shorthand _ name => some (Γ name)
  | .spread _ base => base.use.map (·.shape)
  | .method .. => some .data

def Decl.isShaped : Decl → Bool
  | ⟨_, lhs, some init⟩ => init.use.any fun u => Γ.binds lhs u.shape
  | ⟨_, _, none⟩ => true

/-- The shape that a block returns. -/
def Block.returnShape : Block → Option Shape
  | ⟨_, stmts⟩ => stmtsShape stmts

/-- The shape that a statement returns, if its parts have shapes. -/
def Stmt.returnShape : Stmt → Option Shape
  | .block body => body.returnShape
  | .constDecl _ decls | .varDecl _ decls => if declsShaped decls then some .data else none
  | .function _ name formals body => do
    let result ← body.returnShape
    if name.all fun name => Shape.le (.fn (formals.map Γ) result) (Γ name) then some .data else none
  | .branch _ cond onTrue (some onFalse) => do
    let _ ← cond.use
    let t ← onTrue.returnShape
    let f ← onFalse.returnShape
    return t.join f
  | .branch _ cond onTrue none => do
    let _ ← cond.use
    onTrue.returnShape
  | .expr _ e => do
    let u ← e.use
    if u.isStatement then some .data else none
  | .assign _ _ lhs rhs => do
    let u ← rhs.use
    if Γ.binds lhs u.shape then some .data else none
  | .methodCall _ callee args => do
    let u ← Γ.call args callee.use (exprsUse args)
    if u.isStatement then some .data else none
  | .ret _ (some value) => value.use.map (·.shape)
  | .loop _ cond body => do
    let _ ← cond.use
    body.returnShape
  | .ret _ none | .empty _ | .cont _ | .foreign .. => some .data

def exprsUse : List Expr → Option (List Use)
  | [] => some []
  | e :: es => do
    let u ← e.use
    let us ← exprsUse es
    return u :: us

def propsShape : List Property → Option Shape
  | [] => some .data
  | p :: ps => do
    let σ ← p.shape
    let τ ← propsShape ps
    return σ.join τ

def declsShaped : List Decl → Bool
  | [] => true
  | d :: ds => d.isShaped && declsShaped ds

/-- The shape that a list of statements returns. -/
def stmtsShape : List Stmt → Option Shape
  | [] => some .data
  | s :: rest => do
    let σ ← s.returnShape
    let τ ← stmtsShape rest
    return σ.join τ

end

theorem Block.returnShape_eq (b : Block) : b.returnShape Γ = stmtsShape Γ b.stmts := by
  cases b
  rfl

end Surface

end Choreography
