import Choreography.Elaborate.Form
import Choreography.Elaborate.Sequence
import Choreography.Proofs.Linking

/-!
Staged programs: what acts in them stands as a statement of its own. What acts are the private
computations of participants, and, in a strict program, also rounds, commits and exits. A strict
program moreover puts nothing after a block or a conditional in which the protocol may move on.

In a staged program, every other expression has a plain value: one that holds nothing that acts, and
that reaches no frontend but those of the participants whose private code it stands in.
-/

namespace Choreography

open Eval

namespace Surface

/-- The fields by which participants act. -/
def actingFields (strict : Bool) : List String :=
  "only" :: if strict then Stage.all.map (·.name) else []

/-- The names of what ends a round or the protocol. -/
def actingNames (strict : Bool) : List String := if strict then ["commit", "exit"] else []

/-- The expression moves the protocol on: it names a stage of a round, a commit or an exit. -/
def Expr.moves : Expr → Bool
  | .ident _ name => (actingNames true).contains name
  | .dot _ base field => base.moves || (Stage.all.map (·.name)).contains field
  | .call _ callee _ => callee.moves
  | .paren _ inner => inner.moves
  | _ => false

mutual

/-- The protocol does not move on in the statement, outside the functions that it makes. -/
def Stmt.still : Stmt → Bool
  | .block ⟨_, stmts⟩ => stmtsStill stmts
  | .branch _ _ onTrue (some onFalse) => onTrue.still && onFalse.still
  | .branch _ _ onTrue none => onTrue.still
  | .expr _ e => !e.moves
  | .methodCall _ callee _ => !callee.moves
  | .cont _ | .assign .. => false
  | .constDecl .. | .varDecl .. | .function .. | .empty _ | .ret .. | .loop .. | .foreign .. => true

def stmtsStill : List Stmt → Bool
  | [] => true
  | s :: rest => s.still && stmtsStill rest

end

/-- Statements that end where those inside them end. -/
def Stmt.isCompound : Stmt → Bool
  | .block _ | .branch .. => true
  | .constDecl .. | .varDecl .. | .function .. | .empty _ | .expr .. | .assign .. | .methodCall ..
  | .ret .. | .cont _ | .loop .. | .foreign .. => false

/-- A compound statement may be followed by others. -/
def Stmt.followable (strict : Bool) (s : Stmt) (rest : List Stmt) : Bool :=
  !strict || !s.isCompound || s.still || (dropEmpty rest).isEmpty

mutual

/-- What acts in the expression stands in functions that are staged; or, where the expression is
itself a statement, in the callee of a call or the base of a field. -/
def Expr.staged (strict statement : Bool) : Expr → Bool
  | .ident _ name => statement || !(actingNames strict).contains name
  | .array _ elems => exprsStaged strict elems
  | .object _ props => propsStaged strict props
  | .call _ callee args => callee.staged strict statement && exprsStaged strict args
  | .dot _ base field =>
    base.staged strict statement && (statement || !(actingFields strict).contains field)
  | .index _ base position => base.staged strict false && position.staged strict false
  | .binary _ _ lhs rhs => lhs.staged strict false && rhs.staged strict false
  | .unary _ _ operand => operand.staged strict false
  | .paren _ inner => inner.staged strict statement
  | .ternary _ cond onTrue onFalse =>
    cond.staged strict false && onTrue.staged strict false && onFalse.staged strict false
  | .arrow _ _ body | .function _ _ _ body => body.staged strict
  | .int .. | .string .. | .bool .. | .null _ | .foreign .. => true

def PropertyName.staged (strict : Bool) : PropertyName → Bool
  | .computed key => key.staged strict false
  | .ident _ | .string _ | .number _ => true

def Property.staged (strict : Bool) : Property → Bool
  | .value _ name value => name.staged strict && value.staged strict false
  | .shorthand _ name => !(actingNames strict).contains name
  | .spread _ base => base.staged strict false
  | .method .. => true

def Decl.staged (strict : Bool) : Decl → Bool
  | ⟨_, _, some init⟩ => init.staged strict false
  | ⟨_, _, none⟩ => true

def Block.staged (strict : Bool) : Block → Bool
  | ⟨_, stmts⟩ => stmtsStaged strict stmts

def Stmt.staged (strict : Bool) : Stmt → Bool
  | .block body => body.staged strict
  | .constDecl _ decls | .varDecl _ decls => declsStaged strict decls
  | .function _ _ _ body => body.staged strict
  | .branch _ cond onTrue (some onFalse) =>
    cond.staged strict false && onTrue.staged strict && onFalse.staged strict
  | .branch _ cond onTrue none => cond.staged strict false && onTrue.staged strict
  | .expr _ e => e.staged strict true
  | .assign _ _ _ rhs => rhs.staged strict false
  | .methodCall _ callee args => callee.staged strict true && exprsStaged strict args
  | .ret _ (some value) => value.staged strict false
  | .loop _ cond body => cond.staged strict false && body.staged strict
  | .ret _ none | .empty _ | .cont _ | .foreign .. => true

def exprsStaged (strict : Bool) : List Expr → Bool
  | [] => true
  | e :: es => e.staged strict false && exprsStaged strict es

def propsStaged (strict : Bool) : List Property → Bool
  | [] => true
  | p :: ps => p.staged strict && propsStaged strict ps

def declsStaged (strict : Bool) : List Decl → Bool
  | [] => true
  | d :: ds => d.staged strict && declsStaged strict ds

def stmtsStaged (strict : Bool) : List Stmt → Bool
  | [] => true
  | s :: rest => s.staged strict && s.followable strict rest && stmtsStaged strict rest

end

def Item.staged (strict : Bool) : Item → Bool
  | .exported _ stmt | .plain _ stmt => stmt.staged strict
  | .importFrom .. | .foreign .. => true

def Module.staged (strict : Bool) (m : Module) : Bool := m.items.all (·.staged strict)

theorem Block.staged_eq (strict : Bool) (b : Block) :
    b.staged strict = stmtsStaged strict b.stmts := by
  cases b
  simp only [Block.staged]

theorem Block.still_eq (b : Block) : (Stmt.block b).still = stmtsStill b.stmts := by
  cases b
  simp only [Stmt.still]

/-- Nothing follows a compound statement in which the protocol may move on. -/
theorem Stmt.still_of_followed {strict : Bool} {s : Stmt} {rest : List Stmt}
    (h : s.followable strict rest = true) (hcompound : s.isCompound = true)
    (hstrict : strict = true) (hrest : dropEmpty rest ≠ []) : s.still = true := by
  simpa [Stmt.followable, hcompound, hstrict, hrest] using h

theorem stmtsStill_dropEmpty (stmts : List Stmt) :
    stmtsStill (dropEmpty stmts) = stmtsStill stmts := by
  induction stmts with
  | nil => rfl
  | cons s rest ih =>
    rw [dropEmpty_cons]
    cases s <;> simp [Stmt.isEmpty, stmtsStill, Stmt.still, ih]

theorem stmtsStaged_dropEmpty (strict : Bool) (stmts : List Stmt) :
    stmtsStaged strict (dropEmpty stmts) = stmtsStaged strict stmts := by
  induction stmts with
  | nil => rfl
  | cons s rest ih =>
    rw [dropEmpty_cons]
    have hfollow : s.followable strict (dropEmpty rest) = s.followable strict rest := by
      rw [Stmt.followable, Stmt.followable, dropEmpty_dropEmpty]
    cases s <;> simp_all [Stmt.isEmpty, stmtsStaged, Stmt.staged, Stmt.followable, Stmt.isCompound]

end Surface

/-! ### Plain values -/

/-- The stages of a round are staged. -/
structure Round.Staged (strict : Bool) (r : Round) : Prop where
  pay : ∀ e, r.pay = some e → e.staged strict false = true
  timeout : ∀ t, r.timeout = some t →
    t.delay.staged strict false = true ∧ t.handler.staged strict = true

/-- The binding of a name that acts. A staged program refers to it only in statements. -/
def Acts (strict : Bool) (b : String × SecValue) : Prop :=
  b.1 ∈ Surface.actingNames strict ∧
    (b.2.value = .prim .synthetic .commit ∨ b.2.value = .prim .synthetic .exit)

/-- What a primitive does is plain. An app holds an environment and is not covered here. -/
def Prim.Plain (strict : Bool) (S : List String) : Prim → Prop
  | .interact who _ _ => who ∈ S
  | .commit | .committed | .exit | .exited => strict = false
  | .app .. => False
  | _ => True

namespace Value

/-- A value that holds nothing that acts. `S` are the participants whose frontends it may reach. -/
inductive Plain (strict : Bool) (S : List String) : Value → Prop
  | null {loc : Loc} : Plain strict S (.null loc)
  | bool {loc : Loc} {b : Bool} : Plain strict S (.bool loc b)
  | int {loc : Loc} {n : Int} : Plain strict S (.int loc n)
  | bytes {loc : Loc} {text : String} : Plain strict S (.bytes loc text)
  | type {loc : Loc} {t : Ty} : Plain strict S (.type loc t)
  | var {v : Ir.Var} : Plain strict S (.var v)
  | tuple {loc : Loc} {elems : List Value} (h : ∀ v ∈ elems, Plain strict S v) :
    Plain strict S (.tuple loc elems)
  | object {loc : Loc} {fields : Bindings} (h : ∀ b ∈ fields.entries, Plain strict S b.2.value) :
    Plain strict S (.object loc fields)
  | participant {tag : Tag} {p : Participant} : Plain strict S (.participant tag p)
  | closure {tag : Tag} {c : Closure} (hbody : c.body.staged strict = true)
    (h : ∀ b ∈ c.env.entries, ¬ Acts strict b → Plain strict S b.2.value) :
    Plain strict S (.closure tag c)
  | prim {loc : Loc} {p : Prim} (h : p.Plain strict S) : Plain strict S (.prim loc p)
  | app {loc : Loc} {tag : Tag} {a : App} (hbody : a.body.staged strict = true)
    (h : ∀ b ∈ a.env.entries, ¬ Acts strict b → Plain strict S b.2.value) :
    Plain strict S (.prim loc (.app tag a))
  | appForm {loc : Loc} {tag : Tag} : Plain strict S (.form loc tag .app)
  | round {loc : Loc} {tag : Tag} {r : Round} (hfree : strict = false) (hround : r.Staged strict) :
    Plain strict S (.form loc tag (.round r))

variable {strict : Bool} {S T : List String} {v : Value}

theorem Plain.mono (h : v.Plain strict S) (hsub : S ⊆ T) : v.Plain strict T := by
  induction h with
  | null => exact .null
  | bool => exact .bool
  | int => exact .int
  | bytes => exact .bytes
  | type => exact .type
  | var => exact .var
  | tuple _ ih => exact .tuple ih
  | object _ ih => exact .object ih
  | participant => exact .participant
  | closure hbody _ ih => exact .closure hbody ih
  | @prim _ p h =>
    refine .prim ?_
    cases p with
    | interact => exact hsub h
    | _ => exact h
  | app hbody _ ih => exact .app hbody ih
  | appForm => exact .appForm
  | round hfree hround => exact .round hfree hround

end Value

namespace Bindings

/-- Everything that an environment binds is plain, but for the names that act. -/
def Plain (strict : Bool) (S : List String) (env : Bindings) : Prop :=
  ∀ b ∈ env.entries, ¬ Acts strict b → b.2.value.Plain strict S

variable {strict : Bool} {S T : List String} {env overlay : Bindings} {name : String}
  {sv : SecValue} {loc : Loc}

theorem Plain.mono (h : env.Plain strict S) (hsub : S ⊆ T) : env.Plain strict T :=
  fun b hb hacts => (h b hb hacts).mono hsub

theorem plain_empty : Bindings.Plain strict S {} := Satisfies.empty

theorem Plain.bindAll (h : env.Plain strict S) {more : List (String × SecValue)}
    (hmore : ∀ b ∈ more, ¬ Acts strict b → b.2.value.Plain strict S) :
    Gives (Bindings.Plain strict S) (env.bindAll loc more) :=
  Satisfies.bindAll h hmore

theorem Plain.bind (h : env.Plain strict S) (hsv : sv.value.Plain strict S) :
    Gives (Bindings.Plain strict S) (env.bind loc name sv) :=
  Satisfies.bind h fun _ => hsv

theorem Plain.merge (h : env.Plain strict S) (hoverlay : overlay.Plain strict S) :
    Gives (Bindings.Plain strict S) (env.merge loc overlay) :=
  h.bindAll hoverlay

theorem Plain.set (h : env.Plain strict S) (hsv : sv.value.Plain strict S) :
    Bindings.Plain strict S (env.set name sv) :=
  Satisfies.set h fun _ => hsv

theorem Plain.without (h : env.Plain strict S) (names : List String) :
    Bindings.Plain strict S (env.without names) :=
  fun b hb => h b (List.mem_filter.1 hb).1

theorem Plain.difference (h : env.Plain strict S) (other : Bindings) :
    Bindings.Plain strict S (env.difference other) :=
  fun b hb => h b (List.mem_filter.1 hb).1

theorem Plain.find? (h : env.Plain strict S) (hname : name ∉ Surface.actingNames strict)
    (hfind : env.find? name = some sv) : sv.value.Plain strict S :=
  h _ (Bindings.mem_of_find? hfind) fun hacts => hname hacts.1

/-- The value of an identifier is plain, or it is what a name that acts is bound to. -/
theorem Plain.identify (h : env.Plain strict S) :
    Gives (fun sv => sv.value.Plain strict S ∨ Acts strict (name, sv)) (env.identify loc name) := by
  refine .of_yields fun {_ sv _} hrun => ?_
  obtain ⟨bound, hfind, _, rfl | ⟨_, _, _, _, rfl⟩⟩ := Bindings.identify_yields hrun
  · by_cases hacts : Acts strict (name, sv)
    · exact .inr hacts
    · exact .inl (h _ (Bindings.mem_of_find? hfind) hacts)
  · exact .inl .participant

end Bindings

end Choreography
