import Choreography.Proofs.Materials
import Choreography.Proofs.Policies

/-!
Where control can run off the end of code, and where it can run off the end of a list of statements
as it is written. A program ends its loop bodies explicitly when every loop body, and every handler
that a round falls back on, has a statement that control does not pass: a return, a continue, an exit,
or a choice between such statements.
-/

namespace Choreography

open Eval Ir

/-! ### Code -/

namespace Ir

mutual

/-- Control can go on after the statement. It goes on after a prompt with what is returned there. -/
def Stmt.passes : Stmt → Bool
  | .stop .. | .ret .. | .cont .. => false
  | .branch _ _ onTrue onFalse => codePasses onTrue || codePasses onFalse
  | .toConsensus _ ⟨_, _, _, _, _, none, body⟩ => codePasses body
  | .toConsensus _ ⟨_, _, _, _, _, some ⟨_, late⟩, body⟩ => codePasses late || codePasses body
  | .fromConsensus _ body => codePasses body
  | .letIn .. | .claim .. | .transfer .. | .prompt .. | .only .. | .loop .. => true

/-- Control can run off the end. -/
def codePasses : List Stmt → Bool
  | [] => true
  | st :: rest => st.passes && codePasses rest

end

@[simp] theorem codePasses_nil : codePasses [] = true := by rw [codePasses]

@[simp] theorem codePasses_cons (st : Stmt) (rest : Code) :
    codePasses (st :: rest) = (st.passes && codePasses rest) := by
  rw [codePasses]

@[simp] theorem codePasses_append (code code' : Code) :
    codePasses (code ++ code') = (codePasses code && codePasses code') := by
  induction code with
  | nil => simp
  | cons st rest ih => simp [ih, Bool.and_assoc]

theorem Stmt.passes_toConsensus (loc : Loc) (t : Transition) :
    (Stmt.toConsensus loc t).passes = (t.timeout.any (codePasses ·.body) || codePasses t.body) := by
  obtain ⟨_, _, _, _, _, timeout, _⟩ := t
  rcases timeout with _ | ⟨_, _⟩ <;> simp [Stmt.passes]

/-- Control does not run off the end of the body, if the statement is a loop. -/
def Stmt.turnsEnd : Stmt → Bool
  | .loop _ _ _ _ body => !codePasses body
  | _ => true

/-- The bodies of all loops end explicitly, at every depth. -/
def Code.TurnsEnd (code : Code) : Prop := code.Everywhere (·.turnsEnd = true)

namespace Code

variable {st : Stmt} {code code' : Code}

@[simp] theorem turnsEnd_nil : Code.TurnsEnd [] := by simp [Code.TurnsEnd, Everywhere]

theorem TurnsEnd.append (h : code.TurnsEnd) (h' : code'.TurnsEnd) : Code.TurnsEnd (code ++ code') :=
  everywhere_append.2 ⟨h, h'⟩

theorem TurnsEnd.single (h : st.turnsEnd = true) (hparts : ∀ code ∈ st.parts, Code.TurnsEnd code) :
    Code.TurnsEnd [st] :=
  Everywhere.single h hparts

theorem TurnsEnd.of_each (h : ∀ st ∈ code, Code.TurnsEnd [st]) : code.TurnsEnd := by
  intro t ht
  obtain ⟨st, hst, hmem⟩ := mem_statements.1 ht
  exact h st hst t (by simpa using hmem)

theorem TurnsEnd.prompt {loc : Loc} {slot : Nat} {result : Option Var} (h : code.TurnsEnd) :
    Code.TurnsEnd [.prompt loc slot result code] :=
  .single rfl (by simpa [Stmt.parts] using h)

theorem TurnsEnd.branch {loc : Loc} {cond : Arg} (h : code.TurnsEnd) (h' : code'.TurnsEnd) :
    Code.TurnsEnd [.branch loc cond code code'] :=
  .single rfl (by simpa [Stmt.parts] using ⟨h, h'⟩)

theorem TurnsEnd.ret {loc : Loc} {slot : Nat} {value : Option Value} :
    Code.TurnsEnd [.ret loc slot value] :=
  .single rfl (by simp [Stmt.parts])

end Code

theorem Stmt.ByPrim.turnsEnd {mode : Mode} {p : Prim} {st : Stmt} (h : st.ByPrim mode p) :
    Code.TurnsEnd [st] := by
  cases h with
  | compute | ask | claim | transfer | stop => exact .single rfl (by simp [Stmt.parts])

theorem Code.Silent.turnsEnd {code : Code} (h : code.Silent) : code.TurnsEnd := by
  refine .of_each fun st hst => ?_
  obtain ⟨_, _, _, rfl, _⟩ := h st hst
  exact .single rfl (by simp [Stmt.parts])

end Ir

/-! ### Programs -/

namespace Surface

/-- A call of what ends the protocol, by its name. -/
def Expr.callsExit : Expr → Bool
  | .call _ (.ident _ name) _ => name == "exit"
  | _ => false

mutual

/-- Control does not pass the statement: it returns, continues or exits, whichever way it goes. An
assignment stands before a continue. -/
def Stmt.ends : Stmt → Bool
  | .ret .. | .cont _ | .assign .. => true
  | .block ⟨_, stmts⟩ => stmtsEnd stmts
  | .branch _ _ onTrue (some onFalse) => onTrue.ends && onFalse.ends
  | .expr _ e => e.callsExit
  | .methodCall loc callee args => (Expr.call loc callee args).callsExit
  | .branch _ _ _ none | .constDecl .. | .varDecl .. | .function .. | .empty _ | .loop ..
  | .foreign .. => false

/-- Control does not run off the end of the list. -/
def stmtsEnd : List Stmt → Bool
  | [] => false
  | s :: rest => s.ends || stmtsEnd rest

end

/-- A handler that is passed to the stage for it ends explicitly. -/
def handlersEnd (callee : Expr) (args : List Expr) : Bool :=
  match callee, args with
  | .dot _ _ field, [_, .arrow _ _ handler] => field != Stage.timeout.name || stmtsEnd handler.stmts
  | _, _ => true

mutual

/-- Loop bodies and handlers in the expression end explicitly. The stage for a handler is named only
where it is `called`. -/
def Expr.explicit (called : Bool) : Expr → Bool
  | .array _ elems => exprsExplicit elems
  | .object _ props => propsExplicit props
  | .call _ callee args => callee.explicit true && handlersEnd callee args && exprsExplicit args
  | .dot _ base field => base.explicit false && (called || field != Stage.timeout.name)
  | .index _ base place => base.explicit false && place.explicit false
  | .binary _ _ lhs rhs => lhs.explicit false && rhs.explicit false
  | .unary _ _ operand => operand.explicit false
  | .paren _ inner => inner.explicit false
  | .ternary _ cond onTrue onFalse =>
    cond.explicit false && onTrue.explicit false && onFalse.explicit false
  | .arrow _ _ body | .function _ _ _ body => body.explicit
  | .ident .. | .int .. | .string .. | .bool .. | .null _ | .foreign .. => true

def PropertyName.explicit : PropertyName → Bool
  | .computed key => key.explicit false
  | .ident _ | .string _ | .number _ => true

def Property.explicit : Property → Bool
  | .value _ name value => name.explicit && value.explicit false
  | .spread _ base => base.explicit false
  | .shorthand .. | .method .. => true

def Decl.explicit : Decl → Bool
  | ⟨_, _, some init⟩ => init.explicit false
  | ⟨_, _, none⟩ => true

def Block.explicit : Block → Bool
  | ⟨_, stmts⟩ => stmtsExplicit stmts

def Stmt.explicit : Stmt → Bool
  | .block body | .function _ _ _ body => body.explicit
  | .constDecl _ decls | .varDecl _ decls => declsExplicit decls
  | .branch _ cond onTrue (some onFalse) =>
    cond.explicit false && onTrue.explicit && onFalse.explicit
  | .branch _ cond onTrue none => cond.explicit false && onTrue.explicit
  | .expr _ e => e.explicit false
  | .assign _ _ _ rhs => rhs.explicit false
  | .methodCall _ callee args =>
    callee.explicit true && handlersEnd callee args && exprsExplicit args
  | .ret _ (some value) => value.explicit false
  | .loop _ cond body => cond.explicit false && body.ends && body.explicit
  | .ret _ none | .empty _ | .cont _ | .foreign .. => true

def exprsExplicit : List Expr → Bool
  | [] => true
  | e :: es => e.explicit false && exprsExplicit es

def propsExplicit : List Property → Bool
  | [] => true
  | p :: ps => p.explicit && propsExplicit ps

def declsExplicit : List Decl → Bool
  | [] => true
  | d :: ds => d.explicit && declsExplicit ds

def stmtsExplicit : List Stmt → Bool
  | [] => true
  | s :: rest => s.explicit && stmtsExplicit rest

end

def Item.explicit : Item → Bool
  | .exported _ stmt | .plain _ stmt => stmt.explicit
  | .importFrom .. | .foreign .. => true

/-- Every loop body in the module, and every handler of a round, ends explicitly. -/
def Module.explicit (m : Module) : Bool := m.items.all (·.explicit)

theorem Block.explicit_eq (b : Block) : b.explicit = stmtsExplicit b.stmts := by
  cases b
  rw [Block.explicit]

theorem Stmt.ends_block (b : Block) : (Stmt.block b).ends = stmtsEnd b.stmts := by
  cases b
  rw [Stmt.ends]

theorem Stmt.ends_branch (loc : Loc) (cond : Expr) (onTrue : Stmt) (onFalse : Option Stmt) :
    (Stmt.branch loc cond onTrue onFalse).ends =
      (stmtsEnd [onTrue] && stmtsEnd onFalse.toList) := by
  cases onFalse <;> simp [Stmt.ends, stmtsEnd]

theorem Stmt.explicit_branch (loc : Loc) (cond : Expr) (onTrue : Stmt) (onFalse : Option Stmt) :
    (Stmt.branch loc cond onTrue onFalse).explicit =
      (cond.explicit false && stmtsExplicit [onTrue] && stmtsExplicit onFalse.toList) := by
  cases onFalse <;> simp [Stmt.explicit, stmtsExplicit]

theorem stmtsEnd_eq_any (stmts : List Stmt) : stmtsEnd stmts = stmts.any (·.ends) := by
  induction stmts with
  | nil => rw [stmtsEnd, List.any_nil]
  | cons s rest ih => rw [stmtsEnd, List.any_cons, ih]

theorem stmtsExplicit_eq_all (stmts : List Stmt) : stmtsExplicit stmts = stmts.all (·.explicit) := by
  induction stmts with
  | nil => rw [stmtsExplicit, List.all_nil]
  | cons s rest ih => rw [stmtsExplicit, List.all_cons, ih]

/-- Empty statements make no difference to where control runs off. -/
theorem stmtsEnd_dropEmpty (stmts : List Stmt) : stmtsEnd (dropEmpty stmts) = stmtsEnd stmts := by
  rw [stmtsEnd_eq_any, stmtsEnd_eq_any, dropEmpty, List.any_filter]
  congr 1
  funext s
  cases s <;> simp [Stmt.isEmpty, Stmt.ends]

theorem stmtsExplicit_dropEmpty {stmts : List Stmt} (h : stmtsExplicit stmts = true) :
    stmtsExplicit (dropEmpty stmts) = true := by
  rw [stmtsExplicit_eq_all, List.all_eq_true] at h ⊢
  exact fun s hs => h s (List.mem_filter.1 hs).1

end Surface

/-! ### Values -/

/-- The value holds no text of the program and no other values. -/
def Value.isPlain : Value → Bool
  | .closure .. | .tuple .. | .object .. | .form _ _ (.round _) | .form _ _ (.onlyDone ..)
  | .prim _ (.app ..) => false
  | _ => true

/-- What a round keeps unevaluated is explicit, and its handler ends explicitly. -/
structure Round.Explicit (r : Round) : Prop where
  pay : ∀ e, r.pay = some e → e.explicit false = true
  timeout : ∀ t, r.timeout = some t → t.delay.explicit false = true ∧ t.handler.explicit = true ∧
    Surface.stmtsEnd t.handler.stmts = true

/-- A value whose functions end their loop bodies explicitly, and have been written on top of the base
environment. No round waits for its handler. -/
inductive Value.Explicit : Value → Prop
  | plain {v : Value} (h : v.isPlain = true) : Explicit v
  | tuple {loc : Loc} {elems : List Value} (h : ∀ v ∈ elems, Explicit v) : Explicit (.tuple loc elems)
  | object {loc : Loc} {fields : Bindings} (h : ∀ b ∈ fields.entries, Explicit b.2.value) :
    Explicit (.object loc fields)
  | closure {tag : Tag} {c : Closure} (hbody : c.body.explicit = true) (hbased : Bindings.Based c.env)
    (h : ∀ b ∈ c.env.entries, Explicit b.2.value) : Explicit (.closure tag c)
  | app {loc : Loc} {tag : Tag} {a : App} (hbody : a.body.explicit = true)
    (hbased : Bindings.Based a.env) (h : ∀ b ∈ a.env.entries, Explicit b.2.value) :
    Explicit (.prim loc (.app tag a))
  | round {loc : Loc} {tag : Tag} {r : Round} (hstage : r.stage ≠ some .timeout)
    (hround : r.Explicit) : Explicit (.form loc tag (.round r))
  | onlyDone {loc : Loc} {tag : Tag} {who : String} {view : Bindings} {result : SecValue}
    (hbased : view.Based) (h : ∀ b ∈ view.entries, Explicit b.2.value) :
    Explicit (.form loc tag (.onlyDone who view result))

theorem Value.Atomic.explicit {v : Value} (h : v.Atomic) : v.Explicit := by
  cases h <;> exact .plain rfl

/-- Everything that is bound is explicit. -/
abbrev Bindings.HoldsExplicit (env : Bindings) : Prop := env.Satisfies (·.2.value.Explicit)

/-- An environment on top of the base environment in which everything is explicit. -/
structure Bindings.Explicit (env : Bindings) : Prop where
  based : env.Based
  holds : env.HoldsExplicit

variable {loc : Loc} {env overlay : Bindings} {name : String} {sv : SecValue}

namespace Bindings.Explicit

theorem closure {tag : Tag} {c : Closure} (h : Bindings.Explicit c.env)
    (hbody : c.body.explicit = true) : (Value.closure tag c).Explicit :=
  .closure hbody h.based h.holds

theorem bindAll (h : env.Explicit) {bindings : List (String × SecValue)}
    (hbindings : ∀ b ∈ bindings, b.2.value.Explicit) :
    Gives Bindings.Explicit (env.bindAll loc bindings) := by
  refine .of_yields fun hrun => ⟨h.based.of_older ?_, (h.holds.bindAll hbindings).result hrun⟩
  rw [(Bindings.bindAll_yields hrun).1]
  exact List.prefix_append _ _

theorem bind (h : env.Explicit) (hsv : sv.value.Explicit) :
    Gives Bindings.Explicit (env.bind loc name sv) := by
  refine .of_yields fun hrun => ⟨?_, (h.holds.bind hsv).result hrun⟩
  obtain ⟨_, rfl, _⟩ := Bindings.bind_yields.1 hrun
  exact h.based.of_older (List.prefix_append _ _)

theorem merge (h : env.Explicit) (hoverlay : overlay.HoldsExplicit) :
    Gives Bindings.Explicit (env.merge loc overlay) :=
  h.bindAll hoverlay

theorem without {names : List String} (h : env.Explicit)
    (hnames : ∀ name ∈ names, name ∉ baseNames) : Bindings.Explicit (env.without names) :=
  ⟨h.based.without hnames, fun b hb => h.holds b (List.mem_filter.1 hb).1⟩

theorem set (h : env.Explicit) (hname : name ∉ baseNames) (hsv : sv.value.Explicit) :
    Bindings.Explicit (env.set name sv) :=
  ⟨h.based.set hname, h.holds.set hsv⟩

theorem lookup (h : env.Explicit) : Gives (·.value.Explicit) (env.lookup loc name) :=
  .of_yields fun hrun => h.holds _ (Bindings.mem_of_find? (Bindings.lookup_yields.1 hrun).1)

theorem identify (h : env.Explicit) : Gives (·.value.Explicit) (env.identify loc name) := by
  refine .of_yields fun hrun => ?_
  obtain ⟨bound, hfind, _, rfl | ⟨_, _, _, _, rfl⟩⟩ := Bindings.identify_yields hrun
  · exact h.holds _ (Bindings.mem_of_find? hfind)
  · exact .plain rfl

end Bindings.Explicit

theorem baseEnv_explicit : baseEnv.Explicit := by
  refine ⟨baseEnv_based, fun b hb => ?_⟩
  rcases baseEnv_entry hb with ⟨p, hvalue, hp⟩ | ⟨t, hvalue⟩ | hvalue
  · rw [hvalue]
    cases p with
    | app => exact absurd rfl (hp _ _)
    | _ => exact .plain rfl
  · rw [hvalue]
    exact .plain rfl
  · rw [hvalue]
    refine .object fun b hb => ?_
    obtain rfl := List.mem_singleton.1 (Env.mem_ofList hb)
    exact .plain rfl

/-- The views of participants are explicit. -/
def Mode.Explicit : Mode → Prop
  | .step parties | .consensus _ parties => ∀ e ∈ parties.views.entries, Bindings.Explicit e.2
  | .module | .pureLocal | .localStep => True

/-! ### Operations -/

variable {ctx : Ctx} {args : List SecValue}

/-- A result that satisfies `P`, with code in which loop bodies end explicitly. -/
structure Lifted.Explicit {α : Type} (P : α → Prop) (r : Lifted α) : Prop where
  code : r.code.TurnsEnd
  value : P r.value

theorem Lifted.Explicit.plain {α : Type} {P : α → Prop} {a : α} (h : P a) :
    Lifted.Explicit P (.plain a) :=
  ⟨Code.turnsEnd_nil, h⟩

theorem enumBody_explicit (loc : Loc) (n : Nat) : (enumBody loc n).explicit = true := by
  simp [enumBody, Surface.Block.returning, Surface.Block.explicit, Surface.stmtsExplicit,
    Surface.Stmt.explicit, Surface.Expr.explicit]

/-- Primitives give back no text of the program but that of an enumeration. -/
theorem Prim.ComesTo.explicit {p : Prim} {v : Value} (h : p.ComesTo ctx loc env args v)
    (henv : env.Explicit) (hargs : ∀ sv ∈ args, sv.value.Explicit) : v.Explicit := by
  cases h with
  | atomic h => exact h.explicit
  | enumeration =>
    refine .tuple (List.forall_mem_cons.2 ⟨henv.closure (enumBody_explicit _ _), fun v hv => ?_⟩)
    obtain ⟨i, _, rfl⟩ := List.mem_map.1 hv
    exact .plain rfl
  | declassified h => exact hargs _ h
  | committed | exited => exact .plain rfl
  | payment =>
    refine .object fun b hb => ?_
    rw [List.mem_singleton.1 (Env.mem_ofList hb)]
    exact .plain rfl

/-- Primitives emit no loops. -/
theorem Ctx.applyPrim_explicit (henv : env.Explicit) (hargs : ∀ sv ∈ args, sv.value.Explicit)
    {p : Prim} : Gives (Lifted.Explicit (·.value.Explicit)) (ctx.applyPrim loc env p args) :=
  Ctx.applyPrim_meets.gives.imp fun _ h =>
    ⟨.of_each fun st hst => (h.code st hst).turnsEnd, h.value.explicit henv hargs⟩

end Choreography
