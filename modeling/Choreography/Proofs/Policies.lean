import Choreography.Proofs.Amounts
import Choreography.Proofs.Linking
import Choreography.Proofs.Tidiness

/-!
Policies for what programs pay and for where their participants compute. A policy names the
constants that some names stand for throughout a program, says what may be paid, and may keep
private computations separate: each is then a statement of its own, and what is paid is calm.

A program that follows a policy holds only values that follow it. A policy that is not enforced asks
for nothing, so that what is then left to say holds of every program.
-/

namespace Choreography

open Eval Ir

/-- The names that the standard library and the base environment use. -/
def reservedNames : List String :=
  ["interact", "x", "y", "not", "neq", "bytes_neq", "minus", "and", "or"] ++ baseNames

structure Policy where
  enforced : Bool
  /-- The constants that names stand for, wherever they are bound. -/
  fixed : String → Option Int
  /-- What may be paid. -/
  pays : Surface.Expr → Bool
  /-- Whether private computations are statements of their own. -/
  separate : Bool
  reserved : ∀ name ∈ reservedNames, fixed name = none
  calm : separate = true → ∀ e, pays e = true → e.calm = true

/-- Where an expression stands: where its value is used, where it is called, as a statement, or
where it is called by a statement. -/
inductive Position
  | operand | callee | statement | asked

/-- Where the callee of a call stands. -/
def Position.ofCallee : Position → Position
  | .statement => .asked
  | .operand | .callee | .asked => .callee

namespace Policy

variable (π : Policy)

/-- A condition that holds if the policy is enforced. -/
def Demands (condition : Bool) : Prop := π.enforced = true → condition = true

/-- The name stands for no constant. -/
def Free (name : String) : Prop := π.enforced = true → π.fixed name = none

/-- None of the names stands for a constant. -/
def frees (names : List String) : Bool := names.all fun name => (π.fixed name).isNone

/-- A stage of a round is filled in at once, and a separate private computation is asked for by a
statement, of a participant that is computed calmly. -/
def allows (base : Surface.Expr) (field : String) : Position → Bool
  | .operand | .statement =>
    !(Stage.all.map (·.name)).contains field && !(π.separate && field == "only")
  | .callee => !(π.separate && field == "only")
  | .asked => !(π.separate && field == "only") || base.calm

/-- What is published stands for no constant, and what is paid may be paid. -/
def takes (args : List Surface.Expr) : Surface.Expr → Bool
  | .dot _ _ field =>
    (field != Stage.publish.name || π.frees (args.flatMap (·.targets))) &&
      (field != Stage.pay.name || args.all π.pays)
  | _ => true

/-- A name that stands for a constant is declared as that constant. -/
def declares (lhs init : Surface.Expr) : Bool :=
  match lhs with
  | .ident _ name =>
    match π.fixed name with
    | some n => init.constant? π.fixed == some n
    | none => true
  | _ => π.frees lhs.targets

variable {π}

@[simp] theorem demands_and {a b : Bool} : π.Demands (a && b) ↔ π.Demands a ∧ π.Demands b := by
  simp [Demands, imp_and]

theorem demands_true : π.Demands true := fun _ => rfl

theorem Demands.free {names : List String} (h : π.Demands (π.frees names)) :
    ∀ name ∈ names, π.Free name := by
  intro name hname henforced
  simpa using List.all_eq_true.1 (h henforced) name hname

theorem calm_of_paid {e : Surface.Expr} (hseparate : π.separate = true)
    (hpaid : (∃ loc, e = .int loc "0" 10) ∨ π.pays e = true) : e.calm = true := by
  rcases hpaid with ⟨_, rfl⟩ | hpays
  · rw [Surface.Expr.calm]
  · exact π.calm hseparate e hpays

theorem free_of_reserved {name : String} (h : name ∈ reservedNames) : π.Free name :=
  fun _ => π.reserved name h

end Policy

/-! ### Programs -/

namespace Surface

variable (π : Policy)

mutual

/-- What the expression pays, publishes, binds and asks for follows the policy. -/
def Expr.obeys (position : Position) : Expr → Bool
  | .array _ elems => exprsObey elems
  | .object _ props => propsObey props
  | .call _ callee args =>
    callee.obeys position.ofCallee && π.takes args callee && exprsObey args
  | .dot _ base field => base.obeys .operand && π.allows base field position
  | .index _ base place => base.obeys .operand && place.obeys .operand
  | .binary _ _ lhs rhs => lhs.obeys .operand && rhs.obeys .operand
  | .unary _ _ operand => operand.obeys .operand
  | .paren _ inner => inner.obeys .operand
  | .ternary _ cond onTrue onFalse =>
    cond.obeys .operand && onTrue.obeys .operand && onFalse.obeys .operand
  | .arrow _ formals body | .function _ _ formals body => π.frees formals && body.obeys
  | .ident .. | .int .. | .string .. | .bool .. | .null _ | .foreign .. => true

def PropertyName.obeys : PropertyName → Bool
  | .computed key => key.obeys .operand
  | .ident _ | .string _ | .number _ => true

def Property.obeys : Property → Bool
  | .value _ name value => name.obeys && value.obeys .operand
  | .spread _ base => base.obeys .operand
  | .shorthand .. | .method .. => true

def Decl.obeys : Decl → Bool
  | ⟨_, lhs, some init⟩ => init.obeys .operand && π.declares lhs init
  | ⟨_, _, none⟩ => true

def Block.obeys : Block → Bool
  | ⟨_, stmts⟩ => stmtsObey stmts

def Stmt.obeys : Stmt → Bool
  | .block body => body.obeys
  | .constDecl _ decls => declsObey decls
  | .varDecl _ decls => declsObey decls && π.frees (decls.flatMap (·.lhs.targets))
  | .function _ name formals body => π.frees (name.toList ++ formals) && body.obeys
  | .branch _ cond onTrue (some onFalse) => cond.obeys .operand && onTrue.obeys && onFalse.obeys
  | .branch _ cond onTrue none => cond.obeys .operand && onTrue.obeys
  | .expr _ e => e.obeys .statement
  | .assign _ _ lhs rhs => rhs.obeys .operand && π.declares lhs rhs
  | .methodCall _ callee args => callee.obeys .asked && π.takes args callee && exprsObey args
  | .ret _ (some value) => value.obeys .operand
  | .loop _ cond body => cond.obeys .operand && body.obeys
  | .ret _ none | .empty _ | .cont _ | .foreign .. => true

def exprsObey : List Expr → Bool
  | [] => true
  | e :: es => e.obeys .operand && exprsObey es

def propsObey : List Property → Bool
  | [] => true
  | p :: ps => p.obeys && propsObey ps

def declsObey : List Decl → Bool
  | [] => true
  | d :: ds => d.obeys && declsObey ds

def stmtsObey : List Stmt → Bool
  | [] => true
  | s :: rest => s.obeys && stmtsObey rest

end

def Item.obeys : Item → Bool
  | .exported _ stmt | .plain _ stmt => stmt.obeys π
  | .importFrom .. | .foreign .. => true

def Module.obeys (m : Module) : Bool := m.items.all (·.obeys π)

theorem Block.obeys_eq (b : Block) : b.obeys π = stmtsObey π b.stmts := by
  cases b
  simp only [Block.obeys]

theorem stmtsObey_eq_all (stmts : List Stmt) : stmtsObey π stmts = stmts.all (·.obeys π) := by
  induction stmts with
  | nil => simp only [stmtsObey, List.all_nil]
  | cons s rest ih => simp only [stmtsObey, List.all_cons, ih]

theorem stmtsObey_dropEmpty {stmts : List Stmt} (h : π.Demands (stmtsObey π stmts)) :
    π.Demands (stmtsObey π (dropEmpty stmts)) := by
  intro henforced
  rw [stmtsObey_eq_all, List.all_eq_true]
  intro s hs
  have hall := h henforced
  rw [stmtsObey_eq_all, List.all_eq_true] at hall
  exact hall s (List.mem_filter.1 hs).1

end Surface

/-! ### Values -/

namespace Policy

/-- A name that stands for a constant is bound to it. -/
def Fixes (π : Policy) (b : String × SecValue) : Prop :=
  π.enforced = true → ∀ n, π.fixed b.1 = some n → ∃ at', b.2 = .pub (.int at' n)

end Policy

/-- The stages of a round follow the policy. -/
structure Round.Obeys (π : Policy) (r : Round) : Prop where
  publish : ∀ names, r.publish = some names → ∀ name ∈ names, π.Free name
  pay : ∀ e, r.pay = some e → π.Demands (π.pays e && e.obeys π .operand)
  timeout : ∀ t, r.timeout = some t → π.Demands (t.delay.obeys π .operand && t.handler.obeys π)

namespace Round.Obeys

variable {π : Policy} {r : Round}

/-- A round without a payment pays nothing. -/
theorem paid (h : r.Obeys π) (loc : Loc) (henforced : π.enforced = true) :
    (∃ zeroLoc, r.pay.getD (.int loc "0" 10) = .int zeroLoc "0" 10) ∨
      π.pays (r.pay.getD (.int loc "0" 10)) = true := by
  cases hpay : r.pay with
  | none => exact .inl ⟨loc, rfl⟩
  | some e => exact .inr ((Policy.demands_and.1 (h.pay e hpay)).1 henforced)

theorem amount (h : r.Obeys π) (loc : Loc) :
    π.Demands ((r.pay.getD (.int loc "0" 10)).obeys π .operand) := by
  cases hpay : r.pay with
  | none => simp [Surface.Expr.obeys, Policy.Demands]
  | some e => exact (Policy.demands_and.1 (h.pay e hpay)).2

end Round.Obeys

/-- A value whose functions follow the policy, and have been written where names stand for their
constants. An enforced policy lets no stage of a round wait to be filled in, and a private
computation that is separate is no value. -/
inductive Value.Obeys (π : Policy) : Value → Prop
  | null {loc : Loc} : Obeys π (.null loc)
  | bool {loc : Loc} {b : Bool} : Obeys π (.bool loc b)
  | int {loc : Loc} {n : Int} : Obeys π (.int loc n)
  | bytes {loc : Loc} {text : String} : Obeys π (.bytes loc text)
  | type {loc : Loc} {t : Ty} : Obeys π (.type loc t)
  | var {v : Var} : Obeys π (.var v)
  | tuple {loc : Loc} {elems : List Value} (h : ∀ v ∈ elems, Obeys π v) : Obeys π (.tuple loc elems)
  | object {loc : Loc} {fields : Bindings} (h : ∀ b ∈ fields.entries, Obeys π b.2.value) :
    Obeys π (.object loc fields)
  | participant {tag : Tag} {p : Participant} : Obeys π (.participant tag p)
  | closure {tag : Tag} {c : Closure} (hbody : π.Demands (c.body.obeys π))
    (hformals : ∀ name ∈ c.formals, π.Free name) (hbased : Bindings.Based c.env)
    (hfixes : ∀ b ∈ c.env.entries, π.Fixes b) (h : ∀ b ∈ c.env.entries, Obeys π b.2.value) :
    Obeys π (.closure tag c)
  | prim {loc : Loc} {p : Prim} (h : ∀ tag a, p ≠ .app tag a) : Obeys π (.prim loc p)
  | app {loc : Loc} {tag : Tag} {a : App} (hbody : π.Demands (a.body.obeys π))
    (hbased : Bindings.Based a.env) (hfixes : ∀ b ∈ a.env.entries, π.Fixes b)
    (h : ∀ b ∈ a.env.entries, Obeys π b.2.value) : Obeys π (.prim loc (.app tag a))
  | appForm {loc : Loc} {tag : Tag} : Obeys π (.form loc tag .app)
  | only {loc : Loc} {tag : Tag} {who : String} (hfree : π.enforced = true → π.separate = false) :
    Obeys π (.form loc tag (.only who))
  | onlyDone {loc : Loc} {tag : Tag} {who : String} {view : Bindings} {result : SecValue}
    (hfree : π.enforced = true → π.separate = false) (hbased : view.Based)
    (hfixes : ∀ b ∈ view.entries, π.Fixes b) (h : ∀ b ∈ view.entries, Obeys π b.2.value) :
    Obeys π (.form loc tag (.onlyDone who view result))
  | round {loc : Loc} {tag : Tag} {r : Round} (hstage : π.enforced = true → r.stage = none)
    (hround : r.Obeys π) : Obeys π (.form loc tag (.round r))

/-- A binding that follows the policy. -/
structure Policy.Holds (π : Policy) (b : String × SecValue) : Prop where
  fixes : π.Fixes b
  value : b.2.value.Obeys π

theorem Policy.Holds.of_free {π : Policy} {name : String} {sv : SecValue} (h : π.Free name)
    (hvalue : sv.value.Obeys π) : π.Holds (name, sv) := by
  refine ⟨fun henforced n hfixed => ?_, hvalue⟩
  simp [h henforced] at hfixed

/-- An environment on top of the base environment, in which all bindings follow the policy. -/
structure Bindings.Obeys (π : Policy) (env : Bindings) : Prop where
  based : env.Based
  holds : env.Satisfies π.Holds

namespace Bindings.Obeys

variable {π : Policy} {env out overlay : Bindings} {name : String} {sv : SecValue} {loc : Loc}

variable (h : env.Obeys π)
include h

omit h in
theorem closure {tag : Tag} {c : Closure} (h : Bindings.Obeys π c.env)
    (hbody : π.Demands (c.body.obeys π)) (hformals : ∀ name ∈ c.formals, π.Free name) :
    (Value.closure tag c).Obeys π :=
  .closure hbody hformals h.based (fun b hb => (h.holds b hb).fixes)
    fun b hb => (h.holds b hb).value

theorem fixed (henforced : π.enforced = true) : env.Fixed π.fixed :=
  fun b hb => (h.holds b hb).fixes henforced

theorem of_append {more : List (String × SecValue)} (hmore : ∀ b ∈ more, π.Holds b)
    (hentries : out.entries = env.entries ++ more) : out.Obeys π :=
  ⟨h.based.of_older (by rw [hentries]; exact List.prefix_append _ _),
    h.holds.of_append hmore hentries⟩

theorem bindAll {more : List (String × SecValue)} (hmore : ∀ b ∈ more, π.Holds b) :
    Gives (Bindings.Obeys π) (env.bindAll loc more) :=
  .of_yields fun hrun => h.of_append hmore (Bindings.bindAll_yields hrun).1

theorem push (hnew : π.Holds (name, sv)) : Bindings.Obeys π (env.push name sv) :=
  h.of_append (by simpa using hnew) rfl

theorem bind (hnew : π.Holds (name, sv)) : Gives (Bindings.Obeys π) (env.bind loc name sv) := by
  refine .of_yields fun hrun => ?_
  obtain ⟨_, rfl, _⟩ := Bindings.bind_yields.1 hrun
  exact h.push hnew

theorem merge (hoverlay : overlay.Satisfies π.Holds) :
    Gives (Bindings.Obeys π) (env.merge loc overlay) :=
  h.bindAll hoverlay

theorem without {names : List String} (hnames : ∀ name ∈ names, name ∉ baseNames) :
    Bindings.Obeys π (env.without names) :=
  ⟨h.based.without hnames, fun b hb => h.holds b (List.mem_filter.1 hb).1⟩

theorem set (hname : name ∉ baseNames) (hnew : π.Holds (name, sv)) :
    Bindings.Obeys π (env.set name sv) :=
  ⟨h.based.set hname, h.holds.set hnew⟩

theorem find? (hfind : env.find? name = some sv) : sv.value.Obeys π :=
  (h.holds _ (Bindings.mem_of_find? hfind)).value

theorem identify : Gives (·.value.Obeys π) (env.identify loc name) := by
  refine .of_yields fun hrun => ?_
  obtain ⟨bound, hfind, _, rfl | ⟨_, _, _, _, rfl⟩⟩ := Bindings.identify_yields hrun
  · exact h.find? hfind
  · exact .participant

end Bindings.Obeys

/-- The base environment binds primitives, types, and what apps are made with. -/
theorem baseEnv_entry {b : String × SecValue} (hb : b ∈ baseEnv.entries) :
    (∃ p, b.2.value = .prim .synthetic p ∧ ∀ tag a, p ≠ .app tag a) ∨
      (∃ t, b.2.value = .type .synthetic t) ∨
      b.2.value = .object .synthetic (.ofList [("App", .pub (.form .synthetic 0 .app))]) := by
  have hmem := Env.mem_ofList hb
  simp only [List.mem_cons, List.not_mem_nil, or_false] at hmem
  rcases hmem with rfl | rfl | rfl | rfl | rfl | rfl | rfl | rfl | rfl | rfl | rfl | rfl | rfl |
    rfl | rfl | rfl | rfl | rfl | rfl | rfl | rfl | rfl
  any_goals exact .inl ⟨_, rfl, by simp⟩
  any_goals exact .inr (.inl ⟨_, rfl⟩)
  exact .inr (.inr rfl)

/-- The base environment binds no participants. -/
theorem Bindings.Based.not_mem_of_participant {env : Bindings} (h : env.Based) {name : String}
    {level : Level} {tag : Tag} {p : Participant}
    (hfind : env.find? name = some ⟨level, .participant tag p⟩) : name ∉ baseNames := by
  intro hname
  obtain ⟨b, hb, rfl⟩ := List.mem_map.1 hname
  have hbase : b.2.value = .participant tag p := by
    rw [Option.some.inj ((h b hb).symm.trans hfind)]
  rcases baseEnv_entry hb with ⟨_, hvalue, _⟩ | ⟨_, hvalue⟩ | hvalue <;>
    cases hbase.symm.trans hvalue

theorem baseEnv_obeys {π : Policy} : baseEnv.Obeys π := by
  refine ⟨baseEnv_based, fun b hb => .of_free (Policy.free_of_reserved ?_) ?_⟩
  · exact List.mem_append_right _ (List.mem_map_of_mem hb)
  · rcases baseEnv_entry hb with ⟨p, hvalue, hp⟩ | ⟨t, hvalue⟩ | hvalue
    · rw [hvalue]
      exact .prim hp
    · rw [hvalue]
      exact .type
    · rw [hvalue]
      refine .object fun b hb => ?_
      obtain rfl := List.mem_singleton.1 (Env.mem_ofList hb)
      exact .appForm

/-- The views of a mode follow the policy. -/
def Mode.Obeys (π : Policy) : Mode → Prop
  | .step parties | .consensus _ parties => ∀ e ∈ parties.views.entries, Bindings.Obeys π e.2
  | .module | .pureLocal | .localStep => True

/-! ### Code -/

namespace Ir

/-- A round in which `e` is paid: consensus computes the amount, by code that is `before` the check,
and goes on with `next`. -/
structure Transition.Pays (π : Policy) (t : Transition) (e : Surface.Expr) (before next : Code)
    (operand : Arg) : Prop where
  body : ∃ loc frames carried agree,
    t.body = before ++ checkCode loc frames operand carried agree ++ next
  consensus : ∃ joined, next.During (.consensus joined)
  paid : π.enforced = true → (∃ loc, e = .int loc "0" 10) ∨ π.pays e = true
  calm : e.calm = true → before.Local
  constant : π.enforced = true → ∀ n, e.constant? π.fixed = some n →
    before = [] ∧ operand = .int n ∧ t.amount = .int n

/-- Rounds follow the policy, and separate private computations are local. -/
def Stmt.Obeys (π : Policy) : Stmt → Prop
  | .only _ _ body => π.enforced = true → π.separate = true → Code.Local body
  | .toConsensus _ t => ∃ e before next operand, t.Pays π e before next operand
  | _ => True

/-- All statements follow the policy, at every depth. -/
def Code.Obeys (π : Policy) (code : Code) : Prop := ∀ st ∈ statements code, st.Obeys π

namespace Code

variable {π : Policy} {st : Stmt} {code code' : Code}

@[simp] theorem obeys_nil : Code.Obeys π [] := by simp [Code.Obeys]

@[simp] theorem obeys_append : Code.Obeys π (code ++ code') ↔ code.Obeys π ∧ code'.Obeys π := by
  simp [Code.Obeys, or_imp, forall_and]

theorem Obeys.append (h : code.Obeys π) (h' : code'.Obeys π) : Code.Obeys π (code ++ code') :=
  obeys_append.2 ⟨h, h'⟩

theorem Obeys.single (h : st.Obeys π) (hparts : ∀ code ∈ st.parts, Code.Obeys π code) :
    Code.Obeys π [st] :=
  Everywhere.single h hparts

theorem Obeys.atom (h : st.Obeys π) (hparts : st.parts = []) : Code.Obeys π [st] :=
  .single h (by simp [hparts])

theorem Obeys.prompt {loc : Loc} {slot : Nat} {result : Option Var} (h : code.Obeys π) :
    Code.Obeys π [.prompt loc slot result code] :=
  .single trivial (by simpa [Stmt.parts] using h)

theorem Obeys.branch {loc : Loc} {cond : Arg} (h : code.Obeys π) (h' : code'.Obeys π) :
    Code.Obeys π [.branch loc cond code code'] :=
  .single trivial (by simpa [Stmt.parts] using ⟨h, h'⟩)

theorem Local.obeys (h : code.Local) : code.Obeys π := by
  intro st hst
  have hlocal := h st hst
  cases st with
  | only | toConsensus => simp [Stmt.isLocal] at hlocal
  | _ => exact trivial

theorem Silent.obeys (h : code.Silent) : code.Obeys π := h.isLocal.obeys

theorem Obeys.unprompted (h : code.Obeys π) (loc : Loc) (slot : Nat) (result : Value) :
    (Code.unprompted code loc slot result).Obeys π :=
  Everywhere.unprompted h trivial result

end Code

end Ir

end Choreography
