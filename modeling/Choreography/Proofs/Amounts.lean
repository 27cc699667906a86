import Choreography.Library.Base
import Choreography.Proofs.Modes
import Choreography.Proofs.Traits
import Choreography.Proofs.Transitions
import Mathlib.Data.List.Forall2

/-!
Amounts. A calm expression applies no function of the program, so that its code only computes and
claims. A constant expression has the same value wherever its names stand for the same constants.
The check of an amount computes the amount, compares it with what the transaction carries, and
requires that they agree.
-/

namespace Choreography

open Eval Ir

variable {s s' : Supply} {loc : Loc} {ctx : Ctx} {env : Bindings} {ev : Evaluator}
  {r : Lifted SecValue}

/-! ### The base environment -/

/-- The environment binds every name of the base environment as the base environment does. -/
def Bindings.Based (env : Bindings) : Prop :=
  ∀ b ∈ baseEnv.entries, env.find? b.1 = some b.2

theorem baseEnv_based : baseEnv.Based := by
  intro b hb
  have hmem := Env.mem_ofList hb
  simp only [List.mem_cons, List.not_mem_nil, or_false] at hmem
  rcases hmem with rfl | rfl | rfl | rfl | rfl | rfl | rfl | rfl | rfl | rfl | rfl | rfl | rfl |
    rfl | rfl | rfl | rfl | rfl | rfl | rfl | rfl | rfl <;> rfl

/-- The names that the base environment binds. -/
def baseNames : List String := baseEnv.entries.map (·.1)

namespace Bindings.Based

variable {name : String} {sv : SecValue} {out : Bindings}

theorem find? (h : env.Based) (hfind : baseEnv.find? name = some sv) : env.find? name = some sv :=
  h _ (Bindings.mem_of_find? hfind)

/-- A name that can still be bound is no name of the base environment. -/
theorem not_mem_of_fresh (h : env.Based) (hfresh : env.find? name = none) : name ∉ baseNames := by
  intro hname
  obtain ⟨b, hb, rfl⟩ := List.mem_map.1 hname
  simp [h b hb] at hfresh

theorem of_older (h : env.Based) (hold : env.entries <+: out.entries) : out.Based :=
  fun b hb => Env.find?_of_older hold (h b hb)

theorem without {names : List String} (h : env.Based) (hnames : ∀ name ∈ names, name ∉ baseNames) :
    Bindings.Based (env.without names) := by
  intro b hb
  have hkept : b.1 ∉ names := fun hmem => hnames _ hmem (List.mem_map_of_mem hb)
  rw [Env.find?_without, if_neg (by simpa using hkept)]
  exact h b hb

theorem set (h : env.Based) (hname : name ∉ baseNames) : Bindings.Based (env.set name sv) := by
  intro b hb
  rw [Env.find?_set_of_ne]
  · exact h b hb
  · rintro rfl
    exact hname (List.mem_map_of_mem hb)

theorem setAll {bindings : List (String × SecValue)} :
    ∀ {env : Bindings}, env.Based → (∀ b ∈ bindings, b.1 ∉ baseNames) →
      Bindings.Based (env.setAll bindings) := by
  induction bindings with
  | nil => exact fun h _ => h
  | cons b bindings ih =>
    intro env h hnames
    obtain ⟨hfirst, hrest⟩ := List.forall_mem_cons.1 hnames
    exact ih (h.set hfirst) hrest

end Bindings.Based

/-! ### Local code -/

namespace Ir

/-- Code that computes, claims and returns, at every depth. -/
def Code.Local (code : Code) : Prop := ∀ st ∈ statements code, st.isLocal = true

namespace Code

variable {code code' : Code}

@[simp] theorem local_nil : Code.Local [] := by simp [Code.Local]

@[simp] theorem local_append : Code.Local (code ++ code') ↔ code.Local ∧ code'.Local := by
  simp [Code.Local, or_imp, forall_and]

theorem Local.prompt {slot : Nat} {result : Option Var} (h : code.Local) :
    Code.Local [.prompt loc slot result code] := by
  simpa [Code.Local, Stmt.isLocal, Stmt.inner] using h

theorem Local.branch {cond : Arg} (h : code.Local) (h' : code'.Local) :
    Code.Local [.branch loc cond code code'] := by
  simpa [Code.Local, Stmt.isLocal, Stmt.inner, or_imp, forall_and] using ⟨h, h'⟩

theorem local_of_atoms (h : ∀ st ∈ code, st.isLocal = true ∧ st.inner = []) : code.Local := by
  intro st hst
  obtain ⟨t, ht, rfl | hin⟩ := mem_statements.1 hst
  · exact (h _ ht).1
  · simp [(h t ht).2] at hin

theorem Silent.isLocal (h : code.Silent) : code.Local := by
  refine local_of_atoms fun st hst => ?_
  obtain ⟨_, _, _, rfl, _⟩ := h st hst
  simp [Stmt.isLocal, Stmt.inner]

end Code

theorem Stmt.During.isLocal_inner {st : Stmt} (h : st.During .privately) :
    st.isLocal = true ∧ ∀ t ∈ st.inner, t.isLocal = true := by
  generalize hprivate : Phase.privately = φ at h
  have hcode : ∀ {code : Code},
      (∀ st ∈ code, st.isLocal = true ∧ ∀ t ∈ st.inner, t.isLocal = true) →
      ∀ t ∈ statements code, t.isLocal = true := by
    intro code h t ht
    obtain ⟨st, hst, rfl | hin⟩ := mem_statements.1 ht
    · exact (h _ hst).1
    · exact (h st hst).2 t hin
  induction h with
  | letIn => exact ⟨rfl, by simp [Stmt.inner]⟩
  | claim => exact ⟨rfl, by simp [Stmt.inner]⟩
  | ret => exact ⟨rfl, by simp [Stmt.inner]⟩
  | prompt _ ih => exact ⟨rfl, by simpa [Stmt.inner] using hcode fun st hst => ih st hst hprivate⟩
  | branch _ _ iht ihf =>
    refine ⟨rfl, ?_⟩
    simp only [Stmt.inner, List.mem_append, or_imp, forall_and]
    exact ⟨hcode fun st hst => iht st hst hprivate, hcode fun st hst => ihf st hst hprivate⟩
  | _ => cases hprivate

/-- What is emitted privately is local. -/
theorem Code.During.isLocal {code : Code} (h : code.During .privately) : code.Local := by
  intro t ht
  obtain ⟨st, hst, rfl | hin⟩ := mem_statements.1 ht
  · exact (h _ hst).isLocal_inner.1
  · exact (h st hst).isLocal_inner.2 t hin

end Ir

/-! ### Calm and constant expressions -/

/-- A primitive that only computes or claims. -/
def Prim.isQuiet : Prim → Bool
  | .interact .. | .transferTo .. | .exit => false
  | _ => true

/-- The base names of quiet primitives. -/
def quietNames : List String :=
  baseEnv.entries.filterMap fun b =>
    match b.2.value with
    | .prim _ p => if p.isQuiet then some b.1 else none
    | _ => none

theorem Bindings.Based.find?_quiet {name : String} (h : env.Based) (hname : name ∈ quietNames) :
    ∃ level primLoc p, env.find? name = some ⟨level, .prim primLoc p⟩ ∧ p.isQuiet = true := by
  obtain ⟨⟨_, level, value⟩, hb, hquiet⟩ := List.mem_filterMap.1 hname
  cases value with
  | prim primLoc p =>
    simp only [Option.ite_none_right_eq_some, Option.some.injEq] at hquiet
    obtain ⟨hp, rfl⟩ := hquiet
    exact ⟨level, primLoc, p, h _ hb, hp⟩
  | _ => simp at hquiet

/-- The operation that an operator applies, if it applies no function. -/
def Surface.BinaryOp.operation? : BinaryOp → Option Op
  | .plus => some .add
  | .minus => some .sub
  | .times => some .mul
  | .divide => some .div
  | .mod => some .mod
  | .eq => some .eq
  | .strictEq => some .bytesEq
  | .lt => some .lt
  | .le => some .le
  | .gt => some .gt
  | .ge => some .ge
  | .shiftLeft => some .shiftLeft
  | .shiftRight => some .shiftRight
  | .bitAnd => some .bitAnd
  | .bitOr => some .bitOr
  | .bitXor => some .bitXor
  | .and | .or | .neq | .strictNeq | .shiftRightUnsigned | .inside | .instanceOf => none

theorem Surface.BinaryOp.rator_operation {op : BinaryOp} {o : Op} (ho : op.operation? = some o) :
    op.rator loc env = pure (.prim .synthetic (.op o)) := by
  cases op <;> cases ho <;> rfl

def Value.int? : Value → Option Int
  | .int _ n => some n
  | _ => none

namespace Surface

/-- The expression names a quiet primitive. -/
def Expr.isQuietName : Expr → Bool
  | .ident _ name => quietNames.contains name
  | _ => false

mutual

/-- The expression applies nothing but operations and quiet primitives. -/
def Expr.calm : Expr → Bool
  | .array _ elems => exprsCalm elems
  | .object _ props => propsCalm props
  | .call _ callee args => callee.isQuietName && exprsCalm args
  | .dot _ base _ => base.calm
  | .index _ base position => base.calm && position.calm
  | .binary _ op lhs rhs => op.operation?.isSome && lhs.calm && rhs.calm
  | .unary .. => false
  | .paren _ inner => inner.calm
  | .ternary _ cond onTrue onFalse => cond.calm && onTrue.calm && onFalse.calm
  | .ident .. | .int .. | .string .. | .bool .. | .null _ | .arrow .. | .function ..
  | .foreign .. => true

def PropertyName.calm : PropertyName → Bool
  | .computed key => key.calm
  | .ident _ | .string _ | .number _ => true

def Property.calm : Property → Bool
  | .value _ name value => name.calm && value.calm
  | .spread _ base => base.calm
  | .shorthand .. | .method .. => true

def exprsCalm : List Expr → Bool
  | [] => true
  | e :: es => e.calm && exprsCalm es

def propsCalm : List Property → Bool
  | [] => true
  | p :: ps => p.calm && propsCalm ps

end

theorem exprsCalm_iff {es : List Expr} : exprsCalm es = true ↔ ∀ e ∈ es, e.calm = true := by
  induction es with
  | nil => simp [exprsCalm]
  | cons e es ih => simp [exprsCalm, ih]

theorem propsCalm_iff {ps : List Property} : propsCalm ps = true ↔ ∀ p ∈ ps, p.calm = true := by
  induction ps with
  | nil => simp [propsCalm]
  | cons p ps ih => simp [propsCalm, ih]

/-- The value of a constant expression, given the constants that names stand for. -/
def Expr.constant? (fixed : String → Option Int) : Expr → Option Int
  | .ident _ name => fixed name
  | .int _ text radix => some (Integer.ofLiteral text radix)
  | .paren _ inner => inner.constant? fixed
  | .binary _ op lhs rhs =>
    match op.operation?, lhs.constant? fixed, rhs.constant? fixed with
    | some o, some a, some b => (o.fold? .synthetic a b).bind Value.int?
    | _, _, _ => none
  | _ => none

end Surface

/-- The names that stand for constants are bound to them. -/
def Bindings.Fixed (fixed : String → Option Int) (env : Bindings) : Prop :=
  ∀ b ∈ env.entries, ∀ n, fixed b.1 = some n → ∃ at', b.2 = .pub (.int at' n)

/-! ### Evaluation of calm and constant expressions -/

/-- Calm expressions give local code, and constant expressions give their constants. -/
structure Evaluator.Predictable (ev : Evaluator) : Prop where
  name {ctx : Ctx} {env : Bindings} {loc : Loc} {name : String} (henv : env.Based)
    (hname : name ∈ quietNames) :
    Gives (fun r => r.code = [] ∧ ∃ primLoc p, r.value.value = .prim primLoc p ∧ p.isQuiet = true)
      (ev.expr ctx env (.ident loc name))
  calm {ctx : Ctx} {env : Bindings} {e : Surface.Expr} (henv : env.Based) (hcalm : e.calm = true) :
    Gives (·.code.Local) (ev.expr ctx env e)
  constant {fixed : String → Option Int} {n : Int} {ctx : Ctx} {env : Bindings} {e : Surface.Expr}
    (henv : env.Fixed fixed) (hconstant : e.constant? fixed = some n) :
    Gives (fun r => r.code = [] ∧ ∃ at', r.value = .pub (.int at' n)) (ev.expr ctx env e)

theorem Ir.Stmt.ByPrim.isLocal {mode : Mode} {p : Prim} {st : Stmt} (h : st.ByPrim mode p)
    (hp : p.isQuiet = true) : st.isLocal = true ∧ st.inner = [] := by
  cases h with
  | compute | claim => simp [Stmt.isLocal, Stmt.inner]
  | ask | transfer | stop => simp [Prim.isQuiet] at hp

/-- An operation that gives an integer gives the same one wherever it stands. -/
theorem Ir.Op.fold?_int {op : Op} {a b n : Int}
    (h : (op.fold? .synthetic a b).bind Value.int? = some n) :
    op.fold? loc a b = some (.int loc n) := by
  cases op with
  | shiftLeft | shiftRight =>
    simp only [Op.fold?, Option.bind_map, Option.bind_eq_some_iff, Function.comp_apply,
      Value.int?, Option.some.injEq] at h
    obtain ⟨m, hm, rfl⟩ := h
    simp [Op.fold?, hm]
  | _ => simp_all [Op.fold?, Value.int?]

/-- Local code, whatever it computes. -/
def Trait.locality : Trait where
  stops _ := True
  code := Code.Local
  value _ := True
  has r := r.code.Local
  ordinary _ := trivial
  nil := Code.local_nil
  append hbefore hafter := Code.local_append.2 ⟨hbefore, hafter⟩
  tuple := by simp
  object := by simp [Bindings.Satisfies]
  has_iff := by simp

theorem Trait.locality_basic : Trait.locality.Basic where
  silent h := h.isLocal
  atomic _ := trivial
  choice hTrue hFalse := by
    have hreturn : ∀ {retLoc : Loc} {slot : Nat} {v : Value},
        Code.Local [.ret retLoc slot (some v)] :=
      Code.local_of_atoms (by simp [Stmt.isLocal, Stmt.inner])
    exact .prompt (.branch (Code.local_append.2 ⟨hTrue, hreturn⟩)
      (Code.local_append.2 ⟨hFalse, hreturn⟩))

namespace Evaluator.Predictable

variable (hev : ev.Predictable) (henv : env.Based)
include hev henv

theorem operands {es : List Surface.Expr} (hcalm : Surface.exprsCalm es = true) :
    ∀ e ∈ es, Gives (·.code.Local) (ev.expr ctx env e) :=
  fun _ he => hev.calm henv (Surface.exprsCalm_iff.1 hcalm _ he)

theorem applyQuiet {primLoc : Loc} {p : Prim} {args : List Surface.Expr} (hp : p.isQuiet = true)
    (hargs : Surface.exprsCalm args = true) :
    Gives (·.code.Local) (ev.apply ctx loc env (.prim primLoc p) args) := by
  refine Trait.locality.apply (hev.operands henv hargs) (fun _ => ?_) (by simp)
  exact Ctx.applyPrim_meets.gives.bind fun result hresult =>
    .pure ⟨Code.local_of_atoms fun st hst => (hresult.code st hst).isLocal hp, trivial⟩

theorem reads {p : Surface.Property} (hp : p.calm = true) :
    Trait.locality.Reads ev ctx env p := by
  cases p with
  | value loc name value =>
    simp only [Surface.Property.calm, Bool.and_eq_true] at hp
    exact ⟨fun key hkey => hev.calm henv (by subst hkey; exact hp.1), hev.calm henv hp.2⟩
  | shorthand => exact .of_yields fun _ => trivial
  | spread loc base => exact hev.calm henv hp
  | method => trivial

theorem evalCalm {e : Surface.Expr} (hcalm : e.calm = true) :
    Gives (·.code.Local) (ev.evalExpr ctx env e) := by
  unfold Evaluator.evalExpr
  cases e with
  | ident => exact .skip fun _ => .pure Code.local_nil
  | int | string | bool | null => exact .pure Code.local_nil
  | array loc elems => exact Trait.locality.array (hev.operands henv hcalm)
  | object loc props =>
    exact Trait.locality.objectLiteral fun p hp => hev.reads henv (Surface.propsCalm_iff.1 hcalm p hp)
  | call loc callee args =>
    simp only [Surface.Expr.calm, Bool.and_eq_true] at hcalm
    cases callee with
    | ident nameLoc name =>
      have hname : name ∈ quietNames := by simpa [Surface.Expr.isQuietName] using hcalm.1
      refine (hev.name henv hname).bind fun rator hrator => ?_
      obtain ⟨hcode, primLoc, p, hvalue, hp⟩ := hrator
      rw [hvalue]
      refine (hev.applyQuiet henv hp hcalm.2).bind fun result hresult => .pure ?_
      simpa [hcode] using hresult
    | _ => simp [Surface.Expr.isQuietName] at hcalm
  | dot loc base field =>
    exact (hev.calm (e := base) henv hcalm).bind fun _ hbase =>
      Ctx.field_meets.gives.bind fun _ hfield => .pure (Code.local_append.2 ⟨hbase, hfield.1.isLocal⟩)
  | index loc base position =>
    simp only [Surface.Expr.calm, Bool.and_eq_true] at hcalm
    exact Trait.locality_basic.index (hev.calm henv hcalm.1) (hev.calm henv hcalm.2)
  | binary loc op lhs rhs =>
    simp only [Surface.Expr.calm, Bool.and_eq_true] at hcalm
    obtain ⟨⟨hop, hlhs⟩, hrhs⟩ := hcalm
    obtain ⟨o, ho⟩ := Option.isSome_iff_exists.1 hop
    simp only [Surface.BinaryOp.rator_operation ho, pure_bind]
    exact hev.applyQuiet henv rfl (by simp [Surface.exprsCalm, hlhs, hrhs])
  | unary => simp [Surface.Expr.calm] at hcalm
  | paren _ inner => exact hev.calm henv hcalm
  | ternary loc cond onTrue onFalse =>
    simp only [Surface.Expr.calm, Bool.and_eq_true] at hcalm
    exact Trait.locality_basic.ternary (hev.calm henv hcalm.1.1) (hev.calm henv hcalm.1.2)
      (hev.calm henv hcalm.2)
  | arrow loc formals body => exact .skip fun _ => .pure Code.local_nil
  | function loc name formals body =>
    cases name with
    | none => exact .skip fun _ => .pure Code.local_nil
    | some _ => exact .fail trivial
  | foreign => exact .fail trivial

omit henv in
theorem evalConstant {fixed : String → Option Int} {n : Int} {e : Surface.Expr}
    (henv : env.Fixed fixed) (hconstant : e.constant? fixed = some n) :
    Gives (fun r => r.code = [] ∧ ∃ at', r.value = .pub (.int at' n)) (ev.evalExpr ctx env e) := by
  cases e with
  | ident loc name =>
    refine Meets.bind (.of_yields fun hrun => ?_) fun v (hv : ∃ at', v = .pub (.int at' n)) =>
      .pure ⟨rfl, hv⟩
    obtain ⟨bound, hfind, _, rfl | ⟨_, _, _, hvalue, rfl⟩⟩ := Bindings.identify_yields hrun
    · exact henv _ (Bindings.mem_of_find? hfind) n hconstant
    · obtain ⟨at', rfl⟩ := henv _ (Bindings.mem_of_find? hfind) n hconstant
      cases hvalue
  | int loc text radix =>
    obtain rfl := Option.some.inj hconstant
    exact .pure ⟨rfl, loc, rfl⟩
  | paren loc inner => exact hev.constant henv hconstant
  | binary loc op lhs rhs =>
    simp only [Surface.Expr.constant?] at hconstant
    split at hconstant
    · rename_i o a b ho ha hb
      simp only [Evaluator.evalExpr, Surface.BinaryOp.rator_operation ho, pure_bind,
        Evaluator.apply, Evaluator.applyValues, Evaluator.exprs, bind_assoc]
      refine (hev.constant henv ha).bind fun left hleft => (hev.constant henv hb).bind
        fun right hright => ?_
      obtain ⟨hleftCode, atLeft, hleftValue⟩ := hleft
      obtain ⟨hrightCode, atRight, hrightValue⟩ := hright
      simp only [Ctx.applyPrim, Ctx.applyOp, Lifted.plain, hleftValue, hrightValue, Labelled.pub,
        Op.constant?, Op.fold?_int hconstant, pure_bind]
      exact .pure ⟨by simp [hleftCode, hrightCode], loc, rfl⟩
    · cases hconstant
  | _ => simp [Surface.Expr.constant?] at hconstant

end Evaluator.Predictable

theorem evaluator_predictable (fuel : Nat) : (evaluator fuel).Predictable := by
  induction fuel with
  | zero => exact ⟨fun _ _ => .outOfFuel trivial, fun _ _ => .outOfFuel trivial,
      fun _ _ => .outOfFuel trivial⟩
  | succ fuel ih =>
    constructor
    · intro ctx env loc name henv hname
      rw [evaluator_succ_expr]
      obtain ⟨level, primLoc, p, hfind, hp⟩ := henv.find?_quiet hname
      refine Meets.bind (.of_yields fun hrun => ?_) fun v (hv : v.value = .prim primLoc p) =>
        .pure ⟨rfl, primLoc, p, hv, hp⟩
      obtain ⟨bound, hbound, _, hcases⟩ := Bindings.identify_yields hrun
      obtain rfl := Option.some.inj (hfind.symm.trans hbound)
      rcases hcases with rfl | ⟨_, _, _, hvalue, _⟩
      · rfl
      · cases hvalue
    · intro ctx env e henv hcalm
      rw [evaluator_succ_expr]
      exact ih.evalCalm henv hcalm
    · intro fixed n ctx env e henv hconstant
      rw [evaluator_succ_expr]
      exact ih.evalConstant henv hconstant

/-! ### The check of an amount -/

/-- What the transaction carries is compared with an operand, and that they agree is required. -/
def Ir.checkCode (loc : Loc) (frames : List Frame) (amount : Arg) (carried agree : Var) : Code :=
  [.letIn loc carried (.prim .txnValue []), .letIn loc agree (.prim .eq [amount, .var carried]),
    .claim loc frames .require (.var agree)]

theorem Ir.checkCode_local {frames : List Frame} {amount : Arg} {carried agree : Var} :
    (checkCode loc frames amount carried agree).Local :=
  Code.local_of_atoms (by simp [checkCode, Stmt.isLocal, Stmt.inner])

theorem Ty.convertArgs_operands {dom : List Ty} :
    ∀ {vs : List Value} {solved solved' : NameMap Ty} {operands : List Arg} {s s' : Supply},
      dom.length = vs.length → (Ty.convertArgs loc dom vs solved).Yields s (operands, solved') s' →
      List.Forall₂ (fun v a => ∃ t, v.typed? = some (t, a)) vs operands := by
  induction dom with
  | nil =>
    intro vs solved solved' operands s s' hlength hrun
    obtain rfl : vs = [] := by simpa using hlength.symm
    simp only [Ty.convertArgs, yields_pure, Prod.mk.injEq] at hrun
    rw [hrun.1.1]
    exact .nil
  | cons expected dom ih =>
    intro vs solved solved' operands s s' hlength hrun
    cases vs with
    | nil => simp at hlength
    | cons v vs =>
      simp only [Ty.convertArgs, yields_bind, Value.typeOf_yields] at hrun
      obtain ⟨⟨t, a⟩, _, ⟨ht, rfl⟩, hrun⟩ := hrun
      split at hrun
      · simp only [yields_bind, yields_pure, Prod.mk.injEq] at hrun
        obtain ⟨⟨args, last⟩, _, hrest, ⟨rfl, _⟩, _⟩ := hrun
        exact .cons ⟨t, ht⟩ (ih (by simpa using hlength) hrest)
      · simp at hrun

/-- A function type is applied to the operands of its arguments, in their order. -/
theorem Ty.convert_operands {funType t : Ty} {vs : List Value} {operands : List Arg}
    (hrun : (funType.convert loc vs).Yields s (t, operands) s') :
    List.Forall₂ (fun v a => ∃ t, v.typed? = some (t, a)) vs operands := by
  unfold Ty.convert at hrun
  split at hrun
  · simp only [yields_bind, yields_ensure, yields_pure, decide_eq_true_eq, Prod.mk.injEq] at hrun
    obtain ⟨_, _, ⟨hlength, _⟩, ⟨args, solved⟩, _, hargs, ⟨_, rfl⟩, _⟩ := hrun
    exact Ty.convertArgs_operands hlength hargs
  · simp at hrun

/-- An operation on what is not constant is emitted on the operands of its arguments. -/
theorem Ctx.applyOp_emits {op : Op} {args : List SecValue}
    (hrun : (ctx.applyOp loc op args).Yields s r s') (hconstant : op.constant? loc args = none) :
    ∃ v operands, List.Forall₂ (fun sv a => ∃ t, sv.value.typed? = some (t, a)) args operands ∧
      r.code = [.letIn loc v (.prim op operands)] ∧ r.value.value = .var v := by
  simp only [Ctx.applyOp, hconstant, yields_bind] at hrun
  obtain ⟨⟨type, operands⟩, _, hconvert, hlift⟩ := hrun
  obtain ⟨v, _, _, rfl, _⟩ := Ctx.liftValue_yields hlift
  exact ⟨v, operands, List.forall₂_map_left_iff.1 (Ty.convert_operands hconvert), rfl, rfl⟩

/-- The check computes the amount once more, and then compares. -/
theorem amountCheck_yields {fuel : Nat} {amount : Surface.Expr} (henv : env.Based)
    (hrun : ((evaluator fuel).expr ctx env (amountCheck loc amount)).Yields s r s') :
    ∃ depth value type operand carried agree s₁,
      ((evaluator depth).expr ctx env amount).Yields s value s₁ ∧
      value.value.value.typed? = some (type, operand) ∧
      r.code = value.code ++ checkCode loc ctx.frames operand carried agree := by
  obtain ⟨depth, values, result, _, rfl, hvalues, hclaim, hcode, _⟩ :=
    prim_call_yields (henv.find? rfl) hrun
  simp only [Evaluator.exprs, yields_bind, yields_pure] at hvalues
  obtain ⟨compared, _, hcompare, _, _, ⟨rfl, rfl⟩, rfl, rfl⟩ := hvalues
  obtain ⟨depth, rfl, happly⟩ := evaluator_expr_yields hcompare
  rw [Evaluator.evalExpr, Surface.BinaryOp.rator_operation rfl, pure_bind] at happly
  simp only [Evaluator.apply, Evaluator.applyValues, Evaluator.exprs, yields_bind,
    yields_pure] at happly
  obtain ⟨_, _, ⟨value, _, hvalue, _, _, ⟨txn, _, htxn, _, _, ⟨rfl, rfl⟩, rfl, rfl⟩, rfl, rfl⟩, _,
    _, ⟨equal, _, heq, rfl, rfl⟩, rfl, rfl⟩ := happly
  -- what the transaction carries is a variable, so that the comparison is emitted
  obtain ⟨_, none, lifted, _, _, hnone, hlift, htxnCode, htxnValue⟩ :=
    prim_call_yields (henv.find? rfl) htxn
  simp only [Evaluator.exprs, yields_pure] at hnone
  obtain ⟨rfl, rfl⟩ := hnone
  simp only [Ctx.applyPrim] at hlift heq hclaim
  obtain ⟨carried, _, hnone, hliftCode, hliftValue⟩ := Ctx.applyOp_emits hlift rfl
  cases hnone
  rw [hliftValue] at htxnValue
  obtain ⟨txnCode, txnLevel, txnValue⟩ := txn
  obtain rfl : txnValue = .var carried := htxnValue
  obtain ⟨agree, _, hoperands, hequalCode, hequalValue⟩ :=
    Ctx.applyOp_emits heq (by simp [Op.constant?, Lifted.plain])
  simp only [Lifted.plain, List.forall₂_cons_left_iff, List.forall₂_nil_left_iff] at hoperands
  obtain ⟨operand, _, ⟨type, hoperand⟩, ⟨_, _, ⟨_, hcarried⟩, rfl, rfl⟩, rfl⟩ := hoperands
  simp only [Value.typed?, Option.some.injEq, Prod.mk.injEq] at hcarried
  obtain ⟨_, rfl⟩ := hcarried
  simp only [Ctx.claim, yields_bind, yields_pure] at hclaim
  obtain ⟨⟨_, claimed⟩, _, hconvert, rfl, _⟩ := hclaim
  have hclaimed := Ty.convert_operands hconvert
  simp only [Lifted.plain, hequalValue, List.map_cons, List.map_nil, List.forall₂_cons_left_iff,
    List.forall₂_nil_left_iff, Value.typed?, Option.some.injEq, Prod.mk.injEq] at hclaimed
  obtain ⟨_, _, ⟨_, _, rfl⟩, rfl, rfl⟩ := hclaimed
  refine ⟨_, value, type, operand, carried, agree, _, hvalue, hoperand, ?_⟩
  simp only [Lifted.plain, List.append_nil, List.nil_append] at htxnCode hcode
  rw [hcode, htxnCode, hliftCode, hequalCode]
  simp [checkCode]

/-- What stands before the comparison is local if the amount is calm, and nothing if it is
constant. -/
theorem evaluator_check {fuel : Nat} {amount : Surface.Expr} (henv : env.Based)
    (hrun : ((evaluator fuel).expr ctx env (amountCheck loc amount)).Yields s r s') :
    ∃ before operand carried agree,
      r.code = before ++ checkCode loc ctx.frames operand carried agree ∧
      (amount.calm = true → before.Local) ∧
      ∀ fixed n, env.Fixed fixed → amount.constant? fixed = some n →
        before = [] ∧ operand = .int n := by
  obtain ⟨depth, value, type, operand, carried, agree, s₁, hvalue, htyped, hcode⟩ :=
    amountCheck_yields henv hrun
  have hev := evaluator_predictable depth
  refine ⟨value.code, operand, carried, agree, hcode,
    fun hcalm => (hev.calm henv hcalm).result hvalue, ?_⟩
  intro fixed n hfixed hconstant
  obtain ⟨hnone, at', hint⟩ := (hev.constant hfixed hconstant).result hvalue
  simp only [hint, Labelled.pub, Value.typed?, Option.some.injEq, Prod.mk.injEq] at htyped
  exact ⟨hnone, htyped.2.symm⟩

end Choreography
