import Choreography.Proofs.Effects

/-!
The code of expressions. Whatever the environment holds, an expression puts its code together from
that of its parts, of primitives and of applied closures. So a property of code that each of these
has, and that sequences keep, is a property of the code of every expression, and of what statements
compute before they act: declarations, payments and the tests of a loop. The property may speak of
the numbers that the run has drawn.
-/

namespace Choreography

open Eval Ir

variable {P : Mode → Supply → Supply → Code → Prop} {s s' : Supply} {loc : Loc} {ctx : Ctx}
  {env : Bindings} {ev : Evaluator}

/-- Runs of the computation emit code with the property, in the mode and between the supplies. -/
abbrev Eval.Emitting {α : Type} (P : Mode → Supply → Supply → Code → Prop) (mode : Mode) (s : Supply)
    (x : Eval (Lifted α)) : Prop :=
  From s (fun r s' => P mode s s' r.code) x

/-- A property of code, in the mode where it is emitted and between the supplies of the run that
emits it, that holds of what primitives emit, of the parts of expressions and of closures, and that
the ways of putting code together keep. -/
structure Evaluator.Composes (ev : Evaluator) (P : Mode → Supply → Supply → Code → Prop) : Prop where
  append {mode : Mode} {s s₁ s' : Supply} {code code' : Code} : P mode s s₁ code →
    P mode s₁ s' code' → P mode s s' (code ++ code')
  prim {mode : Mode} (p : Prim) {s s' : Supply} {code : Code} : (∀ st ∈ code, st.ByPrim mode p) →
    s.nextId ≤ s'.nextId → P mode s s' code
  /-- Code may be left out once it is known to run for nothing. -/
  drop {mode : Mode} {s s' : Supply} {code : Code} : P mode s s' code → P mode s s' []
  /-- A choice between two computations with effects: each delivers its value to one prompt. -/
  choice {mode : Mode} {s s₁ s₂ s' : Supply} {onTrue onFalse : Code} {loc trueLoc falseLoc : Loc}
    {slot : Nat} {result : Option Var} {cond : Arg} {v w : Value} : P mode s s₁ onTrue →
    P mode s₁ s₂ onFalse → s₂.nextId ≤ slot → slot < s'.nextId →
    P mode s s' [.prompt loc slot result [.branch loc cond (onTrue ++ [.ret trueLoc slot (some v)])
      (onFalse ++ [.ret falseLoc slot (some w)])]]
  /-- Private code stands between rounds until it is known whose it is. -/
  privately {parties : Parties} {s s₁ s' : Supply} {code code' : Code} : P .pureLocal s s₁ code →
    P .localStep s₁ s' code' → P (.step parties) s s' (code ++ code')
  expr {ctx : Ctx} {env : Bindings} {e : Surface.Expr} {s s' : Supply} {r : Lifted SecValue} :
    (ev.expr ctx env e).Yields s r s' → P ctx.mode s s' r.code
  closure {ctx : Ctx} {loc : Loc} {c : Closure} {args : List SecValue} {s s' : Supply}
    {r : Lifted Applied} :
    (ev.applyClosure ctx loc c args).Yields s r s' → P ctx.mode s s' r.code

namespace Evaluator.Composes

variable (h : ev.Composes P) {mode : Mode} {s₁ : Supply} {code : Code}

include h

theorem silent (hcode : code.Silent) (hle : s.nextId ≤ s'.nextId) : P mode s s' code :=
  h.prim .commit hcode.byPrim hle

theorem nil (hle : s.nextId ≤ s'.nextId) : P mode s s' [] := h.silent Code.silent_nil hle

/-- A run may draw numbers before it emits its code. -/
theorem earlier (hbefore : s.nextId ≤ s₁.nextId) (hcode : P mode s₁ s' code) : P mode s s' code :=
  h.append (h.nil hbefore) hcode

/-- A run may draw numbers after it has emitted its code. -/
theorem later (hcode : P mode s s₁ code) (hafter : s₁.nextId ≤ s'.nextId) : P mode s s' code := by
  have hlong := h.append hcode (h.nil hafter)
  rwa [List.append_nil] at hlong

theorem operand {e : Surface.Expr} : Emitting P ctx.mode s (ev.expr ctx env e) := ⟨h.expr⟩

theorem exprs {es : List Surface.Expr} : Emitting P ctx.mode s (ev.exprs ctx env es) := by
  induction es generalizing s with
  | nil => exact .pure (h.nil (Nat.le_refl _))
  | cons e es ih =>
    exact h.operand.bind fun _ _ hfirst => ih.bind fun _ _ hrest => .pure (h.append hfirst hrest)

theorem ternary {cond onTrue onFalse : Surface.Expr} :
    Emitting P ctx.mode s (ev.ternary ctx loc env cond onTrue onFalse) := by
  refine h.operand.bind fun c _ hc => h.operand.bind fun t _ ht => h.operand.bind fun f _ hf => ?_
  split
  · rename_i b _
    refine .pure ?_
    cases b with
    | true =>
      have hcode := h.append hc (h.append ht (h.drop hf))
      rwa [List.append_nil] at hcode
    | false => exact h.append hc (h.append (h.drop ht) hf)
  · split
    · exact Ctx.applyOp_simple.steps.bind fun _ _ happly =>
        .pure (h.append (h.append (h.append hc ht) hf) (h.silent happly.1.code happly.2))
    · refine .bind ⟨fun hjoin => ?_⟩ fun r s' (hjoined : P ctx.mode _ s' [r.1]) =>
        .pure (h.append hc hjoined)
      simp only [Ctx.joinBranches, yields_bind, Ctx.alloc_yields, Value.typeOf_yields,
        Ty.join_yields, yields_pure] at hjoin
      obtain ⟨slot, _, ⟨_, rfl, rfl⟩, _, _, ⟨_, rfl⟩, _, _, ⟨_, rfl⟩, _, _, ⟨_, _, rfl⟩, rfl,
        rfl⟩ := hjoin
      exact h.choice ht hf (Nat.le_refl _) (Nat.lt_succ_self _)
  · exact .fail

theorem applyValues {rator : Value} {args : List SecValue} {r : Lifted Applied}
    (hrun : (ev.applyValues ctx loc env rator args).Yields s r s') : P ctx.mode s s' r.code := by
  unfold Evaluator.applyValues at hrun
  split at hrun
  · simp only [yields_bind, yields_pure] at hrun
    obtain ⟨result, _, hprim, rfl, rfl⟩ := hrun
    exact h.prim _ (Ctx.applyPrim_emits hprim) (Ctx.applyPrim_meets.le hprim)
  · exact h.closure hrun
  · simp at hrun

theorem onlyForm {who : String} {args : List Surface.Expr} :
    Emitting P ctx.mode s (ev.onlyForm ctx loc env who args) := by
  unfold Evaluator.onlyForm
  split
  · rename_i parties hstep
    refine .orFail fun view _ => h.exprs.bind fun made _ hmade => ?_
    split
    · refine (sharedArgs_routine _).steps.bind fun _ _ hshared => .bind ⟨h.applyValues⟩
        fun applied _ happlied => .freshTag (.pure ?_)
      rw [hstep]
      exact h.privately hmade (h.earlier hshared.2 (h.later happlied (Nat.le_refl _)))
    · exact .fail
  · exact .fail

theorem applyForm {formLoc : Loc} {f : Form} {args : List Surface.Expr} :
    Emitting P ctx.mode s (ev.applyForm ctx loc env formLoc f args) := by
  cases f with
  | app =>
    refine .ensure fun _ => ?_
    split
    · refine h.exprs.bind fun _ _ hargs => ?_
      split
      · exact (participantsOf_routine _).steps.bind fun _ _ hparts => .ensure fun _ =>
          (Bindings.bindAll_routine ..).steps.bind fun _ _ hbound =>
            .freshTag (.pure (h.later hargs (Nat.le_trans hparts.2 hbound.2)))
      · exact .fail
    · exact .fail
  | only who => exact h.onlyForm
  | onlyDone => exact .fail
  | round =>
    exact .ensure fun _ => .orFail fun _ _ => (Round.fill_routine ..).steps.bind fun _ _ hfilled =>
      .freshTag (.pure (h.nil hfilled.2))

theorem apply {rator : Value} {rands : List Surface.Expr} :
    Emitting P ctx.mode s (ev.apply ctx loc env rator rands) := by
  have hvalues : Emitting P ctx.mode s (do
      let args ← ev.exprs ctx env rands
      let result ← ev.applyValues ctx loc env rator args.value
      return { code := args.code ++ result.code, value := result.value.value }) :=
    h.exprs.bind fun _ _ hargs => .bind ⟨h.applyValues⟩ fun _ _ hresult =>
      .pure (h.append hargs hresult)
  unfold Evaluator.apply
  split
  · exact hvalues
  · exact hvalues
  · exact h.applyForm
  · exact .fail

theorem propertyName {name : Surface.PropertyName} :
    Emitting P ctx.mode s (ev.propertyName ctx env loc name) := by
  cases name with
  | ident | string => exact .pure (h.nil (Nat.le_refl _))
  | number => exact .fail
  | computed key =>
    refine h.operand.bind fun k _ hkey => ?_
    split
    · exact .pure hkey
    · exact .fail

theorem property {p : Surface.Property} {object : PartialObject}
    (hobject : P ctx.mode s s₁ object.code) :
    From s₁ (fun out s' => P ctx.mode s s' out.code) (ev.property ctx env object p) := by
  cases p with
  | value loc name value =>
    exact h.propertyName.bind fun _ _ hname => h.operand.bind fun _ _ hvalue =>
      (Bindings.bind_routine ..).steps.bind fun _ _ hbound =>
        .pure (h.later (h.append (h.append hobject hname) hvalue) hbound.2)
  | shorthand loc name =>
    exact (Bindings.identify_routine ..).steps.bind fun _ _ hident =>
      (Bindings.bind_routine ..).steps.bind fun _ _ hbound =>
        .pure (h.later hobject (Nat.le_trans hident.2 hbound.2))
  | spread loc base =>
    refine h.operand.bind fun v _ hvalue => ?_
    split
    · exact (Bindings.bindAll_routine ..).steps.bind fun _ _ hmerged =>
        .pure (h.later (h.append hobject hvalue) hmerged.2)
    · exact .fail
  | method => exact .fail

theorem properties {props : List Surface.Property} : ∀ {object : PartialObject} {s₁ : Supply},
    P ctx.mode s s₁ object.code →
      From s₁ (fun out s' => P ctx.mode s s' out.code) (ev.properties ctx env object props) := by
  induction props with
  | nil => exact fun hobject => .pure hobject
  | cons p ps ih => exact fun hobject => (h.property hobject).bind fun _ _ hfirst => ih hfirst

/-- The code of an expression has the property, in the mode of its context. -/
theorem evalExpr {e : Surface.Expr} : Emitting P ctx.mode s (ev.evalExpr ctx env e) := by
  unfold Evaluator.evalExpr
  cases e with
  | ident =>
    exact (Bindings.identify_routine ..).steps.bind fun _ _ hident => .pure (h.nil hident.2)
  | int | string | bool | null => exact .pure (h.nil (Nat.le_refl _))
  | array loc elems => exact h.exprs.bind fun _ _ helems => .pure helems
  | object loc props =>
    exact (h.properties (h.nil (Nat.le_refl _))).bind fun _ _ hprops => .pure hprops
  | call loc callee args =>
    exact h.operand.bind fun _ _ hrator => h.apply.bind fun _ _ hresult =>
      .pure (h.append hrator hresult)
  | dot loc base field =>
    exact h.operand.bind fun _ _ hobject => Ctx.field_meets.steps.bind fun _ _ hfield =>
      .pure (h.append hobject (h.silent hfield.1.1 hfield.2))
  | index loc base position =>
    exact h.operand.bind fun _ _ hbase => h.operand.bind fun _ _ hposition =>
      Ctx.element_meets.steps.bind fun _ _ helement =>
        .pure (h.append (h.append hbase hposition) (h.silent helement.1.1 helement.2))
  | binary loc op lhs rhs =>
    exact op.rator_routine.steps.bind fun _ _ hrator => h.apply.imp fun _ _ hresult =>
      h.earlier hrator.2 hresult
  | unary loc op operand =>
    exact op.rator_routine.steps.bind fun _ _ hrator => h.apply.imp fun _ _ hresult =>
      h.earlier hrator.2 hresult
  | paren _ inner => exact h.operand
  | ternary loc cond onTrue onFalse => exact h.ternary
  | arrow loc formals body =>
    exact .bind (.freshTag (.pure (Nat.le_refl _))) fun _ _ hle => .pure (h.nil hle)
  | function loc name formals body =>
    cases name with
    | none => exact .bind (.freshTag (.pure (Nat.le_refl _))) fun _ _ hle => .pure (h.nil hle)
    | some _ => exact .fail
  | foreign => exact .fail

/-! ### What statements compute -/

theorem decl {bound : Bindings} {d : Surface.Decl} :
    Emitting P ctx.mode s (ev.decl ctx bound env d) := by
  refine .orFail fun e _ => (Target.ofExpr_routine _).steps.bind fun target _ htarget =>
    .bind ⟨h.expr⟩ fun rhs _ hrhs => ?_
  have hcode := h.earlier htarget.2 hrhs
  cases target with
  | single n =>
    exact (Bindings.bind_routine ..).steps.bind fun _ _ hbound => .pure (h.later hcode hbound.2)
  | several ns =>
    exact Ctx.components_meets.steps.bind fun _ _ hparts => .ensure fun _ =>
      (Bindings.bindAll_routine ..).steps.bind fun _ _ hbound =>
        .pure (h.later (h.append hcode (h.silent hparts.1.1 hparts.2)) hbound.2)

theorem decls {ds : List Surface.Decl} :
    ∀ {bound : Bindings} {s : Supply}, Emitting P ctx.mode s (ev.declsFrom ctx bound env ds) := by
  induction ds with
  | nil => exact .pure (h.nil (Nat.le_refl _))
  | cons d ds ih =>
    exact h.decl.bind fun _ _ hfirst => ih.bind fun _ _ hrest => .pure (h.append hfirst hrest)

theorem boolBlock {e : Surface.Expr} :
    From s (fun block s' => P ctx.mode s s' block.code) (ev.boolBlock ctx loc env e) :=
  h.operand.bind fun _ _ hr => (Value.checkType_routine ..).steps.bind fun _ _ hle =>
    .pure (h.later hr hle.2)

theorem payment {view : Bindings} {pay : Option Surface.Expr} :
    Emitting P ctx.mode s (ev.payment ctx view pay) := by
  cases pay with
  | none => exact .pure (h.nil (Nat.le_refl _))
  | some e =>
    exact h.operand.bind fun _ _ hamount => .keep SecValue.requirePublic_yields.1 fun _ _ =>
      .keep Value.checkType_yields.1 fun _ _ => .pure hamount

end Evaluator.Composes

end Choreography
