import Choreography.Proofs.LoopBodies

/-!
Expressions of programs that end their loop bodies explicitly. The values of such expressions are
explicit, and so is the code that computes them; where an expression is called, it may also name the
stage that takes a handler.
-/

namespace Choreography

open Eval Ir

variable {loc : Loc} {ctx : Ctx} {env : Bindings} {ev : Evaluator} {called : Bool}
  {e : Surface.Expr} {args : List Surface.Expr}

/-- What an expression may come out as where it is used, or `called`. -/
inductive Value.Answers (called : Bool) (e : Surface.Expr) : Value → Prop
  | value {v : Value} (h : v.Explicit) : Answers called e v
  | stage {loc dotLoc : Loc} {tag : Tag} {r : Round} {base : Surface.Expr} (hcalled : called = true)
    (hname : e = .dot dotLoc base Stage.timeout.name) (hround : r.Explicit)
    (hstage : r.stage = some .timeout) : Answers called e (.form loc tag (.round r))

/-- What a list of statements leaves behind. If the list `ends`, control does not run off the end of
its code. -/
structure Lifted.Leaving (ends : Bool) (r : Lifted Outcome) : Prop where
  code : r.code.TurnsEnd
  env : r.value.env.Explicit
  exits : ∀ exit ∈ r.value.exits, exit.value.value.Explicit
  stays : ends = true → codePasses r.code = false

structure Applied.Explicit (a : Applied) : Prop where
  env : a.env.Explicit
  value : a.value.value.Explicit

/-- Explicit programs are evaluated to explicit values and code, and control does not go on after
what is called an exit. -/
structure Evaluator.Explicit (ev : Evaluator) : Prop where
  expr {called : Bool} {ctx : Ctx} {env : Bindings} {e : Surface.Expr} (hmode : ctx.mode.Explicit)
    (henv : env.Explicit) (he : e.explicit called = true) :
    Gives (Lifted.Explicit (·.value.Answers called e)) (ev.expr ctx env e)
  stmts {ctx : Ctx} {loc : Loc} {scope : Scope} {stmts : List Surface.Stmt}
    (hmode : ctx.mode.Explicit) (henv : scope.env.Explicit)
    (hstmts : Surface.stmtsExplicit stmts = true) :
    Gives (Lifted.Leaving (Surface.stmtsEnd stmts)) (ev.stmts ctx loc scope stmts)
  exitName {ctx : Ctx} {env : Bindings} {loc : Loc} (henv : env.Based) :
    Gives (fun r => ∃ primLoc, r.value.value = .prim primLoc .exit)
      (ev.expr ctx env (.ident loc "exit"))
  exitCall {ctx : Ctx} {env : Bindings} {e : Surface.Expr} (henv : env.Based)
    (hexit : e.callsExit = true) :
    Gives (fun r => (∃ primLoc, r.value.value = .prim primLoc .exited) ∧ codePasses r.code = false)
      (ev.expr ctx env e)

theorem Surface.exprsExplicit_iff {es : List Expr} :
    exprsExplicit es = true ↔ ∀ e ∈ es, e.explicit false = true := by
  induction es with
  | nil => simp [exprsExplicit]
  | cons e es ih => simp [exprsExplicit, ih]

theorem Surface.propsExplicit_iff {ps : List Property} :
    propsExplicit ps = true ↔ ∀ p ∈ ps, p.explicit = true := by
  induction ps with
  | nil => simp [propsExplicit]
  | cons p ps ih => simp [propsExplicit, ih]

/-- Explicit values, and the code that computes them. -/
def Trait.explicit : Trait where
  stops _ := True
  code := Code.TurnsEnd
  value := Value.Explicit
  has := Lifted.Explicit (·.value.Explicit)
  ordinary _ := trivial
  nil := Code.turnsEnd_nil
  append := .append
  tuple := by
    refine ⟨fun h => ?_, .tuple⟩
    cases h with
    | tuple h => exact h
    | plain h => cases h
  object := by
    refine ⟨fun h => ?_, .object⟩
    cases h with
    | object h => exact h
    | plain h => cases h
  has_iff := ⟨fun h => ⟨h.code, h.value⟩, fun h => ⟨h.1, h.2⟩⟩

theorem Trait.explicit_basic : Trait.explicit.Basic where
  silent h := h.turnsEnd
  atomic h := h.explicit
  choice hTrue hFalse := .prompt (.branch (hTrue.append .ret) (hFalse.append .ret))

/-! ### Access -/

/-- Only a round offers the stage that takes a handler. -/
theorem Value.Offers.answers {v part : Value} {field : String} (h : v.Offers loc field part)
    (hv : v.Explicit) {dotLoc : Loc} {base : Surface.Expr}
    (hfield : called = true ∨ field ≠ Stage.timeout.name) :
    part.Answers called (.dot dotLoc base field) := by
  cases h with
  | part hfind =>
    cases hv with
    | object h => exact .value (h _ (Bindings.mem_of_find? hfind))
    | plain h => cases h
  | only => exact .value (.plain rfl)
  | start _ hstage =>
    refine .value (.round ?_ ⟨by simp, by simp⟩)
    rintro ⟨⟩
    simp at hstage
  | @next _ _ _ r stage hname =>
    have hround : r.Explicit := by
      cases hv with
      | round _ hround => exact hround
      | plain h => cases h
    by_cases hwaits : stage = .timeout
    · subst hwaits hname
      exact .stage (by simpa using hfield) rfl ⟨hround.pay, hround.timeout⟩ rfl
    · exact .value (.round (by simpa using hwaits) ⟨hround.pay, hround.timeout⟩)

theorem Ctx.field_answers {v : Value} (hv : v.Explicit) {dotLoc : Loc} {field : String}
    {base : Surface.Expr} (hfield : called = true ∨ field ≠ Stage.timeout.name) :
    Gives (Lifted.Explicit (·.value.Answers called (.dot dotLoc base field)))
      (ctx.field loc v field) :=
  Ctx.field_meets.gives.imp fun _ h =>
    ⟨h.1.turnsEnd, h.2.elim (fun h => .value h.explicit) fun h => h.answers hv hfield⟩

/-! ### Applications -/

theorem Ctx.joinExits_explicit {slot : Nat} {body : Lifted Outcome} {ends : Bool}
    (hbody : body.Leaving ends) :
    Gives (Lifted.Explicit Applied.Explicit) (ctx.joinExits loc slot body) := by
  have hunprompted : ∀ result, (Code.unprompted body.code loc slot result).TurnsEnd :=
    Code.Everywhere.unprompted hbody.code rfl
  unfold Ctx.joinExits
  simp only
  split
  · exact .pure ⟨hunprompted _, hbody.env, .plain rfl⟩
  · rename_i exit hone
    exact .pure ⟨hunprompted _, hbody.env, hbody.exits exit (by simp [hone])⟩
  · exact .skip fun _ => .skip fun _ =>
      .pure ⟨.prompt hbody.code, hbody.env, .plain rfl⟩

theorem Round.fill_explicit {r : Round} (hround : r.Explicit) {stage : Stage}
    (hargs : Surface.exprsExplicit args = true)
    (hhandler : stage = .timeout → ∀ delay arrowLoc formals handler,
      args = [delay, .arrow arrowLoc formals handler] → Surface.stmtsEnd handler.stmts = true) :
    Gives (fun next => next.Explicit ∧ next.stage = none) (r.fill loc stage args) := by
  unfold Round.fill
  cases stage with
  | publish =>
    exact .skip fun _ => .skip fun _ =>
      .pure ⟨⟨hround.pay, hround.timeout⟩, rfl⟩
  | pay =>
    refine .skip fun _ => ?_
    split
    · refine .pure ⟨⟨?_, hround.timeout⟩, rfl⟩
      rintro e ⟨⟩
      simpa [Surface.exprsExplicit] using hargs
    · exact .fail trivial
  | timeout =>
    refine .skip fun _ => ?_
    split
    · refine .pure ⟨⟨hround.pay, ?_⟩, rfl⟩
      rintro t ⟨⟩
      simp only [Surface.exprsExplicit, Surface.Expr.explicit, Bool.and_true,
        Bool.and_eq_true] at hargs
      exact ⟨hargs.1, hargs.2, hhandler rfl _ _ _ _ rfl⟩
    · exact .fail trivial

namespace Evaluator.Explicit

variable (hev : ev.Explicit) (hmode : ctx.mode.Explicit) (henv : env.Explicit)
include hev hmode henv

/-- Where the value of an expression is used, it is explicit. -/
theorem operand (he : e.explicit false = true) :
    Gives (Lifted.Explicit (·.value.Explicit)) (ev.expr ctx env e) := by
  refine (hev.expr hmode henv he).imp fun r hr => ⟨hr.code, ?_⟩
  generalize hv : r.value.value = v
  have hanswers := hr.value
  rw [hv] at hanswers
  cases hanswers with
  | value h => exact h
  | stage hcalled => cases hcalled

theorem operands {es : List Surface.Expr} (hes : Surface.exprsExplicit es = true) :
    ∀ e ∈ es, Gives (Lifted.Explicit (·.value.Explicit)) (ev.expr ctx env e) :=
  fun _ he => hev.operand hmode henv (Surface.exprsExplicit_iff.1 hes _ he)

theorem exprs {es : List Surface.Expr} (hes : Surface.exprsExplicit es = true) :
    Gives (fun r => r.code.TurnsEnd ∧ ∀ sv ∈ r.value, sv.value.Explicit) (ev.exprs ctx env es) :=
  Trait.explicit.exprs (hev.operands hmode henv hes)

omit henv in
/-- The formals of a closure that is applied are bound anew, so they hide no name of the base
environment. -/
theorem applyClosure {tag : Tag} {c : Closure} (hc : (Value.closure tag c).Explicit)
    {args : List SecValue} (hargs : ∀ sv ∈ args, sv.value.Explicit) :
    Gives (fun r => r.Explicit Applied.Explicit ∧ ∀ name ∈ c.formals, name ∉ baseNames)
      (ev.applyClosure ctx loc c args) := by
  cases hc with
  | plain h => cases h
  | closure hbody hbased hvalues =>
    have henv : Bindings.Explicit c.env := ⟨hbased, hvalues⟩
    have hformals : ∀ b ∈ c.formals.zip args, b.2.value.Explicit :=
      fun b hb => hargs _ (List.of_mem_zip hb).2
    rw [Surface.Block.explicit_eq] at hbody
    refine .skip fun slot => Gives.ensure.bind fun _ hlength => ?_
    refine Meets.bind (P := fun inner => Bindings.Explicit inner ∧ ∀ name ∈ c.formals, name ∉ baseNames)
      (.of_yields fun hbind => ⟨(henv.bindAll hformals).result hbind, fun name hname =>
        hbased.not_mem_of_fresh (Bindings.formals_fresh (of_decide_eq_true hlength) hbind name hname)⟩)
      fun inner hinner => ?_
    exact Meets.bind (hev.stmts (by exact hmode) (by exact hinner.1) hbody) fun _ hleaving =>
      (Ctx.joinExits_explicit hleaving).imp fun _ h => ⟨h, hinner.2⟩

theorem applyValues {rator : Value} (hrator : rator.Explicit) {args : List SecValue}
    (hargs : ∀ sv ∈ args, sv.value.Explicit) :
    Gives (fun r => r.code.TurnsEnd ∧ r.value.value.value.Explicit)
      (ev.applyValues ctx loc env rator args) := by
  unfold Evaluator.applyValues
  split
  · exact (Ctx.applyPrim_explicit henv hargs).bind fun _ hr => .pure ⟨hr.code, hr.value⟩
  · exact (hev.applyClosure hmode hrator hargs).imp fun _ h => ⟨h.1.code, h.1.value.value⟩
  · exact .fail trivial

/-! ### Forms -/

theorem appForm (hargs : Surface.exprsExplicit args = true) :
    Gives (Lifted.Explicit (·.value.Explicit)) (ev.appForm ctx loc env args) := by
  refine .skip fun _ => ?_
  split
  · simp only [Surface.exprsExplicit, Surface.Expr.explicit, Bool.and_true, Bool.and_eq_true] at hargs
    obtain ⟨hoptions, hparts, hbody⟩ := hargs
    refine (hev.exprs hmode henv (by simp [Surface.exprsExplicit, hoptions, hparts])).bind
      fun evaluated hevaluated => ?_
    split
    · refine .skip fun parts => .skip fun _ => ?_
      refine (henv.bindAll fun b hb => ?_).bind fun inner hinner => .skip fun _ =>
        .pure ⟨hevaluated.1, .app hbody hinner.based hinner.holds⟩
      obtain ⟨p, _, hvalue⟩ := List.mem_map.1 (List.of_mem_zip hb).2
      rw [← hvalue]
      exact .plain rfl
    · exact .fail trivial
  · exact .fail trivial

theorem onlyForm {who : String} (hargs : Surface.exprsExplicit args = true) :
    Gives (Lifted.Explicit (·.value.Explicit)) (ev.onlyForm ctx loc env who args) := by
  unfold Evaluator.onlyForm
  split
  · rename_i parties hstep
    rw [hstep] at hmode
    refine Gives.orFail.bind fun view hview => ?_
    have hview : view.Explicit := hmode _ (OrderedMap.mem_of_get? hview)
    refine (hev.exprs (by exact trivial) hview hargs).bind fun made hmade => ?_
    split
    · rename_i level tag c hvalue
      have hclosure : (Value.closure tag c).Explicit :=
        hmade.2 ⟨level, .closure tag c⟩ (by rw [hvalue]; exact List.mem_cons_self)
      refine Meets.bind (Trait.explicit.sharedArgs fun _ _ => henv.identify) fun shared hshared => ?_
      refine Meets.bind (hev.applyClosure (by exact trivial) hclosure hshared) fun applied happlied => ?_
      have hend := happlied.1.value.env.without happlied.2
      exact .skip fun _ =>
        .pure ⟨hmade.1.append happlied.1.code, .onlyDone hend.based hend.holds⟩
    · exact .fail trivial
  · exact .fail trivial

omit hev hmode henv in
/-- A stage of a round is filled in, and if it takes a handler, the handler ends explicitly. -/
theorem applyRound {formLoc : Loc} {r : Round} (hround : r.Explicit)
    (hargs : Surface.exprsExplicit args = true)
    (hhandler : r.stage = some .timeout → ∀ delay arrowLoc formals handler,
      args = [delay, .arrow arrowLoc formals handler] → Surface.stmtsEnd handler.stmts = true) :
    Gives (Lifted.Explicit (·.value.Explicit))
      (ev.applyForm ctx loc env formLoc (.round r) args) := by
  refine .skip fun _ => Gives.orFail.bind fun stage hstage => ?_
  refine (Round.fill_explicit hround hargs fun heq => hhandler (heq ▸ hstage)).bind fun next hnext =>
    .skip fun _ => .pure (.plain (.round ?_ hnext.1))
  simp [hnext.2]

theorem apply {rator : Value} (hrator : rator.Explicit) {rands : List Surface.Expr}
    (hrands : Surface.exprsExplicit rands = true) :
    Gives (Lifted.Explicit (·.value.Explicit)) (ev.apply ctx loc env rator rands) := by
  refine Trait.explicit.apply (hev.operands hmode henv hrands) (hev.applyValues hmode henv hrator) ?_
  rintro _ _ f rfl
  cases f with
  | app => exact hev.appForm hmode henv hrands
  | only who => exact hev.onlyForm hmode henv hrands
  | onlyDone => exact .fail trivial
  | round r =>
    cases hrator with
    | plain h => cases h
    | round hstage hround => exact applyRound hround hrands fun h => absurd h hstage

/-! ### Expressions -/

theorem reads {p : Surface.Property} (hp : p.explicit = true) :
    Trait.explicit.Reads ev ctx env p := by
  cases p with
  | value propLoc name value =>
    simp only [Surface.Property.explicit, Bool.and_eq_true] at hp
    refine ⟨fun key hkey => hev.operand hmode henv ?_, hev.operand hmode henv hp.2⟩
    simpa [hkey, Surface.PropertyName.explicit] using hp.1
  | shorthand => exact henv.identify
  | spread propLoc base =>
    rw [Surface.Property.explicit] at hp
    exact hev.operand hmode henv hp
  | method => trivial

/-- The stage that takes a handler is answered only to a call of it by name, and what the call passes
ends explicitly. -/
theorem call {callee : Surface.Expr}
    (hcall : (Surface.Expr.call loc callee args).explicit called = true) :
    Gives (Lifted.Explicit (·.value.Explicit)) (ev.evalExpr ctx env (.call loc callee args)) := by
  simp only [Surface.Expr.explicit, Bool.and_eq_true] at hcall
  obtain ⟨⟨hcallee, hhandlers⟩, hargs⟩ := hcall
  refine (hev.expr hmode henv hcallee).bind fun rator hrator => ?_
  suffices h : Gives (Lifted.Explicit (·.value.Explicit))
      (ev.apply ctx loc env rator.value.value args) from
    h.bind fun _ hresult => .pure ⟨hrator.code.append hresult.code, hresult.value⟩
  generalize hvalue : rator.value.value = v
  have hanswers := hrator.value
  rw [hvalue] at hanswers
  cases hanswers with
  | value h => exact hev.apply hmode henv h hargs
  | stage hcalled hname hround hstage =>
    subst hname
    have hends : ∀ delay arrowLoc formals handler, args = [delay, .arrow arrowLoc formals handler] →
        Surface.stmtsEnd handler.stmts = true := by
      rintro delay arrowLoc formals handler rfl
      simpa [Surface.handlersEnd] using hhandlers
    change Gives _ (ev.applyForm ctx loc env _ (.round _) args)
    exact applyRound hround hargs fun _ => hends

theorem evalExpr (he : e.explicit called = true) :
    Gives (Lifted.Explicit (·.value.Answers called e)) (ev.evalExpr ctx env e) := by
  have hvalue : ∀ {x : Eval (Lifted SecValue)}, Gives (Lifted.Explicit (·.value.Explicit)) x →
      Gives (Lifted.Explicit (·.value.Answers called e)) x :=
    fun h => h.imp fun _ hr => ⟨hr.code, .value hr.value⟩
  unfold Evaluator.evalExpr
  cases e with
  | ident loc name => exact hvalue (henv.identify.bind fun _ hsv => .pure (.plain hsv))
  | int | string | bool | null => exact .pure (.plain (.value (.plain rfl)))
  | array loc elems =>
    rw [Surface.Expr.explicit] at he
    exact hvalue (Trait.explicit.array (hev.operands hmode henv he))
  | object loc props =>
    rw [Surface.Expr.explicit] at he
    exact hvalue (Trait.explicit.objectLiteral fun p hp =>
      hev.reads hmode henv (Surface.propsExplicit_iff.1 he p hp))
  | call loc callee args => exact hvalue (hev.call hmode henv he)
  | dot loc base field =>
    simp only [Surface.Expr.explicit, Bool.and_eq_true, Bool.or_eq_true, bne_iff_ne] at he
    exact (hev.operand hmode henv he.1).bind fun object hobject =>
      (Ctx.field_answers hobject.value he.2).bind fun _ hresult =>
        .pure ⟨hobject.code.append hresult.code, hresult.value⟩
  | index loc base position =>
    simp only [Surface.Expr.explicit, Bool.and_eq_true] at he
    exact hvalue (Trait.explicit_basic.index (hev.operand hmode henv he.1)
      (hev.operand hmode henv he.2))
  | binary loc op lhs rhs =>
    simp only [Surface.Expr.explicit, Bool.and_eq_true] at he
    exact hvalue (Meets.bind (op.rator_meets (fun _ => trivial) (fun _ _ => henv.lookup)
      fun _ => .plain rfl) fun _ hrator => hev.apply hmode henv hrator (by simp [Surface.exprsExplicit, he]))
  | unary loc op operand =>
    rw [Surface.Expr.explicit] at he
    exact hvalue (Meets.bind (op.rator_meets (fun _ => trivial) fun _ _ => henv.lookup)
      fun _ hrator => hev.apply hmode henv hrator (by simp [Surface.exprsExplicit, he]))
  | paren _ inner =>
    rw [Surface.Expr.explicit] at he
    exact hvalue (hev.operand hmode henv he)
  | ternary loc cond onTrue onFalse =>
    simp only [Surface.Expr.explicit, Bool.and_eq_true] at he
    exact hvalue (Trait.explicit_basic.ternary (hev.operand hmode henv he.1.1)
      (hev.operand hmode henv he.1.2) (hev.operand hmode henv he.2))
  | arrow loc formals body =>
    rw [Surface.Expr.explicit] at he
    exact .skip fun _ => .pure (.plain (.value (henv.closure he)))
  | function loc name formals body =>
    rw [Surface.Expr.explicit] at he
    cases name with
    | none => exact .skip fun _ => .pure (.plain (.value (henv.closure he)))
    | some name => exact .fail trivial
  | foreign => exact .fail trivial

/-! ### Exits -/

omit hev hmode henv in
theorem evalExitName (ev : Evaluator) (ctx : Ctx) (henv : env.Based) :
    Gives (fun r => ∃ primLoc, r.value.value = .prim primLoc .exit)
      (ev.evalExpr ctx env (.ident loc "exit")) := by
  have hbase : env.find? "exit" = some (.pub (.prim .synthetic .exit)) := henv.find? rfl
  refine Meets.bind (P := fun sv => sv.value = .prim .synthetic .exit)
    (.of_yields fun hrun => ?_) fun sv hsv => .pure ⟨_, hsv⟩
  obtain ⟨bound, hfind, _, rfl | ⟨_, _, _, hparticipant, _⟩⟩ := Bindings.identify_yields hrun
  · rw [Option.some.inj (hfind.symm.trans hbase)]
    rfl
  · rw [Option.some.inj (hfind.symm.trans hbase)] at hparticipant
    cases hparticipant

omit hmode henv in
theorem evalExitCall (henv : env.Based) (hexit : e.callsExit = true) :
    Gives (fun r => (∃ primLoc, r.value.value = .prim primLoc .exited) ∧ codePasses r.code = false)
      (ev.evalExpr ctx env e) := by
  unfold Surface.Expr.callsExit at hexit
  split at hexit
  · rename_i callLoc identLoc name args
    obtain rfl : name = "exit" := by simpa using hexit
    refine (hev.exitName henv).bind fun rator hrator => ?_
    obtain ⟨primLoc, hprim⟩ := hrator
    rw [hprim]
    refine Meets.bind (P := fun r => (∃ primLoc, r.value.value = .prim primLoc .exited) ∧
      codePasses r.code = false) ?_ fun r hr => .pure ⟨hr.1, by simp [hr.2]⟩
    refine .skip fun args => Meets.bind (P := fun r =>
      r.value.value.value = .prim callLoc .exited ∧ codePasses r.code = false) ?_ fun r hr =>
        .pure ⟨⟨_, hr.1⟩, by simp [hr.2]⟩
    refine Meets.bind (P := fun r => r.value.value = .prim callLoc .exited ∧
      codePasses r.code = false) ?_ fun r hr => .pure hr
    exact .skip fun _ => .skip fun _ => .pure ⟨rfl, by simp [Stmt.passes]⟩
  · cases hexit

end Evaluator.Explicit

end Choreography
