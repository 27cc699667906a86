import Choreography.Proofs.ExplicitExpressions
import Choreography.Proofs.MaterialPrograms
import Choreography.Proofs.Payments

/-!
Statements and apps of programs that end their loop bodies explicitly. Control does not run off the end
of the code of a loop body that ends explicitly, so in the program of such an app no loop does. Nothing
makes a program end its loop bodies: one that does not is compiled all the same.
-/

namespace Choreography

open Eval Ir

variable {loc : Loc} {ctx : Ctx} {env : Bindings} {scope : Scope} {ev : Evaluator} {ends : Bool}
  {rest : List Surface.Stmt}

namespace Lifted.Leaving

variable {r : Lifted Outcome}

theorem after (h : r.Leaving ends) {code : Code} (hcode : code.TurnsEnd) : (r.after code).Leaving ends :=
  ⟨hcode.append h.code, h.env, h.exits, fun hends => by simp [Lifted.after, h.stays hends]⟩

theorem weaken (h : r.Leaving ends) {ends' : Bool} (himp : ends' = true → ends = true) :
    r.Leaving ends' :=
  ⟨h.code, h.env, h.exits, fun hends => h.stays (himp hends)⟩

end Lifted.Leaving

/-! ### Declarations -/

namespace Evaluator.Explicit

variable (hev : ev.Explicit) (hmode : ctx.mode.Explicit) (henv : scope.env.Explicit)
include hev hmode henv

omit henv in
theorem decl (henv : env.Explicit) {bound : Bindings} (hbound : bound.HoldsExplicit)
    {d : Surface.Decl} (hd : d.explicit = true) :
    Gives (Lifted.Explicit Bindings.HoldsExplicit) (ev.decl ctx bound env d) := by
  obtain ⟨declLoc, lhs, init⟩ := d
  refine Gives.orFail.bind fun init hinit => .skip fun target => ?_
  cases hinit
  rw [Surface.Decl.explicit] at hd
  refine Meets.bind (hev.operand (by exact hmode) henv hd) fun rhs hrhs => ?_
  split
  · exact (hbound.bind hrhs.value).bind fun _ hout => .pure ⟨hrhs.code, hout⟩
  · refine Ctx.components_meets.gives.bind fun parts hparts => .skip fun _ => ?_
    refine (hbound.bindAll fun b hb => ?_).bind fun _ hout =>
      .pure ⟨hrhs.code.append hparts.1.turnsEnd, hout⟩
    obtain ⟨v, hv, heq⟩ := List.mem_map.1 (List.of_mem_zip hb).2
    rw [← heq]
    exact Trait.explicit_basic.part (hparts.2 v hv) hrhs.value

omit henv in
theorem declsFrom (henv : env.Explicit) {ds : List Surface.Decl}
    (hds : Surface.declsExplicit ds = true) :
    ∀ {bound : Bindings}, bound.HoldsExplicit →
      Gives (Lifted.Explicit Bindings.HoldsExplicit) (ev.declsFrom ctx bound env ds) := by
  induction ds with
  | nil => exact fun hbound => .pure (.plain hbound)
  | cons d ds ih =>
    simp only [Surface.declsExplicit, Bool.and_eq_true] at hds
    exact fun hbound => (hev.decl hmode henv hbound hds.1).bind fun _ hfirst =>
      (ih hds.2 hfirst.value).bind fun _ hrest => .pure ⟨hfirst.code.append hrest.code, hrest.value⟩

/-! ### Sequences and conditionals -/

omit henv in
theorem extend (henv : env.Explicit) {code : Code} (hcode : code.TurnsEnd)
    (hrest : Surface.stmtsExplicit rest = true) :
    Gives (Lifted.Leaving (Surface.stmtsEnd rest)) (ev.extend ctx loc scope code env rest) :=
  Meets.bind (hev.stmts hmode (by exact henv) hrest) fun _ hnext => .pure (hnext.after hcode)

/-- Control stays in what comes first or in the rest. -/
theorem continueWith {first : Lifted Outcome} (hfirst : first.Leaving ends)
    (hrest : Surface.stmtsExplicit rest = true) :
    Gives (Lifted.Leaving (ends || Surface.stmtsEnd rest))
      (ev.continueWith ctx loc scope first rest) := by
  rw [← Surface.stmtsEnd_dropEmpty]
  have hrest := Surface.stmtsExplicit_dropEmpty hrest
  unfold Evaluator.continueWith
  split
  · rename_i hnone
    refine .pure (hfirst.weaken fun hends => ?_)
    simpa [hnone, Surface.stmtsEnd] using hends
  · refine Meets.bind (hev.stmts hmode (by exact henv) hrest) fun next hnext => .pure
      ⟨hfirst.code.append hnext.code, hnext.env,
        List.forall_mem_append.2 ⟨hfirst.exits, hnext.exits⟩, fun hends => ?_⟩
    rw [codePasses_append]
    rcases Bool.or_eq_true_iff.1 hends with hends | hends
    · simp [hfirst.stays hends]
    · simp [hnext.stays hends]

/-- A choice ends if it has both branches and both of them end. -/
theorem branch {cond : Surface.Expr} {onTrue : Surface.Stmt} {onFalse : Option Surface.Stmt}
    (hcond : cond.explicit false = true) (hTrue : Surface.stmtsExplicit [onTrue] = true)
    (hFalse : Surface.stmtsExplicit onFalse.toList = true)
    (hrest : Surface.stmtsExplicit rest = true) :
    Gives (Lifted.Leaving
        (Surface.stmtsEnd [onTrue] && Surface.stmtsEnd onFalse.toList || Surface.stmtsEnd rest))
      (ev.branch ctx loc scope cond onTrue onFalse rest) := by
  refine (hev.operand hmode henv hcond).bind fun c hc => ?_
  have hinner : Bindings.Explicit (if (Surface.dropEmpty rest).isEmpty then scope
      else { scope with style := .mayBeEmpty }).env := by
    split <;> exact henv
  rw [← Surface.stmtsEnd_dropEmpty rest]
  have hrest := Surface.stmtsExplicit_dropEmpty hrest
  simp only
  split
  · split
    · exact (hev.stmts hmode hinner hTrue).bind fun taken htaken =>
        hev.continueWith hmode henv ((htaken.after hc.code).weaken
          fun hends => (Bool.and_eq_true_iff.1 hends).1) hrest
    · exact (hev.stmts hmode hinner hFalse).bind fun taken htaken =>
        hev.continueWith hmode henv ((htaken.after hc.code).weaken
          fun hends => (Bool.and_eq_true_iff.1 hends).2) hrest
  · refine (hev.stmts hmode hinner hTrue).bind fun t ht =>
      (hev.stmts hmode hinner hFalse).bind fun f hf => hev.continueWith hmode henv
        ⟨hc.code.append (.branch ht.code hf.code), henv,
          Exit.combine_forall (.plain rfl) (Exit.taint_forall ht.exits) (Exit.taint_forall hf.exits),
          fun hends => ?_⟩ hrest
    obtain ⟨hendsTrue, hendsFalse⟩ := Bool.and_eq_true_iff.1 hends
    simp [Stmt.passes, ht.stays hendsTrue, hf.stays hendsFalse]
  · exact .fail trivial

/-! ### Loops -/

theorem continueLoop {assignLoc : Loc} {lhs rhs : Surface.Expr} (hrhs : rhs.explicit false = true) :
    Gives (Lifted.Leaving ends) (ev.continueLoop ctx loc scope assignLoc lhs rhs rest) := by
  refine .skip fun _ => (hev.decl hmode henv .empty ?_).bind fun _ hupdates =>
    .skip fun _ => .skip fun _ => .skip fun _ =>
      .pure ⟨hupdates.code.append (.single rfl (by simp [Stmt.parts])), henv, by simp,
        fun _ => by simp [Stmt.passes]⟩
  rw [Surface.Decl.explicit, hrhs]

omit henv in
theorem boolBlock (henv : env.Explicit) {e : Surface.Expr} (he : e.explicit false = true) :
    Gives (fun b => Code.TurnsEnd b.code) (ev.boolBlock ctx loc env e) :=
  (hev.operand hmode henv he).bind fun _ hr => .skip fun _ => .pure hr.code

/-- The body of a loop is evaluated to code whose end control does not reach. -/
theorem loop {ds : List Surface.Decl} {invariantLoc : Loc} {invariant : List Surface.Expr}
    {loopLoc : Loc} {cond : Surface.Expr} {body : Surface.Stmt}
    (hds : Surface.declsExplicit ds = true) (hinvariant : Surface.exprsExplicit invariant = true)
    (hcond : cond.explicit false = true) (hends : Surface.stmtsEnd [body] = true)
    (hbody : Surface.stmtsExplicit [body] = true) (hrest : Surface.stmtsExplicit rest = true) :
    Gives (Lifted.Leaving (Surface.stmtsEnd rest))
      (ev.loop ctx loc scope ds invariantLoc invariant loopLoc cond body rest) := by
  refine .skip fun _ => (hev.declsFrom hmode henv hds .empty).bind fun init hinit =>
    .skip fun vars => (henv.merge fun b hb => ?_).bind fun inner hinner => ?_
  · obtain ⟨i, _, rfl⟩ := List.mem_map.1 (Env.mem_ofList hb)
    exact .plain rfl
  · split
    · simp only [Surface.exprsExplicit, Bool.and_true] at hinvariant
      refine (hev.boolBlock hmode hinner hinvariant).bind fun invariantBlock hinvariantCode =>
        (hev.boolBlock hmode hinner hcond).bind fun condBlock hcondCode => ?_
      refine Meets.bind (hev.stmts hmode (by exact hinner) hbody) fun turn hturn => ?_
      refine Meets.bind (hev.stmts hmode (by exact hinner) hrest) fun after hafter => ?_
      have hloop : Code.TurnsEnd [.loop loc (vars.map fun i => (i.2.1, i.2.2)) invariantBlock
          condBlock turn.code] :=
        .single (by simp [Stmt.turnsEnd, hturn.stays hends])
          (by simpa [Stmt.parts] using ⟨hinvariantCode, hcondCode, hturn.code⟩)
      refine .pure ⟨hinit.code.append (hloop.append hafter.code), hafter.env,
        List.forall_mem_append.2 ⟨hturn.exits, hafter.exits⟩, fun hends => ?_⟩
      simp [hafter.stays hends]
    · exact .fail trivial

/-! ### Rounds -/

omit hev hmode henv in
/-- The name that stands for the sender is bound to a participant, so it is no name of the base
environment. -/
theorem withSender {shared : Bindings} (hshared : shared.Explicit) {displayName : Option String}
    {address : Var} :
    Gives (fun sender => ∀ {env : Bindings}, env.Explicit → Bindings.Explicit (env.withSender sender))
      (joinedSender loc shared displayName address) := by
  refine .of_yields fun {_ _ sender} hrun env henv => ?_
  cases displayName with
  | none =>
    simp only [joinedSender, yields_pure] at hrun
    rw [hrun.1]
    exact henv
  | some name =>
    obtain ⟨level, tag, tag', party, hfind, rfl⟩ := joinedSender_find? hrun
    exact henv.set (hshared.based.not_mem_of_participant hfind) (.plain rfl)

omit henv in
theorem payment (henv : env.Explicit) {amount : Option Surface.Expr}
    (hamount : ∀ e, amount = some e → e.explicit false = true) :
    Gives (Lifted.Explicit fun _ => True) (ev.payment ctx env amount) := by
  cases amount with
  | none => exact .pure (.plain trivial)
  | some e =>
    exact (hev.operand hmode henv (hamount e rfl)).bind fun _ hr => .skip fun _ =>
      .skip fun _ => .pure ⟨hr.code, trivial⟩

/-- The handler of a round ends explicitly. -/
theorem deadline {timeout : Option Timeout}
    (htimeout : ∀ t, timeout = some t → t.delay.explicit false = true ∧ t.handler.explicit = true ∧
      Surface.stmtsEnd t.handler.stmts = true) :
    Gives (Lifted.Explicit fun late =>
        (∀ d, late.1 = some d → Code.TurnsEnd d.body ∧ codePasses d.body = false) ∧
        ∀ exit ∈ late.2, exit.value.value.Explicit)
      (ev.deadline ctx scope timeout) := by
  cases timeout with
  | none => exact .pure (.plain ⟨by simp, by simp⟩)
  | some t =>
    obtain ⟨hdelay, hhandler, hends⟩ := htimeout t rfl
    rw [Surface.Block.explicit_eq] at hhandler
    refine (hev.operand hmode henv hdelay).bind fun _ hr => .skip fun _ =>
      .skip fun _ => (hev.stmts hmode henv hhandler).bind fun _ hlate =>
        .pure ⟨hr.code, ?_, hlate.exits⟩
    rintro d ⟨⟩
    exact ⟨hlate.code, hlate.stays hends⟩

omit hev hmode henv in
theorem amountCheck_explicit {amount : Surface.Expr} (h : amount.explicit false = true) :
    (amountCheck loc amount).explicit false = true := by
  simp [amountCheck, Surface.Expr.explicit, Surface.exprsExplicit, Surface.handlersEnd, h]

omit henv in
/-- Control stays in a round if what follows it ends: its handler ends too. -/
theorem takeRound {parties : Parties} (hviews : ∀ e ∈ parties.views.entries, Bindings.Explicit e.2)
    (henv : scope.env.Explicit) {before : Code} (hbefore : before.TurnsEnd) {roundLoc : Loc}
    {r : Round} (hround : r.Explicit) (hrest : Surface.stmtsExplicit rest = true) :
    Gives (Lifted.Leaving (Surface.stmtsEnd rest))
      (ev.takeRound ctx parties loc scope before roundLoc r rest) := by
  refine Gives.orFail.bind fun view hview =>
    (Bindings.Satisfies.messages (fun _ _ _ => .plain rfl) .empty).bind fun sent hsent =>
    .skip fun address => (withSender henv).bind fun sender hsender =>
      (henv.merge hsent).bind fun shared hshared => ?_
  have hshared := hsender hshared
  refine (OrderedMap.traverse_meets (Q := fun e => Bindings.Explicit e.2) hviews
    fun who old hold => ?_).bind fun views hlearned => ?_
  · split
    · exact .pure (hsender hold)
    · exact (Bindings.Explicit.merge hold hsent).bind fun _ hreceived => .pure (hsender hreceived)
  · have hsenderView : Bindings.Explicit ((views.get? r.who).getD {}) :=
      OrderedMap.getD_of_keys_eq hlearned.2 hview hlearned.1
    have hcheck : (amountCheck roundLoc (r.pay.getD (.int roundLoc "0" 10))).explicit false = true := by
      refine amountCheck_explicit ?_
      cases hpay : r.pay with
      | none => rfl
      | some e => exact hround.pay e hpay
    refine (hev.payment hmode hsenderView hround.pay).bind fun amount hamount =>
      (hev.operand hmode hshared hcheck).bind fun check hchecked =>
        (hev.deadline hmode henv hround.timeout).bind fun late hlate => ?_
    refine Meets.bind (hev.stmts (by exact hlearned.1) (by exact hshared) hrest) fun next hnext => ?_
    refine .pure ⟨.append (.append (hbefore.append hlate.code) ?_) (.single rfl ?_), hnext.env,
      Exit.combine_forall (.plain rfl) hlate.value.2 hnext.exits, fun hends => ?_⟩
    · split
      · exact Code.turnsEnd_nil
      · exact .single rfl (by simpa [Stmt.parts] using hamount.code)
    · intro code hcode
      simp only [Stmt.parts, List.mem_append, List.mem_map, List.mem_singleton,
        Option.mem_toList] at hcode
      rcases hcode with ⟨d, hd, rfl⟩ | rfl
      · exact (hlate.value.1 d hd).1
      · exact hchecked.code.append hnext.code
    · have hlatePasses : late.value.1.any (codePasses ·.body) = false := by
        cases hd : late.value.1 with
        | none => rfl
        | some d => simpa using (hlate.value.1 d hd).2
      simp [Stmt.passes_toConsensus, hlatePasses, hnext.stays hends]

omit hmode henv in
theorem commitRound {opened : Bindings} {parties : Parties}
    (hviews : ∀ e ∈ parties.views.entries, Bindings.Explicit e.2) (henv : scope.env.Explicit)
    {before : Code} (hbefore : before.TurnsEnd) (hrest : Surface.stmtsExplicit rest = true) :
    Gives (Lifted.Leaving (Surface.stmtsEnd rest))
      (ev.commitRound ctx opened parties loc scope before rest) := by
  have hlearned : Bindings.HoldsExplicit (scope.env.difference opened) :=
    fun b hb => henv.holds b (List.mem_filter.1 hb).1
  refine (OrderedMap.traverse_meets (Q := fun e => Bindings.Explicit e.2) hviews fun _ _ hold =>
    Bindings.Explicit.merge hold hlearned).bind fun views hviews => ?_
  refine Meets.bind (hev.stmts (by exact hviews.1) henv hrest) fun _ hnext =>
    .pure ⟨hbefore.append (.single rfl (by simpa [Stmt.parts] using hnext.code)), hnext.env,
      hnext.exits, fun hends => ?_⟩
  simp [Stmt.passes, hnext.stays hends]

/-! ### Statements -/

omit hev hmode henv in
theorem expectLast : Gives (fun _ => rest = []) (Choreography.expectLast loc rest) := by
  cases rest with
  | nil => exact .pure rfl
  | cons => exact .fail trivial

theorem exprStmt {e : Surface.Expr} (he : e.explicit false = true)
    (hrest : Surface.stmtsExplicit rest = true) :
    Gives (Lifted.Leaving (e.callsExit || Surface.stmtsEnd rest))
      (ev.exprStmt ctx loc scope e rest) := by
  refine Meets.bind (P := fun r => r.Explicit (·.value.Explicit) ∧ (e.callsExit = true →
    (∃ primLoc, r.value.value = .prim primLoc .exited) ∧ codePasses r.code = false))
    (.of_yields fun hrun => ⟨(hev.operand hmode henv he).result hrun, fun hexit =>
      (hev.exitCall henv.based hexit).result hrun⟩) fun r hr => ?_
  obtain ⟨⟨hcode, hvalue⟩, hexit⟩ := hr
  -- what is no exit leaves it to the rest whether control stays
  have hgoesOn : (∀ primLoc, r.value.value ≠ .prim primLoc .exited) → ∀ {x : Eval (Lifted Outcome)},
      Gives (Lifted.Leaving (Surface.stmtsEnd rest)) x →
      Gives (Lifted.Leaving (e.callsExit || Surface.stmtsEnd rest)) x := by
    intro hnot x hx
    refine hx.imp fun _ h => h.weaken fun hends => ?_
    rcases Bool.or_eq_true_iff.1 hends with hcalls | hends
    · obtain ⟨⟨primLoc, hexited⟩, _⟩ := hexit hcalls
      exact absurd hexited (hnot primLoc)
    · exact hends
  split
  · refine expectLast.bind fun _ hlast => .pure ⟨hcode, henv, by simp, fun hends => ?_⟩
    subst hlast
    exact (hexit (by simpa [Surface.stmtsEnd] using hends)).2
  · rename_i parties formLoc tag who view result hstep hdone
    refine hgoesOn (by simp [hdone]) (.skip fun _ => ?_)
    rw [hdone] at hvalue
    rw [hstep] at hmode
    cases hvalue with
    | plain h => cases h
    | onlyDone hbased hview =>
      have hlearned : ∀ e ∈ (parties.views.insert who view).entries, Bindings.Explicit e.2 :=
        OrderedMap.forall_mem_insert ⟨hbased, hview⟩ hmode
      exact Meets.bind (hev.stmts (by exact hlearned) henv hrest) fun _ hnext =>
        .pure (hnext.after (.single rfl (by simpa [Stmt.parts] using hcode)))
  · rename_i parties roundLoc tag round hstep hround
    refine hgoesOn (by simp [hround]) ?_
    rw [hround] at hvalue
    split
    · cases hvalue with
      | plain h => cases h
      | round _ hexplicit =>
        exact hev.takeRound hmode (by rwa [hstep] at hmode) henv hcode hexplicit hrest
    · exact .fail trivial
  · rename_i opened parties primLoc hconsensus hcommitted
    refine hgoesOn (by simp [hcommitted]) ?_
    rw [hconsensus] at hmode
    exact hev.commitRound hmode henv hcode hrest
  · refine .skip fun _ => Meets.bind (hev.stmts hmode henv hrest) fun next hnext =>
      .pure ⟨hcode.append hnext.code, hnext.env, hnext.exits, fun hends => ?_⟩
    rcases Bool.or_eq_true_iff.1 hends with hcalls | hends
    · simp [Lifted.after, (hexit hcalls).2]
    · simp [Lifted.after, hnext.stays hends]

theorem ret {value : Option Surface.Expr} (hvalue : ∀ e, value = some e → e.explicit false = true) :
    Gives (Lifted.Leaving ends) (ev.ret ctx loc scope value rest) :=
  Evaluator.ret_meets (fun _ _ => trivial) (fun e he => hev.operand hmode henv (hvalue e he))
    (.plain (.plain rfl)) fun _ _ hr =>
      ⟨hr.code.append .ret, henv, List.forall_mem_singleton.2 hr.value, fun _ => by simp [Stmt.passes]⟩

theorem evalStmts {stmts : List Surface.Stmt} (hstmts : Surface.stmtsExplicit stmts = true) :
    Gives (Lifted.Leaving (Surface.stmtsEnd stmts)) (ev.evalStmts ctx loc scope stmts) := by
  unfold Evaluator.evalStmts
  split
  · refine .pure ⟨Code.turnsEnd_nil, henv, fun exit hexit => ?_, by simp [Surface.stmtsEnd]⟩
    simp only [Lifted.plain] at hexit
    split at hexit
    · obtain rfl := List.mem_singleton.1 hexit
      exact .plain rfl
    · exact absurd hexit List.not_mem_nil
  all_goals
    simp only [Surface.stmtsExplicit, Bool.and_eq_true] at hstmts
    rw [Surface.stmtsEnd]
  · rw [Surface.Stmt.explicit, Surface.Block.explicit_eq] at hstmts
    rw [Surface.Stmt.ends_block]
    exact (hev.stmts hmode henv hstmts.1).bind fun _ hfirst =>
      hev.continueWith hmode henv hfirst hstmts.2
  · rw [Surface.Stmt.explicit] at hstmts
    exact (hev.declsFrom hmode henv hstmts.1 .empty).bind fun _ hbound =>
      (henv.merge hbound.value).bind fun _ hout => hev.extend hmode hout hbound.code hstmts.2
  · exact hev.continueLoop hmode henv rfl
  · rw [Surface.Stmt.explicit] at hstmts
    exact .skip fun _ => .skip fun _ =>
      (henv.bind (henv.closure hstmts.1)).bind fun _ hout =>
        hev.extend hmode hout Code.turnsEnd_nil hstmts.2
  · rw [Surface.Stmt.explicit_branch, Bool.and_eq_true, Bool.and_eq_true] at hstmts
    rw [Surface.Stmt.ends_branch]
    exact hev.branch hmode henv hstmts.1.1.1 hstmts.1.1.2 hstmts.1.2 hstmts.2
  · exact hev.stmts hmode henv hstmts.2
  · rw [Surface.Stmt.explicit] at hstmts
    exact hev.exprStmt hmode henv hstmts.1 hstmts.2
  · rw [Surface.Stmt.explicit] at hstmts
    exact hev.exprStmt hmode henv (by rw [Surface.Expr.explicit]; exact hstmts.1) hstmts.2
  · rw [Surface.Stmt.explicit] at hstmts
    exact hev.continueLoop hmode henv hstmts.1
  · exact .fail trivial
  · refine hev.ret hmode henv fun e he => ?_
    rw [he, Surface.Stmt.explicit] at hstmts
    exact hstmts.1
  · simp only [Surface.Stmt.explicit, Bool.and_eq_true] at hstmts
    obtain ⟨hdecls, ⟨_, hinvariant⟩, ⟨⟨hcond, hends⟩, hbody⟩, hrest⟩ := hstmts
    refine (hev.loop hmode henv hdecls hinvariant hcond (by simp [Surface.stmtsEnd, hends])
      (by simp [Surface.stmtsExplicit, hbody]) hrest).imp fun _ h => h.weaken ?_
    simp [Surface.stmtsEnd, Surface.Stmt.ends, Surface.Expr.callsExit]
  · exact .fail trivial
  · exact .fail trivial
  · exact .fail trivial

end Evaluator.Explicit

theorem evaluator_explicit (fuel : Nat) : (evaluator fuel).Explicit := by
  induction fuel with
  | zero =>
    exact ⟨fun _ _ _ => .outOfFuel trivial, fun _ _ _ => .outOfFuel trivial,
      fun _ => .outOfFuel trivial, fun _ _ => .outOfFuel trivial⟩
  | succ fuel ih =>
    exact ⟨fun hmode henv he => ih.evalExpr hmode henv he,
      fun hmode henv hstmts => ih.evalStmts hmode henv hstmts,
      fun {ctx _ _} henv => Evaluator.Explicit.evalExitName (evaluator fuel) ctx henv,
      fun henv hexit => ih.evalExitCall henv hexit⟩

/-! ### Modules and apps -/

theorem standardLibrary_explicit (file : Nat) (header : String) :
    ∀ item ∈ (standardLibrary file header).items, item.Satisfies (·.explicit = true) := by
  intro item hitem
  simp only [standardLibrary, List.mem_cons, List.not_mem_nil, or_false] at hitem
  rcases hitem with rfl | rfl | rfl | rfl | rfl | rfl | rfl <;>
    simp [Surface.Item.Satisfies, Surface.Stmt.explicit, Surface.Block.returning,
      Surface.Block.explicit, Surface.stmtsExplicit, Surface.Expr.explicit, Surface.exprsExplicit,
      Surface.handlersEnd]

theorem Link.preserves_explicit (hev : ev.Explicit) :
    Link.Preserves ev Bindings.Explicit (fun b => b.2.value.Explicit ∧ b.1 ∉ baseNames)
      (·.explicit = true) where
  base := baseEnv_explicit
  library := by
    intro overlay hoverlay
    refine ⟨baseEnv_based.setAll fun b hb => (hoverlay b hb).2, fun b hb => ?_⟩
    exact (Env.mem_setAll hb).elim (baseEnv_explicit.holds b) fun hb => (hoverlay b hb).1
  imported := fun hrun henv hoverlay => (henv.merge fun b hb => (hoverlay b hb).1).result hrun
  topLevel := by
    intro loc env out stmt s s' hrun henv hexplicit
    simp only [Link.topLevel, yields_bind, yields_pure] at hrun
    obtain ⟨r, _, hr, _, _, _, rfl, _⟩ := hrun
    have hstmts : Surface.stmtsExplicit [stmt] = true := by simp [Surface.stmtsExplicit, hexplicit]
    have hout := ((hev.stmts (by exact trivial) henv hstmts).result hr).env
    refine ⟨hout, fun b hb => ?_⟩
    obtain ⟨hmem, hnew⟩ := List.mem_filter.1 hb
    refine ⟨hout.holds b hmem, henv.based.not_mem_of_fresh ?_⟩
    exact Env.contains_eq_false.1 (by simpa using hnew)

theorem Surface.Module.satisfies_explicit {m : Surface.Module} (h : m.explicit = true) :
    ∀ item ∈ m.items, item.Satisfies (·.explicit = true) := by
  intro item hitem
  have hitem := List.all_eq_true.1 h item hitem
  cases item with
  | exported | plain => exact hitem
  | importFrom | foreign => exact trivial

theorem Participant.interactValue_explicit (p : Participant) : p.interactValue.Explicit := by
  refine .object fun b hb => ?_
  obtain ⟨f, _, rfl⟩ := List.mem_map.1 hb
  exact .plain rfl

variable {fuel : Nat} {options : Options} {session : Session} {bundle : Bundle} {top : String}
  {p : Program}

/-- If every loop body and every handler in a bundle ends explicitly, then in its program control
does not run off the end of the body of any loop. -/
theorem compileBundle_turns_end
    (hcompile : (compileBundle fuel options session bundle top).1 = .ok p)
    (hexplicit : ∀ m ∈ bundle, m.tree.explicit = true) :
    ∀ st ∈ statements p.body, st.turnsEnd = true := by
  have hev := evaluator_explicit fuel
  obtain ⟨_, hrun⟩ := Elaboration.perform_yields hcompile
  obtain ⟨appLoc, tag, a, _, ⟨happ, _⟩, hrun⟩ := compile_preserves (Link.preserves_explicit hev)
    standardLibrary_explicit (fun m hm => m.tree.satisfies_explicit (hexplicit m hm)) hrun
  cases happ with
  | plain h => cases h
  | app hbody hbased hvalues =>
    rw [Surface.Block.explicit_eq] at hbody
    simp only [App.compile, yields_bind, yields_pure] at hrun
    obtain ⟨views, _, hviews, _, _, _, r, _, hr, rfl, _⟩ := hrun
    have henv : Bindings.Explicit a.env := ⟨hbased, hvalues⟩
    have hknown := ((App.views_meets (V := fun e => Bindings.Explicit e.2)
      (fun p _ => henv.bind p.interactValue_explicit) (by simp)).result hviews).1
    exact ((hev.stmts (by exact hknown) (by exact henv) hbody).result hr).code

namespace Surface

/-- Statements that count in a loop of consensus. -/
def increment : List Stmt :=
  [.assign here .assign (name "i") (.binary here .plus (name "i") (number "1")), .cont here]

/-- An app of one participant, with a loop whose body is given. -/
def turningApp (turn : List Stmt) : Bundle :=
  appOf ["A"] [
    .expr here (method (name "A") "publish" []),
    .varDecl here [⟨here, name "i", some (number "0")⟩],
    .methodCall here (name "invariant") [.bool here true],
    .loop here (.binary here .lt (name "i") (number "10")) (.block ⟨here, turn⟩),
    .expr here (apply "commit" [])]

/-- A new round of the loop, which falls back on a handler. -/
def lateRound (handler : List Stmt) : List Stmt :=
  [.expr here (apply "commit" []),
    .expr here (method (method (name "A") "publish" []) "timeout" [number "10", thunk handler])]

/-- Each turn takes a round, after which the loop goes on one way or the other. -/
def roundsApp : Bundle :=
  turningApp (lateRound [.expr here (apply "exit" [])] ++
    [.branch here (.binary here .lt (name "i") (number "5")) (.block ⟨here, increment⟩)
      (some (.cont here))])

end Surface

def Ir.Stmt.isLoop : Stmt → Bool
  | .loop .. => true
  | .letIn .. | .claim .. | .transfer .. | .stop .. | .ret .. | .prompt .. | .branch .. | .only ..
  | .toConsensus .. | .fromConsensus .. | .cont .. => false

theorem roundsApp_turns_end :
    (∀ m ∈ Surface.roundsApp, m.tree.explicit = true) ∧
      ∃ p, (compileBundle 30 {} {} Surface.roundsApp "main").1 = .ok p ∧
        ∃ loc vars invariant cond body, Stmt.loop loc vars invariant cond body ∈ statements p.body ∧
          codePasses body = false := by
  have hexplicit : ∀ m ∈ Surface.roundsApp, m.tree.explicit = true := by decide +kernel
  obtain ⟨p, hp, hloop⟩ := exists_ok_of_any
    (f := fun p : Program => (statements p.body).any (·.isLoop))
    (x := (compileBundle 30 {} {} Surface.roundsApp "main").1) (by decide +kernel)
  obtain ⟨st, hst, hkind⟩ := List.any_eq_true.1 hloop
  cases st with
  | loop loc vars invariant cond body =>
    have hends := compileBundle_turns_end hp hexplicit _ hst
    exact ⟨hexplicit, p, hp, loc, vars, invariant, cond, body, hst,
      by simpa [Stmt.turnsEnd] using hends⟩
  | _ => cases hkind

/-- A loop body may be empty, it may end in one branch only, and it may fall back on a handler that
does not end. -/
theorem turns_run_off :
    Breaks Stmt.turnsEnd (Surface.turningApp []) ∧
      Breaks Stmt.turnsEnd (Surface.turningApp [.branch Surface.here
        (.binary Surface.here .lt (Surface.name "i") (Surface.number "5"))
        (.block ⟨Surface.here, Surface.increment⟩) none]) ∧
      Breaks Stmt.turnsEnd (Surface.turningApp (Surface.lateRound [] ++ Surface.increment)) :=
  ⟨breaks_of_any (by decide +kernel), breaks_of_any (by decide +kernel),
    breaks_of_any (by decide +kernel)⟩

end Choreography
