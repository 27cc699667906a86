import Choreography.Proofs.PolicyExpressions

/-!
Statements of programs that follow a policy. Each round is opened with the check of what is paid in
it, and what is bound along the way still follows the policy.
-/

namespace Choreography

open Eval Ir

variable {π : Policy} {loc : Loc} {ctx : Ctx} {env : Bindings} {scope : Scope} {ev : Evaluator}
  {fuel : Nat} {rest : List Surface.Stmt}

theorem Lifted.Leaves.after {r : Lifted Outcome} {code : Code} (h : r.Leaves π)
    (hcode : code.Obeys π) : (r.after code).Leaves π :=
  ⟨hcode.append h.code, h.env, h.exits⟩

namespace Evaluator.Obeys

section

variable (hev : ev.Obeys π) (hmode : ctx.mode.Obeys π)

include hev hmode

/-! ### Declarations -/

/-- A declared name is bound to the constant that it stands for, if it stands for one. -/
theorem decl (henv : env.Obeys π) {bound : Bindings} {d : Surface.Decl}
    (hd : π.Demands (d.obeys π)) (hbound : bound.Satisfies π.Holds) :
    Gives (fun r => r.code.Obeys π ∧ r.value.Satisfies π.Holds) (ev.decl ctx bound env d) := by
  obtain ⟨declLoc, lhs, init⟩ := d
  refine Gives.orFail.bind fun e hinit => ?_
  obtain rfl : init = some e := hinit
  simp only [Surface.Decl.obeys, Policy.demands_and] at hd
  obtain ⟨he, hdeclares⟩ := hd
  refine (Target.ofExpr_of lhs).bind fun target htarget => ?_
  refine Meets.bind (Meets.and (hev.operand (by exact hmode) henv he) (Q := fun rhs => ∀ n,
    π.enforced = true → e.constant? π.fixed = some n → ∃ at', rhs.value = .pub (.int at' n)) ?_)
    fun rhs hrhs => ?_
  · exact .of_yields fun hrun n henforced hconstant =>
      ((hev.predictable.constant (henv.fixed henforced) hconstant).result hrun).2
  cases htarget with
  | single =>
    refine (hbound.bind ⟨fun henforced n hfixed => ?_, hrhs.1.value⟩).bind fun _ hout =>
      .pure ⟨hrhs.1.code, hout⟩
    exact hrhs.2 n henforced (by simpa [Policy.declares, hfixed] using hdeclares henforced)
  | @several loc elems =>
    have hfree : π.Demands (π.frees (Surface.Expr.targets (.array loc elems))) := hdeclares
    refine Ctx.components_meets.gives.bind fun parts hparts => .skip fun _ =>
      (hbound.bindAll fun b hb => .of_free (hfree.free b.1 ?_) ?_).bind fun _ hout =>
        .pure ⟨hrhs.1.code.append hparts.1.obeys, hout⟩
    · exact (List.of_mem_zip hb).1
    · obtain ⟨part, hpart, hlevel⟩ := List.mem_map.1 (List.of_mem_zip hb).2
      rw [← hlevel]
      exact Trait.following_basic.part (hparts.2 part hpart) hrhs.1.value

theorem declsFrom (henv : env.Obeys π) {ds : List Surface.Decl}
    (hds : π.Demands (Surface.declsObey π ds)) : ∀ {bound : Bindings}, bound.Satisfies π.Holds →
      Gives (fun r => r.code.Obeys π ∧ r.value.Satisfies π.Holds)
        (ev.declsFrom ctx bound env ds) := by
  induction ds with
  | nil => exact fun hbound => .pure ⟨Code.obeys_nil, hbound⟩
  | cons d ds ih =>
    simp only [Surface.declsObey, Policy.demands_and] at hds
    exact fun hbound => (hev.decl hmode henv hds.1 hbound).bind fun _ hfirst =>
      (ih hds.2 hfirst.2).bind fun _ hrest => .pure ⟨hfirst.1.append hrest.1, hrest.2⟩

/-! ### Sequences and branches -/

theorem extend (henv : env.Obeys π) {code : Code} (hcode : code.Obeys π)
    (hrest : π.Demands (Surface.stmtsObey π rest)) :
    Gives (Lifted.Leaves π) (ev.extend ctx loc scope code env rest) :=
  Meets.bind (hev.body hmode (by exact henv) hrest) fun _ hnext => .pure (hnext.after hcode)

theorem continueWith {first : Lifted Outcome} (hfirst : first.Leaves π) (henv : scope.env.Obeys π)
    (hrest : π.Demands (Surface.stmtsObey π rest)) :
    Gives (Lifted.Leaves π) (ev.continueWith ctx loc scope first rest) := by
  unfold Evaluator.continueWith
  split
  · exact .pure hfirst
  · exact Meets.bind (hev.body hmode (by exact henv) (Surface.stmtsObey_dropEmpty π hrest))
      fun _ hnext => .pure ⟨hfirst.code.append hnext.code, hnext.env,
        List.forall_mem_append.2 ⟨hfirst.exits, hnext.exits⟩⟩

theorem branch (henv : scope.env.Obeys π) {cond : Surface.Expr} {onTrue : Surface.Stmt}
    {onFalse : Option Surface.Stmt} (hcond : π.Demands (cond.obeys π .operand))
    (hTrue : π.Demands (Surface.stmtsObey π [onTrue]))
    (hFalse : π.Demands (Surface.stmtsObey π onFalse.toList))
    (hrest : π.Demands (Surface.stmtsObey π rest)) :
    Gives (Lifted.Leaves π) (ev.branch ctx loc scope cond onTrue onFalse rest) := by
  refine (hev.operand hmode henv hcond).bind fun c hc => ?_
  have hinner : Bindings.Obeys π
      (if (Surface.dropEmpty rest).isEmpty then scope
        else { scope with style := .mayBeEmpty }).env := by
    split <;> exact henv
  have hcontinue : ∀ {first : Lifted Outcome}, first.Leaves π →
      Gives (Lifted.Leaves π) (ev.continueWith ctx loc scope first (Surface.dropEmpty rest)) :=
    fun hfirst => hev.continueWith hmode hfirst henv (Surface.stmtsObey_dropEmpty π hrest)
  split
  · split
    · exact (hev.body hmode hinner hTrue).bind fun _ htaken => hcontinue (htaken.after hc.code)
    · exact (hev.body hmode hinner hFalse).bind fun _ htaken => hcontinue (htaken.after hc.code)
  · exact (hev.body hmode hinner hTrue).bind fun t ht => (hev.body hmode hinner hFalse).bind
      fun f hf => hcontinue ⟨hc.code.append (.branch ht.code hf.code), henv,
        Exit.combine_forall .null (Exit.taint_forall ht.exits) (Exit.taint_forall hf.exits)⟩
  · exact .fail trivial

/-! ### Loops -/

theorem continueLoop (henv : scope.env.Obeys π) {assignLoc : Loc} {lhs rhs : Surface.Expr}
    (hobeys : π.Demands (rhs.obeys π .operand && π.declares lhs rhs)) :
    Gives (Lifted.Leaves π) (ev.continueLoop ctx loc scope assignLoc lhs rhs rest) :=
  .skip fun _ => (hev.decl hmode henv (by simpa only [Surface.Decl.obeys] using hobeys)
    .empty).bind fun _ hupdates => .skip fun _ => .skip fun _ =>
      .skip fun _ => .pure ⟨hupdates.1.append (.atom trivial rfl), henv, by simp⟩

theorem boolBlock (henv : env.Obeys π) {e : Surface.Expr} (he : π.Demands (e.obeys π .operand)) :
    Gives (fun block => Code.Obeys π block.code) (ev.boolBlock ctx loc env e) :=
  (hev.operand hmode henv he).bind fun _ hr => .skip fun _ => .pure hr.code

theorem loop (henv : scope.env.Obeys π) {decls : List Surface.Decl} {invariantLoc loopLoc : Loc}
    {invariant : List Surface.Expr} {cond : Surface.Expr} {body : Surface.Stmt}
    (hdecls : π.Demands (Surface.declsObey π decls))
    (hfree : π.Demands (π.frees (decls.flatMap (·.lhs.targets))))
    (hinvariant : π.Demands (Surface.exprsObey π invariant))
    (hcond : π.Demands (cond.obeys π .operand)) (hbody : π.Demands (Surface.stmtsObey π [body]))
    (hrest : π.Demands (Surface.stmtsObey π rest)) :
    Gives (Lifted.Leaves π)
      (ev.loop ctx loc scope decls invariantLoc invariant loopLoc cond body rest) := by
  refine .skip fun _ => ((hev.declsFrom hmode henv hdecls .empty).and
    Evaluator.declsFrom_binds).bind fun init hinit => Ctx.loopVars_names.bind fun vars hvars =>
        (henv.merge fun b hb => ?_).bind fun env henv => ?_
  · obtain ⟨var, hvar, rfl⟩ := List.mem_map.1 (Env.mem_ofList hb)
    refine .of_free (hfree.free var.1 ?_) .var
    have hnames := hvars.trans hinit.2
    rw [List.map_nil, List.nil_append] at hnames
    rw [← hnames]
    exact List.mem_map_of_mem hvar
  split
  · simp only [Surface.exprsObey, Bool.and_true] at hinvariant
    refine (hev.boolBlock hmode henv hinvariant).bind fun invariant hinvariantCode =>
      (hev.boolBlock hmode henv hcond).bind fun cond hcondCode =>
        Meets.bind (hev.body hmode (by exact henv) hbody) fun turn hturn =>
          Meets.bind (hev.body hmode (by exact henv) hrest) fun after hafter => ?_
    have hloop : Code.Obeys π [.loop loc (vars.map fun var => var.2) invariant cond turn.code] :=
      .single trivial (by simpa [Stmt.parts] using ⟨hinvariantCode, hcondCode, hturn.code⟩)
    exact .pure ⟨hinit.1.1.append (hloop.append hafter.code), hafter.env,
      List.forall_mem_append.2 ⟨hturn.exits, hafter.exits⟩⟩
  · exact .fail trivial

/-! ### Rounds -/

/-- The sender computes what is paid: by local code if it is calm, and as its value if it is
constant. -/
theorem payment (zeroLoc : Loc) {view : Bindings} {pay : Option Surface.Expr}
    (hview : view.Obeys π)
    (hpay : ∀ e, pay = some e → π.Demands (π.pays e && e.obeys π .operand)) :
    Gives (fun r => r.code.Obeys π ∧
        ((pay.getD (.int zeroLoc "0" 10)).calm = true → r.code.Local) ∧
        (π.enforced = true → ∀ n, (pay.getD (.int zeroLoc "0" 10)).constant? π.fixed = some n →
          r.value = .int n))
      (ev.payment ctx view pay) := by
  cases pay with
  | none =>
    refine .pure ⟨Code.obeys_nil, fun _ => Code.local_nil, fun _ n hconstant => ?_⟩
    simp only [Option.getD_none, Surface.Expr.constant?, Option.some.injEq] at hconstant
    rw [← hconstant]
    rfl
  | some e =>
    refine .of_yields fun hrun => ?_
    simp only [Evaluator.payment, yields_bind, SecValue.requirePublic_yields,
      Value.checkType_yields, yields_pure] at hrun
    obtain ⟨amount, _, hamount, value, _, ⟨hvalue, _⟩, arg, _, ⟨htyped, _⟩, rfl, _⟩ := hrun
    have hr := (hev.operand hmode hview (Policy.demands_and.1 (hpay e rfl)).2).result hamount
    refine ⟨hr.code, fun hcalm => (hev.predictable.calm hview.based hcalm).result hamount,
      fun henforced n hconstant => ?_⟩
    obtain ⟨_, at', hint⟩ :=
      (hev.predictable.constant (hview.fixed henforced) hconstant).result hamount
    obtain rfl : value = .int at' n := by simpa [Labelled.pub] using hvalue.symm.trans hint
    simpa [Value.typed?, eq_comm] using htyped

theorem deadline (henv : scope.env.Obeys π) {timeout : Option Timeout}
    (htimeout : ∀ t, timeout = some t →
      π.Demands (t.delay.obeys π .operand && t.handler.obeys π)) :
    Gives (fun r => r.code.Obeys π ∧ (∀ d, r.value.1 = some d → Code.Obeys π d.body) ∧
        ∀ exit ∈ r.value.2, exit.value.value.Obeys π)
      (ev.deadline ctx scope timeout) := by
  cases timeout with
  | none => exact .pure ⟨Code.obeys_nil, by simp [Lifted.plain], by simp [Lifted.plain]⟩
  | some t =>
    obtain ⟨hdelay, hhandler⟩ := Policy.demands_and.1 (htimeout t rfl)
    rw [Surface.Block.obeys_eq] at hhandler
    refine (hev.operand hmode henv hdelay).bind fun _ hr => .skip fun _ =>
      .skip fun _ => (hev.body hmode henv hhandler).bind fun _ hlate =>
        .pure ⟨hr.code, ?_, hlate.exits⟩
    rintro d ⟨⟩
    exact hlate.code

end

/-- The name that stands for the sender is bound to a participant, so it stands for no constant and
is no name of the base environment. -/
theorem withSender {shared : Bindings} {displayName : Option String} {address : Var}
    (hshared : shared.Obeys π) :
    Gives (fun sender => ∀ {env : Bindings}, env.Obeys π → Bindings.Obeys π (env.withSender sender))
      (joinedSender loc shared displayName address) := by
  cases displayName with
  | none => exact .pure fun henv => henv
  | some name =>
    refine .of_yields fun hrun env henv => ?_
    obtain ⟨level, tag, tag', party, hfind, rfl⟩ := joinedSender_find? hrun
    refine henv.set (hshared.based.not_mem_of_participant hfind)
      ⟨fun henforced n hfixed => ?_, .participant⟩
    obtain ⟨at', hint⟩ :=
      (hshared.holds _ (Bindings.mem_of_find? hfind)).fixes henforced n hfixed
    cases hint

/-- A round opens with the check of what is paid in it. -/
theorem takeRound (hev : (evaluator fuel).Obeys π) {parties : Parties} (hmode : ctx.mode.Obeys π)
    (hstep : ctx.mode = .step parties) (henv : scope.env.Obeys π) {before : Code} {roundLoc : Loc}
    {round : Round} (hbefore : before.Obeys π) (hround : round.Obeys π)
    (hrest : π.Demands (Surface.stmtsObey π rest)) :
    Gives (Lifted.Leaves π)
      ((evaluator fuel).takeRound ctx parties loc scope before roundLoc round rest) := by
  have hviews : ∀ e ∈ parties.views.entries, Bindings.Obeys π e.2 := by
    rw [hstep] at hmode
    exact hmode
  have hfree : ∀ name ∈ round.publish.getD [], π.Free name := by
    cases hpublish : round.publish with
    | none => simp
    | some names => exact hround.publish names hpublish
  refine Gives.orFail.bind fun view hview => (Bindings.Satisfies.messages (P := π.Holds)
    (fun name hname _ => .of_free (hfree name hname) .var) .empty).bind fun sent hsent =>
      .skip fun join => (withSender henv).bind fun sender hsender =>
        (henv.merge hsent).bind fun shared hshared => ?_
  have hshared := hsender hshared
  refine (OrderedMap.traverse_meets (Q := fun e => Bindings.Obeys π e.2) hviews
    fun who old hold => ?_).bind fun views hlearned => ?_
  · split
    · exact .pure (hsender hold)
    · exact (Bindings.Obeys.merge hold hsent).bind fun _ hreceived => .pure (hsender hreceived)
  -- the sender has a view, in which it computes what it pays
  have hsenderView : Bindings.Obeys π ((views.get? round.who).getD {}) :=
    OrderedMap.getD_of_keys_eq hlearned.2 hview hlearned.1
  refine (hev.payment hmode roundLoc hsenderView hround.pay).bind fun amount hamount => ?_
  have hpaid := hround.paid roundLoc
  have hpayCode : Code.Obeys π
      (if amount.code.isEmpty then [] else [.only loc round.who amount.code]) := by
    split
    · exact Code.obeys_nil
    · exact .single (fun henforced hseparate =>
        hamount.2.1 (Policy.calm_of_paid hseparate (hpaid henforced)))
        (by simpa [Stmt.parts] using hamount.1)
  -- consensus computes the amount again, in what everyone knows
  refine ((hev.operand hmode hshared (by
    simpa [amountCheck, Surface.Expr.obeys, Surface.exprsObey, Policy.takes] using
      hround.amount roundLoc)).and (.of_yields (evaluator_check hshared.based))).bind
      fun check hcheck => ?_
  obtain ⟨hcheck, first, operand, carried, agree, hcheckEq, hcalm, hconstant⟩ := hcheck
  refine (hev.deadline hmode henv hround.timeout).bind fun late hlate =>
    Meets.bind (Meets.and (hev.body (by exact hlearned.1) (by exact hshared) hrest)
      (.of_yields hev.phased.stmts)) fun next hnext => .pure ⟨?_, hnext.1.env,
        Exit.combine_forall .null hlate.2.2 hnext.1.exits⟩
  refine ((hbefore.append hlate.1).append hpayCode).append (.single ?_ fun code hcode => ?_)
  · refine ⟨_, first, next.code, operand, ⟨roundLoc, ctx.frames, carried, agree, ?_⟩,
      ⟨_, hnext.2⟩, hpaid, hcalm, fun henforced n hn => ?_⟩
    · rw [← hcheckEq]
    · obtain ⟨hnone, hoperand⟩ := hconstant _ n (hshared.fixed henforced) hn
      exact ⟨hnone, hoperand, hamount.2.2 henforced n hn⟩
  · simp only [Stmt.parts, List.mem_append, List.mem_map, Option.mem_toList,
      List.mem_singleton] at hcode
    rcases hcode with ⟨d, hd, rfl⟩ | rfl
    · exact hlate.2.1 d hd
    · exact hcheck.code.append hnext.1.code

theorem commitRound (hev : ev.Obeys π) {opened : Bindings} {parties : Parties}
    (hmode : ctx.mode.Obeys π) (hconsensus : ctx.mode = .consensus opened parties)
    (henv : scope.env.Obeys π) {before : Code} (hbefore : before.Obeys π)
    (hrest : π.Demands (Surface.stmtsObey π rest)) :
    Gives (Lifted.Leaves π) (ev.commitRound ctx opened parties loc scope before rest) := by
  have hviews : ∀ e ∈ parties.views.entries, Bindings.Obeys π e.2 := by
    rw [hconsensus] at hmode
    exact hmode
  refine (OrderedMap.traverse_meets (Q := fun e => Bindings.Obeys π e.2) hviews fun _ _ hold =>
    Bindings.Obeys.merge hold fun b hb => henv.holds b (List.mem_filter.1 hb).1).bind
      fun views hviews => ?_
  refine Meets.bind (hev.body (by exact hviews.1) henv hrest) fun _ hnext =>
    .pure ⟨hbefore.append (.single trivial ?_), hnext.env, hnext.exits⟩
  simpa [Stmt.parts] using hnext.code

/-! ### Statements -/

/-- An expression as a statement: a private computation that is done, a round, a commit, an exit, or
something worth null. -/
theorem exprStmt (hev : (evaluator fuel).Obeys π) (hmode : ctx.mode.Obeys π)
    (henv : scope.env.Obeys π) {e : Surface.Expr} (he : π.Demands (e.obeys π .statement))
    (hrest : π.Demands (Surface.stmtsObey π rest)) :
    Gives (Lifted.Leaves π) ((evaluator fuel).exprStmt ctx loc scope e rest) := by
  refine Meets.bind (.of_yields fun hrun => hev.expr hrun hmode henv he) fun v hobeys => ?_
  have hcode : v.code.Obeys π := by
    cases hobeys with
    | plain hcode => exact hcode
    | stage _ hcode => exact hcode
    | only _ hlocal | onlyDone _ hlocal => exact hlocal.obeys
  split
  · exact .skip fun _ => .pure ⟨hcode, henv, by simp⟩
  · rename_i parties formLoc tag who view result hstep hdone
    obtain ⟨hlocal, hview⟩ : (π.enforced = true → π.separate = true → v.code.Local) ∧
        Bindings.Obeys π view := by
      cases hobeys with
      | plain _ hvalue =>
        rw [hdone] at hvalue
        cases hvalue with
        | onlyDone hfree hbased hfixes hvalues =>
          refine ⟨fun henforced hseparate => ?_, hbased, fun b hb => ⟨hfixes b hb, hvalues b hb⟩⟩
          simp [hfree henforced] at hseparate
      | onlyDone _ hlocal hview hvalue =>
        obtain ⟨-, -, ⟨-, rfl, -⟩⟩ : _ ∧ _ ∧ _ ∧ view = _ ∧ _ := by
          simpa using hdone.symm.trans hvalue
        exact ⟨fun _ _ => hlocal, hview⟩
      | stage hposition => rcases hposition with h | h <;> cases h
      | only hposition => cases hposition
    rw [hstep] at hmode
    have hmode' : Mode.Obeys π (.step { parties with views := parties.views.insert who view }) :=
      OrderedMap.forall_mem_insert hview hmode
    exact .skip fun _ => Meets.bind (hev.body (by exact hmode') henv hrest)
      fun _ hnext => .pure (hnext.after (.single hlocal (by simpa [Stmt.parts] using hcode)))
  · rename_i parties roundLoc tag round hstep hform
    split
    · have hround : round.Obeys π := by
        cases hobeys with
        | plain _ hvalue =>
          rw [hform] at hvalue
          cases hvalue with
          | round _ hround => exact hround
        | stage hposition => rcases hposition with h | h <;> cases h
        | only hposition => cases hposition
        | onlyDone _ _ _ hvalue => cases hform.symm.trans hvalue
      exact hev.takeRound hmode hstep henv hcode hround hrest
    · exact .fail trivial
  · rename_i opened parties _ hconsensus _
    exact hev.commitRound hmode hconsensus henv hcode hrest
  · exact .skip fun _ => hev.extend hmode henv hcode hrest

theorem ret (hev : ev.Obeys π) (hmode : ctx.mode.Obeys π) (henv : scope.env.Obeys π)
    {value : Option Surface.Expr} (hvalue : π.Demands ((Surface.Stmt.ret loc value).obeys π)) :
    Gives (Lifted.Leaves π) (ev.ret ctx loc scope value rest) := by
  refine Evaluator.ret_meets (P := Lifted.Follows π) (fun _ _ => trivial) ?_ ⟨Code.obeys_nil, .null⟩
    fun r _ hr => ⟨hr.code.append (.atom trivial rfl), henv, List.forall_mem_singleton.2 hr.value⟩
  rintro e rfl
  rw [Surface.Stmt.obeys] at hvalue
  exact hev.operand hmode henv hvalue

theorem stmtsObey_single {stmt : Surface.Stmt} (h : π.Demands (stmt.obeys π)) :
    π.Demands (Surface.stmtsObey π [stmt]) := by
  simpa only [Surface.stmtsObey, Bool.and_true] using h

theorem evalStmts (hev : (evaluator fuel).Obeys π) (hmode : ctx.mode.Obeys π)
    (henv : scope.env.Obeys π) {stmts : List Surface.Stmt}
    (hobeys : π.Demands (Surface.stmtsObey π stmts)) :
    Gives (Lifted.Leaves π) ((evaluator fuel).evalStmts ctx loc scope stmts) := by
  unfold Evaluator.evalStmts
  split
  · refine .pure ⟨Code.obeys_nil, henv, ?_⟩
    simp only [Lifted.plain]
    split
    · exact List.forall_mem_singleton.2 .null
    · simp
  all_goals simp only [Surface.stmtsObey, Policy.demands_and] at hobeys
  · obtain ⟨hbody, hrest⟩ := hobeys
    rw [Surface.Stmt.obeys, Surface.Block.obeys_eq] at hbody
    exact (hev.body hmode henv hbody).bind fun _ hfirst =>
      hev.continueWith hmode hfirst henv hrest
  · rw [Surface.Stmt.obeys] at hobeys
    exact (hev.declsFrom hmode henv hobeys.1 .empty).bind fun _ hbound =>
      (henv.merge hbound.2).bind fun _ hall => hev.extend hmode hall hbound.1 hobeys.2
  · exact hev.continueLoop hmode henv
      (by simp [Surface.Expr.obeys, Surface.exprsObey, Policy.Demands, Policy.declares,
        Policy.frees, Surface.Expr.targets])
  · refine Gives.orFail.bind fun name hname => .skip fun tag =>
      Meets.bind (henv.bind ?_) fun _ hall => hev.extend hmode hall Code.obeys_nil hobeys.2
    rw [hname] at hobeys
    simp only [Surface.Stmt.obeys, Policy.demands_and] at hobeys
    have hfree := hobeys.1.1.free
    refine .of_free (hfree name (by simp)) ?_
    exact henv.closure hobeys.1.2 fun formal hformal => hfree formal (by simp [hformal])
  · rename_i stmtLoc cond onTrue onFalse rest
    obtain ⟨hparts, hrest⟩ := hobeys
    obtain ⟨hcond, hTrue, hFalse⟩ : π.Demands (cond.obeys π .operand) ∧
        π.Demands (onTrue.obeys π) ∧ π.Demands (Surface.stmtsObey π onFalse.toList) := by
      cases onFalse with
      | none =>
        simp only [Surface.Stmt.obeys, Policy.demands_and] at hparts
        exact ⟨hparts.1, hparts.2, by simp [Surface.stmtsObey, Policy.Demands]⟩
      | some f =>
        simp only [Surface.Stmt.obeys, Policy.demands_and] at hparts
        exact ⟨hparts.1.1, hparts.1.2, stmtsObey_single hparts.2⟩
    exact hev.branch hmode henv hcond (stmtsObey_single hTrue) hFalse hrest
  · exact hev.body hmode henv hobeys.2
  · rw [Surface.Stmt.obeys] at hobeys
    exact hev.exprStmt hmode henv hobeys.1 hobeys.2
  · rw [Surface.Stmt.obeys] at hobeys
    refine hev.exprStmt hmode henv ?_ hobeys.2
    simpa only [Surface.Expr.obeys, Position.ofCallee] using hobeys.1
  · rw [Surface.Stmt.obeys] at hobeys
    exact hev.continueLoop hmode henv hobeys.1
  · exact .fail trivial
  · exact hev.ret hmode henv hobeys.1
  · simp only [Surface.Stmt.obeys, Policy.demands_and] at hobeys
    obtain ⟨⟨hdecls, hfree⟩, ⟨_, hinvariant⟩, ⟨hcond, hbody⟩, hrest⟩ := hobeys
    exact hev.loop hmode henv hdecls hfree hinvariant hcond (stmtsObey_single hbody) hrest
  all_goals exact .fail trivial

end Evaluator.Obeys

/-- Evaluation of every depth follows the policy. -/
theorem evaluator_obeys (π : Policy) (fuel : Nat) : (evaluator fuel).Obeys π := by
  induction fuel with
  | zero =>
    exact ⟨evaluator_predictable 0, evaluator_phased 0, fun hrun => absurd hrun yields_outOfFuel,
      fun hrun => absurd hrun yields_outOfFuel⟩
  | succ fuel ih =>
    exact ⟨evaluator_predictable _, evaluator_phased _,
      fun hrun hmode henv he => (ih.evalExpr hmode henv he).result hrun,
      fun hrun hmode henv hobeys => (ih.evalStmts hmode henv hobeys).result hrun⟩

end Choreography
