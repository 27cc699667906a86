import Choreography.Proofs.StagedExpressions

/-!
Statements of staged programs, and evaluation of every depth. A statement that acts takes what
follows it into the code that it emits, or is the last of its list; and nothing follows a block or a
conditional in which the protocol may move on. So the code that is emitted is tidy.
-/

namespace Choreography

open Eval Ir

variable {strict : Bool} {S : List String} {loc : Loc} {ctx : Ctx} {env : Bindings} {ev : Evaluator}
  {scope : Scope} {rest : List Surface.Stmt}

/-! ### What statements leave behind -/

namespace Lifted.Ended

variable {still still' : Bool} {r next : Lifted Outcome} {code : Code}

/-- Less is known when the statements may move the protocol on. -/
theorem weaken (h : r.Ended strict S still)
    (hstill : strict = true → still' = true → still = true) : r.Ended strict S still' :=
  ⟨h.code, fun hstrict hcalm => h.calm hstrict (hstill hstrict hcalm), h.env, h.exits⟩

theorem of_quiet (hcode : r.code.Quiet strict S) (henv : r.value.env.Plain strict S)
    (hexits : ∀ e ∈ r.value.exits, e.value.value.Plain strict S) : r.Ended strict S still :=
  ⟨hcode.tidy, fun hstrict _ => hcode.calm hstrict, henv, hexits⟩

/-- Code in which the protocol does not move on is quiet. -/
theorem quiet (h : r.Ended strict S still) (hstill : strict = true → still = true) :
    r.code.Quiet strict S :=
  ⟨h.code.kept, fun hstrict => h.calm hstrict (hstill hstrict)⟩

theorem after (h : next.Ended strict S still) (hcode : code.Quiet strict S) :
    (next.after code).Ended strict S still := by
  refine ⟨hcode.append_tidy h.code, fun hstrict hcalm st hst => ?_, h.env, h.exits⟩
  exact (List.mem_append.1 hst).elim (hcode.calm hstrict st) (h.calm hstrict hcalm st)

end Lifted.Ended

namespace Evaluator.Staged

section

variable (hev : ev.Staged strict) (hmode : ctx.mode.Plain strict S)

include hev hmode

/-! ### Declarations -/

theorem decl (henv : env.Plain strict S) {bound : Bindings} {d : Surface.Decl}
    (hd : d.staged strict = true) (hbound : bound.Plain strict S) :
    Gives (fun r => r.code.Quiet strict S ∧ r.value.Plain strict S) (ev.decl ctx bound env d) := by
  refine Gives.orFail.bind fun e hinit => .skip fun target => ?_
  have he : e.staged strict false = true := by
    obtain ⟨_, _, init⟩ := d
    obtain rfl : init = some e := hinit
    simpa only [Surface.Decl.staged] using hd
  refine Meets.bind (hev.operand (by exact hmode) henv he) fun rhs hrhs => ?_
  cases target with
  | single n => exact (hbound.bind hrhs.value).bind fun _ hout => .pure ⟨hrhs.code, hout⟩
  | several ns =>
    refine Ctx.components_meets.gives.bind fun parts hparts => .skip fun _ =>
      (hbound.bindAll fun b hb _ => ?_).bind fun _ hout =>
        .pure ⟨hrhs.code.append hparts.1.quiet, hout⟩
    obtain ⟨part, hpart, hlevel⟩ := List.mem_map.1 (List.of_mem_zip hb).2
    rw [← hlevel]
    exact Trait.settled_basic.part (hparts.2 part hpart) hrhs.value

theorem declsFrom (henv : env.Plain strict S) {ds : List Surface.Decl}
    (hds : Surface.declsStaged strict ds = true) : ∀ {bound : Bindings}, bound.Plain strict S →
      Gives (fun r => r.code.Quiet strict S ∧ r.value.Plain strict S)
        (ev.declsFrom ctx bound env ds) := by
  induction ds with
  | nil => exact fun hbound => .pure ⟨.nil, hbound⟩
  | cons d ds ih =>
    simp only [Surface.declsStaged, Bool.and_eq_true] at hds
    exact fun hbound => (hev.decl hmode henv hds.1 hbound).bind fun _ hfirst =>
      (ih hds.2 hfirst.2).bind fun _ hrest => .pure ⟨hfirst.1.append hrest.1, hrest.2⟩

/-! ### Sequences and branches -/

theorem extend (henv : env.Plain strict S) {code : Code} (hcode : code.Quiet strict S)
    (hrest : Surface.stmtsStaged strict rest = true) :
    Gives (Lifted.Ended strict S (Surface.stmtsStill rest))
      (ev.extend ctx loc scope code env rest) :=
  Meets.bind (hev.body hmode (by exact henv) hrest) fun _ hnext => .pure (hnext.after hcode)

/-- Statements may follow those in which the protocol does not move on. -/
theorem continueWith {still : Bool} {first : Lifted Outcome} (hfirst : first.Ended strict S still)
    (henv : scope.env.Plain strict S) (hrest : Surface.stmtsStaged strict rest = true)
    (hfollow : strict = true → Surface.dropEmpty rest ≠ [] → still = true) :
    Gives (Lifted.Ended strict S (still && Surface.stmtsStill rest))
      (ev.continueWith ctx loc scope first rest) := by
  unfold Evaluator.continueWith
  split
  · exact .pure (hfirst.weaken fun _ hstill => (Bool.and_eq_true_iff.1 hstill).1)
  · rename_i hsome
    refine Meets.bind (hev.body hmode (by exact henv) (by rwa [Surface.stmtsStaged_dropEmpty]))
      fun next hnext => ?_
    rw [Surface.stmtsStill_dropEmpty] at hnext
    have hquiet : first.code.Quiet strict S := hfirst.quiet fun hstrict => hfollow hstrict hsome
    have hboth : strict = true → (still && Surface.stmtsStill rest) = true →
        Surface.stmtsStill rest = true := fun _ hstill => (Bool.and_eq_true_iff.1 hstill).2
    have hended := (hnext.after hquiet).weaken hboth
    exact .pure ⟨hended.code, hended.calm, hended.env,
      List.forall_mem_append.2 ⟨hfirst.exits, hended.exits⟩⟩

theorem branch (henv : scope.env.Plain strict S) {cond : Surface.Expr} {onTrue : Surface.Stmt}
    {onFalse : Option Surface.Stmt} (hcond : cond.staged strict false = true)
    (hTrue : Surface.stmtsStaged strict [onTrue] = true)
    (hFalse : Surface.stmtsStaged strict onFalse.toList = true)
    (hrest : Surface.stmtsStaged strict rest = true)
    (hfollow : strict = true → Surface.dropEmpty rest ≠ [] →
      Surface.stmtsStill (onTrue :: onFalse.toList) = true) :
    Gives (Lifted.Ended strict S
        (Surface.stmtsStill (onTrue :: onFalse.toList) && Surface.stmtsStill rest))
      (ev.branch ctx loc scope cond onTrue onFalse rest) := by
  have hstill : Surface.stmtsStill (onTrue :: onFalse.toList) = true →
      Surface.stmtsStill [onTrue] = true ∧ Surface.stmtsStill onFalse.toList = true := by
    simp [Surface.stmtsStill]
  refine (hev.operand hmode henv hcond).bind fun c hc => ?_
  have hinner : Bindings.Plain strict S
      (if (Surface.dropEmpty rest).isEmpty then scope
        else { scope with style := .mayBeEmpty }).env := by
    split <;> exact henv
  -- either way, the rest goes on after the conditional
  have hcontinue : ∀ {first : Lifted Outcome},
      first.Ended strict S (Surface.stmtsStill (onTrue :: onFalse.toList)) →
      Gives (Lifted.Ended strict S
          (Surface.stmtsStill (onTrue :: onFalse.toList) && Surface.stmtsStill rest))
        (ev.continueWith ctx loc scope first (Surface.dropEmpty rest)) := by
    intro first hfirst
    rw [← Surface.stmtsStill_dropEmpty rest]
    refine hev.continueWith hmode hfirst henv (by rwa [Surface.stmtsStaged_dropEmpty]) ?_
    rwa [Surface.dropEmpty_dropEmpty]
  split
  · split
    · exact (hev.body hmode hinner hTrue).bind fun _ htaken =>
        hcontinue ((htaken.weaken fun _ hboth => (hstill hboth).1).after hc.code)
    · exact (hev.body hmode hinner hFalse).bind fun _ htaken =>
        hcontinue ((htaken.weaken fun _ hboth => (hstill hboth).2).after hc.code)
  · refine (hev.body hmode hinner hTrue).bind fun t ht =>
      (hev.body hmode hinner hFalse).bind fun f hf =>
        hcontinue (.of_quiet (hc.code.append (.single (.branch ht.code hf.code) rfl)) henv ?_)
    exact Exit.combine_forall .null (Exit.taint_forall ht.exits) (Exit.taint_forall hf.exits)
  · exact .fail trivial

/-! ### Loops -/

theorem continueLoop (henv : scope.env.Plain strict S) {assignLoc : Loc} {lhs rhs : Surface.Expr}
    (hrhs : rhs.staged strict false = true) :
    Gives (Lifted.Ended strict S false) (ev.continueLoop ctx loc scope assignLoc lhs rhs rest) :=
  .skip fun _ => (hev.decl hmode henv (by simpa only [Surface.Decl.staged] using hrhs)
    Bindings.plain_empty).bind fun _ hupdates => .skip fun _ => .skip fun _ =>
      .skip fun _ =>
        .pure ⟨hupdates.1.append_tidy (.single (.atom rfl rfl)), by simp, henv, by simp⟩

theorem boolBlock (henv : env.Plain strict S) {e : Surface.Expr}
    (he : e.staged strict false = true) :
    Gives (fun block => Code.Tidy strict S block.code) (ev.boolBlock ctx loc env e) :=
  (hev.operand hmode henv he).bind fun _ hr => .skip fun _ => .pure hr.code.tidy

theorem loop (henv : scope.env.Plain strict S) {decls : List Surface.Decl}
    {invariantLoc loopLoc : Loc} {invariant : List Surface.Expr} {cond : Surface.Expr}
    {body : Surface.Stmt} (hdecls : Surface.declsStaged strict decls = true)
    (hinvariant : Surface.exprsStaged strict invariant = true)
    (hcond : cond.staged strict false = true) (hbody : Surface.stmtsStaged strict [body] = true)
    (hrest : Surface.stmtsStaged strict rest = true) :
    Gives (Lifted.Ended strict S (Surface.stmtsStill rest))
      (ev.loop ctx loc scope decls invariantLoc invariant loopLoc cond body rest) := by
  refine .skip fun _ => (hev.declsFrom hmode henv hdecls Bindings.plain_empty).bind
    fun init hinit => .skip fun vars => (henv.merge fun b hb _ => ?_).bind
      fun env henv => ?_
  · obtain ⟨⟨name, v, arg⟩, _, rfl⟩ := List.mem_map.1 (Env.mem_ofList hb)
    exact .var
  split
  · simp only [Surface.exprsStaged, Bool.and_true] at hinvariant
    refine (hev.boolBlock hmode henv hinvariant).bind fun invariant hinvariantCode =>
      (hev.boolBlock hmode henv hcond).bind fun cond hcondCode =>
        Meets.bind (hev.body hmode (by exact henv) hbody) fun turn hturn =>
          Meets.bind (hev.body hmode (by exact henv) hrest) fun after hafter => ?_
    have hloop : Code.Quiet strict S
        [.loop loc (vars.map fun var => var.2) invariant cond turn.code] :=
      .single (.loop hinvariantCode hcondCode hturn.code) rfl
    have hended := (hafter.after hloop).after hinit.1
    exact .pure ⟨hended.code, hended.calm, hended.env,
      List.forall_mem_append.2 ⟨hturn.exits, hafter.exits⟩⟩
  · exact .fail trivial

/-! ### Rounds -/

theorem payment {view : Bindings} {pay : Option Surface.Expr} (hview : view.Plain strict S)
    (hpay : ∀ e, pay = some e → e.staged strict false = true) :
    Gives (fun r => r.code.Quiet strict S) (ev.payment ctx view pay) := by
  cases pay with
  | none => exact .pure .nil
  | some e =>
    exact (hev.operand hmode hview (hpay e rfl)).bind fun _ hamount => .skip fun _ =>
      .skip fun _ => .pure hamount.code

theorem deadline (henv : scope.env.Plain strict S) {timeout : Option Timeout}
    (htimeout : ∀ t, timeout = some t →
      t.delay.staged strict false = true ∧ t.handler.staged strict = true) :
    Gives (fun r => r.code.Quiet strict S ∧ (∀ d, r.value.1 = some d → Code.Tidy strict S d.body) ∧
        ∀ e ∈ r.value.2, e.value.value.Plain strict S)
      (ev.deadline ctx scope timeout) := by
  cases timeout with
  | none => exact .pure ⟨.nil, by simp [Lifted.plain], by simp [Lifted.plain]⟩
  | some t =>
    obtain ⟨hdelay, hhandler⟩ := htimeout t rfl
    rw [Surface.Block.staged_eq] at hhandler
    refine (hev.operand hmode henv hdelay).bind fun _ hr => .skip fun _ =>
      .skip fun _ => (hev.body hmode henv hhandler).bind fun _ hlate =>
        .pure ⟨hr.code, ?_, hlate.exits⟩
    rintro d ⟨⟩
    exact hlate.code

end

theorem joinedSender (strict : Bool) {displayName : Option String} {address : Var} :
    Gives (fun sender => ∀ {T : List String} {env : Bindings}, env.Plain strict T →
        Bindings.Plain strict T (env.withSender sender))
      (Choreography.joinedSender loc env displayName address) := by
  cases displayName with
  | none => exact .pure fun henv => henv
  | some name =>
    refine .skip fun _ => ?_
    split
    · exact .skip fun _ => .pure fun henv => henv.set .participant
    · exact .fail trivial

theorem amountCheck_staged {pay : Option Surface.Expr}
    (hpay : ∀ e, pay = some e → e.staged strict false = true) :
    (amountCheck loc (pay.getD (.int loc "0" 10))).staged strict false = true := by
  have hamount : (pay.getD (.int loc "0" 10)).staged strict false = true := by
    cases pay with
    | none => simp [Surface.Expr.staged]
    | some e => exact hpay e rfl
  cases strict <;>
    simp [amountCheck, Surface.Expr.staged, Surface.exprsStaged, Surface.actingNames, hamount]

/-- A round takes what follows it into its body. -/
theorem takeRound (hev : ev.Staged strict) {parties : Parties} (hmode : ctx.mode.Plain strict S)
    (hstep : ctx.mode = .step parties) (henv : scope.env.Plain strict S) {still : Bool}
    {before : Code} {roundLoc : Loc} {round : Round} (hbefore : before.Quiet strict S)
    (hround : round.Staged strict) (hrest : Surface.stmtsStaged strict rest = true)
    (hmoves : strict = true → still = false) :
    Gives (Lifted.Ended strict S still)
      (ev.takeRound ctx parties loc scope before roundLoc round rest) := by
  have hviews : ∀ e ∈ parties.views.entries, Bindings.Plain strict (e.1 :: S) e.2 := by
    rw [hstep] at hmode
    exact hmode
  have hsub : ∀ who, S ⊆ who :: S := fun _ => List.subset_cons_self _ _
  refine .skip fun _ => (Bindings.Satisfies.messages
    (P := fun b => ¬ Acts strict b → b.2.value.Plain strict S) (fun _ _ _ _ => .var) .empty).bind
    fun sent hsent => .skip fun join => (joinedSender strict).bind fun sender hsender =>
      (henv.merge hsent).bind fun shared hshared => ?_
  have hshared := hsender hshared
  refine (OrderedMap.traverse_meets (Q := fun e => Bindings.Plain strict (e.1 :: S) e.2) hviews
    fun who old hold => ?_).bind fun views hlearned => ?_
  · split
    · exact .pure (hsender hold)
    · exact (hold.merge (Bindings.Plain.mono hsent (hsub who))).bind fun _ hreceived =>
        .pure (hsender hreceived)
  have hsenderView : Bindings.Plain strict (round.who :: S) ((views.get? round.who).getD {}) := by
    cases hget : views.get? round.who with
    | none => exact Bindings.plain_empty
    | some senderView => exact hlearned.1 _ (OrderedMap.mem_of_get? hget)
  -- the sender's payment is computed in the sender's own code
  refine (hev.payment (hmode.mono (hsub _)) hsenderView hround.pay).bind fun amount hpay => ?_
  have hpayCode : Code.Quiet strict S
      (if amount.code.isEmpty then [] else [.only loc round.who amount.code]) := by
    split
    · exact .nil
    · exact .single (.only hpay.tidy) rfl
  refine (hev.operand hmode hshared (amountCheck_staged hround.pay)).bind fun _ hcheck =>
    (hev.deadline hmode henv hround.timeout).bind fun _ hlate =>
      Meets.bind (hev.body (by exact hlearned.1) (by exact hshared) hrest) fun _ hnext =>
        .pure ⟨?_, fun hstrict hstill => ?_, hnext.env,
          Exit.combine_forall .null hlate.2.2 hnext.exits⟩
  · exact ((hbefore.append hlate.1).append hpayCode).append_tidy
      (.single (.toConsensus hlate.2.1 (hcheck.code.append_tidy hnext.code)))
  · rw [hmoves hstrict] at hstill
    cases hstill

/-- A commit takes what follows it along. -/
theorem commitRound (hev : ev.Staged strict) {opened : Bindings} {parties : Parties}
    (hmode : ctx.mode.Plain strict S) (hconsensus : ctx.mode = .consensus opened parties)
    (henv : scope.env.Plain strict S) {still : Bool} {before : Code}
    (hbefore : before.Quiet strict S) (hrest : Surface.stmtsStaged strict rest = true)
    (hmoves : strict = true → still = false) :
    Gives (Lifted.Ended strict S still)
      (ev.commitRound ctx opened parties loc scope before rest) := by
  have hviews : ∀ e ∈ parties.views.entries, Bindings.Plain strict (e.1 :: S) e.2 := by
    rw [hconsensus] at hmode
    exact hmode
  refine (OrderedMap.traverse_meets (Q := fun e => Bindings.Plain strict (e.1 :: S) e.2) hviews
    fun who old hold => ?_).bind fun views hviews => ?_
  · exact Bindings.Plain.merge hold ((henv.difference opened).mono (List.subset_cons_self _ _))
  refine Meets.bind (hev.body (by exact hviews.1) henv hrest) fun _ hnext =>
    .pure ⟨hbefore.append_tidy (.single (.fromConsensus hnext.code)), fun hstrict hstill => ?_,
      hnext.env, hnext.exits⟩
  rw [hmoves hstrict] at hstill
  cases hstill

end Evaluator.Staged

/-! ### Expressions as statements -/

namespace Lifted.Acted

variable {moves : Bool} {r : Lifted SecValue} {tag : Tag}

theorem of_exited (h : r.Acted strict S moves) (hvalue : r.value.value = .prim loc .exited) :
    r.code.Tidy strict S ∧ (strict = true → moves = true) := by
  cases h with
  | settled h =>
    have hplain := h.value
    rw [hvalue] at hplain
    cases hplain with
    | prim hfree => exact ⟨h.code.tidy, fun hstrict => by simp [Prim.Plain, hstrict] at hfree⟩
  | exited hmoves hbefore hcode _ =>
    rw [hcode]
    exact ⟨hbefore.append_tidy (.single (.atom rfl rfl)), fun _ => hmoves⟩
  | ending _ _ hp hother =>
    rw [hother] at hvalue
    rcases hp with rfl | rfl | rfl <;> cases hvalue
  | only _ hother | onlyDone _ _ hother | round _ _ _ hother =>
    rw [hother] at hvalue
    cases hvalue

theorem of_onlyDone {who : String} {view : Bindings} {result : SecValue}
    (h : r.Acted strict S moves)
    (hvalue : r.value.value = .form loc tag (.onlyDone who view result)) :
    r.code.Quiet strict (who :: S) ∧ view.Plain strict (who :: S) := by
  cases h with
  | settled h =>
    have hplain := h.value
    rw [hvalue] at hplain
    cases hplain
  | onlyDone hcode hview hother =>
    rw [hother] at hvalue
    cases hvalue
    exact ⟨hcode, hview⟩
  | only _ hother | round _ _ _ hother | ending _ _ _ hother | exited _ _ _ hother =>
    rw [hother] at hvalue
    cases hvalue

theorem of_round {round : Round} (h : r.Acted strict S moves)
    (hvalue : r.value.value = .form loc tag (.round round)) :
    r.code.Quiet strict S ∧ round.Staged strict ∧ (strict = true → moves = true) := by
  cases h with
  | settled h =>
    have hplain := h.value
    rw [hvalue] at hplain
    cases hplain with
    | round hfree hround => exact ⟨h.code, hround, fun hstrict => by simp [hfree] at hstrict⟩
  | round hmoves hcode hround hother =>
    rw [hother] at hvalue
    cases hvalue
    exact ⟨hcode, hround, fun _ => hmoves⟩
  | only _ hother | onlyDone _ _ hother | ending _ _ _ hother | exited _ _ _ hother =>
    rw [hother] at hvalue
    cases hvalue

theorem of_committed (h : r.Acted strict S moves) (hvalue : r.value.value = .prim loc .committed) :
    r.code.Quiet strict S ∧ (strict = true → moves = true) := by
  cases h with
  | settled h =>
    have hplain := h.value
    rw [hvalue] at hplain
    cases hplain with
    | prim hfree => exact ⟨h.code, fun hstrict => by simp [Prim.Plain, hstrict] at hfree⟩
  | ending hmoves hcode _ _ => exact ⟨hcode, fun _ => hmoves⟩
  | only _ hother | onlyDone _ _ hother | round _ _ _ hother | exited _ _ _ hother =>
    rw [hother] at hvalue
    cases hvalue

/-- What is null does not act. -/
theorem of_null (h : r.Acted strict S moves) :
    Gives (fun _ => r.code.Quiet strict S) (r.value.value.expectNull loc) := by
  cases h with
  | settled h => exact Gives.any.imp fun _ _ => h.code
  | only hcode _ | round _ hcode _ _ | ending _ hcode _ _ => exact Gives.any.imp fun _ _ => hcode
  | onlyDone _ _ hvalue | exited _ _ _ hvalue =>
    rw [hvalue]
    exact .fail trivial

end Lifted.Acted

namespace Evaluator.Staged

variable (hev : ev.Staged strict) (hmode : ctx.mode.Plain strict S)
  (henv : scope.env.Plain strict S)

include hev hmode henv

theorem exprStmt {e : Surface.Expr} (he : e.staged strict true = true)
    (hrest : Surface.stmtsStaged strict rest = true) :
    Gives (Lifted.Ended strict S (!e.moves && Surface.stmtsStill rest))
      (ev.exprStmt ctx loc scope e rest) := by
  have hnever : (strict = true → e.moves = true) →
      strict = true → (!e.moves && Surface.stmtsStill rest) = false := by
    intro hmoves hstrict
    simp [hmoves hstrict]
  have hgoesOn : strict = true → (!e.moves && Surface.stmtsStill rest) = true →
      Surface.stmtsStill rest = true := fun _ hstill => (Bool.and_eq_true_iff.1 hstill).2
  refine Meets.bind (P := Lifted.Acted strict S e.moves)
    (.of_yields fun hrun => hev.acting hrun hmode henv he) fun v hacted => ?_
  split
  · rename_i hexited
    obtain ⟨hcode, hmoves⟩ := hacted.of_exited hexited
    refine .skip fun _ => .pure ⟨hcode, fun hstrict hstill => ?_, henv, by simp⟩
    rw [hnever hmoves hstrict] at hstill
    cases hstill
  · rename_i parties formLoc tag who view result hstep hdone
    obtain ⟨hcode, hview⟩ := hacted.of_onlyDone hdone
    rw [hstep] at hmode
    have hmode' : Mode.Plain strict S (.step { parties with views := parties.views.insert who view }) :=
      OrderedMap.forall_mem_insert hview hmode
    exact .skip fun _ => Meets.bind (hev.body (by exact hmode') henv hrest)
      fun _ hnext => .pure ((hnext.after (.single (.only hcode.tidy) rfl)).weaken hgoesOn)
  · rename_i parties roundLoc tag round hstep hround
    split
    · obtain ⟨hcode, hstaged, hmoves⟩ := hacted.of_round hround
      exact hev.takeRound hmode hstep henv hcode hstaged hrest (hnever hmoves)
    · exact .fail trivial
  · rename_i opened parties _ hconsensus hcommitted
    obtain ⟨hcode, hmoves⟩ := hacted.of_committed hcommitted
    exact hev.commitRound hmode hconsensus henv hcode hrest (hnever hmoves)
  · exact hacted.of_null.bind fun _ hcode =>
      (hev.extend hmode henv hcode hrest).imp fun _ hended => hended.weaken hgoesOn

/-! ### Statements -/

theorem ret {still : Bool} {value : Option Surface.Expr}
    (hvalue : (Surface.Stmt.ret loc value).staged strict = true) :
    Gives (Lifted.Ended strict S still) (ev.ret ctx loc scope value rest) := by
  refine Evaluator.ret_meets (P := Lifted.Settled strict S) (fun _ _ => trivial) ?_ ⟨.nil, .null⟩
    fun r _ hr => .of_quiet (hr.code.append (.single (.atom rfl rfl) rfl)) henv
      (List.forall_mem_singleton.2 hr.value)
  rintro e rfl
  rw [Surface.Stmt.staged] at hvalue
  exact hev.operand hmode henv hvalue

omit hev hmode henv in
theorem stmtsStaged_single {stmt : Surface.Stmt} (h : stmt.staged strict = true) :
    Surface.stmtsStaged strict [stmt] = true := by
  simp [Surface.stmtsStaged, Surface.Stmt.followable, Surface.dropEmpty, h]

theorem evalStmts {stmts : List Surface.Stmt} (hstaged : Surface.stmtsStaged strict stmts = true) :
    Gives (Lifted.Ended strict S (Surface.stmtsStill stmts)) (ev.evalStmts ctx loc scope stmts) := by
  unfold Evaluator.evalStmts
  split
  · refine .pure (.of_quiet .nil henv ?_)
    simp only [Lifted.plain]
    split
    · exact List.forall_mem_singleton.2 .null
    · simp
  all_goals
    simp only [Surface.stmtsStaged, Bool.and_eq_true] at hstaged
    simp only [Surface.stmtsStill]
  · obtain ⟨⟨hbody, hfollow⟩, hrest⟩ := hstaged
    rw [Surface.Stmt.staged, Surface.Block.staged_eq] at hbody
    refine (hev.body hmode henv hbody).bind fun _ hfirst => ?_
    rw [← Surface.Block.still_eq] at hfirst
    exact hev.continueWith hmode hfirst henv hrest (Surface.Stmt.still_of_followed hfollow rfl)
  · obtain ⟨⟨hdecls, _⟩, hrest⟩ := hstaged
    simp only [Surface.Stmt.staged] at hdecls
    rw [Surface.Stmt.still, Bool.true_and]
    exact (hev.declsFrom hmode henv hdecls Bindings.plain_empty).bind fun _ hbound =>
      (henv.merge hbound.2).bind fun _ hall => hev.extend hmode hall hbound.1 hrest
  · rw [Surface.Stmt.still, Bool.false_and]
    exact hev.continueLoop hmode henv (by simp [Surface.Expr.staged, Surface.exprsStaged])
  · obtain ⟨⟨hbody, _⟩, hrest⟩ := hstaged
    rw [Surface.Stmt.staged] at hbody
    rw [Surface.Stmt.still, Bool.true_and]
    exact .skip fun _ => .skip fun _ =>
      Meets.bind (henv.bind (by exact .closure hbody henv)) fun _ hall =>
        hev.extend hmode hall .nil hrest
  · rename_i stmtLoc cond onTrue onFalse rest
    obtain ⟨⟨hparts, hfollow⟩, hrest⟩ := hstaged
    have hstill : (Surface.Stmt.branch stmtLoc cond onTrue onFalse).still =
        Surface.stmtsStill (onTrue :: onFalse.toList) := by
      cases onFalse <;> simp [Surface.Stmt.still, Surface.stmtsStill]
    have hstaged : cond.staged strict false = true ∧ onTrue.staged strict = true ∧
        Surface.stmtsStaged strict onFalse.toList = true := by
      cases onFalse with
      | none => simpa [Surface.Stmt.staged, Surface.stmtsStaged] using hparts
      | some f =>
        simp only [Surface.Stmt.staged, Bool.and_eq_true] at hparts
        exact ⟨hparts.1.1, hparts.1.2, stmtsStaged_single hparts.2⟩
    obtain ⟨hcond, hTrue, hFalse⟩ := hstaged
    have hfollow := Surface.Stmt.still_of_followed hfollow rfl
    rw [hstill] at hfollow ⊢
    exact hev.branch hmode henv hcond (stmtsStaged_single hTrue) hFalse hrest hfollow
  · rw [Surface.Stmt.still, Bool.true_and]
    exact hev.body hmode henv hstaged.2
  · obtain ⟨⟨he, _⟩, hrest⟩ := hstaged
    rw [Surface.Stmt.staged] at he
    rw [Surface.Stmt.still]
    exact hev.exprStmt hmode henv he hrest
  · rename_i callLoc callee args rest
    obtain ⟨⟨he, _⟩, hrest⟩ := hstaged
    rw [Surface.Stmt.staged] at he
    have hmoves : (Surface.Expr.call callLoc callee args).moves = callee.moves := by
      rw [Surface.Expr.moves]
    rw [Surface.Stmt.still, ← hmoves]
    exact hev.exprStmt hmode henv (by simpa only [Surface.Expr.staged] using he) hrest
  · obtain ⟨⟨hrhs, _⟩, _⟩ := hstaged
    rw [Surface.Stmt.staged] at hrhs
    rw [Surface.Stmt.still, Bool.false_and]
    exact hev.continueLoop hmode henv hrhs
  · exact .fail trivial
  · exact hev.ret hmode henv hstaged.1.1
  · simp only [Surface.Stmt.staged, Bool.and_eq_true] at hstaged
    obtain ⟨⟨hdecls, _⟩, ⟨⟨_, hinvariant⟩, _⟩, ⟨⟨hcond, hbody⟩, _⟩, hrest⟩ := hstaged
    exact (hev.loop hmode henv hdecls hinvariant hcond (stmtsStaged_single hbody) hrest).imp
      fun _ hended => hended.weaken fun _ hstill => by simp_all
  all_goals exact .fail trivial

end Evaluator.Staged

/-- Evaluation of every depth keeps staged programs tidy. -/
theorem evaluator_staged (strict : Bool) (fuel : Nat) : (evaluator fuel).Staged strict := by
  induction fuel with
  | zero =>
    exact ⟨fun hrun => absurd hrun yields_outOfFuel, fun hrun => absurd hrun yields_outOfFuel,
      fun hrun => absurd hrun yields_outOfFuel⟩
  | succ fuel ih =>
    exact ⟨fun hrun hmode henv he => (ih.evalExpr hmode henv he).result hrun,
      fun hrun hmode henv he => (ih.evalActing hmode henv he).result hrun,
      fun hrun hmode henv hstaged => (ih.evalStmts hmode henv hstaged).result hrun⟩

end Choreography
