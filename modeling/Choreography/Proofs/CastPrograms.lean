import Choreography.Proofs.CastExpressions
import Choreography.Proofs.Rounds

/-!
Evaluation within a cast: statements. Rounds keep a view for everyone of the cast, and whoever sends
in a round goes by a name of the cast. So evaluation of every depth stays within the cast.
-/

namespace Choreography

open Eval Ir

variable {C : Cast} {loc : Loc} {ctx : Ctx} {env : Bindings} {scope : Scope} {ev : Evaluator}
  {parties : Parties}

/-! ### Declarations -/

namespace Evaluator.Casts

variable (hev : ev.Casts C) (hmode : ctx.mode.Within C) (henv : scope.env.Within C)
include hev hmode henv

omit henv in
theorem decl (henv : env.Within C) {bound : Bindings} (hbound : bound.Within C) (d : Surface.Decl) :
    Meets C.Excuses (fun r => Bindings.Within C r.value) (ev.decl ctx bound env d) := by
  refine C.skip (.orFail rfl) fun init => ?_
  refine C.skip (Target.ofExpr_routine _) fun target => ?_
  refine (hev.expr (by exact hmode) henv init).bind fun rhs hrhs => ?_
  split
  · exact (C.bind hbound (Value.Within.bound hrhs)).bind fun _ hout => .pure hout
  · rename_i ns
    refine (C.excuse Ctx.components_meets).bind fun parts hparts =>
      C.skip (.ensure rfl) fun _ => ?_
    refine (C.bindAll hbound fun b hb => ?_).bind fun _ hout => .pure hout
    obtain ⟨v, hv, heq⟩ := List.mem_map.1 (List.of_mem_zip hb).2
    rw [← heq]
    exact (C.refers_basic.part (hparts.2 v hv) hrhs).bound

omit henv in
theorem declsFrom (henv : env.Within C) (ds : List Surface.Decl) :
    ∀ {bound : Bindings}, bound.Within C →
      Meets C.Excuses (fun r => Bindings.Within C r.value) (ev.declsFrom ctx bound env ds) := by
  induction ds with
  | nil => exact fun hbound => .pure hbound
  | cons d ds ih =>
    exact fun hbound => (hev.decl hmode henv hbound d).bind fun _ hfirst =>
      (ih hfirst).bind fun _ hrest => .pure hrest

/-! ### Sequences, conditionals and loops -/

omit henv in
theorem extend (henv : env.Within C) (code : Code) (rest : List Surface.Stmt) :
    Meets C.Excuses (fun r => r.value.Within C) (ev.extend ctx loc scope code env rest) :=
  (hev.stmts hmode (by exact henv) rest).bind fun _ hnext => .pure hnext

theorem continueWith {first : Lifted Outcome} (hfirst : first.value.Within C)
    (rest : List Surface.Stmt) :
    Meets C.Excuses (fun r => r.value.Within C) (ev.continueWith ctx loc scope first rest) := by
  unfold Evaluator.continueWith
  split
  · exact .pure hfirst
  · exact Meets.bind (hev.stmts hmode (by exact henv) _) fun _ hnext =>
      .pure ⟨hnext.env, List.forall_mem_append.2 ⟨hfirst.exits, hnext.exits⟩⟩

theorem branchBody (body : Option Surface.Stmt) :
    Meets C.Excuses (fun r => r.value.Within C) (ev.branchBody ctx loc scope body) :=
  hev.stmts hmode henv _

theorem branch (cond : Surface.Expr) (onTrue : Surface.Stmt) (onFalse : Option Surface.Stmt)
    (rest : List Surface.Stmt) :
    Meets C.Excuses (fun r => r.value.Within C)
      (ev.branch ctx loc scope cond onTrue onFalse rest) := by
  refine (hev.expr hmode henv cond).bind fun c _ => ?_
  have hinner : Bindings.Within C (if (Surface.dropEmpty rest).isEmpty then scope
      else { scope with style := .mayBeEmpty }).env := by
    split <;> exact henv
  simp only
  split
  · split
    · exact (hev.branchBody hmode hinner _).bind fun taken htaken =>
        hev.continueWith hmode henv (by exact htaken) _
    · exact (hev.branchBody hmode hinner _).bind fun taken htaken =>
        hev.continueWith hmode henv (by exact htaken) _
  · refine (hev.branchBody hmode hinner _).bind fun t ht => ?_
    refine (hev.branchBody hmode hinner _).bind fun f hf => ?_
    exact hev.continueWith hmode henv
      ⟨henv, Exit.combine_forall .null (Exit.taint_forall ht.exits) (Exit.taint_forall hf.exits)⟩ _
  · exact .fail (.ordinary rfl)

theorem continueLoop (assignLoc : Loc) (lhs rhs : Surface.Expr) (rest : List Surface.Stmt) :
    Meets C.Excuses (fun r => r.value.Within C)
      (ev.continueLoop ctx loc scope assignLoc lhs rhs rest) :=
  C.skip (Ctx.expectMode_routine ..) fun _ =>
    (hev.decl hmode henv .empty _).bind fun _ _ => C.skip (.orFail rfl) fun _ =>
      C.skip (assignLoopVars_routine ..) fun _ =>
        C.skip (expectLast_routine rest) fun _ => .pure ⟨henv, by simp⟩

omit henv in
theorem boolBlock (henv : env.Within C) (e : Surface.Expr) :
    Meets C.Excuses (fun _ => True) (ev.boolBlock ctx loc env e) :=
  (hev.expr hmode henv e).bind fun _ _ =>
    C.skip (Value.checkType_routine ..) fun _ => .pure trivial

theorem loop (ds : List Surface.Decl) (invariantLoc : Loc) (invariant : List Surface.Expr)
    (loopLoc : Loc) (cond : Surface.Expr) (body : Surface.Stmt) (rest : List Surface.Stmt) :
    Meets C.Excuses (fun r => r.value.Within C)
      (ev.loop ctx loc scope ds invariantLoc invariant loopLoc cond body rest) := by
  refine C.skip (Ctx.expectMode_routine ..) fun _ => ?_
  refine (hev.declsFrom hmode henv ds .empty).bind fun init _ => ?_
  refine C.skip (Ctx.loopVars_routine _) fun vars => ?_
  refine (C.merge henv fun b hb => ?_).bind fun inner hinner => ?_
  · obtain ⟨x, _, rfl⟩ := List.mem_map.1 (Env.mem_ofList hb)
    exact .var
  · split
    · refine (hev.boolBlock hmode hinner _).bind fun _ _ =>
        (hev.boolBlock hmode hinner _).bind fun _ _ => ?_
      refine Meets.bind (hev.stmts hmode (by exact hinner) [body]) fun turn hturn => ?_
      refine Meets.bind (hev.stmts hmode (by exact hinner) rest) fun after hafter => ?_
      exact .pure ⟨hafter.env, List.forall_mem_append.2 ⟨hturn.exits, hafter.exits⟩⟩
    · exact .fail (.ordinary rfl)

end Evaluator.Casts

/-! ### Rounds -/

namespace Cast

theorem messages (roundLoc : Loc) (view : Bindings) (names : List String) : ∀ {sent : Bindings},
    sent.Within C →
      Meets C.Excuses (fun r => Bindings.Within C r.2) (ctx.messages loc roundLoc view sent names) := by
  induction names with
  | nil => exact fun hsent => .pure hsent
  | cons name names ih =>
    exact fun hsent => C.skip (view.lookup_routine name) fun _ =>
      C.skip (SecValue.requirePublic_routine _) fun _ =>
        C.skip (Value.typeOf_routine _) fun _ =>
          C.skip Ctx.alloc_routine fun _ => (C.bind hsent .var).bind fun _ hout =>
            (ih hout).bind fun _ hrest => .pure hrest

/-- A name of the cast may have come to stand for something else. -/
theorem joinedSender (henv : env.Within C) {displayName : Option String}
    (hnames : ∀ name, displayName = some name → name ∈ C.names) (address : Var) :
    Meets C.Excuses (fun sender => ∀ b, sender = some b → b.2.value.Within C (some b.1))
      (Choreography.joinedSender loc env displayName address) := by
  unfold Choreography.joinedSender
  split
  · exact .pure (by simp)
  · rename_i name
    refine (C.lookup henv name).bind fun sv hsv => ?_
    split
    · rename_i tag p hvalue
      rw [hvalue] at hsv
      refine Meets.freshTag.bind fun _ _ => .pure ?_
      rintro b ⟨⟩
      cases hsv with
      | participant hplays hname hcalled => exact .participant hplays hname hcalled
    · exact .fail (.notAParticipant (hnames name rfl))

end Cast

theorem Bindings.Within.withSender (henv : env.Within C) {sender : Option (String × SecValue)}
    (hsender : ∀ b, sender = some b → b.2.value.Within C (some b.1)) :
    Bindings.Within C (env.withSender sender) := by
  cases sender with
  | none => exact henv
  | some b => exact henv.set (hsender b rfl)

/-- A traversal of the views leaves one for everyone who had one. -/
theorem Cast.traverse (hparties : parties.Within C) {f : String → Bindings → Eval Bindings}
    (hf : ∀ who view, view.Within C → Meets C.Excuses (Bindings.Within C) (f who view)) :
    Meets C.Excuses (fun views => ∀ joined, Parties.Within C { joined, views })
      (parties.views.traverse f) := by
  refine (OrderedMap.traverse_meets (Q := fun e => Bindings.Within C e.2) hparties.views hf).imp
    fun views h joined => ⟨fun hplays => OrderedMap.exists_get?_iff.2 ?_, h.1⟩
  rw [h.2]
  exact OrderedMap.exists_get?_iff.1 (hparties.known hplays)

/-- A view that takes the place of another leaves everyone with one. -/
theorem Parties.Within.learns (h : parties.Within C) {who : String} {view : Bindings}
    (hview : view.Within C) :
    Parties.Within C { parties with views := parties.views.insert who view } := by
  refine ⟨fun {other} hplays => ?_, OrderedMap.forall_mem_insert hview h.views⟩
  by_cases heq : other = who
  · exact ⟨view, by rw [heq]; exact OrderedMap.get?_insert_self ..⟩
  · obtain ⟨old, hold⟩ := h.known hplays
    exact ⟨old, by rw [← hold]; exact OrderedMap.get?_insert_of_ne heq ..⟩

namespace Evaluator.Casts

variable (hev : ev.Casts C) (hmode : ctx.mode.Within C) (henv : scope.env.Within C)
include hev hmode henv

omit henv in
theorem payment (henv : env.Within C) (amount : Option Surface.Expr) :
    Meets C.Excuses (fun _ => True) (ev.payment ctx env amount) := by
  cases amount with
  | none => exact .pure trivial
  | some e =>
    exact (hev.expr hmode henv e).bind fun _ _ =>
      C.skip (SecValue.requirePublic_routine _) fun _ =>
        C.skip (Value.checkType_routine ..) fun _ => .pure trivial

theorem deadline (timeout : Option Timeout) :
    Meets C.Excuses (fun r => ∀ exit ∈ r.value.2, exit.value.value.Within C none)
      (ev.deadline ctx scope timeout) := by
  cases timeout with
  | none => exact .pure (by simp [Lifted.plain])
  | some t =>
    exact (hev.expr hmode henv t.delay).bind fun _ _ =>
      C.skip (SecValue.requirePublic_routine _) fun _ =>
        C.skip (Value.checkType_routine ..) fun _ =>
          (hev.stmts hmode henv t.handler.stmts).bind fun _ hhandler => .pure hhandler.exits

omit henv in
/-- The sender of a round has a view, and after the round everyone still has one. -/
theorem takeRound (hparties : parties.Within C) (henv : scope.env.Within C) {r : Round}
    (hplays : C.Plays r.who) (hnames : ∀ name, r.displayName = some name → name ∈ C.names)
    (before : Code) (roundLoc : Loc) (rest : List Surface.Stmt) :
    Meets C.Excuses (fun out => out.value.Within C)
      (ev.takeRound ctx parties loc scope before roundLoc r rest) := by
  obtain ⟨known, hknown⟩ := hparties.known hplays
  refine (Meets.orFail fun hnone => by simp [hknown] at hnone).bind fun view hview => ?_
  refine (C.messages roundLoc view _ .empty).bind fun sent hsent => ?_
  refine C.skip (Ctx.addressOf_routine ..) fun address => ?_
  refine (C.joinedSender henv hnames _).bind fun sender hsender => ?_
  refine (C.merge henv hsent).bind fun shared hshared => ?_
  have hshared := hshared.withSender hsender
  refine (C.traverse hparties fun who old hold => ?_).bind fun views hviews => ?_
  · split
    · exact .pure (hold.withSender hsender)
    · exact (C.merge hold hsent).bind fun _ hreceived => .pure (hreceived.withSender hsender)
  · have hsenderView : Bindings.Within C ((views.get? r.who).getD {}) :=
      OrderedMap.getD_of_forall (hviews {}).views .empty
    refine (hev.payment hmode hsenderView r.pay).bind fun amount _ => ?_
    refine (hev.expr hmode hshared _).bind fun check _ => ?_
    refine (hev.deadline hmode henv r.timeout).bind fun late hlate => ?_
    refine Meets.bind (hev.stmts (by exact hviews _) (by exact hshared) rest) fun next hnext => ?_
    exact .pure ⟨hnext.env, Exit.combine_forall .null hlate hnext.exits⟩

omit hmode henv in
theorem commitRound {opened : Bindings} (hparties : parties.Within C) (henv : scope.env.Within C)
    (before : Code) (rest : List Surface.Stmt) :
    Meets C.Excuses (fun out => out.value.Within C)
      (ev.commitRound ctx opened parties loc scope before rest) := by
  exact (C.traverse hparties fun _ _ hold => C.merge hold (henv.difference opened)).bind
    fun views hviews => Meets.bind (hev.stmts (by exact hviews _) henv rest) fun _ hnext =>
      .pure hnext

/-! ### Statements -/

theorem exprStmt (e : Surface.Expr) (rest : List Surface.Stmt) :
    Meets C.Excuses (fun r => r.value.Within C) (ev.exprStmt ctx loc scope e rest) := by
  refine (hev.expr hmode henv e).bind fun r hr => ?_
  unfold Lifted.Within at hr
  split
  · exact C.skip (expectLast_routine rest) fun _ => .pure ⟨henv, by simp⟩
  · rename_i parties formLoc tag who view result hstep hvalue
    refine C.skip (Value.expectNull_routine _) fun _ => ?_
    rw [hstep] at hmode
    rw [hvalue] at hr
    cases hr with
    | onlyDone hview =>
      refine Meets.bind (hev.stmts ?_ henv rest) fun _ hnext => .pure hnext
      exact hmode.learns hview
  · rename_i parties roundLoc tag round hstep hvalue
    rw [hvalue] at hr
    cases hr with
    | round hplays hnames =>
      split
      · refine hev.takeRound hmode ?_ henv hplays hnames _ _ rest
        rw [hstep] at hmode
        exact hmode
      · exact .fail (.ordinary rfl)
  · rename_i opened parties loc' hconsensus _
    rw [hconsensus] at hmode
    exact hev.commitRound hmode henv _ rest
  · exact C.skip (Value.expectNull_routine _) fun _ => hev.extend hmode henv _ rest

theorem ret (value : Option Surface.Expr) (rest : List Surface.Stmt) :
    Meets C.Excuses (fun r => r.value.Within C) (ev.ret ctx loc scope value rest) :=
  Evaluator.ret_meets (fun _ => .ordinary) (fun e _ => hev.expr hmode henv e) .null
    fun _ _ hr => ⟨henv, List.forall_mem_singleton.2 hr⟩

theorem evalStmts (stmts : List Surface.Stmt) :
    Meets C.Excuses (fun r => r.value.Within C) (ev.evalStmts ctx loc scope stmts) := by
  unfold Evaluator.evalStmts
  split
  · refine .pure ⟨henv, fun exit hexit => ?_⟩
    split at hexit
    · obtain rfl := List.mem_singleton.1 hexit
      exact .null
    · exact absurd hexit List.not_mem_nil
  · exact (hev.stmts hmode henv _).bind fun _ hfirst => hev.continueWith hmode henv hfirst _
  · exact (hev.declsFrom hmode henv _ .empty).bind fun _ hbound =>
      (C.merge henv hbound).bind fun _ hout => hev.extend hmode hout _ _
  · exact hev.continueLoop hmode henv ..
  · exact C.skip (.orFail rfl) fun _ => Meets.freshTag.bind fun _ _ =>
      (C.bind henv (.closure (by exact henv))).bind fun _ hout => hev.extend hmode hout _ _
  · exact hev.branch hmode henv ..
  · exact hev.stmts hmode henv _
  · exact hev.exprStmt hmode henv ..
  · exact hev.exprStmt hmode henv ..
  · exact hev.continueLoop hmode henv ..
  · exact .fail (.ordinary rfl)
  · exact hev.ret hmode henv ..
  · exact hev.loop hmode henv ..
  · exact .fail (.ordinary rfl)
  · exact .fail (.ordinary rfl)
  · exact .fail (.ordinary rfl)

end Evaluator.Casts

/-- Evaluation to any depth stays within the cast. -/
theorem evaluator_casts (C : Cast) (fuel : Nat) : (evaluator fuel).Casts C := by
  induction fuel with
  | zero => exact ⟨fun _ _ _ => .outOfFuel .outOfFuel, fun _ _ _ => .outOfFuel .outOfFuel⟩
  | succ fuel ih =>
    exact ⟨fun hmode henv e => ih.evalExpr hmode henv e,
      fun hmode henv stmts => ih.evalStmts hmode henv stmts⟩

end Choreography
