import Choreography.Proofs.MaterialExpressions
import Choreography.Proofs.Rounds

/-!
Evaluation and what values are made of: statements. What statements bind, return and emit is made of
the material that they were given. Indices that destructuring takes are counted from zero.
-/

namespace Choreography

open Eval Ir

variable {M : Material} {loc : Loc} {ctx : Ctx} {env : Bindings} {scope : Scope} {ev : Evaluator}

/-! ### Checks -/

theorem Value.MadeOf.typeOf {v : Value} (h : v.MadeOf M) :
    Gives (fun t => t.1.MadeOf M ∧ t.2.MadeOf M) (v.typeOf loc) :=
  .of_yields fun hrun => h.typed? (Value.typeOf_yields.1 hrun).1

theorem Value.MadeOf.checkType {v : Value} (h : v.MadeOf M) (expected : Ty) :
    Gives (Arg.MadeOf M) (v.checkType loc expected) :=
  .of_yields fun hrun => (h.typed? (Value.checkType_yields.1 hrun).1).2

theorem SecValue.requirePublic_madeOf {sv : SecValue} (h : sv.value.MadeOf M) :
    Gives (Value.MadeOf M) (sv.requirePublic loc) := by
  refine .of_yields fun hrun => ?_
  obtain ⟨rfl, _⟩ := SecValue.requirePublic_yields.1 hrun
  exact h

/-! ### Declarations -/

namespace Ctx.MadeOf

theorem tupleParts (hctx : ctx.MadeOf M) (x : Var) {ts : List Ty} (hts : ∀ t ∈ ts, t.MadeOf M) :
    ∀ i : Nat, Gives (Lifted.Carries M fun vs => ∀ v ∈ vs, v.MadeOf M)
      (ctx.tupleParts loc x i ts) := by
  induction ts with
  | nil => exact fun i => .pure ⟨Code.madeOf_nil, by simp [Lifted.plain]⟩
  | cons t ts ih =>
    intro i
    obtain ⟨hfirst, hrest⟩ := List.forall_mem_cons.1 hts
    refine (hctx.lift hfirst ?_ _).bind fun _ hx => (ih hrest (i + 1)).bind fun _ hparts =>
      .pure ⟨hx.1.append hparts.code, List.forall_mem_cons.2 ⟨hx.2, hparts.value⟩⟩
    simp [Expr.operands, Arg.MadeOf, Arg.atoms, Arg.int]

theorem arrayParts (hctx : ctx.MadeOf M) (x : Var) {elem : Ty} (helem : elem.MadeOf M) (size : Nat)
    {positions : List Nat} (hpositions : ∀ i ∈ positions, M.integer i) :
    Gives (Lifted.Carries M fun vs => ∀ v ∈ vs, v.MadeOf M)
      (ctx.arrayParts loc x elem size positions) := by
  induction positions with
  | nil => exact .pure ⟨Code.madeOf_nil, by simp [Lifted.plain]⟩
  | cons i positions ih =>
    obtain ⟨hfirst, hrest⟩ := List.forall_mem_cons.1 hpositions
    refine (hctx.lift helem ?_ _).bind fun _ hx => (ih hrest).bind fun _ hparts =>
      .pure ⟨hx.1.append hparts.code, List.forall_mem_cons.2 ⟨hx.2, hparts.value⟩⟩
    simpa [Expr.operands, Arg.MadeOf, Arg.atoms, Arg.int] using hfirst

theorem components (hctx : ctx.MadeOf M) {v : Value} (hv : v.MadeOf M) :
    Gives (Lifted.Carries M fun vs => ∀ v ∈ vs, v.MadeOf M) (ctx.components loc v) := by
  unfold Ctx.components
  split
  · cases hv with
    | tuple h => exact .pure ⟨Code.madeOf_nil, h⟩
  · rename_i x
    cases hv with
    | var _ htype =>
      split
      · rename_i elems heq
        rw [heq] at htype
        cases htype with
        | tuple helems => exact hctx.tupleParts x helems 0
      · rename_i elem size heq
        rw [heq] at htype
        cases htype with
        | array helem hsize =>
          exact hctx.arrayParts x helem size fun i hi => hsize i (List.mem_range.1 hi)
      · exact .fail trivial
  · exact .fail trivial

end Ctx.MadeOf

namespace Evaluator.Makes

variable (hev : ev.Makes M) (hctx : ctx.MadeOf M) (henv : scope.env.MadeOf M)
include hev hctx henv

omit henv in
theorem decl (henv : env.MadeOf M) {bound : Bindings} (hbound : bound.MadeOf M) (d : Surface.Decl) :
    Gives (Lifted.Carries M (Bindings.MadeOf M)) (ev.decl ctx bound env d) := by
  refine .skip fun init => .skip fun target => ?_
  have hinner : Ctx.MadeOf M { ctx with localNames := some target.all } := ⟨hctx.live, hctx.views⟩
  refine (hev.expr hinner henv init).bind fun rhs hrhs => ?_
  split
  · exact (hbound.bind hrhs.value).bind fun _ hout => .pure ⟨hrhs.code, hout⟩
  · refine (hinner.components hrhs.value).bind fun parts hparts => .skip fun _ => ?_
    refine (hbound.bindAll fun b hb => ?_).bind fun _ hout =>
      .pure ⟨hrhs.code.append hparts.code, hout⟩
    obtain ⟨v, hv, heq⟩ := List.mem_map.1 (List.of_mem_zip hb).2
    rw [← heq]
    exact hparts.value v hv

omit henv in
theorem declsFrom (henv : env.MadeOf M) (ds : List Surface.Decl) :
    ∀ {bound : Bindings}, bound.MadeOf M →
      Gives (Lifted.Carries M (Bindings.MadeOf M)) (ev.declsFrom ctx bound env ds) := by
  induction ds with
  | nil => exact fun hbound => .pure ⟨Code.madeOf_nil, hbound⟩
  | cons d ds ih =>
    exact fun hbound => (hev.decl hctx henv hbound d).bind fun _ hfirst =>
      (ih hfirst.value).bind fun _ hrest => .pure (hrest.after hfirst.code)

/-! ### Sequences and conditionals -/

omit henv in
theorem extend (henv : env.MadeOf M) {code : Code} (hcode : code.MadeOf M)
    (rest : List Surface.Stmt) :
    Gives (Lifted.Carries M (Outcome.MadeOf M)) (ev.extend ctx loc scope code env rest) :=
  (hev.stmts hctx (by exact henv) rest).bind fun _ hnext =>
    .pure (hnext.after hcode)

theorem continueWith {first : Lifted Outcome} (hfirst : first.Carries M (Outcome.MadeOf M))
    (rest : List Surface.Stmt) :
    Gives (Lifted.Carries M (Outcome.MadeOf M)) (ev.continueWith ctx loc scope first rest) := by
  unfold Evaluator.continueWith
  split
  · exact .pure hfirst
  · exact Meets.bind (hev.stmts hctx (by exact henv) _) fun _ hnext =>
      .pure ⟨hfirst.code.append hnext.code, hnext.value.env,
        List.forall_mem_append.2 ⟨hfirst.value.exits, hnext.value.exits⟩⟩

theorem branch (cond : Surface.Expr) (onTrue : Surface.Stmt) (onFalse : Option Surface.Stmt)
    (rest : List Surface.Stmt) :
    Gives (Lifted.Carries M (Outcome.MadeOf M))
      (ev.branch ctx loc scope cond onTrue onFalse rest) := by
  refine (hev.expr hctx henv cond).bind fun c hc => ?_
  have hinner : Bindings.MadeOf M (if (Surface.dropEmpty rest).isEmpty then scope
      else { scope with style := .mayBeEmpty }).env := by
    split <;> exact henv
  simp only
  split
  · split
    · exact (hev.stmts hctx hinner _).bind fun taken htaken =>
        hev.continueWith hctx henv (htaken.after hc.code) _
    · exact (hev.stmts hctx hinner _).bind fun taken htaken =>
        hev.continueWith hctx henv (htaken.after hc.code) _
  · refine (hev.stmts hctx hinner _).bind fun t ht => (hev.stmts hctx hinner _).bind fun f hf => ?_
    exact hev.continueWith hctx henv ⟨hc.code.append (.branch ht.code hf.code), henv,
      Exit.combine_forall .null (Exit.taint_forall ht.value.exits)
        (Exit.taint_forall hf.value.exits)⟩ _
  · exact .fail trivial

/-! ### Loops -/

omit hev hctx henv in
theorem assignLoopVars_madeOf (vars : NameMap Var) {updates : List (String × SecValue)}
    (h : ∀ b ∈ updates, b.2.value.MadeOf M) :
    Gives (fun assignment => ∀ i ∈ assignment, i.2.MadeOf M) (assignLoopVars loc vars updates) := by
  induction updates with
  | nil => exact .pure (by simp)
  | cons b updates ih =>
    obtain ⟨hfirst, hrest⟩ := List.forall_mem_cons.1 h
    exact .skip fun _ => (SecValue.requirePublic_madeOf hfirst).bind fun _ hvalue =>
      (hvalue.checkType _).bind fun _ harg => (ih hrest).bind fun _ hassigned =>
        .pure (List.forall_mem_cons.2 ⟨harg, hassigned⟩)

omit hev henv in
/-- Each loop variable has the type of its initial value. -/
theorem loopVars_madeOf {initial : List (String × SecValue)}
    (h : ∀ b ∈ initial, b.2.value.MadeOf M) :
    Gives (fun vars => ∀ i ∈ vars, (Value.var i.2.1).MadeOf M ∧ i.2.2.MadeOf M)
      (ctx.loopVars loc initial) := by
  induction initial with
  | nil => exact .pure (by simp)
  | cons b initial ih =>
    obtain ⟨hfirst, hrest⟩ := List.forall_mem_cons.1 h
    exact hctx.alloc.bind fun _ hlive => (Value.MadeOf.typeOf hfirst).bind fun _ ht =>
      (ih hrest).bind fun _ hvars =>
        .pure (List.forall_mem_cons.2 ⟨⟨.var hlive ht.1, ht.2⟩, hvars⟩)

theorem continueLoop (assignLoc : Loc) (lhs rhs : Surface.Expr) (rest : List Surface.Stmt) :
    Gives (Lifted.Carries M (Outcome.MadeOf M))
      (ev.continueLoop ctx loc scope assignLoc lhs rhs rest) := by
  refine .skip fun _ => (hev.decl hctx henv .empty _).bind fun _ hupdates =>
    .skip fun _ => (assignLoopVars_madeOf _ hupdates.value).bind fun _ hassigned =>
      .skip fun _ => .pure ⟨hupdates.code.append (.atom ?_ rfl), henv, by simp⟩
  intro a ha
  obtain ⟨i, hi, rfl⟩ := List.mem_map.1 ha
  exact hassigned i hi

omit henv in
theorem boolBlock (henv : env.MadeOf M) (e : Surface.Expr) :
    Gives (fun b => Code.MadeOf M b.code ∧ b.result.MadeOf M) (ev.boolBlock ctx loc env e) :=
  (hev.expr hctx henv e).bind fun _ hr =>
    (Value.MadeOf.checkType hr.value _).bind fun _ hresult => .pure ⟨hr.code, hresult⟩

theorem loop (ds : List Surface.Decl) (invariantLoc : Loc) (invariant : List Surface.Expr)
    (loopLoc : Loc) (cond : Surface.Expr) (body : Surface.Stmt) (rest : List Surface.Stmt) :
    Gives (Lifted.Carries M (Outcome.MadeOf M))
      (ev.loop ctx loc scope ds invariantLoc invariant loopLoc cond body rest) := by
  refine .skip fun _ => (hev.declsFrom hctx henv ds .empty).bind fun init hinit => ?_
  refine (loopVars_madeOf hctx hinit.value).bind fun vars hvars => ?_
  refine (henv.merge fun b hb => ?_).bind fun inner hinner => ?_
  · obtain ⟨i, hi, rfl⟩ := List.mem_map.1 (Env.mem_ofList hb)
    exact (hvars i hi).1
  · split
    · refine (hev.boolBlock hctx hinner _).bind fun invariantBlock hinvariant =>
        (hev.boolBlock hctx hinner _).bind fun condBlock hcond => ?_
      refine Meets.bind (hev.stmts hctx (by exact hinner) [body]) fun turn hturn => ?_
      refine Meets.bind (hev.stmts hctx (by exact hinner) rest) fun after hafter => ?_
      refine .pure ⟨hinit.code.append (.cons (.single ?_ ?_) hafter.code),
        hafter.value.env, List.forall_mem_append.2 ⟨hturn.value.exits, hafter.value.exits⟩⟩
      · intro a ha
        simp only [Stmt.operands, List.map_map, List.mem_append, List.mem_map, List.mem_cons,
          List.not_mem_nil, or_false, Function.comp_apply] at ha
        rcases ha with ⟨i, hi, rfl⟩ | rfl | rfl
        · exact (hvars i hi).2
        · exact hinvariant.2
        · exact hcond.2
      · simpa [Stmt.parts] using ⟨hinvariant.1, hcond.1, hturn.code⟩
    · exact .fail trivial

end Evaluator.Makes

/-! ### Rounds -/

namespace Ctx.MadeOf

theorem messages (hctx : ctx.MadeOf M) (roundLoc : Loc) {view : Bindings} (hview : view.MadeOf M)
    (names : List String) : ∀ {sent : Bindings}, sent.MadeOf M →
      Gives (fun r => (∀ i ∈ r.1, i.1.MadeOf M) ∧ Bindings.MadeOf M r.2)
        (ctx.messages loc roundLoc view sent names) := by
  induction names with
  | nil => exact fun hsent => .pure ⟨by simp, hsent⟩
  | cons name names ih =>
    exact fun hsent => (hview.lookup name).bind fun _ hsv =>
      (SecValue.requirePublic_madeOf hsv).bind fun _ hvalue => hvalue.typeOf.bind fun _ ht =>
        hctx.alloc.bind fun _ hlive => (hsent.bind (.var hlive ht.1)).bind fun _ hout =>
          (ih hout).bind fun _ hrest => .pure ⟨List.forall_mem_cons.2 ⟨ht.2, hrest.1⟩, hrest.2⟩

theorem joinedSender (hlive : M.live) (displayName : Option String) (address : Var) :
    Gives (fun sender => ∀ b, sender = some b → b.2.value.MadeOf M)
      (Choreography.joinedSender loc env displayName address) := by
  unfold Choreography.joinedSender
  split
  · exact .pure (by simp)
  · refine .skip fun sv => ?_
    split
    · refine Meets.freshTag.bind fun _ _ => .pure ?_
      rintro b ⟨⟩
      exact .participant hlive
    · exact .fail trivial

end Ctx.MadeOf

theorem Bindings.MadeOf.withSender (henv : env.MadeOf M) {sender : Option (String × SecValue)}
    (hsender : ∀ b, sender = some b → b.2.value.MadeOf M) :
    Bindings.MadeOf M (env.withSender sender) := by
  cases sender with
  | none => exact henv
  | some b => exact henv.set (hsender b rfl)

/-- A traversal of the views keeps what they are made of, if it does so for each. -/
theorem traverse_madeOf {views : NameMap Bindings} (hviews : ∀ e ∈ views.entries, e.2.MadeOf M)
    {f : String → Bindings → Eval Bindings}
    (hf : ∀ who view, view.MadeOf M → Gives (Bindings.MadeOf M) (f who view)) :
    Gives (fun out => ∀ e ∈ out.entries, Bindings.MadeOf M e.2) (views.traverse f) :=
  (OrderedMap.traverse_meets (Q := fun e => Bindings.MadeOf M e.2) hviews hf).imp fun _ h => h.1

namespace Evaluator.Makes

variable (hev : ev.Makes M) (hctx : ctx.MadeOf M) (henv : scope.env.MadeOf M)
include hev hctx henv

omit henv in
theorem payment (henv : env.MadeOf M) (amount : Option Surface.Expr) :
    Gives (Lifted.Carries M (Arg.MadeOf M)) (ev.payment ctx env amount) := by
  cases amount with
  | none =>
    refine .pure ⟨Code.madeOf_nil, fun n hn => ?_⟩
    simp only [Lifted.plain, Arg.int, Arg.atoms, List.mem_singleton, Arg.const.injEq,
      Const.int.injEq] at hn
    exact hn ▸ M.zero
  | some e =>
    exact (hev.expr hctx henv e).bind fun _ hr => (SecValue.requirePublic_madeOf hr.value).bind
      fun _ hvalue => (hvalue.checkType _).bind fun _ harg => .pure ⟨hr.code, harg⟩

theorem deadline (timeout : Option Timeout) :
    Gives (Lifted.Carries M fun late =>
        (∀ d, late.1 = some d → d.delay.MadeOf M ∧ Code.MadeOf M d.body) ∧
        ∀ exit ∈ late.2, exit.value.value.MadeOf M)
      (ev.deadline ctx scope timeout) := by
  cases timeout with
  | none => exact .pure ⟨Code.madeOf_nil, by simp [Lifted.plain], by simp [Lifted.plain]⟩
  | some t =>
    refine (hev.expr hctx henv t.delay).bind fun _ hr =>
      (SecValue.requirePublic_madeOf hr.value).bind fun _ hvalue =>
        (hvalue.checkType _).bind fun _ harg =>
          (hev.stmts hctx henv t.handler.stmts).bind fun _ hhandler =>
            .pure ⟨hr.code, ?_, hhandler.value.exits⟩
    rintro d ⟨⟩
    exact ⟨harg, hhandler.code⟩

omit henv in
theorem takeRound {parties : Parties} (hviews : ∀ e ∈ parties.views.entries, Bindings.MadeOf M e.2)
    (hlive : M.live) (henv : scope.env.MadeOf M) {before : Code} (hbefore : before.MadeOf M)
    (roundLoc : Loc) (r : Round) (rest : List Surface.Stmt) :
    Gives (Lifted.Carries M (Outcome.MadeOf M))
      (ev.takeRound ctx parties loc scope before roundLoc r rest) := by
  refine Gives.orFail.bind fun view hview => ?_
  have hmadeView : view.MadeOf M := hviews _ (OrderedMap.mem_of_get? hview)
  refine (hctx.messages roundLoc hmadeView _ .empty).bind fun sent hsent => ?_
  refine .skip fun address => ?_
  refine (Ctx.MadeOf.joinedSender hlive _ _).bind fun sender hsender => ?_
  refine (henv.merge hsent.2).bind fun shared hshared => ?_
  have hshared := hshared.withSender hsender
  refine (traverse_madeOf hviews fun who old hold => ?_).bind fun views hviews => ?_
  · split
    · exact .pure (hold.withSender hsender)
    · exact (hold.merge hsent.2).bind fun _ hreceived => .pure (hreceived.withSender hsender)
  · have hsenderView : Bindings.MadeOf M ((views.get? r.who).getD {}) :=
      OrderedMap.getD_of_forall hviews .empty
    refine (hev.payment hctx hsenderView r.pay).bind fun amount hamount => ?_
    refine (hev.expr hctx hshared _).bind fun check hcheck => ?_
    refine (hev.deadline hctx henv r.timeout).bind fun late hlate => ?_
    refine Meets.bind (hev.stmts (by exact ⟨fun _ => hlive, hviews⟩) (by exact hshared) rest)
      fun next hnext => ?_
    refine .pure ⟨.append (.append (hbefore.append hlate.code) ?_) (.single ?_ ?_), hnext.value.env,
      Exit.combine_forall .null hlate.value.2 hnext.value.exits⟩
    · split
      · exact Code.madeOf_nil
      · exact .single (by simp [Stmt.operands]) (by simpa [Stmt.parts] using hamount.code)
    · intro a ha
      simp only [Stmt.operands, List.mem_append, List.mem_map, List.mem_singleton,
        Option.mem_toList] at ha
      rcases ha with (⟨i, hi, rfl⟩ | rfl) | ⟨d, hd, rfl⟩
      · exact hsent.1 i hi
      · exact hamount.value
      · exact (hlate.value.1 d hd).1
    · intro code hcode
      simp only [Stmt.parts, List.mem_append, List.mem_map, List.mem_singleton,
        Option.mem_toList] at hcode
      rcases hcode with ⟨d, hd, rfl⟩ | rfl
      · exact (hlate.value.1 d hd).2
      · exact hcheck.code.append hnext.code

omit hctx henv in
theorem commitRound {opened : Bindings} {parties : Parties}
    (hviews : ∀ e ∈ parties.views.entries, Bindings.MadeOf M e.2) (hlive : M.live)
    (henv : scope.env.MadeOf M) {before : Code} (hbefore : before.MadeOf M)
    (rest : List Surface.Stmt) :
    Gives (Lifted.Carries M (Outcome.MadeOf M))
      (ev.commitRound ctx opened parties loc scope before rest) := by
  refine (traverse_madeOf hviews fun _ _ hold => hold.merge (henv.difference opened)).bind
    fun views hviews => ?_
  exact Meets.bind (hev.stmts (by exact ⟨fun _ => hlive, hviews⟩) henv rest) fun _ hnext =>
    .pure ⟨hbefore.append (.single (by simp [Stmt.operands]) (by simpa [Stmt.parts] using hnext.code)),
      hnext.value⟩

/-! ### Statements -/

theorem exprStmt (e : Surface.Expr) (rest : List Surface.Stmt) :
    Gives (Lifted.Carries M (Outcome.MadeOf M)) (ev.exprStmt ctx loc scope e rest) := by
  refine (hev.expr hctx henv e).bind fun r hr => ?_
  have hviews := hctx.views
  split
  · exact .skip fun _ => .pure ⟨hr.code, henv, by simp⟩
  · rename_i parties formLoc tag who view result hstep hvalue
    refine .skip fun _ => ?_
    rw [hstep] at hviews
    have hmade := hr.value
    rw [hvalue] at hmade
    cases hmade with
    | onlyDone hlive hview =>
      have hlearned : ∀ e ∈ (parties.views.insert who view).entries, Bindings.MadeOf M e.2 :=
        OrderedMap.forall_mem_insert hview hviews
      have honly : Code.MadeOf M [.only formLoc who r.code] :=
        .single (by simp [Stmt.operands]) (by simpa [Stmt.parts] using hr.code)
      exact Meets.bind (hev.stmts (by exact ⟨fun _ => hlive, hlearned⟩) henv rest)
        fun _ hnext => .pure (hnext.after honly)
  · rename_i parties roundLoc tag round hstep hvalue
    have hlive : M.live := hctx.live (.inr (by rw [hstep]; rfl))
    rw [hstep] at hviews
    split
    · exact hev.takeRound hctx hviews hlive henv hr.code _ _ rest
    · exact .fail trivial
  · rename_i opened parties primLoc hconsensus _
    have hlive : M.live := hctx.live (.inr (by rw [hconsensus]; rfl))
    rw [hconsensus] at hviews
    exact hev.commitRound hviews hlive henv hr.code rest
  · exact .skip fun _ => hev.extend hctx henv hr.code rest

theorem ret (value : Option Surface.Expr) (rest : List Surface.Stmt) :
    Gives (Lifted.Carries M (Outcome.MadeOf M)) (ev.ret ctx loc scope value rest) :=
  Evaluator.ret_meets (fun _ _ => trivial) (fun e _ => hev.expr hctx henv e) (.plain .null)
    fun _ _ hr => ⟨hr.code.append (.ret hr.value), henv, List.forall_mem_singleton.2 hr.value⟩

theorem evalStmts (stmts : List Surface.Stmt) :
    Gives (Lifted.Carries M (Outcome.MadeOf M)) (ev.evalStmts ctx loc scope stmts) := by
  unfold Evaluator.evalStmts
  split
  · refine .pure ⟨Code.madeOf_nil, henv, fun exit hexit => ?_⟩
    simp only [Lifted.plain] at hexit
    split at hexit
    · obtain rfl := List.mem_singleton.1 hexit
      exact .null
    · exact absurd hexit List.not_mem_nil
  · exact (hev.stmts hctx henv _).bind fun _ hfirst => hev.continueWith hctx henv hfirst _
  · exact (hev.declsFrom hctx henv _ .empty).bind fun _ hbound =>
      (henv.merge hbound.value).bind fun _ hout => hev.extend hctx hout hbound.code _
  · exact hev.continueLoop hctx henv ..
  · exact .skip fun _ => Meets.freshTag.bind fun _ _ =>
      (henv.bind (.closure (by exact henv))).bind fun _ hout => hev.extend hctx hout Code.madeOf_nil _
  · exact hev.branch hctx henv ..
  · exact hev.stmts hctx henv _
  · exact hev.exprStmt hctx henv ..
  · exact hev.exprStmt hctx henv ..
  · exact hev.continueLoop hctx henv ..
  · exact .fail trivial
  · exact hev.ret hctx henv ..
  · exact hev.loop hctx henv ..
  · exact .fail trivial
  · exact .fail trivial
  · exact .fail trivial

end Evaluator.Makes

/-! ### Modules and apps -/

/-- The top level of modules keeps to every material. -/
theorem Evaluator.Makes.keeps (hev : ev.Makes M) :
    Link.Keeps ev (fun b => b.2.value.MadeOf M) (fun _ => True) where
  base := baseEnv_madeOf
  topLevel := by
    intro loc env out stmt s s' hrun henv _
    simp only [Link.topLevel, yields_bind, yields_pure] at hrun
    obtain ⟨r, _, hstmts, _, _, _, rfl, _⟩ := hrun
    have hctx : Link.moduleCtx.MadeOf M := ⟨by simp [Link.moduleCtx, Mode.isModule], trivial⟩
    exact ((hev.stmts hctx (by exact henv) [stmt]).result hstmts).value.env

/-- What a frontend offers is asked for where the protocol is live. -/
theorem Participant.interactValue_madeOf {p : Participant} (hlive : M.live)
    (h : ∀ f ∈ p.interface, f.2.MadeOf M) : p.interactValue.MadeOf M := by
  refine .object fun b hb => ?_
  obtain ⟨f, hf, rfl⟩ := List.mem_map.1 hb
  exact .interact hlive (h f hf)

/-- The program of an app is made of what the app is, once its protocol is live. -/
theorem Evaluator.Makes.compile (hev : ev.Makes M) (hlive : M.live) {tag : Tag} {a : App}
    (ha : (Value.prim loc (.app tag a)).MadeOf M) :
    Gives (fun p => p.body.MadeOf M) (a.compile ev loc) := by
  cases ha with
  | prim hfixed => cases hfixed
  | app _ hparts _ henv =>
    have henv : Bindings.MadeOf M a.env := by
      intro b hb
      by_cases hparticipant : ∃ tag p, b.2.value = .participant tag p
      · obtain ⟨tag, p, heq⟩ := hparticipant
        rw [heq]
        exact .participant hlive
      · exact henv b hb fun tag p heq => hparticipant ⟨tag, p, heq⟩
    refine (App.views_meets (V := fun e => Bindings.MadeOf M e.2) (fun p hp => henv.bind
      (Participant.interactValue_madeOf hlive (hparts p hp).2)) (by simp)).bind
        fun views hviews => .skip fun _ => ?_
    exact Meets.bind (hev.stmts (by exact ⟨fun _ => hlive, hviews.1⟩) (by exact henv) a.body.stmts)
      fun _ hresult => .pure hresult.code

end Choreography
