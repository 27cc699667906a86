import Choreography.Proofs.LikeExpressions

/-!
Statements in two runs that are compared. Main statement: evaluation of any depth tracks evaluation in
contexts, environments and text that are alike.
-/

namespace Choreography

open Eval Ir
open Surface (Padding)

variable {V : Variation} {loc : Loc} {ctx ctx' : Ctx} {env env' : Bindings} {v v' : Value}
  {scope scope' : Scope} {ev : Evaluator} {rest rest' : List Surface.Stmt}

/-! ### Ways out -/

namespace Exit

theorem taint_like {exits exits' : List Exit} (h : List.Forall₂ (Exit.Like V) exits exits')
    {level level' : Level} (hlevel : V.Rises level level') :
    List.Forall₂ (Exit.Like V) (exits.map (taint level)) (exits'.map (taint level')) := by
  rw [List.forall₂_map_left_iff, List.forall₂_map_right_iff]
  exact h.imp fun _ _ hexit => ⟨hexit.place, hexit.value.taint hlevel⟩

theorem isEmpty_like {exits exits' : List Exit} (h : List.Forall₂ (Exit.Like V) exits exits') :
    exits.isEmpty = exits'.isEmpty := by
  cases h <;> rfl

theorem combine_like (loc : Loc) {level level' : Level} {left left' right right' : List Exit}
    (hlevel : V.Rises level level') (hleft : List.Forall₂ (Exit.Like V) left left')
    (hright : List.Forall₂ (Exit.Like V) right right') :
    List.Forall₂ (Exit.Like V) (combine loc level left right) (combine loc level' left' right') := by
  have horImplicit : ∀ {exits exits' : List Exit}, List.Forall₂ (Exit.Like V) exits exits' →
      List.Forall₂ (Exit.Like V) (if exits.isEmpty then [implicit loc level] else exits)
        (if exits'.isEmpty then [implicit loc level'] else exits') := by
    intro exits exits' h
    cases h with
    | nil => exact .cons ⟨fun _ => rfl, .mk hlevel (.null fun _ => rfl)⟩ .nil
    | cons hexit hrest => exact .cons hexit hrest
  simp only [combine, isEmpty_like hleft, isEmpty_like hright]
  split
  · exact .nil
  · have h := List.rel_append (horImplicit hleft) (horImplicit hright)
    simpa only [isEmpty_like hleft, isEmpty_like hright] using h

end Exit

/-- A statement that nothing follows is not followed by anything new. -/
theorem expectLast_like (loc : Loc) (h : Padding V (Surface.Stmt.Like V) .last rest rest') :
    Tracks V Eq (expectLast loc rest) (fun _ => expectLast loc rest') := by
  cases rest with
  | nil =>
    rw [h.nil_of_last]
    exact .same _
  | cons => exact .fail

namespace Evaluator.Tracked

variable (hev : ev.Tracked V) (hctx : ctx.Like V ctx') (hscope : scope.Like V scope')
include hev hctx hscope

theorem extend (loc : Loc) {code code' : Code} (hcode : code.Like V code') (henv : env.Like V env')
    (hrest : Surface.Stmts.Like V rest rest') :
    Tracks V (Lifted.Like V (Outcome.Like V)) (ev.extend ctx loc scope code env rest)
      (fun fuel => (evaluator fuel).extend ctx' loc scope' code' env' rest') := by
  obtain ⟨_⟩ := hscope
  refine .bind (hev.stmts hctx (fun _ => rfl) (.mk henv) hrest) fun _ _ hnext => ?_
  exact .pure (hnext.after hcode)

theorem continueWith (loc : Loc) {first first' : Lifted Outcome}
    (hfirst : first.Like V (Outcome.Like V) first')
    (hrest : Padding V (Surface.Stmt.Like V) .loose rest rest') :
    Tracks V (Lifted.Like V (Outcome.Like V)) (ev.continueWith ctx loc scope first rest)
      (fun fuel => (evaluator fuel).continueWith ctx' loc scope' first' rest') := by
  obtain ⟨henv⟩ := hscope
  have hkept := hrest.dropEmpty Surface.Stmt.Like.isEmpty_eq
  unfold Evaluator.continueWith
  generalize Surface.dropEmpty rest = kept at hkept ⊢
  generalize Surface.dropEmpty rest' = kept' at hkept ⊢
  cases hkept with
  | nil => exact .pure hfirst
  | cons hs hmore =>
    simp only [Exit.isEmpty_like hfirst.value.exits]
    have hkept : Surface.Stmts.Like V (_ :: _) (_ :: _) := .of_forall₂ (.cons hs hmore)
    refine .bind (hev.stmts hctx (fun _ => rfl) (.mk henv) hkept) fun next next' hnext => ?_
    exact .pure ⟨hfirst.code.append hnext.code, hnext.value.env,
      List.rel_append hfirst.value.exits hnext.value.exits⟩

theorem branch (loc : Loc) {cond cond' : Surface.Expr} {onTrue onTrue' : Surface.Stmt}
    {onFalse onFalse' : Option Surface.Stmt} (hcond : cond.Like V cond')
    (hTrue : onTrue.Like V onTrue') (hFalse : Option.Rel (Surface.Stmt.Like V) onFalse onFalse')
    (hrest : Padding V (Surface.Stmt.Like V) .loose rest rest') :
    Tracks V (Lifted.Like V (Outcome.Like V)) (ev.branch ctx loc scope cond onTrue onFalse rest)
      (fun fuel => (evaluator fuel).branch ctx' loc scope' cond' onTrue' onFalse' rest') := by
  have hkept := hrest.dropEmpty Surface.Stmt.Like.isEmpty_eq
  have hinner : Scope.Like V
      (if (Surface.dropEmpty rest).isEmpty then scope else { scope with style := .mayBeEmpty })
      (if (Surface.dropEmpty rest').isEmpty then scope' else { scope' with style := .mayBeEmpty }) := by
    obtain ⟨henv⟩ := hscope
    generalize Surface.dropEmpty rest = kept at hkept ⊢
    generalize Surface.dropEmpty rest' = kept' at hkept ⊢
    cases hkept <;> exact .mk henv
  have hTrueLoc : V = .levels → onTrue.loc = onTrue'.loc := by
    rintro rfl
    exact hTrue.loc_eq
  have hFalseLoc : V = .levels →
      (onFalse.map (·.loc)).getD loc = (onFalse'.map (·.loc)).getD loc := by
    rintro rfl
    cases hFalse with
    | none => rfl
    | some h => exact h.loc_eq
  have honTrue := Padding.toList (.some hTrue)
  have honFalse := Padding.toList hFalse
  have hkept : Padding V (Surface.Stmt.Like V) .loose _ _ := .of_forall₂ hkept
  refine .bind (hev.expr hctx hscope.env hcond) fun c c' hc => ?_
  simp only [hc.value.value.condition?_eq]
  split
  · rename_i b _
    cases b with
    | true =>
      refine .bind (hev.stmts hctx hTrueLoc hinner honTrue) fun taken taken' htaken => ?_
      exact hev.continueWith hctx hscope loc (htaken.after hc.code) hkept
    | false =>
      refine .bind (hev.stmts hctx hFalseLoc hinner honFalse) fun taken taken' htaken => ?_
      exact hev.continueWith hctx hscope loc (htaken.after hc.code) hkept
  · refine .bind (hev.stmts hctx hTrueLoc hinner honTrue) fun t t' ht => ?_
    refine .bind (hev.stmts hctx hFalseLoc hinner honFalse) fun f f' hf => ?_
    refine hev.continueWith hctx hscope loc ⟨?_, hscope.env, ?_⟩ hkept
    · exact hc.code.append (.single (.branch ht.code hf.code))
    · have hlevel := hc.value.level
      exact Exit.combine_like loc hlevel (Exit.taint_like ht.value.exits hlevel)
        (Exit.taint_like hf.value.exits hlevel)
  · exact .fail

/-! ### Declarations -/

omit hscope in
theorem decl {bound bound' : Bindings} (hbound : bound.Like V bound') (henv : env.Like V env')
    {d d' : Surface.Decl} (hd : d.Like V d') :
    Tracks V (Lifted.Like V (Bindings.Like V)) (ev.decl ctx bound env d)
      (fun fuel => (evaluator fuel).decl ctx' bound' env' d') := by
  obtain ⟨hmode⟩ := hctx
  obtain ⟨hinit⟩ := hd
  refine .bind (.orFail hinit) fun init init' hinit => ?_
  refine .bind (.same _) ?_
  rintro target _ rfl
  refine .bind (hev.expr (.mk hmode) henv hinit) fun rhs rhs' hrhs => ?_
  cases target with
  | single n =>
    refine .bind (hbound.bind hrhs.value _ n) fun _ _ hout => ?_
    exact .pure ⟨hrhs.code, hout⟩
  | several ns =>
    simp only [hinit.loc_eq]
    refine .bind (Ctx.Like.components (.mk hmode) init'.loc hrhs.value.value) ?_
    intro parts parts' hparts
    simp only [hparts.value.length_eq]
    refine .bind (.same _) fun _ _ _ => ?_
    have hvalues : List.Forall₂ (SecValue.Like V)
        (parts.value.map fun v => ⟨rhs.value.level, v⟩)
        (parts'.value.map fun v => ⟨rhs'.value.level, v⟩) := by
      rw [List.forall₂_map_left_iff, List.forall₂_map_right_iff]
      exact hparts.value.imp fun _ _ hv => .mk hrhs.value.level hv
    refine .bind (Bindings.Like.bindAll _ (zip_like hvalues) hbound) fun _ _ hout => ?_
    exact .pure ⟨hrhs.code.append hparts.code, hout⟩

omit hscope in
theorem declsFrom (henv : env.Like V env') {ds ds' : List Surface.Decl}
    (hds : List.Forall₂ (Surface.Decl.Like V) ds ds') :
    ∀ {bound bound' : Bindings}, bound.Like V bound' →
      Tracks V (Lifted.Like V (Bindings.Like V)) (ev.declsFrom ctx bound env ds)
        (fun fuel => (evaluator fuel).declsFrom ctx' bound' env' ds') := by
  induction hds with
  | nil => exact fun hbound => .pure (.plain hbound)
  | cons hd _ ih =>
    intro bound bound' hbound
    refine .bind (hev.decl hctx hbound henv hd) fun first first' hfirst => ?_
    exact .bind (ih hfirst.value) fun _ _ hmore => .pure (hmore.after hfirst.code)

omit hscope in
theorem decls (henv : env.Like V env') {ds ds' : List Surface.Decl}
    (hds : List.Forall₂ (Surface.Decl.Like V) ds ds') :
    Tracks V (Lifted.Like V (Bindings.Like V)) (ev.decls ctx env ds)
      (fun fuel => (evaluator fuel).decls ctx' env' ds') :=
  hev.declsFrom hctx henv hds .empty

end Evaluator.Tracked

/-! ### Loops -/

theorem Ctx.Like.loopVars_eq (h : ctx.Like V ctx') (loc : Loc)
    {bindings bindings' : List (String × SecValue)}
    (hbindings : List.Forall₂ (Binding.Like V) bindings bindings') :
    ctx.loopVars loc bindings = ctx'.loopVars loc bindings' := by
  induction hbindings with
  | nil => rfl
  | cons hb _ ih =>
    obtain ⟨hsv⟩ := hb
    simp only [Ctx.loopVars, h.alloc_eq, hsv.value.typeOf_eq, ih]

theorem assignLoopVars_like (loc : Loc) (vars : NameMap Var)
    {bindings bindings' : List (String × SecValue)}
    (h : List.Forall₂ (Binding.Like V) bindings bindings') :
    Tracks V Eq (assignLoopVars loc vars bindings) (fun _ => assignLoopVars loc vars bindings') := by
  induction h with
  | nil => exact .pure rfl
  | cons hb _ ih =>
    obtain ⟨hsv⟩ := hb
    refine .bind (.same _) ?_
    rintro x _ rfl
    refine .bind (hsv.requirePublic loc) fun value value' hvalue => ?_
    rw [hvalue.checkType_eq]
    refine .bind (.same _) ?_
    rintro arg _ rfl
    refine .bind ih ?_
    rintro assignment _ rfl
    exact .pure rfl

namespace Evaluator.Tracked

theorem continueLoop (hev : ev.Tracked V) (hctx : ctx.Like V ctx') (hscope : scope.Like V scope')
    (loc assignLoc : Loc) (lhs : Surface.Expr) {rhs rhs' : Surface.Expr} (hrhs : rhs.Like V rhs')
    (hrest : Padding V (Surface.Stmt.Like V) .last rest rest') :
    Tracks V (Lifted.Like V (Outcome.Like V)) (ev.continueLoop ctx loc scope assignLoc lhs rhs rest)
      (fun fuel => (evaluator fuel).continueLoop ctx' loc scope' assignLoc lhs rhs' rest') := by
  obtain ⟨henv⟩ := hscope
  unfold Evaluator.continueLoop
  rw [hctx.expectMode_eq assignLoc _ hctx.mode.isConsensus_eq]
  refine .bind (.same _) fun _ _ _ => ?_
  refine .bind (hev.decl hctx .empty henv (.mk (.some hrhs))) fun updates updates' hupdates => ?_
  refine .bind (.same _) ?_
  rintro vars _ rfl
  refine .bind (assignLoopVars_like assignLoc vars hupdates.value.entries) ?_
  rintro assignment _ rfl
  refine .bind (expectLast_like loc hrest) fun _ _ _ => ?_
  exact .pure ⟨hupdates.code.append (.single .cont), henv, .nil⟩

theorem boolBlock (hev : ev.Tracked V) (hctx : ctx.Like V ctx') (henv : env.Like V env')
    (loc : Loc) {e e' : Surface.Expr} (he : e.Like V e') :
    Tracks V (Ir.Block.Like V) (ev.boolBlock ctx loc env e)
      (fun fuel => (evaluator fuel).boolBlock ctx' loc env' e') := by
  refine .bind (hev.expr hctx henv he) fun r r' hr => ?_
  rw [hr.value.value.checkType_eq, hctx.frames_eq]
  refine .bind (.same _) ?_
  rintro result _ rfl
  exact .pure (.mk hr.code)

theorem loop (hev : ev.Tracked V) (hctx : ctx.Like V ctx') (hscope : scope.Like V scope')
    (loc : Loc) {decls decls' : List Surface.Decl} (invariantLoc : Loc)
    {invariant invariant' : List Surface.Expr} (loopLoc : Loc) {cond cond' : Surface.Expr}
    {body body' : Surface.Stmt} (hdecls : List.Forall₂ (Surface.Decl.Like V) decls decls')
    (hinvariant : List.Forall₂ (Surface.Expr.Like V) invariant invariant')
    (hcond : cond.Like V cond') (hbody : body.Like V body')
    (hrest : Surface.Stmts.Like V rest rest') :
    Tracks V (Lifted.Like V (Outcome.Like V))
      (ev.loop ctx loc scope decls invariantLoc invariant loopLoc cond body rest)
      (fun fuel => (evaluator fuel).loop ctx' loc scope' decls' invariantLoc invariant' loopLoc cond'
        body' rest') := by
  obtain ⟨henv⟩ := hscope
  unfold Evaluator.loop
  rw [hctx.expectMode_eq loc _ hctx.mode.isConsensus_eq]
  refine .bind (.same _) fun _ _ _ => ?_
  refine .bind (hev.decls hctx henv hdecls) fun init init' hinit => ?_
  rw [hctx.loopVars_eq loc hinit.value.entries]
  refine .bind (.same _) ?_
  rintro vars _ rfl
  -- whatever the initial values are, a loop variable is public
  have hunknowns : Bindings.Like V
      (.ofList (vars.map fun x => (x.1, Labelled.pub (Value.var x.2.1))))
      (.ofList (vars.map fun x => (x.1, Labelled.pub (Value.var x.2.1)))) := by
    refine .of_forall fun b hb => ?_
    obtain ⟨x, _, rfl⟩ := List.mem_map.1 (Env.mem_ofList hb)
    exact .pub .var
  refine .bind (henv.merge hunknowns loc) fun inside inside' hinside => ?_
  rcases hinvariant with _ | ⟨hinvariant, _ | _⟩
  · exact .fail
  · refine .bind (hev.boolBlock hctx hinside invariantLoc hinvariant) fun _ _ hinvariant => ?_
    rw [← hcond.loc_eq]
    refine .bind (hev.boolBlock hctx hinside cond.loc hcond) fun _ _ hcond => ?_
    refine .bind (hev.stmts hctx (fun _ => rfl) (.mk hinside) hbody.single) fun turn turn' hturn => ?_
    refine .bind (hev.stmts hctx (fun _ => rfl) (.mk hinside) hrest) fun after after' hafter => ?_
    exact .pure ⟨hinit.code.append (.cons (.loop hinvariant hcond hturn.code) hafter.code),
      hafter.value.env, List.rel_append hturn.value.exits hafter.value.exits⟩
  · exact .fail

end Evaluator.Tracked

/-! ### Rounds -/

namespace Views.Like

variable {views views' : NameMap Bindings}

theorem traverse {f g : String → Bindings → Eval Bindings} (h : Views.Like V views views')
    (hfg : ∀ who {view view' : Bindings}, view.Like V view' →
      Tracks V (Bindings.Like V) (f who view) (fun _ => g who view')) :
    Tracks V (Views.Like V) (views.traverse f) (fun _ => views'.traverse g) := by
  obtain ⟨entries⟩ := views
  obtain ⟨entries'⟩ := views'
  refine .bind (R := fun out out' => Views.Like V ⟨out⟩ ⟨out'⟩) ?_ fun _ _ hout => .pure hout
  simp only [Views.Like] at h
  induction h with
  | nil => exact .pure .nil
  | @cons e e' _ _ he _ ih =>
    obtain ⟨name, view⟩ := e
    obtain ⟨_, view'⟩ := e'
    obtain ⟨rfl, hview⟩ := he
    simp only [List.mapM_cons]
    refine .bind (R := fun (e e' : String × Bindings) => e.1 = e'.1 ∧ e.2.Like V e'.2)
      (.bind (hfg name hview) fun _ _ hout => .pure ⟨rfl, hout⟩) fun _ _ hentry => ?_
    exact .bind ih fun _ _ hmore => .pure (.cons hentry hmore)

end Views.Like

theorem Ctx.Like.messages (h : ctx.Like V ctx') (loc roundLoc : Loc) {view view' : Bindings}
    (hview : view.Like V view') (names : List String) :
    ∀ {sent sent' : Bindings}, sent.Like V sent' →
      Tracks V (fun m m' => m.1 = m'.1 ∧ m.2.Like V m'.2)
        (ctx.messages loc roundLoc view sent names)
        (fun _ => ctx'.messages loc roundLoc view' sent' names) := by
  induction names with
  | nil => exact fun hsent => .pure ⟨rfl, hsent⟩
  | cons name names ih =>
    intro sent sent' hsent
    refine .bind (hview.lookup roundLoc name) fun sv sv' hsv => ?_
    refine .bind (hsv.requirePublic roundLoc) fun value value' hvalue => ?_
    rw [hvalue.typeOf_eq, h.alloc_eq]
    refine .bind (.same _) ?_
    rintro ⟨type, arg⟩ _ rfl
    refine .bind (.same _) ?_
    rintro id _ rfl
    refine .bind (hsent.bind (.pub .var) loc name) fun _ _ hmore => .bind (ih hmore) ?_
    rintro ⟨rest, out⟩ ⟨_, out'⟩ ⟨rfl, hout⟩
    exact .pure ⟨rfl, hout⟩

theorem joinedSender_like (loc : Loc) (henv : env.Like V env') (displayName : Option String)
    (address : Var) :
    Tracks V (Option.Rel (Binding.Like V)) (joinedSender loc env displayName address)
      (fun _ => joinedSender loc env' displayName address) := by
  cases displayName with
  | none => exact .pure .none
  | some name =>
    refine .bind (henv.lookup loc name) fun sv sv' hsv => ?_
    obtain ⟨hlevel, hv⟩ := hsv
    cases hv with
    | participant =>
      refine .bind (.same _) ?_
      rintro tag _ rfl
      exact .pure (.some (.mk (.mk hlevel .participant)))
    | _ => exact .fail

theorem Bindings.Like.withSender (henv : env.Like V env')
    {sender sender' : Option (String × SecValue)} (h : Option.Rel (Binding.Like V) sender sender') :
    (env.withSender sender).Like V (env'.withSender sender') := by
  cases h with
  | none => exact henv
  | some hb =>
    obtain ⟨hsv⟩ := hb
    exact henv.set hsv

theorem amountCheck_like (loc : Loc) {amount amount' : Option Surface.Expr}
    (h : Option.Rel (Surface.Expr.Like V) amount amount') :
    (amountCheck loc (amount.getD (.int loc "0" 10))).Like V
      (amountCheck loc (amount'.getD (.int loc "0" 10))) := by
  have hamount : (amount.getD (.int loc "0" 10)).Like V (amount'.getD (.int loc "0" 10)) := by
    cases h with
    | none => exact .int
    | some h => exact h
  exact .call .ident (.cons (.binary hamount (.call .ident .nil)) .nil)

namespace Evaluator.Tracked

variable (hev : ev.Tracked V) (hctx : ctx.Like V ctx') (hscope : scope.Like V scope')
include hev hctx hscope

omit hscope in
theorem payment (henv : env.Like V env') {amount amount' : Option Surface.Expr}
    (h : Option.Rel (Surface.Expr.Like V) amount amount') :
    Tracks V (Lifted.Like V Eq) (ev.payment ctx env amount)
      (fun fuel => (evaluator fuel).payment ctx' env' amount') := by
  cases h with
  | none => exact .pure (.plain rfl)
  | @some e e' he =>
    simp only [Evaluator.payment, he.loc_eq]
    refine .bind (hev.expr hctx henv he) fun amount amount' hamount => ?_
    refine .bind (hamount.value.requirePublic e'.loc) fun value value' hvalue => ?_
    rw [hvalue.checkType_eq]
    refine .bind (.same _) ?_
    rintro arg _ rfl
    exact .pure ⟨hamount.code, rfl⟩

theorem deadline {timeout timeout' : Option Timeout}
    (h : Option.Rel (Timeout.Like V) timeout timeout') :
    Tracks V (Lifted.Like V fun d d' => Option.Rel (Deadline.Like V) d.1 d'.1 ∧
        List.Forall₂ (Exit.Like V) d.2 d'.2)
      (ev.deadline ctx scope timeout) (fun fuel => (evaluator fuel).deadline ctx' scope' timeout') := by
  cases h with
  | none => exact .pure (.plain ⟨.none, .nil⟩)
  | some ht =>
    obtain ⟨hdelay, ⟨hhandler⟩⟩ := ht
    refine .bind (hev.expr hctx hscope.env hdelay) fun delay delay' hdelay => ?_
    refine .bind (hdelay.value.requirePublic _) fun value value' hvalue => ?_
    simp only [hvalue.checkType_eq]
    refine .bind (.same _) ?_
    rintro arg _ rfl
    refine .bind (hev.stmts hctx (fun _ => rfl) hscope hhandler) fun handler handler' hhandler => ?_
    exact .pure ⟨hdelay.code, .some (.mk hhandler.code), hhandler.value.exits⟩

omit hctx hscope in
theorem takeRound {canLift : Bool} {frames : List Frame} {localNames : Option (List String)}
    {joined : NameMap Var} {views views' : NameMap Bindings} (hviews : Views.Like V views views')
    (hscope : scope.Like V scope') (loc : Loc) {before before' : Code}
    (hbefore : before.Like V before') (roundLoc : Loc) {r r' : Round} (hround : r.Like V r')
    (hrest : Surface.Stmts.Like V rest rest') :
    Tracks V (Lifted.Like V (Outcome.Like V))
      (ev.takeRound ⟨.step ⟨joined, views⟩, canLift, frames, localNames⟩ ⟨joined, views⟩ loc scope
        before roundLoc r rest)
      (fun fuel => (evaluator fuel).takeRound ⟨.step ⟨joined, views'⟩, canLift, frames, localNames⟩
        ⟨joined, views'⟩ loc scope' before' roundLoc r' rest') := by
  have hctx : Ctx.Like V ⟨.step ⟨joined, views⟩, canLift, frames, localNames⟩
      ⟨.step ⟨joined, views'⟩, canLift, frames, localNames⟩ := .mk (.step hviews)
  obtain @⟨who, displayName, _, publish, pay, pay', timeout, timeout', hpay, htimeout⟩ := hround
  have hscope' := hscope
  obtain ⟨henv⟩ := hscope'
  refine .bind (.orFail (hviews.get? who)) fun view view' hview => ?_
  refine .bind (hctx.messages loc roundLoc hview _ .empty) ?_
  rintro ⟨messages, sent⟩ ⟨_, sent'⟩ ⟨rfl, hsent⟩
  refine .bind (R := Eq) ?_ ?_
  · unfold Ctx.addressOf
    rw [hctx.alloc_eq]
    exact .same _
  rintro ⟨join, whoVar⟩ _ rfl
  refine .bind (joinedSender_like roundLoc henv displayName whoVar) fun _ _ hsender => ?_
  refine .bind (henv.merge hsent loc) fun merged merged' hmerged => ?_
  have hshared := hmerged.withSender hsender
  refine .bind (hviews.traverse fun name old old' hold => ?_) fun after after' hafter => ?_
  · split
    · exact .pure (hold.withSender hsender)
    · exact .bind (hold.merge hsent loc) fun _ _ hreceived => .pure (hreceived.withSender hsender)
  have hown : Bindings.Like V ((after.get? who).getD {}) ((after'.get? who).getD {}) := by
    have hget := hafter.get? who
    generalize after.get? who = own at hget ⊢
    generalize after'.get? who = own' at hget ⊢
    cases hget with
    | none => exact .empty
    | some hown => exact hown
  refine .bind (hev.payment hctx hown hpay) ?_
  rintro ⟨payCode, amount⟩ ⟨payCode', _⟩ ⟨hpayCode, rfl⟩
  refine .bind (hev.expr hctx hshared (amountCheck_like roundLoc hpay)) fun check check' hcheck => ?_
  refine .bind (hev.deadline hctx hscope htimeout) fun late late' hlate => ?_
  refine .bind (hev.stmts (.mk (.consensus hshared hafter)) (fun _ => rfl) (.mk hshared) hrest) ?_
  intro next next' hnext
  have honly : Code.Like V (if payCode.isEmpty then [] else [.only loc who payCode])
      (if payCode'.isEmpty then [] else [.only loc who payCode']) := by
    cases hpayCode with
    | nil => exact .nil
    | cons hst hmore => exact .single (.only (.cons hst hmore))
  have hbody := hcheck.code.append hnext.code
  exact .pure ⟨((hbefore.append hlate.code).append honly).append
      (.single (.toConsensus hlate.value.1 hbody)),
    hnext.value.env, Exit.combine_like loc (Variation.rises_refl _) hlate.value.2 hnext.value.exits⟩

omit hctx hscope in
theorem commitRound {mode mode' : Mode} {canLift : Bool} {frames : List Frame}
    {localNames : Option (List String)} {opened opened' : Bindings} {joined : NameMap Var}
    {views views' : NameMap Bindings} (hopened : opened.Like V opened')
    (hviews : Views.Like V views views') (hscope : scope.Like V scope') (loc : Loc)
    {before before' : Code} (hbefore : before.Like V before')
    (hrest : Surface.Stmts.Like V rest rest') :
    Tracks V (Lifted.Like V (Outcome.Like V))
      (ev.commitRound ⟨mode, canLift, frames, localNames⟩ opened ⟨joined, views⟩ loc scope before
        rest)
      (fun fuel => (evaluator fuel).commitRound ⟨mode', canLift, frames, localNames⟩ opened'
        ⟨joined, views'⟩ loc scope' before' rest') := by
  have hlearned := hscope.env.difference hopened
  refine .bind (hviews.traverse fun _ _ _ hview => hview.merge hlearned loc) ?_
  intro after after' hafter
  refine .bind (hev.stmts (.mk (.step hafter)) (fun _ => rfl) hscope hrest) fun next next' hnext => ?_
  exact .pure ⟨hbefore.append (.single (.fromConsensus hnext.code)), hnext.value⟩

/-! ### Statements -/

theorem exprStmt (loc : Loc) {e e' : Surface.Expr} (he : e.Like V e')
    (hlast : Padding V (Surface.Stmt.Like V) .last rest rest') :
    Tracks V (Lifted.Like V (Outcome.Like V)) (ev.exprStmt ctx loc scope e rest)
      (fun fuel => (evaluator fuel).exprStmt ctx' loc scope' e' rest') := by
  have henv := hscope.env
  have hrest := hlast.free_of_last
  refine .bind (hev.expr hctx henv he) ?_
  rintro ⟨code, level, v⟩ ⟨code', level', v'⟩ ⟨hcode, ⟨_, hv⟩⟩
  have hother : Tracks V (Lifted.Like V (Outcome.Like V))
      (do v.expectNull loc; ev.extend ctx loc scope code scope.env rest)
      (fun fuel => do
        v'.expectNull loc
        (evaluator fuel).extend ctx' loc scope' code' scope'.env rest') := by
    rw [hv.expectNull_eq]
    exact .bind (.same _) fun _ _ _ => hev.extend hctx hscope loc hcode henv hrest
  obtain ⟨hmode⟩ := hctx
  cases hmode with
  | step hviews =>
    cases hv with
    | @prim _ p =>
      cases p with
      | exited =>
        -- the only expression that wants to stand at the end
        exact .bind (expectLast_like loc hlast) fun _ _ _ => .pure ⟨hcode, henv, .nil⟩
      | _ => exact hother
    | @round formLoc _ r r' hround =>
      have hstage : r.stage = r'.stage := by
        cases hround with
        | mk => rfl
      simp only [hstage]
      split
      · exact hev.takeRound hviews hscope loc hcode formLoc hround hrest
      · exact .fail
    | onlyDone hview hresult =>
      simp only [hresult.value.expectNull_eq]
      refine .bind (.same _) fun _ _ _ => ?_
      refine .bind (hev.stmts (.mk (.step (hviews.insert _ hview))) (fun _ => rfl) hscope hrest) ?_
      exact fun _ _ hnext => .pure (hnext.after (.single (.only hcode)))
    | _ => exact hother
  | consensus hopened hviews =>
    cases hv with
    | @prim _ p =>
      cases p with
      | committed => exact hev.commitRound hopened hviews hscope loc hcode hrest
      | _ => exact hother
    | _ => exact hother
  | _ => exact hother

theorem ret (loc : Loc) {value value' : Option Surface.Expr}
    (hvalue : Option.Rel (Surface.Expr.Like V) value value')
    (hlast : Padding V (Surface.Stmt.Like V) .last rest rest') :
    Tracks V (Lifted.Like V (Outcome.Like V)) (ev.ret ctx loc scope value rest)
      (fun fuel => (evaluator fuel).ret ctx' loc scope' value' rest') := by
  obtain @⟨slot?, style, inner, inner', _, henv⟩ := hscope
  have hdeliver : ∀ r r' : Lifted SecValue, r.Like V (SecValue.Like V) r' →
      Tracks V (Lifted.Like V (Outcome.Like V))
        (do
          let slot ← Eval.orFail slot? (.noReturn loc)
          Eval.ensure (style != .cannotReturn) (.cannotReturn loc)
          expectLast loc rest
          return { code := r.code ++ [.ret loc slot (some r.value.value)],
                   value := { env := inner, exits := [{ loc, value := r.value }] } })
        (fun _ => do
          let slot ← Eval.orFail slot? (.noReturn loc)
          Eval.ensure (style != .cannotReturn) (.cannotReturn loc)
          expectLast loc rest'
          return { code := r'.code ++ [.ret loc slot (some r'.value.value)],
                   value := { env := inner', exits := [{ loc, value := r'.value }] } }) := by
    intro r r' hr
    refine .bind (.same _) ?_
    rintro slot _ rfl
    refine .bind (.same _) fun _ _ _ => .bind (expectLast_like loc hlast) fun _ _ _ => ?_
    exact .pure ⟨hr.code.append (.single (.ret hr.value.value)), henv,
      .cons ⟨fun _ => rfl, hr.value⟩ .nil⟩
  cases hvalue with
  | none => exact .bind (.pure (.plain (.pub (.null fun _ => rfl)))) hdeliver
  | some he => exact .bind (hev.expr hctx henv he) hdeliver

end Evaluator.Tracked

/-- Without depth there is no result. -/
theorem fails_exhausted {α : Type} : (throw .outOfFuel : Eval α).Fails :=
  fun _ _ _ => yields_outOfFuel

/-- Variables are declared for a loop, or there is no result. -/
theorem evalStmts_varDecl (ev : Evaluator) (ctx : Ctx) (loc : Loc) (scope : Scope) (stmtLoc : Loc)
    (ds : List Surface.Decl) (rest : List Surface.Stmt) :
    (ev.evalStmts ctx loc scope (.varDecl stmtLoc ds :: rest)).Fails ∨
      ∃ invariantLoc nameLoc invariant loopLoc cond body after,
        rest = .methodCall invariantLoc (.ident nameLoc "invariant") invariant
          :: .loop loopLoc cond body :: after := by
  unfold Evaluator.evalStmts
  split
  all_goals first
    | cases ‹_ :: _ = _›; exact .inr ⟨_, _, _, _, _, _, _, rfl⟩
    | cases ‹_ :: _ = _›; exact .inl fails_fail
    | cases ‹_ :: _ = _›

namespace Evaluator.Tracked

/-- The first statement of two lists, with what follows it. -/
theorem evalStmts_cons (hev : ev.Tracked V) (hctx : ctx.Like V ctx') (hscope : scope.Like V scope')
    (loc loc' : Loc) {s s' : Surface.Stmt} (hs : s.Like V s')
    (hrest : Padding V (Surface.Stmt.Like V) (Surface.Place.free.after s) rest rest') :
    Tracks V (Lifted.Like V (Outcome.Like V)) (ev.evalStmts ctx loc scope (s :: rest))
      (fun fuel => (evaluator fuel).evalStmts ctx' loc' scope' (s' :: rest')) := by
  have henv := hscope.env
  cases hs with
  | block hbody =>
    obtain ⟨hstmts⟩ := hbody
    refine .bind (hev.stmts hctx (fun _ => rfl) hscope hstmts) fun first first' hfirst => ?_
    exact hev.continueWith hctx hscope _ hfirst hrest
  | constDecl hds =>
    refine .bind (hev.decls hctx henv hds) fun bound bound' hbound => ?_
    refine .bind (henv.merge hbound.value _) fun inner inner' hinner => ?_
    exact hev.extend hctx hscope _ hbound.code hinner hrest
  | @varDecl stmtLoc ds _ hds =>
    obtain hfails | ⟨_, _, _, _, _, _, _, rfl⟩ :=
      evalStmts_varDecl ev ctx loc scope stmtLoc ds rest
    · exact .of_fails hfails
    · obtain ⟨_, _, rfl, hinvariant, hmore⟩ := hrest.of_fixed rfl
      obtain ⟨_, _, rfl, hloop, hafter⟩ := Padding.of_loop hmore
      cases hinvariant with
      | methodCall hname hinvariant =>
        cases hname
        cases hloop with
        | loop hcond hbody => exact hev.loop hctx hscope _ _ _ hds hinvariant hcond hbody hafter
  | function hbody =>
    refine .bind (.same _) ?_
    rintro name _ rfl
    refine .bind (.same _) ?_
    rintro tag _ rfl
    refine .bind (henv.bind (.pub (.closure hbody henv)) _ name) fun inner inner' hinner => ?_
    exact hev.extend hctx hscope _ .nil hinner hrest
  | branch hcond hTrue hFalse => exact hev.branch hctx hscope _ hcond hTrue hFalse hrest
  | empty hplace => exact hev.stmts hctx hplace hscope hrest
  | expr he => exact hev.exprStmt hctx hscope _ he hrest
  | @assign _ op _ _ _ hrhs =>
    cases op with
    | assign =>
      cases rest with
      | nil => exact .fail
      | cons next rest =>
        cases next with
        | cont =>
          obtain ⟨_, _, rfl, hcont, hlast⟩ := hrest.of_fixed rfl
          cases hcont
          exact hev.continueLoop hctx hscope _ _ _ hrhs hlast
        | _ => exact .fail
    | _ => exact .fail
  | methodCall hcallee hargs => exact hev.exprStmt hctx hscope _ (.call hcallee hargs) hrest
  | ret hvalue => exact hev.ret hctx hscope _ hvalue hrest
  | cont => exact hev.continueLoop hctx hscope _ _ _ (.array .nil) hrest
  | loop | foreign => exact .fail

theorem evalStmts (hev : ev.Tracked V) (hctx : ctx.Like V ctx') (hscope : scope.Like V scope')
    {loc loc' : Loc} (hloc : V = .levels → loc = loc') {L R : List Surface.Stmt}
    (h : Padding V (Surface.Stmt.Like V) .free L R) :
    Tracks V (Lifted.Like V (Outcome.Like V)) (ev.evalStmts ctx loc scope L)
      (fun fuel => (evaluator fuel).stmts ctx' loc' scope' R) := by
  have hzero : ∀ R loc', ((evaluator 0).stmts ctx' loc' scope' R).Fails :=
    fun _ _ => fails_exhausted
  -- each new empty statement moves the place of the second list
  generalize hp : Surface.Place.free = p at h
  induction h generalizing loc' with
  | nil =>
    obtain @⟨_, style, _, _, _, henv⟩ := hscope
    refine .of_succ (hzero _ _) (.pure (.plain ⟨henv, ?_⟩))
    simp only
    split
    · exact .cons ⟨hloc, .pub (.null hloc)⟩ .nil
    · exact .nil
  | drop hV h =>
    subst hp
    exact hev.stmts hctx (by simp [hV]) hscope h
  | insert hV _ _ ih => exact .of_succ (hzero _ _) (ih (by simp [hV]) hp)
  | cons hs hrest =>
    subst hp
    exact .of_succ (hzero _ _) (hev.evalStmts_cons hctx hscope loc loc' hs hrest)

end Evaluator.Tracked

/-- Evaluation of any depth tracks evaluation where things are alike. -/
theorem evaluator_tracked (fuel : Nat) : (evaluator fuel).Tracked V := by
  induction fuel with
  | zero => exact ⟨fun _ _ _ => .of_fails fails_exhausted, fun _ _ _ _ => .of_fails fails_exhausted,
      evaluator_delimits 0⟩
  | succ fuel ih =>
    refine ⟨fun hctx henv he => .of_succ fails_exhausted ?_, fun hctx hloc hscope h => ?_,
      evaluator_delimits _⟩
    · exact ih.evalExpr hctx henv he
    · exact ih.evalStmts hctx hscope hloc h

end Choreography
