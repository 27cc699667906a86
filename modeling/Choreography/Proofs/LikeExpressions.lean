import Choreography.Proofs.LikeOperations

/-!
Expressions in two runs that are compared. The second run may have to go deeper, because each empty
statement that it passes takes a level of depth. Where a body has one way out, whether its return is
delimited depends on the sameness of two values, and sameness looks at levels; but the two values are
one, so the answer is the same at all levels.
-/

namespace Choreography

open Eval Ir

/-- In contexts, environments and text that are alike, evaluation gives results that are, and it
delimits jumps. -/
structure Evaluator.Tracked (V : Variation) (ev : Evaluator) : Prop where
  expr {ctx ctx' : Ctx} {env env' : Bindings} {e e' : Surface.Expr} :
    ctx.Like V ctx' → env.Like V env' → e.Like V e' →
    Tracks V (Lifted.Like V (SecValue.Like V)) (ev.expr ctx env e)
      (fun fuel => (evaluator fuel).expr ctx' env' e')
  stmts {ctx ctx' : Ctx} {loc loc' : Loc} {scope scope' : Scope} {L R : List Surface.Stmt} :
    ctx.Like V ctx' → (V = .levels → loc = loc') → scope.Like V scope' →
    Surface.Stmts.Like V L R →
    Tracks V (Lifted.Like V (Outcome.Like V)) (ev.stmts ctx loc scope L)
      (fun fuel => (evaluator fuel).stmts ctx' loc' scope' R)
  delimits : ev.Delimits

variable {V : Variation} {loc : Loc} {ctx ctx' : Ctx} {env env' : Bindings} {v v' : Value}
  {args args' : List SecValue} {es es' : List Surface.Expr} {ev : Evaluator}

theorem Evaluator.Tracked.exprs (hev : ev.Tracked V) (hctx : ctx.Like V ctx') (henv : env.Like V env')
    (hes : List.Forall₂ (Surface.Expr.Like V) es es') :
    Tracks V (Lifted.Like V (List.Forall₂ (SecValue.Like V))) (ev.exprs ctx env es)
      (fun fuel => (evaluator fuel).exprs ctx' env' es') := by
  induction hes with
  | nil => exact .pure (.plain .nil)
  | cons he _ ih =>
    refine .bind (hev.expr hctx henv he) fun r r' hr => .bind ih fun rs rs' hrs => ?_
    exact .pure ⟨hr.code.append hrs.code, .cons hr.value hrs.value⟩

/-! ### Choice -/

theorem Ctx.Like.joinBranches (h : ctx.Like V ctx') (loc : Loc) (cond : Var)
    (trueLoc falseLoc : Loc) {t t' f f' : Lifted SecValue}
    (ht : t.Like V (SecValue.Like V) t') (hf : f.Like V (SecValue.Like V) f') :
    Tracks V (fun p p' => p.1.Like V p'.1 ∧ p.2 = p'.2)
      (ctx.joinBranches loc cond trueLoc falseLoc t f)
      (fun _ => ctx'.joinBranches loc cond trueLoc falseLoc t' f') := by
  unfold Ctx.joinBranches
  rw [h.alloc_eq, h.localName_eq, ht.value.value.typeOf_eq, hf.value.value.typeOf_eq]
  refine .bind (.same _) ?_
  rintro slot _ rfl
  refine .bind (.same _) ?_
  rintro ⟨trueType, _⟩ _ rfl
  refine .bind (.same _) ?_
  rintro ⟨falseType, _⟩ _ rfl
  refine .bind (.same _) ?_
  rintro type _ rfl
  refine .pure ⟨.prompt (Code.Like.single (.branch ?_ ?_)), rfl⟩
  · exact ht.code.append (.single (.ret ht.value.value))
  · exact hf.code.append (.single (.ret hf.value.value))

theorem Evaluator.Tracked.ternary (hev : ev.Tracked V) (hctx : ctx.Like V ctx')
    (henv : env.Like V env') (loc : Loc) {cond cond' onTrue onTrue' onFalse onFalse' : Surface.Expr}
    (hcond : cond.Like V cond') (hTrue : onTrue.Like V onTrue') (hFalse : onFalse.Like V onFalse') :
    Tracks V (Lifted.Like V (SecValue.Like V)) (ev.ternary ctx loc env cond onTrue onFalse)
      (fun fuel => (evaluator fuel).ternary ctx' loc env' cond' onTrue' onFalse') := by
  refine .bind (hev.expr hctx henv hcond) fun c c' hc => ?_
  refine .bind (hev.expr hctx henv hTrue) fun t t' ht => ?_
  refine .bind (hev.expr hctx henv hFalse) fun f f' hf => ?_
  have hlevel : V.Rises (Level.meetAll [c.value.level, t.value.level, f.value.level])
      (Level.meetAll [c'.value.level, t'.value.level, f'.value.level]) :=
    .meetAll (.cons hc.value.level (.cons ht.value.level (.cons hf.value.level .nil)))
  simp only [hc.value.value.condition?_eq, codeIsPure_like _ _ ht.code,
    codeIsPure_like _ _ hf.code, hTrue.loc_eq, hFalse.loc_eq]
  split
  · rename_i b _
    cases b with
    | true => exact .pure ⟨hc.code.append ht.code, ht.value.taint hlevel⟩
    | false => exact .pure ⟨hc.code.append hf.code, hf.value.taint hlevel⟩
  · split
    · have hargs := List.Forall₂.cons hc.value (.cons ht.value (.cons hf.value .nil))
      refine .bind (hctx.applyOp loc .ifThenElse hargs) fun _ _ hselected => ?_
      exact .pure ⟨((hc.code.append ht.code).append hf.code).append hselected.code,
        hselected.value.taint hlevel⟩
    · refine .bind (hctx.joinBranches loc _ _ _ ht hf) ?_
      rintro ⟨prompt, result⟩ ⟨prompt', _⟩ ⟨hprompt, rfl⟩
      exact .pure ⟨hc.code.append (.single hprompt), .mk hlevel .var⟩
  · exact .fail

/-! ### Application -/

/-- Whether a return is cut off does not depend on what varies. Where levels vary, this is so because
the last return is that of the result. -/
theorem unprompted_like {code code' : Code} {slot : Nat} {result result' : Value} (loc : Loc)
    (hcode : code.Like V code') (hresult : result.Like V result')
    (hlast : V = .levels → ∀ retLoc slot' v, code.getLast? = some (.ret retLoc slot' (some v)) →
      slot' = slot ∧ v.same result = true)
    (hlast' : V = .levels → ∀ retLoc slot' v, code'.getLast? = some (.ret retLoc slot' (some v)) →
      slot' = slot ∧ v.same result' = true) :
    Code.Like V (Code.unprompted code loc slot result) (Code.unprompted code' loc slot result') := by
  have hend := forall₂_getLast? hcode
  have hprompt : Code.Like V [.prompt loc slot none code] [.prompt loc slot none code'] :=
    .single (.prompt hcode)
  unfold Code.unprompted
  revert hlast hlast' hend
  generalize code.getLast? = last
  generalize code'.getLast? = last'
  intro hlast hlast' hend
  cases hend with
  | none => exact .nil
  | some hst =>
    cases hst with
    | @ret _ _ v v' hv =>
      have hsame : v.same result = v'.same result' := by
        cases V with
        | levels => rw [(hlast rfl _ _ _ rfl).2, (hlast' rfl _ _ _ rfl).2]
        | padding => exact Value.same_like _ _ _ _ hv hresult
      simp only [hsame]
      split
      · exact forall₂_dropLast hcode
      · exact hprompt
    | _ => exact hprompt

theorem Exit.types_like {exits exits' : List Exit} (h : List.Forall₂ (Exit.Like V) exits exits') :
    Tracks V (List.Forall₂ fun t t' => t.2 = t'.2) (Exit.types exits) (fun _ => Exit.types exits') := by
  induction h with
  | nil => exact .pure .nil
  | cons hexit _ ih =>
    refine .bind (.orFail_eq hexit.value.value.typed?_eq) ?_
    rintro typed _ rfl
    exact .bind ih fun _ _ hrest => .pure (.cons rfl hrest)

/-- The places that types come from do not matter to what they join to. -/
theorem Ty.joinAll_like (loc : Loc) {types types' : List (Loc × Ty)}
    (h : List.Forall₂ (fun t t' => t.2 = t'.2) types types') :
    Tracks V Eq (Ty.joinAll loc types) (fun _ => Ty.joinAll loc types') := by
  have hjoin : ∀ {rest rest' : List (Loc × Ty)}, List.Forall₂ (fun t t' => t.2 = t'.2) rest rest' →
      ∀ {first first' : Loc × Ty}, first.2 = first'.2 →
        Tracks V Eq (Ty.joinRest loc first rest) (fun _ => Ty.joinRest loc first' rest') := by
    intro rest rest' h
    induction h with
    | nil => exact fun hfirst => .pure hfirst
    | cons hnext _ ih =>
      intro first first' hfirst
      refine .bind (R := Eq) ?_ fun t t' ht => ih ht
      unfold Ty.join
      rw [hfirst, hnext]
      split
      · exact .pure rfl
      · exact .fail
  cases h with
  | nil => exact .fail
  | cons hfirst hrest => exact hjoin hrest hfirst

theorem exits_values_like {exits exits' : List Exit}
    (h : List.Forall₂ (Exit.Like V) exits exits') :
    List.Forall₂ (SecValue.Like V) (exits.map (·.value)) (exits'.map (·.value)) := by
  rw [List.forall₂_map_left_iff, List.forall₂_map_right_iff]
  exact h.imp fun _ _ hexit => hexit.value

/-- The return that ends a body delivers what is recorded for its only way out. -/
theorem Lifted.Jumps.last_same {scope : Scope} {slot : Nat} {body : Lifted Outcome} {exit : Exit}
    (h : body.Jumps scope) (hslot : scope.slot = some slot) (hone : body.value.exits = [exit])
    (hsame : exit.value.value.same exit.value.value = true) :
    ∀ retLoc slot' v, body.code.getLast? = some (.ret retLoc slot' (some v)) →
      slot' = slot ∧ v.same exit.value.value = true := by
  intro retLoc slot' v hlast
  obtain ⟨hreturned, rfl, _⟩ := h.last_returned hslot hone hlast
  exact ⟨hreturned, hsame⟩

theorem Lifted.Jumps.no_return {scope : Scope} {body : Lifted Outcome} (h : body.Jumps scope)
    (hnone : body.value.exits = []) (retLoc : Loc) (slot' : Nat) (v : Value) :
    body.code.getLast? ≠ some (.ret retLoc slot' (some v)) := by
  intro hlast
  have hreturned := h.returned
  rw [hnone, List.map_nil, List.sublist_nil, codeReturned_eq_nil] at hreturned
  have hret := hreturned _ (List.mem_of_getLast? hlast)
  simp [Stmt.returned] at hret

theorem Ctx.Like.joinExits (h : ctx.Like V ctx') {scope scope' : Scope} {slot : Nat}
    {body body' : Lifted Outcome} (loc : Loc) (hbody : body.Like V (Outcome.Like V) body')
    (hjumps : body.Jumps scope) (hjumps' : body'.Jumps scope') (hslot : scope.slot = some slot)
    (hslot' : scope'.slot = some slot) :
    Tracks V (Lifted.Like V (Applied.Like V)) (ctx.joinExits loc slot body)
      (fun _ => ctx'.joinExits loc slot body') := by
  obtain ⟨code, envOut, exits⟩ := body
  obtain ⟨code', envOut', exits'⟩ := body'
  have hexits := hbody.value.exits
  unfold Ctx.joinExits
  simp only at hexits ⊢
  rcases hexits with _ | ⟨hexit, _ | ⟨hsecond, hrest⟩⟩
  · have hnull : (Value.null loc).Like V (.null loc) := .null fun _ => rfl
    refine .pure ⟨unprompted_like loc hbody.code hnull ?_ ?_, ⟨hbody.value.env, .pub hnull⟩⟩
    · exact fun _ _ _ _ hlast => absurd hlast (hjumps.no_return rfl _ _ _)
    · exact fun _ _ _ _ hlast => absurd hlast (hjumps'.no_return rfl _ _ _)
  · have hv := hexit.value.value
    refine .pure ⟨unprompted_like loc hbody.code hv ?_ ?_, ⟨hbody.value.env, hexit.value⟩⟩
    · rintro rfl
      exact hjumps.last_same hslot rfl (Value.same_self_like _ _ hv).1
    · rintro rfl
      exact hjumps'.last_same hslot' rfl (Value.same_self_like _ _ hv).2
  · have hall := List.Forall₂.cons hexit (.cons hsecond hrest)
    refine .bind (Exit.types_like hall) fun types types' htypes => ?_
    refine .bind (Ty.joinAll_like loc htypes) ?_
    rintro type _ rfl
    rw [h.localName_eq]
    exact .pure ⟨.single (.prompt hbody.code),
      ⟨hbody.value.env, .mk (levelOf_like (exits_values_like hall)) .var⟩⟩

namespace Evaluator.Tracked

theorem applyClosure (hev : ev.Tracked V) (hctx : ctx.Like V ctx') (henv : env.Like V env')
    (loc cloLoc : Loc) (name : Option String) (formals : List String) {body body' : Surface.Block}
    (hbody : body.Like V body') (hargs : List.Forall₂ (SecValue.Like V) args args') :
    Tracks V (Lifted.Like V (Applied.Like V))
      (ev.applyClosure ctx loc ⟨cloLoc, name, formals, body, env⟩ args)
      (fun fuel => (evaluator fuel).applyClosure ctx' loc ⟨cloLoc, name, formals, body', env'⟩
        args') := by
  obtain ⟨hstmts⟩ := hbody
  unfold Evaluator.applyClosure
  simp only [hctx.alloc_eq, hargs.length_eq]
  refine .bind (.same _) ?_
  rintro slot _ rfl
  refine .bind (.same _) fun _ _ _ => ?_
  refine .bind (Bindings.Like.bindAll cloLoc (zip_like hargs) henv) fun bound bound' hbound => ?_
  obtain ⟨hmode⟩ := hctx
  refine .bind (hev.stmts (.mk hmode) (fun _ => rfl) (.mk hbound) hstmts).with_runs ?_
  rintro r r' ⟨hr, ⟨_, _, hrun⟩, ⟨_, _, _, hrun'⟩⟩
  exact Ctx.Like.joinExits (.mk hmode) _ hr (hev.delimits.stmts hrun)
    ((evaluator_delimits _).stmts hrun') rfl rfl

theorem applyValues (hev : ev.Tracked V) (hctx : ctx.Like V ctx') (henv : env.Like V env')
    (loc : Loc) (hv : v.Like V v') (hargs : List.Forall₂ (SecValue.Like V) args args') :
    Tracks V (Lifted.Like V (Applied.Like V)) (ev.applyValues ctx loc env v args)
      (fun fuel => (evaluator fuel).applyValues ctx' loc env' v' args') := by
  cases hv with
  | prim =>
    exact .bind (hctx.applyPrim henv loc _ hargs) fun _ _ hr => .pure ⟨hr.code, ⟨henv, hr.value⟩⟩
  | app => exact .of_fails fails_fail.bind
  | closure hbody hcaptured => exact hev.applyClosure hctx hcaptured loc _ _ _ hbody hargs
  | _ => exact .fail

end Evaluator.Tracked

/-! ### Forms -/

theorem interfaceOf_like (loc : Loc) {fields fields' : List (String × SecValue)}
    (h : List.Forall₂ (Binding.Like V) fields fields') :
    Tracks V Eq (interfaceOf loc fields) (fun _ => interfaceOf loc fields') := by
  induction h with
  | nil => exact .pure rfl
  | cons hb _ ih =>
    obtain ⟨@⟨level, level', _, _, hlevel, hv⟩⟩ := hb
    cases level with
    | secret => cases hv <;> exact .fail
    | pub =>
      cases hv with
      | type =>
        cases level' with
        | secret => exact .fail_right hlevel.levels
        | pub =>
          refine .bind ih ?_
          rintro methods _ rfl
          exact .pure rfl
      | _ => exact .fail

theorem participantOf_like (loc : Loc) (h : v.Like V v') :
    Tracks V Eq (participantOf loc v) (fun _ => participantOf loc v') := by
  unfold participantOf
  split
  · cases h with
    | tuple helems =>
      obtain _ | ⟨hwho, _ | ⟨hinterface, _ | _⟩⟩ := helems
      cases hwho with
      | bytes =>
        cases hinterface with
        | object _ hfields =>
          refine .bind (interfaceOf_like _ hfields.entries) ?_
          rintro interface _ rfl
          exact .pure rfl
  · exact .fail

theorem participantsOf_like (loc : Loc) {specs specs' : List Value}
    (h : List.Forall₂ (Value.Like V) specs specs') :
    Tracks V Eq (participantsOf loc specs) (fun _ => participantsOf loc specs') := by
  induction h with
  | nil => exact .pure rfl
  | cons hspec _ ih =>
    refine .bind (participantOf_like loc hspec) ?_
    rintro p _ rfl
    refine .bind (.same _) ?_
    rintro tag _ rfl
    refine .bind ih ?_
    rintro rest _ rfl
    exact .pure rfl

/-- Names are published as they are written. -/
theorem publishedNames_like (h : List.Forall₂ (Surface.Expr.Like V) es es') :
    Tracks V Eq (publishedNames es) (fun _ => publishedNames es') := by
  induction h with
  | nil => exact .pure rfl
  | cons he _ ih =>
    cases he with
    | ident =>
      refine .bind ih ?_
      rintro names _ rfl
      exact .pure rfl
    | _ => exact .fail

theorem Round.fill_like {r r' : Round} (hround : r.Like V r') (loc : Loc) (stage : Stage)
    (hargs : List.Forall₂ (Surface.Expr.Like V) es es') :
    Tracks V (Round.Like V) (r.fill loc stage es) (fun _ => r'.fill loc stage es') := by
  have hsome : ∀ {α β : Type} {R : α → β → Prop} {o : Option α} {o' : Option β}, Option.Rel R o o' →
      o.isNone = o'.isNone := by
    rintro _ _ _ _ _ (_ | _) <;> rfl
  obtain ⟨hpay, htimeout⟩ := hround
  cases stage with
  | publish =>
    refine .bind (.same _) fun _ _ _ => .bind (publishedNames_like hargs) ?_
    rintro names _ rfl
    exact .pure (.mk hpay htimeout)
  | pay =>
    refine .bind (.ensure (hsome hpay)) fun _ _ _ => ?_
    rcases hargs with _ | ⟨hamount, _ | _⟩
    · exact .fail
    · exact .pure (.mk (.some hamount) htimeout)
    · exact .fail
  | timeout =>
    refine .bind (.ensure (hsome htimeout)) fun _ _ _ => ?_
    rcases hargs with _ | ⟨hdelay, _ | ⟨hhandler, _ | _⟩⟩
    · exact .fail
    · exact .fail
    · cases hhandler with
      | @arrow _ formals _ _ hbody =>
        cases formals with
        | nil => exact .pure (.mk hpay (.some (.mk hdelay hbody)))
        | cons => exact .fail
      | _ => exact .fail
    · cases hhandler with
      | @arrow _ formals => cases formals <;> exact .fail
      | _ => exact .fail

namespace Evaluator

theorem sharedArgs_like (loc : Loc) (henv : env.Like V env') (formals : List String) :
    Tracks V (List.Forall₂ (SecValue.Like V)) (sharedArgs loc env formals)
      (fun _ => sharedArgs loc env' formals) := by
  induction formals with
  | nil => exact .pure .nil
  | cons formal formals ih =>
    refine .bind (henv.identify loc formal) fun sv sv' hsv => .bind ih fun svs svs' hsvs => ?_
    exact .pure (.cons hsv hsvs)

namespace Tracked

theorem appForm (hev : ev.Tracked V) (hctx : ctx.Like V ctx') (henv : env.Like V env') (loc : Loc)
    (hargs : List.Forall₂ (Surface.Expr.Like V) es es') :
    Tracks V (Lifted.Like V (SecValue.Like V)) (ev.appForm ctx loc env es)
      (fun fuel => (evaluator fuel).appForm ctx' loc env' es') := by
  unfold Evaluator.appForm
  rw [hctx.expectMode_eq loc _ hctx.mode.isModule_eq]
  refine .bind (.same _) fun _ _ _ => ?_
  split
  · obtain _ | ⟨hoptions, _ | ⟨hparts, _ | ⟨hbody, _ | _⟩⟩⟩ := hargs
    cases hbody with
    | arrow hbody =>
      refine .bind (hev.exprs hctx henv (.cons hoptions (.cons hparts .nil))) ?_
      rintro ⟨code, vs⟩ ⟨code', vs'⟩ ⟨hcode, hvs⟩
      simp only at hcode hvs ⊢
      split
      · obtain _ | ⟨⟨_, hoptions⟩, _ | ⟨⟨_, hspecs⟩, _ | _⟩⟩ := hvs
        cases hoptions with
        | object _ hoptions =>
          cases hspecs with
          | tuple hspecs =>
            refine .bind (participantsOf_like loc hspecs) ?_
            rintro parts _ rfl
            refine .bind (.same _) fun _ _ _ => ?_
            have hparts : List.Forall₂ (SecValue.Like V)
                (parts.map fun p => Labelled.secret (Value.participant p.1 p.2))
                (parts.map fun p => Labelled.secret (Value.participant p.1 p.2)) := by
              refine List.forall₂_same.2 fun sv hsv => ?_
              obtain ⟨p, _, rfl⟩ := List.mem_map.1 hsv
              exact .mk (Variation.rises_refl _) .participant
            refine .bind (Bindings.Like.bindAll loc (zip_like hparts) henv) fun _ _ hbound => ?_
            refine .bind (.same _) ?_
            rintro tag _ rfl
            exact .pure ⟨hcode, .pub (.app hoptions hbody hbound)⟩
      · exact .fail
  · exact .fail

theorem onlyForm (hev : ev.Tracked V) (hctx : ctx.Like V ctx') (henv : env.Like V env') (loc : Loc)
    (who : String) (hargs : List.Forall₂ (Surface.Expr.Like V) es es') :
    Tracks V (Lifted.Like V (SecValue.Like V)) (ev.onlyForm ctx loc env who es)
      (fun fuel => (evaluator fuel).onlyForm ctx' loc env' who es') := by
  obtain ⟨hmode⟩ := hctx
  cases hmode with
  | step hviews =>
    refine .bind (.orFail (hviews.get? who)) fun view view' hview => ?_
    refine .bind (hev.exprs (.mk .pureLocal) hview hargs) ?_
    rintro ⟨code, vs⟩ ⟨code', vs'⟩ ⟨hcode, hvs⟩
    simp only at hcode hvs ⊢
    split
    · obtain _ | ⟨⟨_, hmade⟩, _ | _⟩ := hvs
      cases hmade with
      | closure hbody hcaptured =>
        refine .bind (sharedArgs_like loc henv _) fun shared shared' hshared => ?_
        refine .bind (hev.applyValues (.mk .localStep) hview loc (.closure hbody hcaptured) hshared) ?_
        intro applied applied' happlied
        refine .bind (.same _) ?_
        rintro tag _ rfl
        exact .pure ⟨hcode.append happlied.code,
          .pub (.onlyDone (happlied.value.env.without _) happlied.value.value)⟩
    · exact .fail
  | _ => exact .fail

theorem apply (hev : ev.Tracked V) (hctx : ctx.Like V ctx') (henv : env.Like V env') (loc : Loc)
    (hv : v.Like V v') (hrands : List.Forall₂ (Surface.Expr.Like V) es es') :
    Tracks V (Lifted.Like V (SecValue.Like V)) (ev.apply ctx loc env v es)
      (fun fuel => (evaluator fuel).apply ctx' loc env' v' es') := by
  have hcall : Tracks V (Lifted.Like V (SecValue.Like V))
      (do
        let args ← ev.exprs ctx env es
        let result ← ev.applyValues ctx loc env v args.value
        return { code := args.code ++ result.code, value := result.value.value })
      (fun fuel => do
        let args ← (evaluator fuel).exprs ctx' env' es'
        let result ← (evaluator fuel).applyValues ctx' loc env' v' args.value
        return { code := args.code ++ result.code, value := result.value.value }) := by
    refine .bind (hev.exprs hctx henv hrands) fun args args' hargs => ?_
    refine .bind (hev.applyValues hctx henv loc hv hargs.value) fun result result' hresult => ?_
    exact .pure ⟨hargs.code.append hresult.code, hresult.value.value⟩
  cases hv with
  | prim => exact hcall
  | app => exact hcall
  | closure => exact hcall
  | appForm => exact hev.appForm hctx henv loc hrands
  | only => exact hev.onlyForm hctx henv loc _ hrands
  | @round formLoc _ r r' hround =>
    have hstage : r.stage = r'.stage := by
      cases hround with
      | mk => rfl
    unfold Evaluator.apply Evaluator.applyForm
    simp only [hctx.expectMode_eq loc _ hctx.mode.isStep_eq, hstage]
    refine .bind (.same _) fun _ _ _ => .bind (.same _) ?_
    rintro stage _ rfl
    refine .bind (Round.fill_like hround loc stage hrands) fun next next' hnext => ?_
    refine .bind (.same _) ?_
    rintro tag _ rfl
    exact .pure (.plain (.pub (.round hnext)))
  | _ => exact .fail

end Tracked

end Evaluator

/-! ### Object literals -/

/-- Object literals that have been read up to the same property. A name is bound once. -/
structure PartialObject.Like (V : Variation) (o o' : PartialObject) : Prop where
  code : o.code.Like V o'.code
  level : V.Rises o.level o'.level
  fields : o.fields.Like V o'.fields
  distinct : o.fields.Distinct

namespace Evaluator.Tracked

variable (hev : ev.Tracked V) (hctx : ctx.Like V ctx') (henv : env.Like V env')
include hev hctx henv

theorem propertyName (loc : Loc) {name name' : Surface.PropertyName} (hname : name.Like V name') :
    Tracks V (Lifted.Like V fun n n' => V.Rises n.1 n'.1 ∧ n.2 = n'.2)
      (ev.propertyName ctx env loc name)
      (fun fuel => (evaluator fuel).propertyName ctx' env' loc name') := by
  cases hname with
  | ident | string => exact .pure (.plain ⟨Variation.rises_refl _, rfl⟩)
  | number => exact .fail
  | computed hkey =>
    refine .bind (hev.expr hctx henv hkey) ?_
    rintro ⟨code, _⟩ ⟨code', _⟩ ⟨hcode, ⟨hlevel, hv⟩⟩
    cases hv with
    | bytes => exact .pure ⟨hcode, hlevel, rfl⟩
    | _ => exact .fail

theorem property {object object' : PartialObject} (h : object.Like V object')
    {p p' : Surface.Property} (hp : p.Like V p') :
    Tracks V (PartialObject.Like V) (ev.property ctx env object p)
      (fun fuel => (evaluator fuel).property ctx' env' object' p') := by
  cases hp with
  | value hname hvalue =>
    refine .bind (hev.propertyName hctx henv _ hname) ?_
    rintro ⟨ncode, level, n⟩ ⟨ncode', level', _⟩ ⟨hncode, hlevel, rfl⟩
    refine .bind (hev.expr hctx henv hvalue) fun v v' hv => ?_
    refine .bind (h.fields.bind hv.value _ n).with_runs ?_
    rintro fields fields' ⟨hfields, ⟨_, _, hrun⟩, _⟩
    exact .pure ⟨(h.code.append hncode).append hv.code, h.level.meet hlevel, hfields,
      Bindings.bind_distinct h.distinct hrun⟩
  | shorthand =>
    refine .bind (henv.identify _ _) fun v v' hv => ?_
    refine .bind (h.fields.bind hv _ _).with_runs ?_
    rintro fields fields' ⟨hfields, ⟨_, _, hrun⟩, _⟩
    exact .pure ⟨h.code, h.level, hfields, Bindings.bind_distinct h.distinct hrun⟩
  | spread hbase =>
    refine .bind (hev.expr hctx henv hbase) ?_
    rintro ⟨code, _⟩ ⟨code', _⟩ ⟨hcode, ⟨hlevel, hv⟩⟩
    cases hv with
    | object _ hmore =>
      refine .bind (h.fields.merge hmore _).with_runs ?_
      rintro fields fields' ⟨hfields, ⟨_, _, hrun⟩, _⟩
      exact .pure ⟨h.code.append hcode, h.level.meet hlevel, hfields,
        Bindings.bindAll_distinct h.distinct hrun⟩
    | _ => exact .fail
  | method => exact .fail

theorem properties {ps ps' : List Surface.Property}
    (hps : List.Forall₂ (Surface.Property.Like V) ps ps') :
    ∀ {object object' : PartialObject}, object.Like V object' →
      Tracks V (PartialObject.Like V) (ev.properties ctx env object ps)
        (fun fuel => (evaluator fuel).properties ctx' env' object' ps') := by
  induction hps with
  | nil => exact fun h => .pure h
  | cons hp _ ih => exact fun h => .bind (hev.property hctx henv h hp) fun _ _ h => ih h

/-! ### Expressions -/

omit hev in
theorem makeClosure (loc : Loc) (label : String) (formals : List String)
    {body body' : Surface.Block} (hbody : body.Like V body') :
    Tracks V (Lifted.Like V (SecValue.Like V)) (ctx.makeClosure loc env label formals body)
      (fun _ => ctx'.makeClosure loc env' label formals body') := by
  unfold Ctx.makeClosure
  rw [hctx.localName_eq]
  refine .bind (.same _) ?_
  rintro tag _ rfl
  exact .pure (.plain (.pub (.closure hbody henv)))

theorem evalExpr {e e' : Surface.Expr} (he : e.Like V e') :
    Tracks V (Lifted.Like V (SecValue.Like V)) (ev.evalExpr ctx env e)
      (fun fuel => (evaluator fuel).evalExpr ctx' env' e') := by
  cases he with
  | ident => exact .bind (henv.identify _ _) fun _ _ hsv => .pure (.plain hsv)
  | int => exact .pure (.plain (.pub .int))
  | string => exact .pure (.plain (.pub .bytes))
  | bool => exact .pure (.plain (.pub .bool))
  | null => exact .pure (.plain (.pub (.null fun _ => rfl)))
  | array helems =>
    refine .bind (hev.exprs hctx henv helems) fun vs vs' hvs => ?_
    exact .pure ⟨hvs.code, .mk (levelOf_like hvs.value) (.tuple (values_like hvs.value))⟩
  | object hprops =>
    have hempty : PartialObject.Like V {} {} :=
      ⟨.nil, Variation.rises_refl _, .empty, Env.distinct_empty⟩
    refine .bind (hev.properties hctx henv hprops hempty) fun object object' h => ?_
    exact .pure ⟨h.code, .mk h.level (.object (fun _ => h.distinct) h.fields)⟩
  | call hcallee hargs =>
    refine .bind (hev.expr hctx henv hcallee) fun rator rator' hrator => ?_
    refine .bind (hev.apply hctx henv _ hrator.value.value hargs) fun result result' hresult => ?_
    exact .pure ⟨hrator.code.append hresult.code, hresult.value.taint hrator.value.level⟩
  | dot hbase =>
    refine .bind (hev.expr hctx henv hbase) fun object object' hobject => ?_
    refine .bind (hctx.field _ hobject.value.value _) fun result result' hresult => ?_
    exact .pure ⟨hobject.code.append hresult.code, hresult.value.taint hobject.value.level⟩
  | index hbase hplace =>
    refine .bind (hev.expr hctx henv hbase) fun v v' hv => ?_
    refine .bind (hev.expr hctx henv hplace) fun i i' hi => ?_
    have hlevel := hv.value.level.meet hi.value.level
    refine .bind (hctx.element _ hv.value.value hi.value.value hlevel) fun _ _ hresult => ?_
    exact .pure (hresult.after (hv.code.append hi.code))
  | @binary _ op _ _ _ _ hlhs hrhs =>
    exact .bind (op.rator_like _ henv) fun _ _ hrator =>
      hev.apply hctx henv _ hrator (.cons hlhs (.cons hrhs .nil))
  | @unary _ op _ _ hoperand =>
    exact .bind (op.rator_like _ henv) fun _ _ hrator =>
      hev.apply hctx henv _ hrator (.cons hoperand .nil)
  | paren hinner => exact hev.expr hctx henv hinner
  | ternary hcond hTrue hFalse => exact hev.ternary hctx henv _ hcond hTrue hFalse
  | arrow hbody => exact makeClosure hctx henv _ _ _ hbody
  | @function _ name _ _ _ hbody =>
    cases name with
    | none => exact makeClosure hctx henv _ _ _ hbody
    | some name => exact .fail
  | foreign => exact .fail

end Evaluator.Tracked

end Choreography
