import Choreography.Proofs.ShapedExpressions

/-!
Evaluation of expressions that have shapes. The induction is on the size of the program text: what an
expression evaluates is smaller, the bodies of functions aside, and those end because the functions
have shapes. The function of an `only` is applied privately, and its end gives a participant a view in
which names still have their shapes.
-/

namespace Choreography

open Eval Ir

variable {S : Setting} {Γ : Shaping} {σ τ : Shape} {n : Nat} {u : Use} {v : Value} {loc : Loc}
  {ctx : Ctx} {env : Bindings} {scope : Scope} {e : Surface.Expr} {es : List Surface.Expr}

/-- The bindings that statements leave have their shapes, and what they return has the shape. -/
structure Outcome.Fits (S : Setting) (Γ : Shaping) (σ : Shape) (o : Outcome) : Prop where
  env : o.env.Fits S Γ
  exits : ∀ exit ∈ o.exits, S.Fits σ exit.value.value

/-- Evaluation of the statements ends, and what they return has the shape. -/
abbrev StmtsEnd (S : Setting) (Γ : Shaping) (σ : Shape) (ctx : Ctx) (loc : Loc) (scope : Scope)
    (stmts : List Surface.Stmt) : Prop :=
  Ends (fun fuel => (evaluator fuel).stmts ctx loc scope stmts) fun r => r.value.Fits S Γ σ

/-- Evaluation of what is smaller than `n` and has a shape ends. -/
structure Ending (S : Setting) (Γ : Shaping) (n : Nat) : Prop where
  expr {ctx : Ctx} {env : Bindings} {e : Surface.Expr} {u : Use} (hsize : sizeOf e < n)
    (huse : e.use Γ = some u) (hmode : S.admits ctx.mode) (henv : env.Fits S Γ) :
    ExprEnds ctx env e (u.Holds S Γ (sizeOf e))
  stmts {ctx : Ctx} {loc : Loc} {scope : Scope} {stmts : List Surface.Stmt} {σ : Shape}
    (hsize : sizeOf stmts < n) (hreturn : Surface.stmtsShape Γ stmts = some σ)
    (hmode : S.admits ctx.mode) (henv : scope.env.Fits S Γ) :
    StmtsEnd S Γ σ ctx loc scope stmts

/-- What evaluation asks of a setting. -/
structure Setting.Lawful (S : Setting) (Γ : Shaping) : Prop where
  also {c : Closure} {σ : Shape} (henv : Bindings.Fits S Γ c.env)
    (hreturns : c.body.returnShape Γ = some σ) : S.also (c.formals.map Γ) σ c
  apps {a : App} {σ : Shape} (henv : Bindings.Fits S Γ a.env)
    (hbody : ∀ {ctx : Ctx} {scope : Scope}, S.admits ctx.mode → scope.env.Fits S Γ →
      StmtsEnd S Γ σ ctx a.body.loc scope a.body.stmts) : S.apps a
  privately {σ : Shape} {v : Value} : S.Fits σ v → Setting.privately.Fits σ v
  views {mode : Mode} : S.admits mode → ∀ e ∈ mode.views.entries, Bindings.Fits .privately Γ e.2
  admits {mode mode' : Mode} (hmode : S.admits mode) (hprotocol : mode.isPrivate = false)
    (hviews : ∀ e ∈ mode'.views.entries, Bindings.Fits .privately Γ e.2) : S.admits mode'
  ending {mode : Mode} (hmode : S.admits mode) (hprotocol : mode.isPrivate = false) (n : Nat) :
    Ending .privately Γ n

/-! ### Functions -/

theorem joinExits_ends {body : Lifted Outcome} (h : body.value.Fits S Γ σ) (slot : Nat) :
    Ends (fun _ => ctx.joinExits loc slot body) fun r =>
      r.value.env.Fits S Γ ∧ S.Fits σ r.value.value.value := by
  unfold Ctx.joinExits
  simp only
  split
  · exact .pure ⟨h.env, .of_tame (.atom rfl)⟩
  · rename_i exit hexits
    exact .pure ⟨h.env, h.exits exit (by rw [hexits]; exact List.mem_cons_self)⟩
  · exact Ends.skip (Exit.types_routine _) fun _ =>
      Ends.skip (Ty.joinAll_routine _) fun _ => .pure ⟨h.env, .of_tame (.atom rfl)⟩

/-- A function ends where its body does. -/
theorem applyClosure_ends {c : Closure} {args : List SecValue} (henv : Bindings.Fits S Γ c.env)
    (hmode : S.admits ctx.mode) (hargs : S.Arguments (c.formals.map Γ) args)
    (hbody : ∀ {ctx : Ctx} {scope : Scope}, S.admits ctx.mode → scope.env.Fits S Γ →
      StmtsEnd S Γ σ ctx c.body.loc scope c.body.stmts) :
    Ends (fun fuel => (evaluator fuel).applyClosure ctx loc c args) fun r =>
      r.value.env.Fits S Γ ∧ S.Fits σ r.value.value.value :=
  Ends.skip Ctx.alloc_routine fun slot => Ends.ensure.bind fun _ _ =>
    (henv.bindAll hargs.zip).bind fun env henv =>
      Ends.bind (hbody (by exact hmode) (by exact henv)) fun _ hbody => joinExits_ends hbody slot

theorem closure_fits (hS : S.Lawful Γ) {tag : Tag} {c : Closure} (henv : Bindings.Fits S Γ c.env)
    (hreturns : c.body.returnShape Γ = some σ)
    (hbody : ∀ {ctx : Ctx} {scope : Scope}, S.admits ctx.mode → scope.env.Fits S Γ →
      StmtsEnd S Γ σ ctx c.body.loc scope c.body.stmts) :
    S.Fits (.fn (c.formals.map Γ) σ) (.closure tag c) :=
  Setting.Fits.closure_iff.2 ⟨hS.also henv hreturns, fun _ _ _ hmode hargs =>
    (applyClosure_ends henv hmode hargs hbody).imp fun _ h => h.2⟩

theorem ret_ends {value : Option Surface.Expr} {rest : List Surface.Stmt}
    (henv : scope.env.Fits S Γ) (h : ∀ e, value = some e → ExprEnds ctx scope.env e (S.Fits σ)) :
    Ends (fun fuel => (evaluator fuel).ret ctx loc scope value rest)
      fun r => r.value.Fits S Γ σ := by
  have hreturn : ∀ r : Lifted SecValue, S.Fits σ r.value.value → Ends (fun _ => (do
        let slot ← Eval.orFail scope.slot (.noReturn loc)
        Eval.ensure (scope.style != .cannotReturn) (.cannotReturn loc)
        expectLast loc rest
        return { code := r.code ++ [.ret loc slot (some r.value.value)],
                 value := { env := scope.env, exits := [{ loc, value := r.value }] } } :
          Eval (Lifted Outcome))) fun out => out.value.Fits S Γ σ := by
    intro r hr
    exact Ends.orFail.bind fun _ _ => Ends.ensure.bind fun _ _ =>
      Ends.skip (expectLast_routine rest) fun _ =>
        .pure ⟨henv, List.forall_mem_singleton.2 hr⟩
  cases value with
  | none => exact hreturn _ (.of_tame (.atom rfl))
  | some e => exact (h e rfl).bind hreturn

theorem StmtsEnd.ret {retLoc : Loc} {value : Option Surface.Expr} {rest : List Surface.Stmt}
    (henv : scope.env.Fits S Γ) (h : ∀ e, value = some e → ExprEnds ctx scope.env e (S.Fits σ)) :
    StmtsEnd S Γ σ ctx loc scope (.ret retLoc value :: rest) :=
  .of_succ (ret_ends henv h)

/-- Membership of an enumeration is told by applying `and` to data. -/
theorem enumBody_ends (hmode : S.admits ctx.mode) (henv : scope.env.Fits S Γ)
    (hand : (Γ "and").applied [.data, .data] = some σ) (enumLoc : Loc) (count : Nat) :
    StmtsEnd S Γ σ ctx loc scope (enumBody enumLoc count).stmts := by
  have hint : ∀ text, ExprEnds ctx scope.env (.int enumLoc text 10) (S.Fits .data) :=
    fun text => .of_rule (.pure (.of_tame (.atom rfl)))
  have hx : ExprEnds ctx scope.env (.ident enumLoc "x") (S.Fits (Γ "x")) := .ident henv "x"
  have hlower : ExprEnds ctx scope.env (.binary enumLoc .le (.int enumLoc "0" 10)
      (.ident enumLoc "x")) (S.Fits .data) :=
    .binary (Γ := Γ) (n := 0) (u := .value .data) hmode henv [.value .data, .value (Γ "x")] rfl
      ⟨hint "0", hx, trivial⟩
  have hupper : ExprEnds ctx scope.env (.binary enumLoc .lt (.ident enumLoc "x")
      (.int enumLoc (Integer.decimal count) 10)) (S.Fits .data) :=
    .binary (Γ := Γ) (n := 0) (u := .value .data) hmode henv [.value (Γ "x"), .value .data] rfl
      ⟨hx, hint _, trivial⟩
  refine StmtsEnd.ret henv fun e he => ?_
  cases he
  exact .binary (Γ := Γ) (n := 0) (u := .value σ) hmode henv [.value .data, .value .data]
    (by simp [Surface.BinaryOp.function?, Shaping.operate, Use.shape, hand])
    ⟨hlower, hupper, trivial⟩

theorem member_fits (hS : S.Lawful Γ) (henv : env.Fits S Γ)
    (hand : (Γ "and").applied [.data, .data] = some σ) (enumLoc : Loc) (count : Nat) (tag : Tag) :
    S.Fits (.fn [Γ "x"] σ) (.closure tag
      { loc := enumLoc, name := some (ctx.localName "makeEnum"), formals := ["x"],
        body := enumBody enumLoc count, env }) := by
  refine closure_fits hS (c := ⟨enumLoc, _, ["x"], enumBody enumLoc count, env⟩) henv ?_
    fun hmode henv => enumBody_ends hmode henv hand enumLoc count
  simp [enumBody, Surface.Block.returning, Surface.Block.returnShape, Surface.stmtsShape,
    Surface.Stmt.returnShape, Surface.Expr.use, Surface.BinaryOp.function?, Shaping.operate, Use.shape,
    hand]

/-- A function that is written in place is closed over the environment. -/
theorem function_ends (hf : e.isFunction = true) (huse : e.use Γ = some u) :
    ExprEnds ctx env e fun v => ∃ tag c σ, v = .closure tag c ∧ c.env = env ∧
      c.body.returnShape Γ = some σ ∧ u = .value (.fn (c.formals.map Γ) σ) ∧
      sizeOf c.body.stmts < sizeOf e := by
  have hsize : ∀ body : Surface.Block, sizeOf body.stmts < sizeOf body := by
    rintro ⟨bodyLoc, stmts⟩
    simp only [Surface.Block.mk.sizeOf_spec]
    omega
  cases e with
  | arrow _ formals body =>
    obtain ⟨σ, hreturns, rfl⟩ := Option.map_eq_some_iff.1 huse
    refine .of_rule (Ends.freshTag.bind fun tag _ => .pure ⟨tag, _, σ, rfl, rfl, hreturns, rfl, ?_⟩)
    have := hsize body
    simp only [Surface.Expr.arrow.sizeOf_spec]
    omega
  | function _ name formals body =>
    cases name with
    | some => cases hf
    | none =>
      obtain ⟨σ, hreturns, rfl⟩ := Option.map_eq_some_iff.1 huse
      refine .of_rule (Ends.freshTag.bind fun tag _ => .pure ⟨tag, _, σ, rfl, rfl, hreturns, rfl, ?_⟩)
      have := hsize body
      simp only [Surface.Expr.function.sizeOf_spec]
      omega
  | _ => cases hf

/-! ### Forms -/

theorem sharedArgs_ends (hS : S.Lawful Γ) (henv : env.Fits S Γ) (formals : List String) :
    Ends (fun _ => Evaluator.sharedArgs loc env formals)
      fun vs => Setting.privately.Arguments (formals.map Γ) vs := by
  induction formals with
  | nil => exact .pure trivial
  | cons formal formals ih =>
    exact (henv.identify formal).bind fun v hv => ih.bind fun vs hvs =>
      .pure ⟨hS.privately hv, hvs⟩

theorem onlyForm_ends (hS : S.Lawful Γ) (hmode : S.admits ctx.mode) (henv : env.Fits S Γ)
    (hf : e.isFunction = true) (huse : e.use Γ = some u) (who : String) :
    Ends (fun fuel => (evaluator fuel).onlyForm ctx loc env who [e])
      fun r => r.value.value.Acts S Γ n none := by
  unfold Evaluator.onlyForm
  split
  · rename_i parties hstep
    have hprotocol : ctx.mode.isPrivate = false := by rw [hstep]; rfl
    refine Ends.orFail.bind fun view hview => ?_
    have hview : view.Fits .privately Γ := by
      refine hS.views hmode (who, view) ?_
      rw [hstep]
      exact OrderedMap.mem_of_get? hview
    -- the one argument is evaluated to the function itself, closed over the view
    unfold Evaluator.exprs Evaluator.exprs
    refine Ends.bind (P := fun made : Lifted (List SecValue) => ∃ level tag c σ,
        made.value = [⟨level, .closure tag c⟩] ∧ c.env = view ∧ c.body.returnShape Γ = some σ)
      ((function_ends hf huse).bind ?_) ?_
    · rintro ⟨code, level, value⟩ ⟨tag, c, σ, rfl, hc, hreturns, _⟩
      exact .pure ⟨level, tag, c, σ, rfl, hc, hreturns⟩
    · rintro ⟨code, values⟩ ⟨level, tag, c, σ, rfl, rfl, hreturns⟩
      refine (sharedArgs_ends hS henv c.formals).bind fun shared hshared => ?_
      have hending := hS.ending hmode hprotocol (sizeOf c.body.stmts + 1)
      refine Ends.bind (applyClosure_ends (σ := σ) hview rfl hshared fun hmode henv => ?_)
        fun applied happlied => ?_
      · exact hending.stmts (Nat.lt_succ_self _) (by rwa [Surface.Block.returnShape_eq] at hreturns)
          hmode henv
      · exact Ends.freshTag.bind fun _ _ => .pure (.done (happlied.1.without c.formals))
  · exact .fail

/-- The parts that a stage keeps have shapes, and are smaller than the arguments. -/
theorem Round.fill_ends {r : Round} (h : r.Stores Γ n) {stage : Stage} {uses : List Use}
    (huses : Surface.exprsUse Γ es = some uses)
    (hsuits : Surface.suitsConstruct (some stage.name) es uses = true) (hsize : sizeOf es ≤ n) :
    Ends (fun _ => r.fill loc stage es) fun next => next.stage = none ∧ next.Stores Γ n := by
  cases stage with
  | publish =>
    exact Ends.ensure.bind fun _ _ => Ends.skip (publishedNames_routine es) fun _ =>
      .pure ⟨rfl, h.pay, h.timeout⟩
  | pay =>
    refine Ends.ensure.bind fun _ _ => ?_
    split
    · rename_i amount
      refine .pure ⟨rfl, fun hamount => ?_, h.timeout⟩
      cases hamount
      simpa [Surface.suitsConstruct, Stage.name, Surface.exprsCalm] using hsuits
    · exact .fail
  | timeout =>
    refine Ends.ensure.bind fun _ _ => ?_
    split
    · rename_i delay arrowLoc handler
      obtain ⟨handlerLoc, stmts⟩ := handler
      simp only [Surface.exprsUse, Surface.Expr.use, List.map_nil, Option.bind_eq_bind,
        Option.pure_def, Option.bind_some, Option.bind_eq_some_iff, Option.map_eq_some_iff,
        Option.some.injEq] at huses
      obtain ⟨ud, hdelay, _, ⟨_, ⟨σ, hhandler, rfl⟩, rfl⟩, rfl⟩ := huses
      obtain ⟨_, rfl⟩ : ud.isTelling = false ∧ σ = .data := by
        simpa [Surface.suitsConstruct, Stage.name, Use.isTelling.eq_def (.value (.fn [] σ))] using
          hsuits
      simp only [List.cons.sizeOf_spec, Surface.Expr.arrow.sizeOf_spec,
        Surface.Block.mk.sizeOf_spec] at hsize
      refine .pure ⟨rfl, h.pay, fun ht => ?_⟩
      cases ht
      exact ⟨by simp only; omega, by simp only; omega, by simp [hdelay], hhandler⟩
    · exact .fail

/-- A construct takes the arguments that it asks for. -/
theorem apply_act_ends (hS : S.Lawful Γ) (hmode : S.admits ctx.mode) (henv : env.Fits S Γ)
    (happs : ∀ a : App, a.MadeFrom S Γ es → S.apps a)
    {construct : Option String} (hv : v.Acts S Γ n construct) {uses : List Use}
    (huses : Surface.exprsUse Γ es = some uses)
    (hsuits : Surface.suitsConstruct construct es uses = true) (hsize : sizeOf es ≤ n)
    (hargs : ExprsEnd S ctx env (uses.map (·.shape)) es) :
    Ends (fun fuel => (evaluator fuel).apply ctx loc env v es)
      fun r => r.value.value.Acts S Γ n none := by
  cases hv with
  | data hv => exact (apply_applied_ends henv happs hmode hv hargs rfl).imp fun _ => .data
  | only honly =>
    subst honly
    simp only [Surface.suitsConstruct, if_true] at hsuits
    split at hsuits
    · rename_i f
      simp only [Surface.exprsUse, Option.bind_eq_bind, Option.bind_eq_some_iff] at huses
      obtain ⟨uf, huse, _⟩ := huses
      exact onlyForm_ends hS hmode henv hsuits huse _
    · cases hsuits
  | done => exact .fail
  | round hstores hstage =>
    refine Ends.skip (Ctx.expectMode_routine ..) fun _ => ?_
    refine Ends.orFail.bind fun stage hasked => ?_
    rw [hstage stage hasked] at hsuits
    refine (Round.fill_ends hstores huses hsuits hsize).bind fun next hnext => ?_
    refine Ends.freshTag.bind fun _ _ => .pure (.round hnext.2 fun stage hasks => ?_)
    rw [hnext.1] at hasks
    cases hasks

/-! ### Expressions -/

theorem PropertyEnds.le {p : Surface.Property} (hle : σ.le τ = true)
    (h : PropertyEnds S σ ctx env p) : PropertyEnds S τ ctx env p := by
  cases p with
  | value => exact ⟨h.1, h.2.imp fun _ hv => hv.le hle⟩
  | shorthand => exact Ends.imp h fun _ hv => Setting.Fits.le hle hv
  | spread => exact Ends.imp h fun _ hv => Setting.Fits.le hle hv
  | method => exact trivial

namespace Ending

theorem exprs (h : Ending S Γ n) (hmode : S.admits ctx.mode) (henv : env.Fits S Γ) :
    ∀ {es : List Surface.Expr} {uses : List Use}, sizeOf es ≤ n →
      Surface.exprsUse Γ es = some uses → ExprsEnd S ctx env (uses.map (·.shape)) es := by
  intro es
  induction es with
  | nil =>
    intro uses _ huses
    cases huses
    exact trivial
  | cons e es ih =>
    intro uses hsize huses
    simp only [Surface.exprsUse, Option.bind_eq_bind, Option.pure_def, Option.bind_eq_some_iff,
      Option.some.injEq] at huses
    obtain ⟨u, huse, us, hus, rfl⟩ := huses
    simp only [List.cons.sizeOf_spec] at hsize
    exact ⟨(h.expr (by omega) huse hmode henv).imp fun _ hv => hv.fits, ih (by omega) hus⟩

theorem property (h : Ending S Γ n) (hmode : S.admits ctx.mode) (henv : env.Fits S Γ)
    {p : Surface.Property} (hsize : sizeOf p ≤ n) (hshape : p.shape Γ = some σ) :
    PropertyEnds S σ ctx env p := by
  cases p with
  | value propLoc name value =>
    simp only [Surface.Property.shape, Option.ite_none_right_eq_some,
      Option.map_eq_some_iff] at hshape
    obtain ⟨hname, u, huse, rfl⟩ := hshape
    simp only [Surface.Property.value.sizeOf_spec] at hsize
    refine ⟨?_, (h.expr (by omega) huse hmode henv).imp fun _ hv => hv.fits⟩
    rintro key rfl
    obtain ⟨uk, hkey⟩ := Option.isSome_iff_exists.1 hname
    simp only [Surface.PropertyName.computed.sizeOf_spec] at hsize
    exact (h.expr (by omega) hkey hmode henv).imp fun _ _ => trivial
  | shorthand propLoc name =>
    cases hshape
    exact henv.identify name
  | spread propLoc base =>
    obtain ⟨u, huse, rfl⟩ := Option.map_eq_some_iff.1 hshape
    simp only [Surface.Property.spread.sizeOf_spec] at hsize
    exact (h.expr (by omega) huse hmode henv).imp fun _ hv => hv.fits
  | method => exact trivial

theorem properties (h : Ending S Γ n) (hmode : S.admits ctx.mode) (henv : env.Fits S Γ) :
    ∀ {props : List Surface.Property} {σ : Shape}, sizeOf props ≤ n →
      Surface.propsShape Γ props = some σ → ∀ p ∈ props, PropertyEnds S σ ctx env p := by
  intro props
  induction props with
  | nil => simp
  | cons p props ih =>
    intro σ hsize hshape
    simp only [Surface.propsShape, Option.bind_eq_bind, Option.pure_def, Option.bind_eq_some_iff,
      Option.some.injEq] at hshape
    obtain ⟨τ, hfirst, ρ, hrest, rfl⟩ := hshape
    simp only [List.cons.sizeOf_spec] at hsize
    refine List.forall_mem_cons.2 ⟨?_, fun q hq => ?_⟩
    · exact (h.property hmode henv (by omega) hfirst).le (Shape.le_join_left ..)
    · exact (ih (by omega) hrest q hq).le (Shape.le_join_right ..)

/-- The body of an app is one of the arguments that it is made from. -/
theorem apps (h : Ending S Γ n) (hS : S.Lawful Γ) (hes : sizeOf es ≤ n) {uses : List Use}
    (huses : Surface.exprsUse Γ es = some uses) {a : App} (ha : a.MadeFrom S Γ es) : S.apps a := by
  obtain ⟨options, parts, topLoc, formals, rfl⟩ := ha.args
  simp only [Surface.exprsUse, Surface.Expr.use, Option.bind_eq_bind, Option.bind_eq_some_iff,
    Option.map_eq_some_iff] at huses
  obtain ⟨_, _, _, ⟨_, _, _, ⟨_, ⟨σ, hbody, _⟩, _⟩, _⟩, _⟩ := huses
  rw [Surface.Block.returnShape_eq] at hbody
  refine hS.apps ha.env fun hmode henv => h.stmts ?_ hbody hmode henv
  have hblock : sizeOf a.body.stmts < sizeOf a.body := by
    obtain ⟨bodyLoc, stmts⟩ := a.body
    simp +arith
  simp only [List.cons.sizeOf_spec, Surface.Expr.arrow.sizeOf_spec] at hes
  omega

theorem call (h : Ending S Γ n) (hS : S.Lawful Γ) (hmode : S.admits ctx.mode) (henv : env.Fits S Γ)
    {callee : Surface.Expr} (hcallee : sizeOf callee < n) (hes : sizeOf es ≤ n)
    (huse : Γ.call es (callee.use Γ) (Surface.exprsUse Γ es) = some u) :
    ExprEnds ctx env (.call loc callee es) (u.Holds S Γ n) := by
  simp only [Shaping.call, Option.bind_eq_bind, Option.bind_eq_some_iff] at huse
  obtain ⟨uc, huc, uses, huses, huse⟩ := huse
  have hargs := h.exprs hmode henv hes huses
  have happs : ∀ a : App, a.MadeFrom S Γ es → S.apps a := fun _ => h.apps hS hes huses
  refine .call (h.expr hcallee huc hmode henv) fun v hv => ?_
  split at huse
  · simp only [Option.ite_none_right_eq_some, Option.some.injEq] at huse
    obtain ⟨hsuits, rfl⟩ := huse
    exact apply_act_ends hS hmode henv happs (hv.mono (by omega)) huses hsuits hes hargs
  · simp only [Option.pure_def, Option.bind_eq_some_iff, Option.some.injEq] at huse
    obtain ⟨result, hand, rfl⟩ := huse
    exact apply_enumerator_ends henv happs hv hargs (member_fits hS henv hand)
  · cases huse
    exact apply_revealer_ends henv happs hv hargs
  · simp only [Option.pure_def, Option.bind_eq_some_iff, Option.some.injEq] at huse
    obtain ⟨result, hresult, rfl⟩ := huse
    exact apply_applied_ends henv happs hmode hv hargs hresult

theorem function (h : Ending S Γ (sizeOf e)) (hS : S.Lawful Γ) (henv : env.Fits S Γ)
    (hf : e.isFunction = true) (huse : e.use Γ = some u) : ExprEnds ctx env e (u.Holds S Γ n) := by
  refine (function_ends hf huse).imp ?_
  rintro r ⟨tag, c, σ, hvalue, rfl, hreturns, rfl, hsize⟩
  rw [hvalue]
  exact closure_fits hS henv hreturns fun hmode henv =>
    h.stmts hsize (by rwa [Surface.Block.returnShape_eq] at hreturns) hmode henv

theorem evalExpr (h : Ending S Γ (sizeOf e)) (hS : S.Lawful Γ) (hmode : S.admits ctx.mode)
    (henv : env.Fits S Γ) (huse : e.use Γ = some u) :
    ExprEnds ctx env e (u.Holds S Γ (sizeOf e)) := by
  cases e with
  | ident identLoc name =>
    cases huse
    exact .ident henv name
  | int => exact .of_rule (.pure (.of_tame (.atom rfl)))
  | string => exact .of_rule (.pure (.of_tame (.atom rfl)))
  | bool => exact .of_rule (.pure (.of_tame (.atom rfl)))
  | null => exact .of_rule (.pure (.of_tame (.atom rfl)))
  | array arrayLoc elems =>
    obtain ⟨uses, huses, rfl⟩ := Option.map_eq_some_iff.1 huse
    exact .array (h.exprs hmode henv (by simp) huses)
  | object objectLoc props =>
    obtain ⟨σ, hshape, rfl⟩ := Option.map_eq_some_iff.1 huse
    exact .of_rule (objectLiteral_ends (h.properties hmode henv (by simp) hshape))
  | call callLoc callee args => exact h.call hS hmode henv (by simp +arith) (by simp) huse
  | dot dotLoc base field =>
    obtain ⟨ub, hbase, rfl⟩ := Option.map_eq_some_iff.1 huse
    refine (ExprEnds.dot (h.expr (by simp +arith) hbase hmode henv) field).imp fun _ hr => ?_
    exact hr.mono (by simp +arith)
  | index indexLoc base position =>
    simp only [Surface.Expr.use, Option.bind_eq_bind, Option.pure_def, Option.bind_eq_some_iff,
      Option.some.injEq] at huse
    obtain ⟨ub, hbase, up, hposition, rfl⟩ := huse
    exact .index (h.expr (by simp +arith) hbase hmode henv)
      ((h.expr (by simp +arith) hposition hmode henv).imp fun _ _ => trivial)
  | binary opLoc op lhs rhs =>
    simp only [Surface.Expr.use, Option.bind_eq_bind, Option.bind_eq_some_iff] at huse
    obtain ⟨ul, hl, ur, hr, huse⟩ := huse
    exact .binary hmode henv [ul, ur] huse
      ⟨(h.expr (by simp +arith) hl hmode henv).imp fun _ hv => hv.fits,
        (h.expr (by simp +arith) hr hmode henv).imp fun _ hv => hv.fits, trivial⟩
  | unary opLoc op operand =>
    simp only [Surface.Expr.use, Option.bind_eq_bind, Option.bind_eq_some_iff] at huse
    obtain ⟨uo, ho, huse⟩ := huse
    exact .unary hmode henv [uo] huse
      ⟨(h.expr (by simp +arith) ho hmode henv).imp fun _ hv => hv.fits, trivial⟩
  | paren parenLoc inner =>
    have hinner : inner.use Γ = some u := huse
    refine .of_rule ((h.expr (by simp +arith) hinner hmode henv).imp fun _ hr => ?_)
    exact hr.mono (by simp +arith)
  | ternary choiceLoc cond onTrue onFalse =>
    simp only [Surface.Expr.use, Option.bind_eq_bind, Option.pure_def, Option.bind_eq_some_iff,
      Option.some.injEq] at huse
    obtain ⟨uc, hc, ut, ht, uf, hf, rfl⟩ := huse
    exact .of_rule (ternary_ends ((h.expr (by simp +arith) hc hmode henv).imp fun _ _ => trivial)
      ((h.expr (by simp +arith) ht hmode henv).imp fun _ hv => hv.fits)
      ((h.expr (by simp +arith) hf hmode henv).imp fun _ hv => hv.fits))
  | arrow arrowLoc formals body => exact h.function hS henv rfl huse
  | function functionLoc name formals body =>
    cases name with
    | none => exact h.function hS henv rfl huse
    | some => exact .of_rule .fail
  | foreign => exact .of_rule .fail

end Ending

end Choreography
