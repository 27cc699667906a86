import Choreography.Proofs.CastExpressions
import Choreography.Proofs.Materials

/-!
Evaluation and what values are made of: expressions. In an environment that is made of a material, an
expression evaluates to a value that is made of it, or to an integer that has just been computed.
-/

namespace Choreography

open Eval Ir

variable {M : Material} {loc : Loc} {ctx : Ctx} {env : Bindings} {ev : Evaluator}

structure Outcome.MadeOf (M : Material) (o : Outcome) : Prop where
  env : o.env.MadeOf M
  exits : ∀ exit ∈ o.exits, exit.value.value.MadeOf M

structure Applied.MadeOf (M : Material) (a : Applied) : Prop where
  env : a.env.MadeOf M
  value : a.value.value.MadeOf M

/-- What the evaluator gives is made of the material if what it is given is. -/
structure Evaluator.Makes (M : Material) (ev : Evaluator) : Prop where
  expr {ctx : Ctx} {env : Bindings} (hctx : ctx.MadeOf M) (henv : env.MadeOf M) (e : Surface.Expr) :
    Gives (Lifted.MadeOf M) (ev.expr ctx env e)
  stmts {ctx : Ctx} {loc : Loc} {scope : Scope} (hctx : ctx.MadeOf M) (henv : scope.env.MadeOf M)
    (stmts : List Surface.Stmt) :
    Gives (Lifted.Carries M (Outcome.MadeOf M)) (ev.stmts ctx loc scope stmts)

/-- Values that are made of the material, and code whose operands are. -/
def Material.making (M : Material) : Trait where
  stops _ := True
  code := Code.MadeOf M
  value := Value.MadeOf M
  has := Lifted.MadeOf M
  ordinary _ := trivial
  nil := Code.madeOf_nil
  append := .append
  tuple := ⟨fun h => by cases h with | tuple h => exact h, .tuple⟩
  object := ⟨fun h => by cases h with | object h => exact h, .object⟩
  has_iff := ⟨fun h => ⟨h.code, h.value⟩, fun h => ⟨h.1, h.2⟩⟩

/-! ### Application -/

theorem Exit.types_madeOf {exits : List Exit} (h : ∀ exit ∈ exits, exit.value.value.MadeOf M) :
    Gives (fun types => ∀ t ∈ types, t.2.MadeOf M) (Exit.types exits) := by
  induction exits with
  | nil => exact .pure (by simp)
  | cons exit exits ih =>
    obtain ⟨hfirst, hrest⟩ := List.forall_mem_cons.1 h
    refine Meets.bind (P := fun t => t.1.MadeOf M) (.of_yields fun hrun => ?_) fun t ht =>
      (ih hrest).bind fun _ hts => .pure (List.forall_mem_cons.2 ⟨ht, hts⟩)
    exact (hfirst.typed? (Value.typeOf_yields.1 hrun).1).1

theorem Ty.joinAll_madeOf {types : List (Loc × Ty)} (h : ∀ t ∈ types, t.2.MadeOf M) :
    Gives (Ty.MadeOf M) (Ty.joinAll loc types) := by
  refine .of_yields fun hrun => ?_
  obtain ⟨hsame, _⟩ := Ty.joinAll_yields hrun
  cases types with
  | nil => simp [Ty.joinAll] at hrun
  | cons first rest =>
    rw [← hsame first List.mem_cons_self]
    exact h first List.mem_cons_self

namespace Ctx.MadeOf

/-- A new variable for what several ways lead to. -/
theorem alloc (hctx : ctx.MadeOf M) : Gives (fun _ => M.live) (ctx.alloc loc) :=
  .of_yields fun hrun => hctx.live (.inl (Ctx.alloc_yields.1 hrun).1)

theorem joinExits {slot : Nat} {body : Lifted Outcome} (hlive : M.live)
    (hbody : body.Carries M (Outcome.MadeOf M)) :
    Gives (Lifted.Carries M (Applied.MadeOf M)) (ctx.joinExits loc slot body) := by
  unfold Ctx.joinExits
  simp only
  split
  · exact .pure ⟨hbody.code.unprompted _ _ _, hbody.value.env, .null⟩
  · rename_i exit hexits
    exact .pure ⟨hbody.code.unprompted _ _ _, hbody.value.env,
      hbody.value.exits exit (by rw [hexits]; exact List.mem_cons_self)⟩
  · exact (Exit.types_madeOf hbody.value.exits).bind fun _ htypes =>
      (Ty.joinAll_madeOf htypes).bind fun _ ht =>
        .pure ⟨.prompt hbody.code, hbody.value.env, .var hlive ht⟩

theorem joinBranches (hctx : ctx.MadeOf M) {cond : Var} {trueLoc falseLoc : Loc}
    {onTrue onFalse : Lifted SecValue} (hTrue : onTrue.MadeOf M) (hFalse : onFalse.MadeOf M) :
    Gives (fun r => Code.MadeOf M [r.1] ∧ (Value.var r.2).MadeOf M)
      (ctx.joinBranches loc cond trueLoc falseLoc onTrue onFalse) := by
  refine hctx.alloc.bind fun slot hlive => .of_yields fun hrun => ?_
  simp only [yields_bind, Value.typeOf_yields, Ty.join_yields, yields_pure] at hrun
  obtain ⟨t, _, ⟨htyped, _⟩, _, _, _, _, _, ⟨rfl, _⟩, rfl, _⟩ := hrun
  exact ⟨.prompt (.branch (hTrue.code.append (.ret hTrue.value))
    (hFalse.code.append (.ret hFalse.value))), .var hlive (hTrue.value.typed? htyped).1⟩

end Ctx.MadeOf

namespace Evaluator.Makes

variable (hev : ev.Makes M) (hctx : ctx.MadeOf M) (henv : env.MadeOf M)
include hev hctx henv

theorem exprs (es : List Surface.Expr) :
    Gives (Lifted.Carries M fun vs => ∀ v ∈ vs.map (·.value), v.MadeOf M) (ev.exprs ctx env es) :=
  (M.making.exprs fun e _ => hev.expr hctx henv e).imp fun _ h => ⟨h.1, List.forall_mem_map.2 h.2⟩

theorem ternary (cond onTrue onFalse : Surface.Expr) :
    Gives (Lifted.Computed M) (ev.ternary ctx loc env cond onTrue onFalse) := by
  refine (hev.expr hctx henv cond).bind fun c hc => (hev.expr hctx henv onTrue).bind fun t ht =>
    (hev.expr hctx henv onFalse).bind fun f hf => ?_
  split
  · rename_i b _
    refine .pure ?_
    cases b with
    | true => exact ⟨hc.code.append ht.code, fun _ => ht.value⟩
    | false => exact ⟨hc.code.append hf.code, fun _ => hf.value⟩
  · split
    · refine (hctx.applyOp .ifThenElse (by simpa using ⟨hc.value, ht.value, hf.value⟩)).bind
        fun _ hselected => .pure ⟨?_, hselected.value⟩
      exact ((hc.code.append ht.code).append hf.code).append hselected.code
    · exact (hctx.joinBranches ht hf).bind fun _ hjoined =>
        .pure ⟨hc.code.append hjoined.1, fun _ => hjoined.2⟩
  · exact .fail trivial

omit henv in
theorem applyClosure {c : Closure} {args : List SecValue} (hc : Bindings.MadeOf M c.env)
    (hargs : ∀ v ∈ args.map (·.value), v.MadeOf M) :
    Gives (Lifted.Carries M (Applied.MadeOf M)) (ev.applyClosure ctx loc c args) := by
  have hformals : ∀ b ∈ c.formals.zip args, b.2.value.MadeOf M :=
    fun b hb => hargs _ (List.mem_map_of_mem (List.of_mem_zip hb).2)
  exact hctx.alloc.bind fun slot hlive => .skip fun _ =>
    (Bindings.MadeOf.bindAll hc hformals).bind fun env henv =>
      Meets.bind (hev.stmts (by exact ⟨hctx.live, hctx.views⟩) henv c.body.stmts)
        fun body hbody => Ctx.MadeOf.joinExits hlive hbody

theorem applyValues {rator : Value} {args : List SecValue} (hrator : rator.MadeOf M)
    (hargs : ∀ v ∈ args.map (·.value), v.MadeOf M) :
    Gives (Lifted.Carries M fun a => (∀ loc n, a.value.value ≠ .int loc n) → a.value.value.MadeOf M)
      (ev.applyValues ctx loc env rator args) := by
  unfold Evaluator.applyValues
  split
  · exact (hctx.applyPrim henv hrator hargs).bind fun _ hresult => .pure ⟨hresult.code, hresult.value⟩
  · cases hrator with
    | closure hc =>
      exact (hev.applyClosure hctx hc hargs).imp fun _ h => ⟨h.code, fun _ => h.value.value⟩
  · exact .fail trivial

end Evaluator.Makes

/-! ### Forms -/

theorem interfaceOf_madeOf {fields : List (String × SecValue)}
    (h : ∀ b ∈ fields, b.2.value.MadeOf M) :
    Gives (fun interface => ∀ f ∈ interface, f.2.MadeOf M) (interfaceOf loc fields) := by
  induction fields with
  | nil => exact .pure (by simp)
  | cons b fields ih =>
    obtain ⟨method, sv⟩ := b
    obtain ⟨hfirst, hrest⟩ := List.forall_mem_cons.1 h
    unfold interfaceOf
    split
    · cases hfirst with
      | type ht => exact (ih hrest).bind fun _ hmethods => .pure (List.forall_mem_cons.2 ⟨ht, hmethods⟩)
    · exact .fail trivial

/-- The participants of an app are not on the ledger yet. -/
theorem participantsOf_madeOf {specs : List Value} (h : ∀ v ∈ specs, v.MadeOf M) :
    Gives (fun parts => ∀ e ∈ parts, e.2.address = none ∧ ∀ f ∈ e.2.interface, f.2.MadeOf M)
      (participantsOf loc specs) := by
  induction specs with
  | nil => exact .pure (by simp)
  | cons spec specs ih =>
    obtain ⟨hfirst, hrest⟩ := List.forall_mem_cons.1 h
    refine Meets.bind (P := fun p => p.address = none ∧ ∀ f ∈ p.interface, f.2.MadeOf M) ?_
      fun p hp => Meets.freshTag.bind fun tag _ => (ih hrest).bind fun rest hparts =>
        .pure (List.forall_mem_cons.2 ⟨hp, hparts⟩)
    unfold participantOf
    split
    · cases hfirst with
      | tuple helems =>
        cases helems _ (List.mem_cons_of_mem _ List.mem_cons_self) with
        | object hfields => exact (interfaceOf_madeOf hfields).bind fun _ hmethods => .pure ⟨rfl, hmethods⟩
    · exact .fail trivial

namespace Evaluator.Makes

variable (hev : ev.Makes M) (hctx : ctx.MadeOf M) (henv : env.MadeOf M)
include hev hctx henv

theorem appForm (args : List Surface.Expr) :
    Gives (Lifted.MadeOf M) (ev.appForm ctx loc env args) := by
  refine .skip fun _ => ?_
  split
  · rename_i options parts topLoc formals body
    refine (hev.exprs hctx henv _).bind fun evaluated hevaluated => ?_
    split
    · rename_i optionsLoc options specsLoc specs hvalues
      have hboth := hevaluated.value
      simp only [hvalues, List.map_cons, List.map_nil, List.mem_cons, List.not_mem_nil, or_false,
        forall_eq_or_imp, forall_eq] at hboth
      obtain ⟨hoptions, hspecs⟩ := hboth
      cases hoptions with
      | object hoptions =>
        cases hspecs with
        | tuple hspecs =>
          refine (participantsOf_madeOf hspecs).bind fun parts hparts => .skip fun _ => ?_
          refine Meets.bind (P := fun out : Bindings => ∀ b ∈ out.entries, b.2.value.MadeOf M ∨
            ∃ tag p, b.2.value = .participant tag p ∧ p.address = none) ?_ fun out hout =>
              Meets.freshTag.bind fun tag _ => .pure ⟨hevaluated.code, ?_⟩
          · refine .of_yields fun hrun b hb => ?_
            rw [(Bindings.bindAll_yields hrun).1] at hb
            rcases List.mem_append.1 hb with hold | hnew
            · exact .inl (henv b hold)
            · obtain ⟨e, he, heq⟩ := List.mem_map.1 (List.of_mem_zip hnew).2
              exact .inr ⟨e.1, e.2, by rw [← heq]; rfl, (hparts e he).1⟩
          · refine .app hoptions (fun p hp => ?_) (fun hdead b hb tag p hvalue => ?_) fun b hb hnot => ?_
            · obtain ⟨e, he, rfl⟩ := List.mem_map.1 hp
              exact hparts e he
            · rcases hout b hb with hmade | ⟨_, _, heq, haddress⟩
              · rw [hvalue] at hmade
                cases hmade with
                | participant hlive => exact absurd hlive hdead
              · cases hvalue.symm.trans heq
                exact haddress
            · rcases hout b hb with hmade | ⟨tag, p, heq, _⟩
              · exact hmade
              · exact absurd heq (hnot tag p)
    · exact .fail trivial
  · exact .fail trivial

/-- Private computation takes place where the protocol is live. -/
theorem onlyForm {who : String} (args : List Surface.Expr) :
    Gives (Lifted.MadeOf M) (ev.onlyForm ctx loc env who args) := by
  unfold Evaluator.onlyForm
  split
  · rename_i parties hstep
    have hlive : M.live := hctx.live (.inr (by rw [hstep]; rfl))
    have hviews := hctx.views
    rw [hstep] at hviews
    refine Gives.orFail.bind fun view hview => ?_
    have hmadeView : view.MadeOf M := hviews _ (OrderedMap.mem_of_get? hview)
    refine (hev.exprs (by exact ⟨fun _ => hlive, trivial⟩) hmadeView args).bind fun made hmade => ?_
    split
    · rename_i level tag c hvalue
      refine Meets.bind (M.making.sharedArgs fun name _ => henv.identify name)
        fun shared hshared => ?_
      have hclosure : (Value.closure tag c).MadeOf M :=
        hmade.value _ (by rw [hvalue]; exact List.mem_cons_self)
      cases hclosure with
      | closure hc =>
        refine Meets.bind (P := Lifted.Carries M (Applied.MadeOf M))
          (hev.applyClosure (by exact ⟨fun _ => hlive, trivial⟩) hc (List.forall_mem_map.2 hshared)) fun applied happlied => ?_
        exact Meets.freshTag.bind fun _ _ => .pure ⟨hmade.code.append happlied.code,
          .onlyDone hlive (happlied.value.env.without c.formals)⟩
    · exact .fail trivial
  · exact .fail trivial

theorem applyForm {f : Form} {formLoc : Loc} (args : List Surface.Expr) :
    Gives (Lifted.MadeOf M) (ev.applyForm ctx loc env formLoc f args) := by
  cases f with
  | app => exact hev.appForm hctx henv args
  | only => exact hev.onlyForm hctx henv args
  | onlyDone => exact .fail trivial
  | round =>
    exact (hctx.expectMode rfl).bind fun _ hlive => .skip fun _ =>
      .skip fun _ => Meets.freshTag.bind fun _ _ => .pure (.plain (.round hlive))

theorem apply {rator : Value} (hrator : rator.MadeOf M) (rands : List Surface.Expr) :
    Gives (Lifted.Computed M) (ev.apply ctx loc env rator rands) := by
  unfold Evaluator.apply
  split
  · exact (hev.exprs hctx henv rands).bind fun args hargs =>
      (hev.applyValues hctx henv hrator hargs.value).bind fun _ hresult =>
        .pure ⟨hargs.code.append hresult.code, hresult.value⟩
  · exact (hev.exprs hctx henv rands).bind fun args hargs =>
      (hev.applyValues hctx henv hrator hargs.value).bind fun _ hresult =>
        .pure ⟨hargs.code.append hresult.code, hresult.value⟩
  · exact (hev.applyForm hctx henv rands).imp fun _ h => h.computed
  · exact .fail trivial

/-! ### Expressions -/

theorem reads (p : Surface.Property) : M.making.Reads ev ctx env p := by
  cases p with
  | value => exact ⟨fun key _ => hev.expr hctx henv key, hev.expr hctx henv _⟩
  | shorthand => exact henv.identify _
  | spread => exact hev.expr hctx henv _
  | method => trivial

theorem evalExpr (e : Surface.Expr) : Gives (Lifted.Computed M) (ev.evalExpr ctx env e) := by
  have hplain : ∀ {sv : SecValue}, sv.value.MadeOf M → Lifted.Computed M (.plain sv) :=
    fun h => (Lifted.MadeOf.plain h).computed
  unfold Evaluator.evalExpr
  cases e with
  | ident loc name => exact (henv.identify name).bind fun _ hsv => .pure (hplain hsv)
  | int => exact .pure ⟨Code.madeOf_nil, fun hnot => absurd rfl (hnot _ _)⟩
  | string => exact .pure (hplain .bytes)
  | bool => exact .pure (hplain .bool)
  | null => exact .pure (hplain .null)
  | array loc elems =>
    exact (M.making.array fun e _ => hev.expr hctx henv e).imp fun _ h => h.computed
  | object loc props =>
    exact (M.making.objectLiteral fun p _ => hev.reads hctx henv p).imp fun _ h => h.computed
  | call loc callee args =>
    exact (hev.expr hctx henv callee).bind fun rator hrator =>
      (hev.apply hctx henv hrator.value args).bind fun _ hresult =>
        .pure ⟨hrator.code.append hresult.code, hresult.value⟩
  | dot loc base field =>
    exact (hev.expr hctx henv base).bind fun object hobject =>
      (hctx.field hobject.value field).bind fun _ hresult =>
        .pure ⟨hobject.code.append hresult.code, fun _ => hresult.value⟩
  | index loc base position =>
    exact (hev.expr hctx henv base).bind fun v hv => (hev.expr hctx henv position).bind fun i hi =>
      (hctx.element hv.value hi.value _).bind fun _ hresult =>
        .pure (hresult.computed.after (hv.code.append hi.code))
  | binary loc op lhs rhs =>
    exact Meets.bind (op.rator_meets (fun _ => trivial) (fun name _ => henv.lookup name)
      fun _ => .prim rfl) fun _ hrator => hev.apply hctx henv hrator [lhs, rhs]
  | unary loc op operand =>
    exact Meets.bind (op.rator_meets (fun _ => trivial) fun name _ => henv.lookup name)
      fun _ hrator => hev.apply hctx henv hrator [operand]
  | paren _ inner => exact (hev.expr hctx henv inner).imp fun _ h => h.computed
  | ternary loc cond onTrue onFalse => exact hev.ternary hctx henv cond onTrue onFalse
  | arrow loc formals body => exact Meets.freshTag.bind fun _ _ => .pure (hplain (.closure henv))
  | function loc name formals body =>
    cases name with
    | none => exact Meets.freshTag.bind fun _ _ => .pure (hplain (.closure henv))
    | some name => exact .fail trivial
  | foreign => exact .fail trivial

end Evaluator.Makes

end Choreography
