import Choreography.Proofs.Compilation
import Choreography.Proofs.Modes
import Choreography.Proofs.Transitions

/-!
The views of participants between rounds. What is computed in private only adds bindings, so after
an `only` a participant's view has everything that the environment of the function had. When the
function is written in place, that environment is the view as it was before.
-/

namespace Choreography

open Eval Ir

/-- Whatever is bound stays bound to the same value. -/
def Bindings.KeptBy (env out : Bindings) : Prop :=
  ∀ name sv, env.find? name = some sv → out.find? name = some sv

/-- Where the ways out of a body join, its bindings stay. -/
theorem Ctx.joinExits_env {ctx : Ctx} {loc : Loc} {slot : Nat} {body : Lifted Outcome} :
    Gives (·.value.env = body.value.env) (ctx.joinExits loc slot body) := by
  unfold Ctx.joinExits
  split
  · exact .pure rfl
  · exact .pure rfl
  · exact .skip fun _ => .skip fun _ => .pure rfl

/-! ### Private computation adds bindings -/

/-- Statements that are evaluated in private leave every binding that they begin with. -/
structure Evaluator.Growing (ev : Evaluator) : Prop where
  stmts : ∀ {ctx : Ctx} {loc : Loc} {scope : Scope} {stmts : List Surface.Stmt} {s s' : Supply}
    {r : Lifted Outcome}, (ev.stmts ctx loc scope stmts).Yields s r s' → ctx.mode.Private →
    scope.env.entries <+: r.value.env.entries

namespace Evaluator.Growing

variable {ev : Evaluator} {ctx : Ctx} {loc : Loc} {scope : Scope} {s s' : Supply}
  {rest : List Surface.Stmt}

variable (hev : ev.Growing) (hprivate : ctx.mode.Private)
include hev hprivate

theorem body {stmts : List Surface.Stmt} :
    Gives (scope.env.entries <+: ·.value.env.entries) (ev.stmts ctx loc scope stmts) :=
  .of_yields fun hrun => hev.stmts hrun hprivate

theorem extend {code : Code} {env : Bindings} (henv : scope.env.entries <+: env.entries) :
    Gives (scope.env.entries <+: ·.value.env.entries) (ev.extend ctx loc scope code env rest) :=
  Meets.bind (hev.body hprivate) fun _ hgrows => .pure (henv.trans hgrows)

theorem continueWith {first : Lifted Outcome}
    (hfirst : scope.env.entries <+: first.value.env.entries) :
    Gives (scope.env.entries <+: ·.value.env.entries)
      (ev.continueWith ctx loc scope first rest) := by
  unfold Evaluator.continueWith
  split
  · exact .pure hfirst
  · exact Meets.bind (hev.body hprivate) fun _ hgrows => .pure hgrows

theorem branch {cond : Surface.Expr} {onTrue : Surface.Stmt} {onFalse : Option Surface.Stmt} :
    Gives (scope.env.entries <+: ·.value.env.entries)
      (ev.branch ctx loc scope cond onTrue onFalse rest) := by
  have hinner : ∀ b : Bool, (if b then scope else { scope with style := .mayBeEmpty }).env
      = scope.env := by
    intro b
    cases b <;> rfl
  refine .skip fun c => ?_
  split
  · split
    all_goals
      refine Meets.bind (hev.body hprivate) fun _ hgrows => hev.continueWith hprivate ?_
      rwa [hinner] at hgrows
  · exact .skip fun _ => .skip fun _ =>
      hev.continueWith hprivate (List.prefix_refl _)
  · exact .fail trivial

theorem exprStmt {e : Surface.Expr} :
    Gives (scope.env.entries <+: ·.value.env.entries) (ev.exprStmt ctx loc scope e rest) := by
  refine .skip fun v => ?_
  split
  -- what acts as a statement does so between rounds or in consensus
  any_goals
    rename_i hmode _
    rw [hmode] at hprivate
    exact hprivate.elim
  exact .skip fun _ => hev.extend hprivate (List.prefix_refl _)

theorem evalStmts {stmts : List Surface.Stmt} :
    Gives (scope.env.entries <+: ·.value.env.entries) (ev.evalStmts ctx loc scope stmts) := by
  have hconsensus : ctx.mode.isConsensus ≠ true := by
    cases hmode : ctx.mode <;> simp_all [Mode.Private, Mode.isConsensus]
  unfold Evaluator.evalStmts
  split
  · exact .pure (List.prefix_refl _)
  · exact (hev.body hprivate).bind fun _ hfirst => hev.continueWith hprivate hfirst
  · exact .skip fun _ => (Meets.of_yields Bindings.merge_extends).bind fun _ hmerge =>
      hev.extend hprivate hmerge
  · exact Gives.ensure.bind fun _ h => absurd h hconsensus
  · exact .skip fun _ => .skip fun _ =>
      (Meets.of_yields Bindings.bind_extends).bind fun _ hbind => hev.extend hprivate hbind
  · exact hev.branch hprivate
  · exact hev.body hprivate
  · exact hev.exprStmt hprivate
  · exact hev.exprStmt hprivate
  · exact Gives.ensure.bind fun _ h => absurd h hconsensus
  · exact .fail trivial
  · exact Evaluator.ret_meets (P := fun _ => True) (fun _ _ => trivial) (fun _ _ => Gives.any)
      trivial fun _ _ _ => List.prefix_refl _
  · exact Gives.ensure.bind fun _ h => absurd h hconsensus
  all_goals exact .fail trivial

/-- A function that is applied in private leaves the bindings of the environment it was written in,
also when its formals are dropped again. -/
theorem applyClosure {c : Closure} {args : List SecValue} {r : Lifted Applied}
    (hrun : (ev.applyClosure ctx loc c args).Yields s r s') :
    Bindings.KeptBy c.env (r.value.env.without c.formals) := by
  simp only [Evaluator.applyClosure, yields_bind, yields_ensure, decide_eq_true_eq] at hrun
  obtain ⟨slot, _, _, _, _, ⟨hlength, _⟩, env, _, hbind, body, _, hbody, hjoin⟩ := hrun
  have hgrows : c.env.entries <+: body.value.env.entries :=
    List.IsPrefix.trans (Bindings.bindAll_extends hbind) (hev.stmts hbody hprivate)
  have henv := Ctx.joinExits_env.result hjoin
  intro name sv hfind
  have hformal : name ∉ c.formals := by
    intro hmem
    simp [Bindings.formals_fresh hlength hbind name hmem] at hfind
  rw [Env.find?_without, if_neg hformal, henv]
  exact Env.find?_of_older hgrows hfind

end Evaluator.Growing

theorem evaluator_growing (fuel : Nat) : (evaluator fuel).Growing := by
  induction fuel with
  | zero => exact ⟨fun hrun => absurd hrun yields_outOfFuel⟩
  | succ fuel ih => exact ⟨fun hrun hprivate => (ih.evalStmts hprivate).result hrun⟩

/-! ### What an `only` leaves -/

namespace Surface.Expr

/-- A function as it is written. -/
def isFunction : Expr → Bool
  | .arrow .. | .function _ none _ _ => true
  | _ => false

/-- `P.only(f)` for a name `P` that is bound to a participant, and a function that is written in
place. -/
def AsksInPlace (env : Bindings) : Expr → Prop
  | .call _ (.dot _ (.ident _ name) "only") [f] =>
    f.isFunction = true ∧ ∃ level tag party, env.find? name = some ⟨level, .participant tag party⟩
  | _ => False

end Surface.Expr

section Only

variable {fuel : Nat} {ctx : Ctx} {loc : Loc} {env : Bindings} {s s' : Supply}
  {e : Surface.Expr} {r : Lifted SecValue}

theorem made_in_place {made : Lifted (List SecValue)} {f : Surface.Expr} {tag : Tag} {c : Closure}
    {level : Level} (hfunction : f.isFunction = true)
    (hrun : ((evaluator fuel).exprs ctx env [f]).Yields s made s')
    (hmade : made.value = [⟨level, .closure tag c⟩]) : c.env = env := by
  simp only [Evaluator.exprs, yields_bind, yields_pure] at hrun
  obtain ⟨v, _, hv, _, _, ⟨rfl, rfl⟩, rfl, rfl⟩ := hrun
  obtain ⟨depth, rfl, hf⟩ := evaluator_expr_yields hv
  have hclosure : v.value = ⟨level, .closure tag c⟩ := by simpa [Lifted.plain] using hmade
  unfold Surface.Expr.isFunction at hfunction
  split at hfunction
  · simp only [Evaluator.evalExpr, Ctx.makeClosure, yields_bind, yields_pure] at hf
    obtain ⟨_, _, _, rfl, _⟩ := hf
    cases hclosure
    rfl
  · simp only [Evaluator.evalExpr, Ctx.makeClosure, yields_bind, yields_pure] at hf
    obtain ⟨_, _, _, rfl, _⟩ := hf
    cases hclosure
    rfl
  · simp at hfunction

/-- An `only` whose function is written in place keeps what the participant knew. -/
theorem only_in_place_yields {parties : Parties} (hmode : ctx.mode = .step parties)
    (hplace : e.AsksInPlace env) (hrun : ((evaluator fuel).expr ctx env e).Yields s r s') :
    ∃ formLoc tag who before view result,
      r.value.value = .form formLoc tag (.onlyDone who view result) ∧
      parties.views.get? who = some before ∧ Bindings.KeptBy before view := by
  unfold Surface.Expr.AsksInPlace at hplace
  split at hplace
  · rename_i callLoc dotLoc nameLoc name f
    obtain ⟨hfunction, level, tag, party, hfind⟩ := hplace
    obtain ⟨depth, construct, result, s₁, s₂, rfl, _, hconstruct, happly, _, hvalue⟩ :=
      participant_call_yields hfind hrun
    simp only [Participant.field, if_true, yields_bind, yields_freshTag, yields_pure] at hconstruct
    obtain ⟨_, _, ⟨rfl, rfl⟩, rfl, rfl⟩ := hconstruct
    simp only [Evaluator.apply, Evaluator.applyForm, Evaluator.onlyForm, hmode, yields_bind,
      yields_orFail] at happly
    obtain ⟨before, _, ⟨hbefore, rfl⟩, made, _, hmade, happly⟩ := happly
    split at happly
    · rename_i level' tag' c hclosure
      simp only [yields_bind, yields_freshTag, yields_pure] at happly
      obtain ⟨_, _, _, applied, _, happlied, _, _, ⟨rfl, rfl⟩, rfl, rfl⟩ := happly
      have hlocal : Mode.localStep.Private := trivial
      have hkept := (evaluator_growing depth).applyClosure hlocal happlied
      rw [made_in_place hfunction hmade hclosure] at hkept
      exact ⟨_, _, _, before, _, _, hvalue, hbefore, hkept⟩
    · simp at happly
  · exact hplace.elim

end Only

/-- After a statement whose value is a finished `only`, evaluation goes on with the view of that
participant replaced and every other view as it was. When the statement asks in place, the
participant's view still binds whatever it bound before, to the same values. -/
theorem only_in_place_grows_view {p : Point} {parties : Parties} {stmt : Surface.Stmt}
    {e : Surface.Expr} {rest : List Surface.Stmt} {v : Lifted SecValue} {formLoc : Loc} {tag : Tag}
    {who : String} {view : Bindings} {result : SecValue} {r : Lifted Outcome} {s₁ s' : Supply}
    (hrun : p.Yields r s') (hmode : p.ctx.mode = .step parties) (hstmts : p.stmts = stmt :: rest)
    (hexpr : stmt.expression? = some e) (hworth : p.Worth e v s₁)
    (hvalue : v.value.value = .form formLoc tag (.onlyDone who view result)) :
    ∃ (q : Point) (next : Lifted Outcome) (views : NameMap Bindings), q.Yields next s' ∧
      r = next.after [.only formLoc who v.code] ∧ q.stmts = rest ∧ q.scope = p.scope ∧
      q.ctx = { p.ctx with mode := .step { parties with views } } ∧
      views.get? who = some view ∧
      (∀ other, other ≠ who → views.get? other = parties.views.get? other) ∧
      (e.AsksInPlace p.scope.env → ∃ before, parties.views.get? who = some before ∧
        Bindings.KeptBy before view) := by
  obtain ⟨fuel, ctx, loc, scope, s, rfl, hstmt⟩ := hrun.first hstmts hexpr
  change ((evaluator fuel).expr ctx scope.env e).Yields s v s₁ at hworth
  change ctx.mode = .step parties at hmode
  obtain ⟨code, level, value⟩ := v
  obtain rfl : value = .form formLoc tag (.onlyDone who view result) := hvalue
  rw [Evaluator.exprStmt_of_onlyDone hmode hworth] at hstmt
  obtain ⟨_, next, hnext, rfl⟩ := hstmt
  refine ⟨⟨fuel, _, stmt.loc, scope, rest, s₁⟩, next, parties.views.insert who view, hnext, rfl,
    rfl, rfl, rfl, OrderedMap.get?_insert_self _ _ _,
    fun other hother => OrderedMap.get?_insert_of_ne hother _ _, fun hplace => ?_⟩
  obtain ⟨_, _, _, before, _, _, hform, hbefore, hkept⟩ :=
    only_in_place_yields hmode hplace hworth
  cases hform
  exact ⟨before, hbefore, hkept⟩

/-! ### A view that grows, and one that does not -/

namespace Surface

/-- A participant that nobody has referred to yet. -/
def newcomer (who : String) : Participant :=
  { loc := here, who, interfaceLoc := here, interface := [], displayName := none, address := none }

/-- What a participant knows that has made a function, and a number after it. -/
def knowing : Bindings :=
  let f : Closure := { loc := here, name := none, formals := [], body := ⟨here, []⟩, env := {} }
  ⟨[("f", .pub (.closure 1 f)), ("x", .pub (.int here 5))]⟩

/-- Two participants between rounds, and a statement by which the first may be asked. -/
def asking (e : Expr) : Point :=
  { fuel := 12
    ctx := { mode := .step { views := ⟨[("A", knowing), ("B", {})]⟩ }, canLift := true }
    loc := here
    scope := { env := ⟨[("A", .secret (.participant 1 (newcomer "A")))]⟩ }
    stmts := [.expr here e]
    supply := {} }

/-- A question whose function is written in place. -/
def askNow : Expr := method (name "A") "only" [thunk [define "y" (name "x")]]

/-- A question with the function that was made before. -/
def askAgain : Expr := method (name "A") "only" [name "f"]

end Surface

/-- The participant whose private computation a value is the end of, and its view then. -/
def Value.answer? : Value → Option (String × Bindings)
  | .form _ _ (.onlyDone who view _) => some (who, view)
  | _ => none

theorem Value.of_answer? {v : Value} {who : String} {view : Bindings}
    (h : v.answer? = some (who, view)) :
    ∃ loc tag result, v = .form loc tag (.onlyDone who view result) := by
  unfold Value.answer? at h
  split at h
  · cases h
    exact ⟨_, _, _, rfl⟩
  · simp at h

theorem askNow_grows_view :
    ∃ (r : Lifted Outcome) (s' : Supply) (view : Bindings),
      (Surface.asking Surface.askNow).Yields r s' ∧ Bindings.KeptBy Surface.knowing view ∧
      ∃ (q : Point) (next : Lifted Outcome) (views : NameMap Bindings), q.Yields next s' ∧
        q.ctx.mode = .step { views } ∧ views.get? "A" = some view ∧ views.get? "B" = some {} := by
  let p : Point := Surface.asking Surface.askNow
  obtain ⟨r, s', hrun, _⟩ := exists_yields_of_any (s := p.supply) (f := fun _ => true)
    (x := Elaboration.evalStmts p.fuel p.ctx p.loc p.scope p.stmts) (by decide +kernel)
  obtain ⟨v, s₁, hworth, hanswer⟩ := exists_yields_of_any (s := p.supply)
    (f := fun v => v.value.value.answer?.any (·.1 == "A"))
    (x := Elaboration.evalExpr (p.fuel - 1) p.ctx p.scope.env Surface.askNow) (by decide +kernel)
  obtain ⟨⟨who, view⟩, hview, hwho⟩ := (Option.any_eq_true _ _).1 hanswer
  obtain rfl : who = "A" := by simpa using hwho
  obtain ⟨_, _, _, hvalue⟩ := Value.of_answer? hview
  obtain ⟨q, next, views, hnext, _, _, _, hctx, hget, hothers, hkept⟩ :=
    only_in_place_grows_view (p := p) hrun rfl rfl rfl hworth hvalue
  obtain ⟨before, hbefore, hgrows⟩ := hkept ⟨rfl, _, _, _, rfl⟩
  obtain rfl : Surface.knowing = before := Option.some.inj hbefore
  exact ⟨r, s', view, hrun, hgrows, q, next, views, hnext, by rw [hctx], hget,
    hothers "B" (by decide)⟩

/-- A function that is older than part of the view brings back the view it was made in. -/
theorem askAgain_forgets :
    ∃ (r : Lifted Outcome) (v : Lifted SecValue) (s' s₁ : Supply) (loc : Loc) (tag : Tag)
      (view : Bindings) (result : SecValue), (Surface.asking Surface.askAgain).Yields r s' ∧
      (Surface.asking Surface.askAgain).Worth Surface.askAgain v s₁ ∧
      v.value.value = .form loc tag (.onlyDone "A" view result) ∧
      (Surface.knowing.find? "x").isSome = true ∧ view.find? "x" = none := by
  let p : Point := Surface.asking Surface.askAgain
  obtain ⟨r, s', hrun, _⟩ := exists_yields_of_any (s := p.supply) (f := fun _ => true)
    (x := Elaboration.evalStmts p.fuel p.ctx p.loc p.scope p.stmts) (by decide +kernel)
  obtain ⟨v, s₁, hworth, hanswer⟩ := exists_yields_of_any (s := p.supply)
    (f := fun v => v.value.value.answer?.any fun a => a.1 == "A" && (a.2.find? "x").isNone)
    (x := Elaboration.evalExpr (p.fuel - 1) p.ctx p.scope.env Surface.askAgain) (by decide +kernel)
  obtain ⟨⟨who, view⟩, hview, hlost⟩ := (Option.any_eq_true _ _).1 hanswer
  obtain ⟨rfl, hnone⟩ : who = "A" ∧ view.find? "x" = none := by simpa using hlost
  obtain ⟨loc, tag, result, hvalue⟩ := Value.of_answer? hview
  exact ⟨r, v, s', s₁, loc, tag, view, result, hrun, hworth, hvalue, by decide +kernel, hnone⟩

end Choreography
