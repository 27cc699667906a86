import Choreography.Elaboration
import Choreography.Proofs.Faults
import Choreography.Proofs.Traversal

/-!
Elaboration as a walk through statements. At each point some statements are left, with the context
and the scope in which they are evaluated. A statement leads on to the point at which those after it
are evaluated: it may bind names, act privately, open a round, or commit one.
-/

namespace Choreography

open Eval Ir

namespace Eval

variable {α β : Type} {x : Eval α} {f : α → Eval β} {s s₁ s' : Supply} {a : α} {b : β}

/-- Once the first part of a sequence has run, the second part decides. -/
theorem yields_bind_iff (h : x.Yields s a s₁) :
    (x >>= f).Yields s b s' ↔ (f a).Yields s₁ b s' := by
  rw [Yields, runFrom_bind, h]
  rfl

end Eval

/-- The expression that a statement consists of, if it is one. -/
def Surface.Stmt.expression? : Stmt → Option Expr
  | .expr _ e => some e
  | .methodCall loc callee args => some (.call loc callee args)
  | _ => none

/-- A point of an elaboration: the statements that are left, and what their evaluation depends
on. -/
structure Point where
  fuel : Nat
  ctx : Ctx
  loc : Loc
  scope : Scope
  stmts : List Surface.Stmt
  supply : Supply

namespace Point

/-- What is left at the point evaluates to a result. -/
def Yields (p : Point) (r : Lifted Outcome) (s' : Supply) : Prop :=
  (Elaboration.evalStmts p.fuel p.ctx p.loc p.scope p.stmts).Yields p.supply r s'

/-- The value of an expression that stands first. -/
def Worth (p : Point) (e : Surface.Expr) (v : Lifted SecValue) (s₁ : Supply) : Prop :=
  (Elaboration.evalExpr (p.fuel - 1) p.ctx p.scope.env e).Yields p.supply v s₁

/-- A statement that binds names, defines a function, or computes something worth null. -/
inductive Passes : Point → Surface.Stmt → Point → Prop
  | declare {fuel : Nat} {ctx : Ctx} {loc stmtLoc : Loc} {scope : Scope}
    {decls : List Surface.Decl} {rest : List Surface.Stmt} {bound : Lifted Bindings}
    {env : Bindings} {s s₁ s₂ : Supply}
    (hdecls : ((evaluator fuel).decls ctx scope.env decls).Yields s bound s₁)
    (hmerge : (scope.env.merge stmtLoc bound.value).Yields s₁ env s₂) :
    Passes ⟨fuel + 1, ctx, loc, scope, .constDecl stmtLoc decls :: rest, s⟩
      (.constDecl stmtLoc decls) ⟨fuel, ctx, stmtLoc, { scope with env }, rest, s₂⟩
  | define {fuel : Nat} {ctx : Ctx} {loc stmtLoc : Loc} {scope : Scope} {name : String}
    {formals : List String} {body : Surface.Block} {rest : List Surface.Stmt} {c : SecValue}
    {env : Bindings} {s s₁ s₂ : Supply}
    (hclosure : c = .pub (.closure s.nextTag
      { loc := stmtLoc, name := some name, formals, body, env := scope.env }))
    (htag : s₁ = { s with nextTag := s.nextTag + 1 })
    (hbind : (scope.env.bind stmtLoc name c).Yields s₁ env s₂) :
    Passes ⟨fuel + 1, ctx, loc, scope, .function stmtLoc (some name) formals body :: rest, s⟩
      (.function stmtLoc (some name) formals body)
      ⟨fuel, ctx, stmtLoc, { scope with env }, rest, s₂⟩
  | compute {fuel : Nat} {ctx : Ctx} {loc : Loc} {scope : Scope} {stmt : Surface.Stmt}
    {e : Surface.Expr} {rest : List Surface.Stmt} {v : Lifted SecValue} {a : Arg} {s s₁ : Supply}
    (hexpr : stmt.expression? = some e)
    (hvalue : ((evaluator fuel).expr ctx scope.env e).Yields s v s₁)
    (hnull : v.value.value.typed? = some (.null, a)) :
    Passes ⟨fuel + 1, ctx, loc, scope, stmt :: rest, s⟩ stmt
      ⟨fuel, ctx, stmt.loc, scope, rest, s₁⟩

/-- A statement after another, each of which passes. -/
inductive PassesAll : Point → List Surface.Stmt → Point → Prop
  | nil {p : Point} : PassesAll p [] p
  | cons {p q q' : Point} {stmt : Surface.Stmt} {stmts : List Surface.Stmt}
    (hfirst : p.Passes stmt q) (hrest : PassesAll q stmts q') : PassesAll p (stmt :: stmts) q'

/-- A statement whose value is a round: what follows is evaluated in consensus, once the messages
are out and the amount and the timeout have been dealt with. -/
inductive Opens : Point → Round → List (Arg × Var) → Point → Prop
  | intro {fuel : Nat} {ctx : Ctx} {parties : Parties} {loc roundLoc : Loc} {scope : Scope}
    {stmt : Surface.Stmt} {e : Surface.Expr} {rest : List Surface.Stmt} {code : Code}
    {level : Level} {tag : Tag} {round : Round} {view sent shared : Bindings}
    {messages : List (Arg × Var)} {join : Bool} {whoVar : Var}
    {sender : Option (String × SecValue)} {views : NameMap Bindings} {amount : Lifted Arg}
    {check : Lifted SecValue} {late : Lifted (Option Deadline × List Exit)}
    {s s₁ s₂ s₃ s₄ s₅ s₆ s₇ s₈ s₉ : Supply}
    (hexpr : stmt.expression? = some e) (hmode : ctx.mode = .step parties)
    (hvalue : ((evaluator fuel).expr ctx scope.env e).Yields s
      ⟨code, level, .form roundLoc tag (.round round)⟩ s₁)
    (hstage : round.stage = none) (hview : parties.views.get? round.who = some view)
    (hmessages : (ctx.messages stmt.loc roundLoc view {} (round.publish.getD [])).Yields s₁
      (messages, sent) s₂)
    (haddress : (ctx.addressOf roundLoc parties.joined round.who).Yields s₂ (join, whoVar) s₃)
    (hsender : (joinedSender roundLoc scope.env round.displayName whoVar).Yields s₃ sender s₄)
    (hshared : (scope.env.merge stmt.loc sent).Yields s₄ shared s₅)
    (hviews : (parties.views.traverse fun who old => do
      if who = round.who then return old.withSender sender
      else
        let received ← old.merge stmt.loc sent
        return received.withSender sender : Eval (NameMap Bindings)).Yields s₅ views s₆)
    (hamount : ((evaluator fuel).payment ctx ((views.get? round.who).getD {}) round.pay).Yields s₆
      amount s₇)
    (hcheck : ((evaluator fuel).expr ctx (shared.withSender sender)
      (amountCheck roundLoc (round.pay.getD (.int roundLoc "0" 10)))).Yields s₇ check s₈)
    (hlate : ((evaluator fuel).deadline ctx scope round.timeout).Yields s₈ late s₉) :
    Opens ⟨fuel + 1, ctx, loc, scope, stmt :: rest, s⟩ round messages
      ⟨fuel, { ctx with
        mode := .consensus (shared.withSender sender)
          { joined := parties.joined.insertNew round.who whoVar, views } },
        stmt.loc, { scope with env := shared.withSender sender }, rest, s₉⟩

/-- A statement whose value marks a commit: what follows is evaluated between rounds, and everyone
has learned what the round has bound. -/
inductive Commits : Point → Point → Prop
  | intro {fuel : Nat} {ctx : Ctx} {opened : Bindings} {parties : Parties} {loc : Loc}
    {scope : Scope} {stmt : Surface.Stmt} {e : Surface.Expr} {rest : List Surface.Stmt}
    {code : Code} {level : Level} {primLoc : Loc} {views : NameMap Bindings} {s s₁ s₂ : Supply}
    (hexpr : stmt.expression? = some e) (hmode : ctx.mode = .consensus opened parties)
    (hvalue : ((evaluator fuel).expr ctx scope.env e).Yields s
      ⟨code, level, .prim primLoc .committed⟩ s₁)
    (hviews : (parties.views.traverse fun _ view =>
      Bindings.merge view stmt.loc (scope.env.difference opened)).Yields s₁ views s₂) :
    Commits ⟨fuel + 1, ctx, loc, scope, stmt :: rest, s⟩
      ⟨fuel, { ctx with mode := .step { parties with views } }, stmt.loc, scope, rest, s₂⟩

end Point

/-! ### Names that statements bind -/

section Names

variable {s s' : Supply} {loc : Loc} {ctx : Ctx} {env : Bindings} {ev : Evaluator}

namespace Surface

/-- The names that stand on the left of a declaration. -/
def Expr.targets : Expr → List String
  | .ident _ name => [name]
  | .array _ elems => elems.flatMap fun
    | .ident _ name => [name]
    | _ => []
  | _ => []

/-- The names that a statement binds for those after it. -/
def Stmt.binds : Stmt → List String
  | .constDecl _ decls => decls.flatMap fun d => d.lhs.targets
  | .function _ name _ _ => name.toList
  | _ => []

end Surface

theorem Target.identifiers_names (elems : List Surface.Expr) :
    Gives (· = Surface.Expr.targets (.array loc elems)) (Target.identifiers elems) := by
  induction elems with
  | nil => exact .pure rfl
  | cons elem elems ih =>
    cases elem with
    | ident => exact ih.bind fun names hnames => .pure (by rw [hnames]; rfl)
    | _ => exact .fail trivial

/-- The names that the left of a declaration stands for. -/
inductive Target.Of : Surface.Expr → Target → Prop
  | single {loc : Loc} {name : String} : Of (.ident loc name) (.single name)
  | several {loc : Loc} {elems : List Surface.Expr} :
    Of (.array loc elems) (.several (Surface.Expr.targets (.array loc elems)))

theorem Target.Of.all_eq {lhs : Surface.Expr} {target : Target} (h : Of lhs target) :
    target.all = lhs.targets := by
  cases h <;> rfl

theorem Target.ofExpr_of (lhs : Surface.Expr) : Gives (Of lhs) (Target.ofExpr lhs) := by
  cases lhs with
  | ident => exact .pure .single
  | array loc elems =>
    exact (identifiers_names elems).bind fun _ hnames => .pure (by rw [hnames]; exact .several)
  | _ => exact .fail trivial

theorem Evaluator.decl_binds {bound : Bindings} {d : Surface.Decl} :
    Gives (fun r => r.value.entries.map (·.1) = bound.entries.map (·.1) ++ d.lhs.targets)
      (ev.decl ctx bound env d) := by
  refine .skip fun init => (Target.ofExpr_of _).bind fun target htarget => .skip fun rhs => ?_
  rw [← htarget.all_eq]
  cases target with
  | single name =>
    refine Meets.bind (P := (· = bound.push name rhs.value))
      (.of_yields fun hrun => (Bindings.bind_yields.1 hrun).2.1) fun out hout => .pure ?_
    simp [hout, Env.push, Target.all]
  | several names =>
    refine .skip fun parts => Gives.ensure.bind fun _ hlength => Meets.bind
      (P := fun out => out.entries = bound.entries ++ names.zip (parts.value.map _))
      (.of_yields fun hrun => (Bindings.bindAll_yields hrun).1) fun out hout => .pure ?_
    rw [decide_eq_true_eq] at hlength
    rw [hout, List.map_append, List.map_fst_zip (by simp [hlength])]
    rfl

theorem Evaluator.declsFrom_binds {decls : List Surface.Decl} : ∀ {bound : Bindings},
    Gives (fun r => r.value.entries.map (·.1) =
      bound.entries.map (·.1) ++ decls.flatMap fun d => d.lhs.targets)
      (ev.declsFrom ctx bound env decls) := by
  induction decls with
  | nil => exact .pure (by simp [Lifted.plain])
  | cons d decls ih =>
    refine decl_binds.bind fun first hfirst => ih.bind fun rest hrest => .pure ?_
    simp only [hfirst] at hrest
    simpa [Lifted.after] using hrest

theorem Ctx.loopVars_names {bindings : List (String × SecValue)} :
    Gives (fun vars => vars.map (·.1) = bindings.map (·.1)) (ctx.loopVars loc bindings) := by
  induction bindings with
  | nil => exact .pure rfl
  | cons b bindings ih =>
    exact .skip fun _ => .skip fun _ => ih.bind fun vars hvars => .pure (by simp [hvars])

end Names

/-! ### From statement to statement -/

section Statement

variable {ev : Evaluator} {ctx : Ctx} {loc : Loc} {scope : Scope} {stmt : Surface.Stmt}
  {e : Surface.Expr} {rest : List Surface.Stmt} {v : Lifted SecValue} {r : Lifted Outcome}
  {a : Arg} {s s₁ s' : Supply}

theorem Value.expectNull_iff {v : Value} {u : Unit} :
    (v.expectNull loc).Yields s u s' ↔ (∃ a, v.typed? = some (.null, a)) ∧ s' = s := by
  unfold Value.expectNull
  split
  · simp_all
  · rename_i hnot
    simp only [yields_fail, false_iff]
    rintro ⟨⟨a, ha⟩, _⟩
    exact hnot a ha

theorem Evaluator.evalStmts_expression (hexpr : stmt.expression? = some e) :
    ev.evalStmts ctx loc scope (stmt :: rest) = ev.exprStmt ctx stmt.loc scope e rest := by
  cases stmt <;> simp only [Surface.Stmt.expression?, Option.some.injEq, reduceCtorEq] at hexpr
  all_goals
    subst hexpr
    rfl

/-- A value that is worth null has no effect of its own. -/
theorem Evaluator.exprStmt_of_null (hvalue : (ev.expr ctx scope.env e).Yields s v s₁)
    (hnull : v.value.value.typed? = some (.null, a)) :
    (ev.exprStmt ctx loc scope e rest).Yields s r s' ↔
      (ev.extend ctx loc scope v.code scope.env rest).Yields s₁ r s' := by
  rw [Evaluator.exprStmt, yields_bind_iff hvalue]
  split
  all_goals try
    rename_i hacts
    rw [hacts] at hnull
    simp [Value.typed?, Prim.typed?] at hnull
  exact yields_bind_iff ((Value.expectNull_iff (u := ())).2 ⟨⟨a, hnull⟩, rfl⟩)

theorem Evaluator.exprStmt_of_onlyDone {parties : Parties} {code : Code} {level : Level}
    {formLoc : Loc} {tag : Tag} {who : String} {view : Bindings} {result : SecValue}
    (hmode : ctx.mode = .step parties)
    (hvalue : (ev.expr ctx scope.env e).Yields s
      ⟨code, level, .form formLoc tag (.onlyDone who view result)⟩ s₁) :
    (ev.exprStmt ctx loc scope e rest).Yields s r s' ↔
      (∃ a, result.value.typed? = some (.null, a)) ∧ ∃ next,
        (ev.stmts { ctx with mode := .step { parties with views := parties.views.insert who view } }
          loc scope rest).Yields s₁ next s' ∧ r = next.after [.only formLoc who code] := by
  rw [Evaluator.exprStmt, yields_bind_iff hvalue, hmode]
  simp only [yields_bind, Value.expectNull_iff, yields_pure]
  constructor
  · rintro ⟨_, _, ⟨hnull, rfl⟩, next, _, hnext, rfl, rfl⟩
    exact ⟨hnull, next, hnext, rfl⟩
  · rintro ⟨hnull, next, hnext, rfl⟩
    exact ⟨(), _, ⟨hnull, rfl⟩, next, _, hnext, rfl, rfl⟩

end Statement

/-! ### Calls by name -/

section Calls

variable {fuel : Nat} {ctx : Ctx} {loc : Loc} {env : Bindings} {s s' : Supply}
  {e : Surface.Expr} {r : Lifted SecValue}

theorem evaluator_expr_yields (h : ((evaluator fuel).expr ctx env e).Yields s r s') :
    ∃ depth, fuel = depth + 1 ∧ ((evaluator depth).evalExpr ctx env e).Yields s r s' := by
  cases fuel with
  | zero => simp [evaluator_zero, Evaluator.exhausted] at h
  | succ depth => exact ⟨depth, rfl, h⟩

/-- A name that is bound to a participant is worth that participant, up to its display name. -/
theorem Bindings.identify_participant {name : String} {level : Level} {tag : Tag}
    {party : Participant} {out : SecValue}
    (hfind : env.find? name = some ⟨level, .participant tag party⟩)
    (hrun : (env.identify loc name).Yields s out s') :
    ∃ tag', out = ⟨level, .participant tag'
      { party with displayName := some (party.displayName.getD name) }⟩ ∧ s'.nextId = s.nextId := by
  simp only [identify, yields_bind, lookup_yields] at hrun
  obtain ⟨sv, _, ⟨hsv, rfl⟩, hrun⟩ := hrun
  obtain rfl := Option.some.inj (hfind.symm.trans hsv)
  obtain ⟨_, _, _, _, shown, _⟩ := party
  cases shown with
  | some _ =>
    simp only [yields_pure] at hrun
    obtain ⟨rfl, rfl⟩ := hrun
    exact ⟨tag, rfl, rfl⟩
  | none =>
    simp only [yields_bind, yields_freshTag, yields_pure] at hrun
    obtain ⟨tag', _, ⟨_, rfl⟩, rfl, rfl⟩ := hrun
    exact ⟨tag', rfl, rfl⟩

/-- What a participant offers, in a call of it by name. -/
theorem participant_call_yields {callLoc dotLoc nameLoc : Loc} {name field : String} {level : Level}
    {tag : Tag} {party : Participant} {args : List Surface.Expr}
    (hfind : env.find? name = some ⟨level, .participant tag party⟩)
    (hrun : ((evaluator fuel).expr ctx env
      (.call callLoc (.dot dotLoc (.ident nameLoc name) field) args)).Yields s r s') :
    ∃ depth construct result s₁ s₂, fuel = depth + 1 ∧ s₁.nextId = s.nextId ∧
      (Participant.field { party with displayName := some (party.displayName.getD name) } dotLoc
        field).Yields s₁ construct s₂ ∧
      ((evaluator depth).apply ctx callLoc env construct args).Yields s₂ result s' ∧
      r.code = result.code ∧ r.value.value = result.value.value := by
  obtain ⟨depth, rfl, hcall⟩ := evaluator_expr_yields hrun
  simp only [Evaluator.evalExpr, yields_bind, yields_pure] at hcall
  obtain ⟨rator, _, hrator, result, _, happly, rfl, rfl⟩ := hcall
  obtain ⟨depth, rfl, hdot⟩ := evaluator_expr_yields hrator
  simp only [Evaluator.evalExpr, yields_bind, yields_pure] at hdot
  obtain ⟨object, _, hobject, found, _, hfield, rfl, rfl⟩ := hdot
  obtain ⟨depth, rfl, hident⟩ := evaluator_expr_yields hobject
  simp only [Evaluator.evalExpr, yields_bind, yields_pure] at hident
  obtain ⟨out, _, hidentify, rfl, rfl⟩ := hident
  obtain ⟨tag', rfl, hsupply⟩ := Bindings.identify_participant hfind hidentify
  simp only [Lifted.plain, Ctx.field, yields_bind, yields_pure] at hfield
  obtain ⟨construct, _, hconstruct, rfl, rfl⟩ := hfield
  exact ⟨_, construct, result, _, _, rfl, hsupply, hconstruct, happly, rfl, rfl⟩

/-- A primitive that is called by name. -/
theorem prim_call_yields {callLoc nameLoc primLoc : Loc} {name : String} {prim : Prim}
    {args : List Surface.Expr} (hfind : env.find? name = some (.pub (.prim primLoc prim)))
    (hrun : ((evaluator fuel).expr ctx env (.call callLoc (.ident nameLoc name) args)).Yields
      s r s') :
    ∃ depth values result s₁, fuel = depth + 1 ∧
      ((evaluator depth).exprs ctx env args).Yields s values s₁ ∧
      (ctx.applyPrim callLoc env prim values.value).Yields s₁ result s' ∧
      r.code = values.code ++ result.code ∧ r.value.value = result.value.value := by
  obtain ⟨depth, rfl, hcall⟩ := evaluator_expr_yields hrun
  simp only [Evaluator.evalExpr, yields_bind, yields_pure] at hcall
  obtain ⟨rator, _, hrator, result, _, happly, rfl, rfl⟩ := hcall
  obtain ⟨depth, rfl, hident⟩ := evaluator_expr_yields hrator
  simp only [Evaluator.evalExpr, yields_bind, yields_pure] at hident
  obtain ⟨out, _, hidentify, rfl, rfl⟩ := hident
  obtain ⟨rfl, rfl⟩ : out = .pub (.prim primLoc prim) ∧ _ = s := by
    simp only [Bindings.identify, yields_bind, Bindings.lookup_yields] at hidentify
    obtain ⟨sv, _, ⟨hsv, rfl⟩, hidentify⟩ := hidentify
    obtain rfl := Option.some.inj (hfind.symm.trans hsv)
    exact yields_pure.1 hidentify
  simp only [Lifted.plain, Labelled.pub, Evaluator.apply, Evaluator.applyValues, yields_bind,
    yields_pure] at happly
  obtain ⟨values, _, hvalues, _, _, ⟨applied, _, happlied, rfl, rfl⟩, rfl, rfl⟩ := happly
  exact ⟨_, values, applied, _, rfl, hvalues, happlied, rfl, rfl⟩

end Calls

namespace Point

variable {p q : Point} {stmt : Surface.Stmt} {r : Lifted Outcome} {s' : Supply}

theorem Passes.follow (h : p.Passes stmt q) (hrun : p.Yields r s') :
    ∃ next code, q.Yields next s' ∧ r = next.after code := by
  cases h with
  | declare hdecls hmerge =>
    rw [Yields, Elaboration.evalStmts, evaluator_succ_stmts, Evaluator.evalStmts,
      yields_bind_iff hdecls, yields_bind_iff hmerge] at hrun
    simp only [Evaluator.extend, yields_bind, yields_pure] at hrun
    obtain ⟨next, _, hnext, rfl, rfl⟩ := hrun
    exact ⟨next, _, hnext, rfl⟩
  | define hclosure htag hbind =>
    subst hclosure htag
    rw [Yields, Elaboration.evalStmts, evaluator_succ_stmts, Evaluator.evalStmts,
      yields_bind_iff (yields_orFail.2 ⟨rfl, rfl⟩), yields_bind_iff (yields_freshTag.2 ⟨rfl, rfl⟩),
      yields_bind_iff hbind] at hrun
    simp only [Evaluator.extend, yields_bind, yields_pure] at hrun
    obtain ⟨next, _, hnext, rfl, rfl⟩ := hrun
    exact ⟨next, _, hnext, rfl⟩
  | compute hexpr hvalue hnull =>
    rw [Yields, Elaboration.evalStmts, evaluator_succ_stmts, Evaluator.evalStmts_expression hexpr,
      Evaluator.exprStmt_of_null hvalue hnull] at hrun
    simp only [Evaluator.extend, yields_bind, yields_pure] at hrun
    obtain ⟨next, _, hnext, rfl, rfl⟩ := hrun
    exact ⟨next, _, hnext, rfl⟩

/-- The code of a round stands around the code of what follows. -/
theorem Opens.follow {round : Round} {messages : List (Arg × Var)}
    (h : p.Opens round messages q) (hrun : p.Yields r s') :
    ∃ next before loc t check, q.Yields next s' ∧ r.value.env = next.value.env ∧
      r.code = before ++ [.toConsensus loc t] ∧ t.who = round.who ∧ t.messages = messages ∧
      t.body = check ++ next.code := by
  cases h with
  | intro hexpr hmode hvalue hstage hview hmessages haddress hsender hshared hviews hamount hcheck
      hlate =>
    rw [Yields, Elaboration.evalStmts, evaluator_succ_stmts, Evaluator.evalStmts_expression hexpr,
      Evaluator.exprStmt, yields_bind_iff hvalue] at hrun
    simp only [hmode, hstage] at hrun
    rw [Evaluator.takeRound, yields_bind_iff (yields_orFail.2 ⟨hview, rfl⟩),
      yields_bind_iff hmessages, yields_bind_iff haddress, yields_bind_iff hsender,
      yields_bind_iff hshared, yields_bind_iff hviews, yields_bind_iff hamount,
      yields_bind_iff hcheck, yields_bind_iff hlate] at hrun
    simp only [yields_bind, yields_pure] at hrun
    obtain ⟨next, _, hnext, rfl, rfl⟩ := hrun
    exact ⟨next, _, _, _, _, hnext, rfl, rfl, rfl, rfl, rfl⟩

theorem Commits.follow (h : p.Commits q) (hrun : p.Yields r s') :
    ∃ next before loc, q.Yields next s' ∧
      r = ⟨before ++ [.fromConsensus loc next.code], next.value⟩ := by
  cases h with
  | intro hexpr hmode hvalue hviews =>
    rw [Yields, Elaboration.evalStmts, evaluator_succ_stmts, Evaluator.evalStmts_expression hexpr,
      Evaluator.exprStmt, yields_bind_iff hvalue] at hrun
    simp only [hmode] at hrun
    rw [Evaluator.commitRound, yields_bind_iff hviews] at hrun
    simp only [yields_bind, yields_pure] at hrun
    obtain ⟨next, _, hnext, rfl, rfl⟩ := hrun
    exact ⟨next, _, _, hnext, rfl⟩

/-! ### The steps of a run -/

variable {rest : List Surface.Stmt} {e : Surface.Expr} {v : Lifted SecValue} {s₁ : Supply}

theorem PassesAll.follow {stmts : List Surface.Stmt} (h : p.PassesAll stmts q) :
    ∀ {r : Lifted Outcome}, p.Yields r s' →
      ∃ next code, q.Yields next s' ∧ r = next.after code := by
  induction h with
  | nil => exact fun {r} hrun => ⟨r, [], hrun, rfl⟩
  | cons hfirst _ ih =>
    intro r hrun
    obtain ⟨next, code, hnext, rfl⟩ := hfirst.follow hrun
    obtain ⟨last, code', hlast, rfl⟩ := ih hnext
    exact ⟨last, code ++ code', hlast, by simp [Lifted.after]⟩

theorem Yields.fuel (hrun : p.Yields r s') : ∃ fuel, p.fuel = fuel + 1 := by
  obtain ⟨_ | fuel, ctx, loc, scope, stmts, s⟩ := p
  · simp [Yields, Elaboration.evalStmts, evaluator_zero, Evaluator.exhausted] at hrun
  · exact ⟨fuel, rfl⟩

/-- A statement that consists of an expression begins with the value of that expression. -/
theorem Yields.first (hrun : p.Yields r s') (hstmts : p.stmts = stmt :: rest)
    (hexpr : stmt.expression? = some e) :
    ∃ fuel ctx loc scope s, p = ⟨fuel + 1, ctx, loc, scope, stmt :: rest, s⟩ ∧
      ((evaluator fuel).exprStmt ctx stmt.loc scope e rest).Yields s r s' := by
  obtain ⟨fuel, hfuel⟩ := hrun.fuel
  obtain ⟨_, ctx, loc, scope, _, s⟩ := p
  subst hfuel hstmts
  rw [Yields, Elaboration.evalStmts, evaluator_succ_stmts,
    Evaluator.evalStmts_expression hexpr] at hrun
  exact ⟨fuel, ctx, loc, scope, s, rfl, hrun⟩

theorem Yields.worth (hrun : p.Yields r s') (hstmts : p.stmts = stmt :: rest)
    (hexpr : stmt.expression? = some e) : ∃ v s₁, p.Worth e v s₁ := by
  obtain ⟨fuel, ctx, loc, scope, s, rfl, hstmt⟩ := hrun.first hstmts hexpr
  simp only [Evaluator.exprStmt, yields_bind] at hstmt
  obtain ⟨v, s₁, hv, _⟩ := hstmt
  exact ⟨v, s₁, hv⟩

theorem Yields.declares {loc : Loc} {decls : List Surface.Decl} (hrun : p.Yields r s')
    (hstmts : p.stmts = .constDecl loc decls :: rest) :
    ∃ q, p.Passes (.constDecl loc decls) q ∧ q.stmts = rest := by
  obtain ⟨fuel, hfuel⟩ := hrun.fuel
  obtain ⟨_, ctx, _, scope, _, s⟩ := p
  subst hfuel hstmts
  rw [Yields, Elaboration.evalStmts, evaluator_succ_stmts, Evaluator.evalStmts] at hrun
  simp only [yields_bind] at hrun
  obtain ⟨bound, _, hdecls, env, _, hmerge, _⟩ := hrun
  exact ⟨_, .declare hdecls hmerge, rfl⟩

theorem Yields.defines {loc : Loc} {name : Option String} {formals : List String}
    {body : Surface.Block} (hrun : p.Yields r s')
    (hstmts : p.stmts = .function loc name formals body :: rest) :
    ∃ q, p.Passes (.function loc name formals body) q ∧ q.stmts = rest := by
  obtain ⟨fuel, hfuel⟩ := hrun.fuel
  obtain ⟨_, ctx, _, scope, _, s⟩ := p
  subst hfuel hstmts
  rw [Yields, Elaboration.evalStmts, evaluator_succ_stmts, Evaluator.evalStmts] at hrun
  simp only [yields_bind, yields_orFail, yields_freshTag] at hrun
  obtain ⟨name, _, ⟨rfl, rfl⟩, _, _, ⟨rfl, rfl⟩, env, _, hbind, _⟩ := hrun
  exact ⟨_, .define rfl rfl hbind, rfl⟩

theorem Yields.computes {a : Arg} (hrun : p.Yields r s') (hstmts : p.stmts = stmt :: rest)
    (hexpr : stmt.expression? = some e) (hvalue : p.Worth e v s₁)
    (hnull : v.value.value.typed? = some (.null, a)) :
    ∃ q, p.Passes stmt q ∧ q.stmts = rest := by
  obtain ⟨fuel, ctx, loc, scope, s, rfl, _⟩ := hrun.first hstmts hexpr
  exact ⟨_, .compute hexpr hvalue hnull, rfl⟩

theorem Yields.opens {parties : Parties} {roundLoc : Loc} {tag : Tag} {round : Round}
    (hrun : p.Yields r s') (hstmts : p.stmts = stmt :: rest) (hexpr : stmt.expression? = some e)
    (hmode : p.ctx.mode = .step parties) (hworth : p.Worth e v s₁)
    (hvalue : v.value.value = .form roundLoc tag (.round round)) :
    ∃ messages q, p.Opens round messages q ∧ q.stmts = rest := by
  obtain ⟨fuel, ctx, loc, scope, s, rfl, hstmt⟩ := hrun.first hstmts hexpr
  obtain ⟨code, level, value⟩ := v
  obtain rfl : value = _ := hvalue
  change ((evaluator fuel).expr ctx scope.env e).Yields s _ s₁ at hworth
  change ctx.mode = _ at hmode
  rw [Evaluator.exprStmt, yields_bind_iff hworth] at hstmt
  simp only [hmode] at hstmt
  split at hstmt
  · rename_i hstage
    simp only [Evaluator.takeRound, yields_bind, yields_orFail] at hstmt
    obtain ⟨view, _, ⟨hview, rfl⟩, ⟨messages, sent⟩, _, hmessages, ⟨join, whoVar⟩, _, haddress,
      sender, _, hsender, shared, _, hshared, views, _, hviews, amount, _, hamount, check, _,
      hcheck, late, _, hlate, _⟩ := hstmt
    exact ⟨messages, _, .intro hexpr hmode hworth hstage hview hmessages haddress hsender hshared
      hviews hamount hcheck hlate, rfl⟩
  · simp at hstmt

theorem Yields.commits {opened : Bindings} {parties : Parties} {primLoc : Loc}
    (hrun : p.Yields r s') (hstmts : p.stmts = stmt :: rest) (hexpr : stmt.expression? = some e)
    (hmode : p.ctx.mode = .consensus opened parties) (hworth : p.Worth e v s₁)
    (hvalue : v.value.value = .prim primLoc .committed) :
    ∃ q, p.Commits q ∧ q.stmts = rest := by
  obtain ⟨fuel, ctx, loc, scope, s, rfl, hstmt⟩ := hrun.first hstmts hexpr
  obtain ⟨code, level, value⟩ := v
  obtain rfl : value = _ := hvalue
  change ((evaluator fuel).expr ctx scope.env e).Yields s _ s₁ at hworth
  change ctx.mode = _ at hmode
  rw [Evaluator.exprStmt, yields_bind_iff hworth] at hstmt
  simp only [hmode, Evaluator.commitRound, yields_bind] at hstmt
  obtain ⟨views, _, hviews, _⟩ := hstmt
  exact ⟨_, .intro hexpr hmode hworth hviews, rfl⟩

end Point

end Choreography
