import Choreography.Proofs.CommonKnowledge

/-!
Names that statements introduce. A list of statements binds the names that its own statements declare,
those of their loops and those that their rounds publish. What is bound inside a block or inside a
branch of a conditional is gone for the statements after it. Only when a block, or a conditional whose
condition is constant, is the last of its list, the list leaves what the inner one does.
-/

namespace Choreography

open Eval Ir

namespace Surface

/-- The names that a statement declares itself; those of a `var` are the variables of its loop. -/
def Stmt.declares : Stmt → List String
  | .varDecl _ decls => decls.flatMap fun d => d.lhs.targets
  | stmt => stmt.binds

/-- Blocks and conditionals, which hold statements of their own. -/
def Stmt.isNested : Stmt → Bool
  | .block _ | .branch .. => true
  | _ => false

/-- The last statement that is not empty is nested. -/
def endsNested (stmts : List Stmt) : Bool := (dropEmpty stmts).getLast?.any (·.isNested)

end Surface

namespace Point

/-- From a statement to the point at which those after it are evaluated. Where the statement is nested,
something must follow it. -/
inductive LeadsTo : Point → Point → Prop
  | skip {fuel : Nat} {ctx : Ctx} {loc stmtLoc : Loc} {scope : Scope} {rest : List Surface.Stmt}
    {s : Supply} :
    LeadsTo ⟨fuel + 1, ctx, loc, scope, .empty stmtLoc :: rest, s⟩
      ⟨fuel, ctx, stmtLoc, scope, rest, s⟩
  | pass {p q : Point} {stmt : Surface.Stmt} (h : p.Passes stmt q) : LeadsTo p q
  | ask {fuel : Nat} {ctx : Ctx} {parties : Parties} {loc formLoc : Loc} {scope : Scope}
    {stmt : Surface.Stmt} {e : Surface.Expr} {rest : List Surface.Stmt} {code : Code}
    {level : Level} {tag : Tag} {who : String} {view : Bindings} {result : SecValue}
    {s s₁ : Supply} (hexpr : stmt.expression? = some e) (hmode : ctx.mode = .step parties)
    (hvalue : ((evaluator fuel).expr ctx scope.env e).Yields s
      ⟨code, level, .form formLoc tag (.onlyDone who view result)⟩ s₁) :
    LeadsTo ⟨fuel + 1, ctx, loc, scope, stmt :: rest, s⟩
      ⟨fuel, { ctx with mode := .step { parties with views := parties.views.insert who view } },
        stmt.loc, scope, rest, s₁⟩
  | opening {p q : Point} {round : Round} {messages : List (Arg × Var)}
    (h : p.Opens round messages q) : LeadsTo p q
  | commit {p q : Point} (h : p.Commits q) : LeadsTo p q
  | block {fuel : Nat} {ctx : Ctx} {loc : Loc} {scope : Scope} {body : Surface.Block}
    {rest : List Surface.Stmt} {first : Lifted Outcome} {s s₁ : Supply}
    (hbody : ((evaluator fuel).stmts ctx body.loc scope body.stmts).Yields s first s₁)
    (hrest : Surface.dropEmpty rest ≠ []) :
    LeadsTo ⟨fuel + 1, ctx, loc, scope, .block body :: rest, s⟩
      ⟨fuel, ctx, body.loc,
        { scope with style := if first.value.exits.isEmpty then scope.style else .implicitNull },
        Surface.dropEmpty rest, s₁⟩
  | branch {fuel : Nat} {ctx : Ctx} {loc stmtLoc : Loc} {scope : Scope} {cond : Surface.Expr}
    {onTrue : Surface.Stmt} {onFalse : Option Surface.Stmt} {rest : List Surface.Stmt}
    {first : Lifted Outcome} {s s₁ : Supply}
    (hbranch : ((evaluator fuel).branch ctx stmtLoc { scope with style := .mayBeEmpty } cond onTrue
      onFalse []).Yields s first s₁)
    (hrest : Surface.dropEmpty rest ≠ []) :
    LeadsTo ⟨fuel + 1, ctx, loc, scope, .branch stmtLoc cond onTrue onFalse :: rest, s⟩
      ⟨fuel, ctx, stmtLoc,
        { scope with style := if first.value.exits.isEmpty then scope.style else .implicitNull },
        Surface.dropEmpty rest, s₁⟩
  | loop {fuel : Nat} {ctx : Ctx} {loc stmtLoc invariantLoc loopLoc nameLoc : Loc} {scope : Scope}
    {decls : List Surface.Decl} {invariant cond : Surface.Expr} {body : Surface.Stmt}
    {rest : List Surface.Stmt} {init : Lifted Bindings} {vars : List (String × Var × Arg)}
    {env : Bindings} {holds goesOn : Ir.Block} {turn : Lifted Outcome} {slots : NameMap Var}
    {s s₁ s₂ s₃ s₄ s₅ s₆ : Supply}
    (hdecls : ((evaluator fuel).decls ctx scope.env decls).Yields s init s₁)
    (hvars : (ctx.loopVars stmtLoc init.value.entries).Yields s₁ vars s₂)
    (hmerge : (scope.env.merge stmtLoc
      (.ofList (vars.map fun i => (i.1, .pub (.var i.2.1))))).Yields s₂ env s₃)
    (hinvariant : ((evaluator fuel).boolBlock ctx invariantLoc env invariant).Yields s₃ holds s₄)
    (hcond : ((evaluator fuel).boolBlock ctx cond.loc env cond).Yields s₄ goesOn s₅)
    (hturn : ((evaluator fuel).stmts ctx loopLoc
      { scope with style := .needExplicit, env, loopVars := some slots } [body]).Yields s₅ turn s₆) :
    LeadsTo ⟨fuel + 1, ctx, loc, scope, .varDecl stmtLoc decls ::
        .methodCall invariantLoc (.ident nameLoc "invariant") [invariant] ::
        .loop loopLoc cond body :: rest, s⟩
      ⟨fuel, ctx, loopLoc, { scope with env }, rest, s₆⟩

/-- From the last statement of a list, a block or a conditional with a constant condition, to the
statements inside. -/
inductive Enters : Point → Point → Prop
  | block {fuel : Nat} {ctx : Ctx} {loc : Loc} {scope : Scope} {body : Surface.Block}
    {rest : List Surface.Stmt} {s : Supply} (hrest : Surface.dropEmpty rest = []) :
    Enters ⟨fuel + 1, ctx, loc, scope, .block body :: rest, s⟩
      ⟨fuel, ctx, body.loc, scope, body.stmts, s⟩
  | branch {fuel : Nat} {ctx : Ctx} {loc stmtLoc : Loc} {scope : Scope} {cond : Surface.Expr}
    {onTrue : Surface.Stmt} {onFalse : Option Surface.Stmt} {rest : List Surface.Stmt}
    {c : Lifted SecValue} {b : Bool} {s s₁ : Supply}
    (hcond : ((evaluator fuel).expr ctx scope.env cond).Yields s c s₁)
    (hconstant : c.value.value.condition? = some (.constant b))
    (hrest : Surface.dropEmpty rest = []) :
    Enters ⟨fuel + 1, ctx, loc, scope, .branch stmtLoc cond onTrue onFalse :: rest, s⟩
      ⟨fuel, ctx, if b then onTrue.loc else (onFalse.map (·.loc)).getD stmtLoc, scope,
        if b then [onTrue] else onFalse.toList, s₁⟩

/-- A name that a statement introduces which stands directly in what is left: it declares the name, or
its value is a round that publishes it. -/
inductive Introduces (name : String) : Point → Prop
  | declared {p : Point} {stmt : Surface.Stmt} {rest : List Surface.Stmt}
    (hstmts : p.stmts = stmt :: rest) (hname : name ∈ stmt.declares) : Introduces name p
  | published {p q : Point} {round : Round} {messages : List (Arg × Var)}
    (hopens : p.Opens round messages q) (hname : name ∈ round.publish.getD []) : Introduces name p
  | later {p q : Point} (hleads : p.LeadsTo q) (hname : Introduces name q) : Introduces name p

/-- A name that is left over from inside the nested statement with which the list ends. -/
inductive LeavesOver (name : String) : Point → Prop
  | inside {p inner : Point} {r : Lifted Outcome} {s' : Supply} (henters : p.Enters inner)
    (hrun : inner.Yields r s') (hname : r.value.env.contains name = true) : LeavesOver name p
  | later {p q : Point} (hleads : p.LeadsTo q) (hname : LeavesOver name q) : LeavesOver name p

end Point

/-! ### What one statement does -/

theorem Surface.endsNested_append (front : List Surface.Stmt) {rest : List Surface.Stmt}
    (h : endsNested rest = true) : endsNested (front ++ rest) = true := by
  obtain ⟨last, hlast, hnested⟩ := (Option.any_eq_true _ _).1 h
  rw [endsNested, dropEmpty, List.filter_append, List.getLast?_append, ← dropEmpty, hlast]
  simpa using hnested

/-- A nested statement with nothing but empty ones after it. -/
theorem Surface.endsNested_cons {stmt : Surface.Stmt} {rest : List Surface.Stmt}
    (hnested : stmt.isNested = true) (hrest : dropEmpty rest = []) :
    endsNested (stmt :: rest) = true := by
  have hkept : stmt.isEmpty = false := by
    cases stmt <;> simp_all [Stmt.isNested, Stmt.isEmpty]
  rw [endsNested, dropEmpty_cons, hkept, hrest]
  simpa using hnested

section Parts

variable {ev : Evaluator} {ctx : Ctx} {loc : Loc} {scope : Scope} {r : Lifted Outcome}
  {s s' : Supply} {rest : List Surface.Stmt} {stmt : Surface.Stmt}

/-- A conditional that others follow is evaluated by itself first. -/
theorem Evaluator.branch_followed {cond : Surface.Expr} {onTrue : Surface.Stmt}
    {onFalse : Option Surface.Stmt} (hrest : Surface.dropEmpty rest ≠ [])
    (hrun : (ev.branch ctx loc scope cond onTrue onFalse rest).Yields s r s') :
    ∃ first s₁, (ev.branch ctx loc { scope with style := .mayBeEmpty } cond onTrue onFalse []).Yields
        s first s₁ ∧ (ev.continueWith ctx loc scope first (Surface.dropEmpty rest)).Yields s₁ r s' := by
  have hnotEmpty : (Surface.dropEmpty rest).isEmpty = false := by simpa using hrest
  simp only [Evaluator.branch, yields_bind, hnotEmpty, Bool.false_eq_true, if_false] at hrun
  simp only [Evaluator.branch, yields_bind]
  obtain ⟨c, s₁, hcond, hrun⟩ := hrun
  split at hrun
  · rename_i b hconstant
    cases b
    all_goals
      simp only [Bool.false_eq_true, if_false, if_true, yields_bind] at hrun
      obtain ⟨taken, s₂, htaken, hcontinue⟩ := hrun
      refine ⟨_, s₂, ⟨c, s₁, hcond, ?_⟩, hcontinue⟩
      simp only [hconstant, Bool.false_eq_true, if_false, if_true, yields_bind]
      exact ⟨taken, s₂, htaken, yields_pure.2 ⟨rfl, rfl⟩⟩
  · rename_i v hruntime
    simp only [yields_bind] at hrun
    obtain ⟨t, s₂, ht, f, s₃, hf, hcontinue⟩ := hrun
    refine ⟨_, s₃, ⟨c, s₁, hcond, ?_⟩, hcontinue⟩
    simp only [hruntime, yields_bind]
    exact ⟨t, s₂, ht, f, s₃, hf, yields_pure.2 ⟨rfl, rfl⟩⟩
  · simp at hrun

/-- What follows a nested statement is evaluated in the scope of the list. -/
theorem Evaluator.continueWith_followed {first : Lifted Outcome}
    (hrest : Surface.dropEmpty rest ≠ [])
    (hrun : (ev.continueWith ctx loc scope first rest).Yields s r s') :
    ∃ next, (ev.stmts ctx loc
        { scope with style := if first.value.exits.isEmpty then scope.style else .implicitNull }
        (Surface.dropEmpty rest)).Yields s next s' ∧ r.value.env = next.value.env := by
  unfold Evaluator.continueWith at hrun
  split at hrun
  · contradiction
  · simp only [yields_bind, yields_pure] at hrun
    obtain ⟨next, _, hnext, rfl, rfl⟩ := hrun
    exact ⟨next, hnext, rfl⟩

theorem Evaluator.continueWith_last {first : Lifted Outcome} (hrest : Surface.dropEmpty rest = []) :
    ev.continueWith ctx loc scope first rest = pure first := by
  rw [Evaluator.continueWith, hrest]

theorem Evaluator.continueLoop_env {assignLoc : Loc} {lhs rhs : Surface.Expr}
    (hrun : (ev.continueLoop ctx loc scope assignLoc lhs rhs rest).Yields s r s') :
    r.value.env = scope.env := by
  simp only [Evaluator.continueLoop, yields_bind, yields_pure] at hrun
  obtain ⟨_, _, _, _, _, _, _, _, _, _, _, _, _, _, _, rfl, _⟩ := hrun
  rfl

theorem Evaluator.ret_env {value : Option Surface.Expr}
    (hrun : (ev.ret ctx loc scope value rest).Yields s r s') : r.value.env = scope.env := by
  cases value
  all_goals
    simp only [Evaluator.ret, yields_bind, yields_pure] at hrun
    obtain ⟨_, _, _, _, _, _, _, _, _, _, _, _, rfl, _⟩ := hrun
    rfl

end Parts

namespace Point

variable {p q : Point} {r : Lifted Outcome} {s' : Supply}

/-- What an expression does as a statement, to the environment that the list leaves. -/
theorem Yields.stepExpression {e : Surface.Expr} (hrun : p.Yields r s')
    (hstmts : p.stmts = stmt :: rest) (hexpr : stmt.expression? = some e) :
    r.value.env = p.scope.env ∨
      ∃ q next, p.LeadsTo q ∧ q.Yields next s' ∧ r.value.env = next.value.env := by
  obtain ⟨fuel, ctx, loc, scope, s, rfl, hstmt⟩ := hrun.first hstmts hexpr
  simp only [Evaluator.exprStmt, yields_bind] at hstmt
  obtain ⟨v, s₁, hvalue, hstmt⟩ := hstmt
  split at hstmt
  · -- the protocol has been left
    simp only [yields_bind, yields_pure] at hstmt
    obtain ⟨_, _, _, rfl, _⟩ := hstmt
    exact .inl rfl
  · rename_i parties formLoc tag who view result hmode hform
    simp only [yields_bind, yields_pure] at hstmt
    obtain ⟨_, _, hnull, next, _, hnext, rfl, rfl⟩ := hstmt
    obtain ⟨_, rfl⟩ := Value.expectNull_iff.1 hnull
    obtain ⟨code, level, value⟩ := v
    obtain rfl : value = _ := hform
    exact .inr ⟨_, next, .ask hexpr hmode hvalue, hnext, rfl⟩
  · rename_i parties roundLoc tag round hmode hround
    obtain ⟨messages, q, hopens, _⟩ := hrun.opens hstmts hexpr hmode hvalue hround
    obtain ⟨next, _, _, _, _, hnext, henv, _⟩ := hopens.follow hrun
    exact .inr ⟨q, next, .opening hopens, hnext, henv⟩
  · rename_i opened parties primLoc hmode hcommitted
    obtain ⟨q, hcommits, _⟩ := hrun.commits hstmts hexpr hmode hvalue hcommitted
    obtain ⟨next, _, _, hnext, rfl⟩ := hcommits.follow hrun
    exact .inr ⟨q, next, .commit hcommits, hnext, rfl⟩
  · simp only [yields_bind] at hstmt
    obtain ⟨_, _, hnull, _⟩ := hstmt
    obtain ⟨⟨a, htyped⟩, _⟩ := Value.expectNull_iff.1 hnull
    obtain ⟨q, hpasses, _⟩ := hrun.computes hstmts hexpr hvalue htyped
    obtain ⟨next, _, hnext, rfl⟩ := hpasses.follow hrun
    exact .inr ⟨q, next, .pass hpasses, hnext, rfl⟩

/-- The environment that statements leave is the one they began in, that of the statements after the
first, or that of the statements inside it. -/
theorem Yields.step (hrun : p.Yields r s') :
    r.value.env = p.scope.env ∨
    (∃ q next, p.LeadsTo q ∧ q.Yields next s' ∧ r.value.env = next.value.env) ∨
    ∃ inner next, p.Enters inner ∧ inner.Yields next s' ∧ r.value.env = next.value.env := by
  obtain ⟨fuel, hfuel⟩ := hrun.fuel
  obtain ⟨_, ctx, loc, scope, stmts, s⟩ := p
  subst hfuel
  have hstmts : ((evaluator fuel).evalStmts ctx loc scope stmts).Yields s r s' := hrun
  unfold Evaluator.evalStmts at hstmts
  split at hstmts
  · simp only [yields_pure] at hstmts
    rw [hstmts.1]
    exact .inl rfl
  · rename_i body rest
    simp only [yields_bind] at hstmts
    obtain ⟨first, s₁, hbody, hcontinue⟩ := hstmts
    by_cases hrest : Surface.dropEmpty rest = []
    · rw [Evaluator.continueWith_last hrest, yields_pure] at hcontinue
      obtain ⟨rfl, rfl⟩ := hcontinue
      exact .inr (.inr ⟨_, _, .block hrest, hbody, rfl⟩)
    · obtain ⟨next, hnext, henv⟩ := Evaluator.continueWith_followed hrest hcontinue
      exact .inr (.inl ⟨_, next, .block hbody hrest, hnext, henv⟩)
  · obtain ⟨q, hpasses, _⟩ := hrun.declares rfl
    obtain ⟨next, _, hnext, rfl⟩ := hpasses.follow hrun
    exact .inr (.inl ⟨q, next, .pass hpasses, hnext, rfl⟩)
  · exact .inl (Evaluator.continueLoop_env hstmts)
  · obtain ⟨q, hpasses, _⟩ := hrun.defines rfl
    obtain ⟨next, _, hnext, rfl⟩ := hpasses.follow hrun
    exact .inr (.inl ⟨q, next, .pass hpasses, hnext, rfl⟩)
  · rename_i stmtLoc cond onTrue onFalse rest
    by_cases hrest : Surface.dropEmpty rest = []
    · simp only [Evaluator.branch, hrest, yields_bind, List.isEmpty_nil, if_true] at hstmts
      obtain ⟨c, s₁, hcond, hstmts⟩ := hstmts
      split at hstmts
      · rename_i b hconstant
        cases b
        all_goals
          simp only [Bool.false_eq_true, if_false, if_true, yields_bind] at hstmts
          obtain ⟨taken, s₂, htaken, hcontinue⟩ := hstmts
          obtain ⟨rfl, rfl⟩ := yields_pure.1 hcontinue
          exact .inr (.inr ⟨_, taken, .branch hcond hconstant hrest, htaken, rfl⟩)
      · simp only [yields_bind] at hstmts
        obtain ⟨_, _, _, _, _, _, hcontinue⟩ := hstmts
        obtain ⟨rfl, _⟩ := yields_pure.1 hcontinue
        exact .inl rfl
      · simp at hstmts
    · obtain ⟨first, s₁, hbranch, hcontinue⟩ := Evaluator.branch_followed hrest hstmts
      rw [← Surface.dropEmpty_dropEmpty] at hrest
      obtain ⟨next, hnext, henv⟩ := Evaluator.continueWith_followed hrest hcontinue
      rw [Surface.dropEmpty_dropEmpty] at hnext hrest
      exact .inr (.inl ⟨_, next, .branch hbranch hrest, hnext, henv⟩)
  · exact .inr (.inl ⟨_, r, .skip, hstmts, rfl⟩)
  · exact (hrun.stepExpression rfl rfl).imp_right .inl
  · exact (hrun.stepExpression rfl rfl).imp_right .inl
  · exact .inl (Evaluator.continueLoop_env hstmts)
  · simp at hstmts
  · exact .inl (Evaluator.ret_env hstmts)
  · simp only [Evaluator.loop, yields_bind] at hstmts
    obtain ⟨_, _, hmode, init, s₁, hdecls, vars, s₂, hvars, env, s₃, hmerge, hstmts⟩ := hstmts
    obtain ⟨_, rfl⟩ := Ctx.expectMode_yields.1 hmode
    split at hstmts
    · simp only [yields_bind, yields_pure] at hstmts
      obtain ⟨holds, s₄, hinvariant, goesOn, s₅, hcond, turn, s₆, hturn, next, _, hnext, rfl, rfl⟩ :=
        hstmts
      exact .inr (.inl ⟨_, next, .loop hdecls hvars hmerge hinvariant hcond hturn, hnext, rfl⟩)
    · simp at hstmts
  all_goals simp at hstmts

end Point

/-! ### Names -/

section Names

variable {ctx : Ctx} {loc : Loc} {name : String}

theorem Env.contains_of_append {α : Type} {env out : Env α} {more : List (String × α)}
    (h : out.entries = env.entries ++ more) (hname : out.contains name = true) :
    env.contains name = true ∨ name ∈ more.map (·.1) := by
  rw [Env.contains, Env.find?_of_append h, Option.isSome_or, Bool.or_eq_true] at hname
  refine hname.imp_right fun hmore => ?_
  obtain ⟨b, hb, heq⟩ := List.lookup_isSome_iff.1 hmore
  rw [beq_iff_eq.1 heq]
  exact List.mem_map_of_mem hb

theorem Bindings.contains_withSender {env shared : Bindings} {displayName : Option String}
    {address : Var} {sender : Option (String × SecValue)} {s s' : Supply}
    (hsender : (joinedSender loc env displayName address).Yields s sender s')
    (hname : (shared.withSender sender).contains name = true) :
    shared.contains name = true ∨ env.contains name = true := by
  cases displayName with
  | none =>
    simp only [joinedSender, yields_pure] at hsender
    rw [hsender.1] at hname
    exact .inl hname
  | some display =>
    obtain ⟨_, _, _, _, hfind, rfl⟩ := joinedSender_find? hsender
    rw [Env.contains, Bindings.find?_withSender] at hname
    split at hname
    · rename_i heq
      exact .inr (by rw [heq, Env.contains, hfind]; rfl)
    · exact .inl hname

theorem Surface.Stmt.binds_subset_declares (stmt : Surface.Stmt) : stmt.binds ⊆ stmt.declares := by
  cases stmt <;> simp [Stmt.binds, Stmt.declares]

end Names

namespace Point

variable {p q : Point} {r : Lifted Outcome} {s' : Supply} {name : String}

/-- On the way from a statement to those after it, a name is bound only if the statement introduces
it. -/
theorem LeadsTo.contains (h : p.LeadsTo q) (hname : q.scope.env.contains name = true) :
    p.scope.env.contains name = true ∨ p.Introduces name := by
  cases h with
  | skip | ask | block | branch => exact .inl hname
  | commit hcommits =>
    cases hcommits
    exact .inl hname
  | pass hpasses =>
    obtain ⟨hstmts, _, more, hmore⟩ := hpasses.effect
    refine (Env.contains_of_append hmore.entries hname).imp_right fun hnew => ?_
    rw [hmore.names] at hnew
    exact .declared hstmts (Surface.Stmt.binds_subset_declares _ hnew)
  | opening hopens =>
    have hround := hopens
    cases hopens with
    | intro _ _ _ _ _ hmessages _ hsender hshared =>
      rcases Bindings.contains_withSender hsender hname with hshares | hold
      · refine (Env.contains_of_append (Bindings.merge_yields hshared).1 hshares).imp_right fun hsent => ?_
        rw [(Ctx.messages_published hmessages).2.1] at hsent
        exact .published hround (by simpa using hsent)
      · exact .inl hold
  | loop hdecls hvars hmerge =>
    refine (Env.contains_of_append (Bindings.merge_yields hmerge).1 hname).imp_right fun hvar => ?_
    refine .declared rfl ?_
    obtain ⟨b, hb, rfl⟩ := List.mem_map.1 hvar
    obtain ⟨i, hi, rfl⟩ := List.mem_map.1 (Env.mem_ofList hb)
    have hinit := List.mem_map_of_mem (f := (·.1)) hi
    rw [Ctx.loopVars_names.result hvars, Evaluator.declsFrom_binds.result hdecls] at hinit
    simpa [Surface.Stmt.declares] using hinit

theorem LeadsTo.fuel (h : p.LeadsTo q) : p.fuel = q.fuel + 1 := by
  cases h with
  | pass hpasses => cases hpasses <;> rfl
  | opening hopens => cases hopens; rfl
  | commit hcommits => cases hcommits; rfl
  | _ => rfl

/-- What is left later is the end of what was left before. -/
theorem LeadsTo.stmts (h : p.LeadsTo q) : ∃ front rest, p.stmts = front ++ rest ∧ q.stmts ⊆ rest ∧
    Surface.dropEmpty q.stmts = Surface.dropEmpty rest := by
  cases h with
  | pass hpasses =>
    exact ⟨[_], q.stmts, hpasses.effect.1, List.Subset.refl _, rfl⟩
  | opening hopens =>
    cases hopens
    exact ⟨[_], _, rfl, List.Subset.refl _, rfl⟩
  | commit hcommits =>
    cases hcommits
    exact ⟨[_], _, rfl, List.Subset.refl _, rfl⟩
  | skip | ask => exact ⟨[_], _, rfl, List.Subset.refl _, rfl⟩
  | block | branch =>
    exact ⟨[_], _, rfl, fun _ hmem => (List.mem_filter.1 hmem).1, Surface.dropEmpty_dropEmpty _⟩
  | loop => exact ⟨[_, _, _], _, rfl, List.Subset.refl _, rfl⟩

/-- In private no round begins or ends. -/
theorem LeadsTo.ctx_of_private (h : p.LeadsTo q) (hprivate : p.ctx.mode.Private) : q.ctx = p.ctx := by
  cases h with
  | skip | block | branch | loop => rfl
  | pass hpasses => exact hpasses.effect.2.1
  | ask _ hmode =>
    rw [hmode] at hprivate
    exact hprivate.elim
  | opening hopens =>
    cases hopens with
    | intro _ hmode =>
      rw [hmode] at hprivate
      exact hprivate.elim
  | commit hcommits =>
    cases hcommits with
    | intro _ hmode =>
      rw [hmode] at hprivate
      exact hprivate.elim

/-- In private all names are introduced by declarations. -/
theorem Introduces.declared_of_private (h : p.Introduces name) (hprivate : p.ctx.mode.Private) :
    ∃ stmt ∈ p.stmts, name ∈ stmt.declares := by
  induction h with
  | declared hstmts hname => exact ⟨_, by rw [hstmts]; exact List.mem_cons_self, hname⟩
  | published hopens =>
    cases hopens with
    | intro _ hmode =>
      rw [hmode] at hprivate
      exact hprivate.elim
  | later hleads _ ih =>
    obtain ⟨stmt, hmem, hname⟩ := ih (by rw [hleads.ctx_of_private hprivate]; exact hprivate)
    obtain ⟨front, rest, hstmts, hrest, _⟩ := hleads.stmts
    exact ⟨stmt, by rw [hstmts]; exact List.mem_append_right _ (hrest hmem), hname⟩

/-- Only a list that ends with a nested statement leaves something over. -/
theorem LeavesOver.endsNested (h : p.LeavesOver name) : Surface.endsNested p.stmts = true := by
  induction h with
  | inside henters =>
    cases henters with
    | block hrest => exact Surface.endsNested_cons rfl hrest
    | branch _ _ hrest => exact Surface.endsNested_cons rfl hrest
  | later hleads _ ih =>
    obtain ⟨front, rest, hstmts, _, hdrop⟩ := hleads.stmts
    rw [Surface.endsNested, hdrop] at ih
    rw [hstmts]
    exact Surface.endsNested_append front ih

/-- A name that is bound at the end of a list was bound before it, or it is introduced by a statement
of the list, or it is left over from inside the last one. -/
theorem Yields.contains (hrun : p.Yields r s') (hname : r.value.env.contains name = true) :
    p.scope.env.contains name = true ∨ p.Introduces name ∨ p.LeavesOver name := by
  induction hfuel : p.fuel generalizing p r with
  | zero =>
    obtain ⟨fuel, hmore⟩ := hrun.fuel
    omega
  | succ fuel ih =>
    rcases hrun.step with henv | ⟨q, next, hleads, hnext, henv⟩ | ⟨inner, next, henters, hnext, henv⟩
    · exact .inl (henv ▸ hname)
    · rw [henv] at hname
      have hq := hleads.fuel
      rcases ih hnext hname (by omega) with hbound | hnew | hover
      · exact (hleads.contains hbound).imp_right .inl
      · exact .inr (.inl (.later hleads hnew))
      · exact .inr (.inr (.later hleads hover))
    · exact .inr (.inr (.inside henters hnext (henv ▸ hname)))

/-- In private the names of a list that does not end with a nested statement are declared in it. -/
theorem Yields.contains_of_private (hrun : p.Yields r s') (hprivate : p.ctx.mode.Private)
    (hends : Surface.endsNested p.stmts = false) (hname : r.value.env.contains name = true) :
    p.scope.env.contains name = true ∨ ∃ stmt ∈ p.stmts, name ∈ stmt.declares := by
  rcases hrun.contains hname with hold | hnew | hover
  · exact .inl hold
  · exact .inr (hnew.declared_of_private hprivate)
  · rw [hover.endsNested] at hends
    cases hends

end Point

/-! ### Modules and private computation -/

/-- The statement that a module item consists of. -/
def Surface.Item.stmt? : Surface.Item → Option Surface.Stmt
  | .exported _ stmt | .plain _ stmt => some stmt
  | .importFrom .. | .foreign .. => none

/-- An item that is not nested adds what it declares to a module. -/
theorem Link.topLevel_contains {fuel : Nat} {loc : Loc} {env out : Bindings} {s s' : Supply}
    {name : String} (hrun : (Link.topLevel (evaluator fuel) loc env stmt).Yields s out s')
    (hnested : stmt.isNested = false) (hname : out.contains name = true) :
    env.contains name = true ∨ name ∈ stmt.declares := by
  simp only [Link.topLevel, yields_bind, yields_pure] at hrun
  obtain ⟨r, _, hstmts, _, _, _, rfl, _⟩ := hrun
  have hpoint : Point.Yields ⟨fuel, Link.moduleCtx, loc, { env }, [stmt], s⟩ r _ := hstmts
  have hends : Surface.endsNested [stmt] = false := by
    simp only [Surface.endsNested, Surface.dropEmpty, List.filter_cons, List.filter_nil]
    split <;> simp [hnested]
  refine (hpoint.contains_of_private trivial hends hname).imp_right ?_
  rintro ⟨_, hmem, hdeclared⟩
  rwa [List.mem_singleton.1 hmem] at hdeclared

theorem Link.item_contains {fuel : Nat} {sources : SourceTable} {libs : Libraries}
    {m out : ModuleState} {item : Surface.Item} {s s' : Supply} {name : String}
    (hrun : (Link.item (evaluator fuel) sources libs m item).Yields s out s')
    (hstmt : item.stmt? = some stmt) (hnested : stmt.isNested = false) :
    (out.env.contains name = true → m.env.contains name = true ∨ name ∈ stmt.declares) ∧
      (out.exports.contains name = true → m.exports.contains name = true ∨ name ∈ stmt.declares) := by
  cases item with
  | importFrom => cases hstmt
  | foreign => cases hstmt
  | plain loc =>
    cases hstmt
    simp only [Link.item, yields_bind, yields_pure] at hrun
    obtain ⟨env, _, htop, rfl, _⟩ := hrun
    exact ⟨Link.topLevel_contains htop hnested, .inl⟩
  | exported loc =>
    cases hstmt
    simp only [Link.item, yields_bind, yields_pure] at hrun
    obtain ⟨env, _, htop, exports, _, hmerge, rfl, _⟩ := hrun
    refine ⟨Link.topLevel_contains htop hnested, fun hname => ?_⟩
    rcases Env.contains_of_append (Bindings.merge_yields hmerge).1 hname with hold | hnew
    · exact .inl hold
    · obtain ⟨b, hb, rfl⟩ := List.mem_map.1 hnew
      obtain ⟨hmem, hunbound⟩ := List.mem_filter.1 hb
      have hbound := Link.topLevel_contains htop hnested
        (Env.contains_iff_mem.2 (List.mem_map_of_mem hmem))
      exact .inr (hbound.resolve_left (by simpa using hunbound))

/-- The function that an `only` applies, as it is made in the view of the participant. -/
def Evaluator.Asks (ev : Evaluator) (ctx : Ctx) (who : String) (args : List Surface.Expr) (s : Supply)
    (c : Closure) : Prop :=
  ∃ parties view made level tag s₁, ctx.mode = .step parties ∧ parties.views.get? who = some view ∧
    (ev.exprs { ctx with mode := .pureLocal, canLift := false } view args).Yields s made s₁ ∧
    made.value = [⟨level, .closure tag c⟩]

section Only

variable {fuel : Nat} {ctx : Ctx} {loc : Loc} {s s' : Supply} {name : String}

theorem applyClosure_contains {c : Closure} {args : List SecValue} {r : Lifted Applied}
    (hprivate : ctx.mode.Private) (hends : Surface.endsNested c.body.stmts = false)
    (hrun : ((evaluator fuel).applyClosure ctx loc c args).Yields s r s')
    (hname : (r.value.env.without c.formals).contains name = true) :
    Env.contains c.env name = true ∨ ∃ stmt ∈ c.body.stmts, name ∈ stmt.declares := by
  simp only [Evaluator.applyClosure, yields_bind] at hrun
  obtain ⟨slot, _, _, _, _, _, env, _, hbind, body, _, hbody, hjoin⟩ := hrun
  rw [Env.contains, Env.find?_without] at hname
  split at hname
  · cases hname
  · rename_i hformal
    rw [← Env.contains, Ctx.joinExits_env.result hjoin] at hname
    have hpoint : Point.Yields ⟨fuel, { ctx with frames := _ }, c.body.loc, _, c.body.stmts, _⟩ body _ :=
      hbody
    refine (hpoint.contains_of_private hprivate hends hname).imp_left fun hold => ?_
    refine (Env.contains_of_append (Bindings.bindAll_yields hbind).1 hold).resolve_right fun hmem => ?_
    obtain ⟨b, hb, rfl⟩ := List.mem_map.1 hmem
    exact hformal (List.of_mem_zip hb).1

theorem onlyForm_contains {env : Bindings} {who : String} {args : List Surface.Expr}
    {r : Lifted SecValue} (hrun : ((evaluator fuel).onlyForm ctx loc env who args).Yields s r s') :
    ∃ c view result formLoc tag, (evaluator fuel).Asks ctx who args s c ∧
      r.value.value = .form formLoc tag (.onlyDone who view result) ∧
      (Surface.endsNested c.body.stmts = false → ∀ name, view.contains name = true →
        Env.contains c.env name = true ∨ ∃ stmt ∈ c.body.stmts, name ∈ stmt.declares) := by
  unfold Evaluator.onlyForm at hrun
  split at hrun
  · rename_i parties hmode
    simp only [yields_bind, yields_orFail] at hrun
    obtain ⟨before, _, ⟨hbefore, rfl⟩, made, s₁, hmade, hrun⟩ := hrun
    split at hrun
    · rename_i level tag c hclosure
      simp only [yields_bind, yields_pure] at hrun
      obtain ⟨shared, _, _, applied, _, happlied, _, _, _, rfl, _⟩ := hrun
      exact ⟨c, _, _, _, _, ⟨parties, before, made, level, tag, s₁, hmode, hbefore, hmade, hclosure⟩,
        rfl, fun hends name => applyClosure_contains (by exact trivial) hends happlied⟩
    · simp at hrun
  · simp at hrun

end Only

/-- What is bound inside a nested statement stays there, unless the nested statement is the last of its
list. A name that is bound at the end of a list was bound before, or a statement that stands directly
in the list introduces it, or the list ends with a nested statement and the name is left over from
inside. So a module item that is not nested adds no name to the module or its exports but those that it
declares; and a function that does not end with a nested statement, applied in an `only`, adds none to
the view but those that its own statements declare. -/
theorem bindings_stay_local_unless_last (fuel : Nat) :
    (∀ {ctx : Ctx} {loc : Loc} {scope : Scope} {stmts : List Surface.Stmt} {r : Lifted Outcome}
      {s s' : Supply} {name : String},
      (Elaboration.evalStmts fuel ctx loc scope stmts).Yields s r s' →
      r.value.env.contains name = true →
      scope.env.contains name = true ∨ Point.Introduces name ⟨fuel, ctx, loc, scope, stmts, s⟩ ∨
        Surface.endsNested stmts = true ∧ Point.LeavesOver name ⟨fuel, ctx, loc, scope, stmts, s⟩) ∧
    (∀ {sources : SourceTable} {libs : Libraries} {m out : ModuleState} {item : Surface.Item}
      {stmt : Surface.Stmt} {s s' : Supply} {name : String},
      (Link.item (evaluator fuel) sources libs m item).Yields s out s' →
      item.stmt? = some stmt → stmt.isNested = false →
      (out.env.contains name = true → m.env.contains name = true ∨ name ∈ stmt.declares) ∧
      (out.exports.contains name = true → m.exports.contains name = true ∨ name ∈ stmt.declares)) ∧
    ∀ {ctx : Ctx} {loc : Loc} {env : Bindings} {who : String} {args : List Surface.Expr}
      {r : Lifted SecValue} {s s' : Supply},
      ((evaluator fuel).onlyForm ctx loc env who args).Yields s r s' →
      ∃ c view result formLoc tag, (evaluator fuel).Asks ctx who args s c ∧
        r.value.value = .form formLoc tag (.onlyDone who view result) ∧
        (Surface.endsNested c.body.stmts = false → ∀ name, view.contains name = true →
          Env.contains c.env name = true ∨ ∃ stmt ∈ c.body.stmts, name ∈ stmt.declares) := by
  refine ⟨?_, Link.item_contains, onlyForm_contains⟩
  intro ctx loc scope stmts r s s' name hrun hname
  have hpoint : Point.Yields ⟨fuel, ctx, loc, scope, stmts, s⟩ r s' := hrun
  exact (hpoint.contains hname).imp_right (.imp_right fun hover => ⟨hover.endsNested, hover⟩)

/-! ### A block in front, and one at the end -/

namespace Surface

/-- A block that binds a name. -/
def binding (x : String) : Stmt := .block ⟨here, [define x (number "1")]⟩

/-- Such a block, and a conditional that always takes it. -/
def binders (x : String) : List Stmt :=
  [binding x, .branch here (.bool here true) (binding x) none]

/-- Statements at the top level, in an empty environment. -/
def atTop (stmts : List Stmt) : Point :=
  { fuel := 10, ctx := Link.moduleCtx, loc := here, scope := {}, stmts, supply := {} }

end Surface

/-- The name that is bound in front of a declaration is gone after it. -/
theorem binding_in_front_stays_local :
    ∃ r s', (Surface.atTop [Surface.binding "x", Surface.define "y" (Surface.number "2")]).Yields r s' ∧
      r.value.env.contains "y" = true ∧ r.value.env.contains "x" = false := by
  let p := Surface.atTop [Surface.binding "x", Surface.define "y" (Surface.number "2")]
  obtain ⟨r, s', hrun, hy⟩ := exists_yields_of_any (s := p.supply)
    (f := fun r => r.value.env.contains "y")
    (x := Elaboration.evalStmts p.fuel p.ctx p.loc p.scope p.stmts) (by decide +kernel)
  refine ⟨r, s', hrun, hy, Bool.eq_false_iff.2 fun hx => ?_⟩
  rcases (bindings_stay_local_unless_last 10).1 hrun hx with hold | hnew | ⟨hends, _⟩
  · cases hold
  · obtain ⟨stmt, hmem, hdeclared⟩ := hnew.declared_of_private trivial
    have hother : ∀ stmt ∈ p.stmts, "x" ∉ stmt.declares := by decide
    exact hother stmt hmem hdeclared
  · exact absurd hends (by decide)

/-- A block that ends its list leaves its bindings to the list, and so does the branch that a constant
condition takes. They become exports of a module, and part of a participant's view. -/
theorem last_binding_escapes :
    (∀ stmt ∈ Surface.binders "x",
      ∃ r s', (Surface.atTop [stmt]).Yields r s' ∧ r.value.env.contains "x" = true ∧
        (Surface.atTop [stmt]).scope.env.contains "x" = false ∧
        ¬ (Surface.atTop [stmt]).Introduces "x") ∧
    (∃ out s', (Link.item (evaluator 10) {} {} { env := {} }
        (.exported Surface.here (Surface.binding "x"))).Yields {} out s' ∧
      out.env.contains "x" = true ∧ out.exports.contains "x" = true) ∧
    ∃ r s' view, ((evaluator 10).onlyForm
        { mode := .step { views := ⟨[("A", {})]⟩ }, canLift := true } Surface.here {} "A"
        [Surface.thunk [Surface.binding "x"]]).Yields {} r s' ∧
      r.value.value.answer? = some ("A", view) ∧ view.contains "x" = true := by
  refine ⟨fun stmt hmem => ?_, ?_, ?_⟩
  · have hbound : ∀ stmt ∈ Surface.binders "x",
        (((evaluator 10).stmts Link.moduleCtx Surface.here {} [stmt]).runFrom {}).1.toOption.any
          (fun r => r.value.env.contains "x") = true := by decide +kernel
    have hnested : ∀ stmt ∈ Surface.binders "x", stmt.declares = [] := by decide
    obtain ⟨r, s', hrun, hx⟩ := exists_yields_of_any (hbound stmt hmem)
    refine ⟨r, s', hrun, hx, rfl, fun hnew => ?_⟩
    obtain ⟨other, hother, hdeclared⟩ := hnew.declared_of_private trivial
    rw [List.mem_singleton.1 hother, hnested stmt hmem] at hdeclared
    cases hdeclared
  · obtain ⟨out, s', hrun, hx⟩ := exists_yields_of_any (s := {})
      (f := fun out => out.env.contains "x" && out.exports.contains "x")
      (x := Link.item (evaluator 10) {} {} { env := {} }
        (.exported Surface.here (Surface.binding "x"))) (by decide +kernel)
    exact ⟨out, s', hrun, Bool.and_eq_true_iff.1 hx⟩
  · obtain ⟨r, s', hrun, hx⟩ := exists_yields_of_any (s := {})
      (f := fun r => r.value.value.answer?.any fun a => a.1 == "A" && a.2.contains "x")
      (x := (evaluator 10).onlyForm { mode := .step { views := ⟨[("A", {})]⟩ }, canLift := true }
        Surface.here {} "A" [Surface.thunk [Surface.binding "x"]]) (by decide +kernel)
    obtain ⟨a, hanswer, ha⟩ := (Option.any_eq_true _ _).1 hx
    obtain ⟨hwho, hview⟩ := Bool.and_eq_true_iff.1 ha
    exact ⟨r, s', a.2, hrun, by rw [hanswer, ← beq_iff_eq.1 hwho], hview⟩

end Choreography
