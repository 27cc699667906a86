import Choreography.Proofs.Blame
import Choreography.Proofs.Fuel
import Choreography.Proofs.Locality
import Choreography.Proofs.Regime

/-!
Where statements lose a level. The conditional expression is as secret as its condition, whatever the
condition is. The conditional statement passes the level on to what its branches return only when the
condition is known at run time. The variables of a loop are public inside the loop and after it, however
secret their initial values are, although `continue` assigns only what is public.
-/

namespace Choreography

open Ir Eval

variable {ctx : Ctx} {scope : Scope} {env : Bindings} {s s' s₁ : Supply} {fuel fuel' : Nat}
  {rest : List Surface.Stmt} {r : Lifted Outcome}

/-- What a computation gives does not depend on the depth. -/
theorem yields_unique {α : Type} {x : Nat → Eval α}
    (hx : ∀ {n m : Nat}, n ≤ m → Extends (x n) (x m)) {a b : α} (h : (x fuel).Yields s a s₁)
    (h' : (x fuel').Yields s b s') : a = b ∧ s₁ = s' := by
  have hlarge {n : Nat} {a : α} {last : Supply} (hn : n ≤ max fuel fuel')
      (ha : (x n).Yields s a last) : (x (max fuel fuel')).Yields s a last := by
    rcases (hx hn).run s with hout | heq
    · rw [ha] at hout
      cases hout
    · exact heq.symm.trans ha
  exact (hlarge (Nat.le_max_left ..) h).unique (hlarge (Nat.le_max_right ..) h')

theorem evalExpr_unique {e : Surface.Expr} {r r' : Lifted SecValue}
    (h : (Elaboration.evalExpr fuel ctx env e).Yields s r s₁)
    (h' : ((evaluator fuel').expr ctx env e).Yields s r' s') : r = r' ∧ s₁ = s' :=
  yields_unique (x := fun n => (evaluator n).expr ctx env e)
    (fun hn => (evaluator_extends hn).expr ctx env e) h h'

/-! ### Conditionals -/

/-- The ways out of what follows a statement, evaluated in its scope with some way of returning. -/
inductive ExitsAfter (ctx : Ctx) (loc : Loc) (scope : Scope) : List Surface.Stmt → Supply → List Exit → Prop
  | none {s' : Supply} : ExitsAfter ctx loc scope [] s' []
  | some {fuel : Nat} {style : ReturnStyle} {rest : List Surface.Stmt} {s s' : Supply}
    {next : Lifted Outcome}
    (hrest : rest ≠ [])
    (h : (Elaboration.evalStmts fuel ctx loc { scope with style } rest).Yields s next s') :
    ExitsAfter ctx loc scope rest s' next.value.exits

/-- The ways out of the branches after a secret condition, which was evaluated up to `s`. -/
inductive BranchExits (ctx : Ctx) (scope : Scope) (c : Value) (s : Supply) (onTrue : Surface.Stmt)
    (onFalse : Option Surface.Stmt) : List Exit → Prop
  /-- The condition is known at run time, and all of them are secret. -/
  | runTime {v : Var} {exits : List Exit} (hc : c.condition? = some (.runTime v))
    (h : ∀ exit ∈ exits, exit.value.level = .secret) : BranchExits ctx scope c s onTrue onFalse exits
  /-- The condition is a constant, and they are those of the branch taken, as they are. -/
  | constant {b : Bool} {fuel : Nat} {loc : Loc} {style : ReturnStyle} {taken : Lifted Outcome}
    {s' : Supply} (hc : c.condition? = some (.constant b))
    (h : (Elaboration.evalStmts fuel ctx loc { scope with style }
      (if b then [onTrue] else onFalse.toList)).Yields s taken s') :
    BranchExits ctx scope c s onTrue onFalse taken.value.exits

theorem Evaluator.continueWith_exits {loc : Loc} {first r : Lifted Outcome}
    (hrun : ((evaluator fuel).continueWith ctx loc scope first rest).Yields s r s') :
    ∃ after, r.value.exits = first.value.exits ++ after ∧
      ExitsAfter ctx loc scope (Surface.dropEmpty rest) s' after := by
  unfold Evaluator.continueWith at hrun
  split at hrun
  · rename_i hrest
    simp only [yields_pure] at hrun
    exact ⟨[], by simp [hrun.1], hrest ▸ .none⟩
  · rename_i hrest
    simp only [yields_bind, yields_pure] at hrun
    obtain ⟨next, _, hnext, rfl, rfl⟩ := hrun
    exact ⟨_, rfl, .some hrest hnext⟩

theorem Exit.combine_secret {loc : Loc} {left right : List Exit} :
    ∀ exit ∈ Exit.combine loc .secret (left.map (Exit.taint .secret)) (right.map (Exit.taint .secret)),
      exit.value.level = .secret := by
  have htainted (exits : List Exit) : ∀ exit ∈ (if (exits.map (Exit.taint .secret)).isEmpty then
      [Exit.implicit loc .secret] else exits.map (Exit.taint .secret)),
      exit.value.level = .secret := by
    split
    · simp [Exit.implicit]
    · simp [Exit.taint, Labelled.taint, Level.meet]
  intro exit hexit
  unfold Exit.combine at hexit
  split at hexit
  · cases hexit
  · exact (List.mem_append.1 hexit).elim (htainted left exit) (htainted right exit)

section Conditional

variable {cond : Surface.Expr} {c : Lifted SecValue}
  (hcond : (Elaboration.evalExpr fuel ctx scope.env cond).Yields s c s₁)
  (hsecret : c.value.level = .secret)
include hcond hsecret

theorem branch_exits {loc stmtLoc : Loc} {onTrue : Surface.Stmt} {onFalse : Option Surface.Stmt}
    (hrun : (Elaboration.evalStmts fuel' ctx loc scope
      (.branch stmtLoc cond onTrue onFalse :: rest)).Yields s r s') :
    ∃ exits after, r.value.exits = exits ++ after ∧
      ExitsAfter ctx stmtLoc scope (Surface.dropEmpty rest) s' after ∧
      BranchExits ctx scope c.value.value s₁ onTrue onFalse exits := by
  match fuel' with
  | 0 => exact absurd hrun yields_outOfFuel
  | fuel' + 1 =>
    change ((evaluator fuel').branch ctx stmtLoc scope cond onTrue onFalse rest).Yields s r s' at hrun
    simp only [Evaluator.branch, yields_bind] at hrun
    obtain ⟨c', _, hc, hrun⟩ := hrun
    obtain ⟨rfl, rfl⟩ := evalExpr_unique hcond hc
    have hinner : (if (Surface.dropEmpty rest).isEmpty then scope
        else { scope with style := .mayBeEmpty }) = { scope with
          style := if (Surface.dropEmpty rest).isEmpty then scope.style else .mayBeEmpty } := by
      split <;> rfl
    rw [hinner] at hrun
    split at hrun
    · rename_i b hconstant
      cases b
      all_goals
        obtain ⟨taken, s₂, htaken, hrun⟩ := yields_bind.1 hrun
        obtain ⟨after, hexits, hafter⟩ := Evaluator.continueWith_exits hrun
        rw [Surface.dropEmpty_dropEmpty] at hafter
        exact ⟨taken.value.exits, after, hexits, hafter, .constant hconstant htaken⟩
    · rename_i v hruntime
      simp only [yields_bind] at hrun
      obtain ⟨t, _, _, f, _, _, hrun⟩ := hrun
      obtain ⟨after, hexits, hafter⟩ := Evaluator.continueWith_exits hrun
      rw [Surface.dropEmpty_dropEmpty] at hafter
      refine ⟨_, after, hexits, hafter, .runTime hruntime ?_⟩
      rw [hsecret]
      exact Exit.combine_secret
    · simp at hrun

theorem ternary_secret {loc : Loc} {onTrue onFalse : Surface.Expr} {r : Lifted SecValue}
    (hrun : (Elaboration.evalExpr fuel' ctx scope.env (.ternary loc cond onTrue onFalse)).Yields
      s r s') : r.value.level = .secret := by
  match fuel' with
  | 0 => exact absurd hrun yields_outOfFuel
  | fuel' + 1 =>
    change ((evaluator fuel').ternary ctx loc scope.env cond onTrue onFalse).Yields s r s' at hrun
    simp only [Evaluator.ternary, yields_bind] at hrun
    obtain ⟨c', _, hc, t, _, _, f, _, _, hrun⟩ := hrun
    obtain ⟨rfl, rfl⟩ := evalExpr_unique hcond hc
    have hlevel : Level.meetAll [c.value.level, t.value.level, f.value.level] = .secret := by
      simp [Level.meetAll, hsecret, Level.meet]
    rw [hlevel] at hrun
    split at hrun
    · simp only [yields_pure] at hrun
      rw [hrun.1]
      rfl
    · split at hrun
      all_goals
        simp only [yields_bind, yields_pure] at hrun
        obtain ⟨_, _, _, rfl, _⟩ := hrun
        rfl
    · simp at hrun

end Conditional

/-- What a secret condition does to the ways out of a conditional statement, and to the value of a
conditional expression. -/
theorem secret_conditions {cond : Surface.Expr} {c : Lifted SecValue}
    (hcond : (Elaboration.evalExpr fuel ctx scope.env cond).Yields s c s₁)
    (hsecret : c.value.level = .secret) :
    (∀ fuel loc stmtLoc onTrue onFalse rest r s', (Elaboration.evalStmts fuel ctx loc scope
        (.branch stmtLoc cond onTrue onFalse :: rest)).Yields s r s' →
      ∃ exits after, r.value.exits = exits ++ after ∧
        ExitsAfter ctx stmtLoc scope (Surface.dropEmpty rest) s' after ∧
        BranchExits ctx scope c.value.value s₁ onTrue onFalse exits) ∧
    ∀ fuel loc onTrue onFalse r s', (Elaboration.evalExpr fuel ctx scope.env
      (.ternary loc cond onTrue onFalse)).Yields s r s' → r.value.level = .secret :=
  ⟨fun _ _ _ _ _ _ _ _ hrun => branch_exits hcond hsecret hrun,
    fun _ _ _ _ _ _ hrun => ternary_secret hcond hsecret hrun⟩

/-- A scope that may return, where `s` is bound. -/
def Scope.binding (sv : SecValue) : Scope :=
  { slot := some 0, style := .implicitNull, env := .ofList [("s", sv)] }

namespace Surface

/-- The text `if (s) return 1;`. -/
def returnIf : Stmt := .branch here (name "s") (.ret here (some (number "1"))) none

/-- The second of two, which is as secret as the first. -/
def second (e e' : Expr) : Expr := .index here (.array here [e, e']) (number "1")

/-- An app that publishes what it chooses by a secret constant. -/
def decidingApp (choice : Expr) : Bundle :=
  appOf ["A"] [
    .expr here (method (name "A") "only" [thunk [
      define "s" (second (method (name "interact") "getX" []) (.bool here true)),
      define "x" choice]]),
    .expr here (method (name "A") "publish" [name "x"]),
    .expr here (apply "commit" []),
    .expr here (apply "exit" [])]

end Surface

theorem secret_variable_taints : ∃ r s', (Elaboration.evalStmts 5 { mode := .step {}, canLift := true }
      Surface.here (.binding (.secret (.var ⟨Surface.here, "s", .bool, 0⟩))) [Surface.returnIf]).Yields
      {} r s' ∧ r.value.exits.length = 2 ∧ ∀ exit ∈ r.value.exits, exit.value.level = .secret := by
  obtain ⟨r, s', hrun, hexits⟩ := exists_yields_of_any (s := {})
    (f := fun r : Lifted Outcome => r.value.exits.length == 2)
    (x := Elaboration.evalStmts 5 { mode := .step {}, canLift := true } Surface.here
      (.binding (.secret (.var ⟨Surface.here, "s", .bool, 0⟩))) [Surface.returnIf]) (by decide +kernel)
  refine ⟨r, s', hrun, by simpa using hexits, ?_⟩
  have hcond : (Elaboration.evalExpr 1 { mode := .step {}, canLift := true }
      (Scope.binding (.secret (.var ⟨Surface.here, "s", .bool, 0⟩))).env (Surface.name "s")).Yields {}
      (.plain (.secret (.var ⟨Surface.here, "s", .bool, 0⟩))) {} := rfl
  obtain ⟨exits, after, hsplit, hafter, hbranches⟩ :=
    (secret_conditions hcond rfl).1 _ _ _ _ _ _ _ _ hrun
  cases hafter with
  | none =>
    cases hbranches with
    | runTime _ h => simpa [hsplit] using h
    | constant hc _ => cases hc
  | some hrest => exact absurd rfl hrest

/-- A secret constant decides what is returned, and the result is public: it can be published. What
the conditional expression chooses by the same constant cannot. -/
theorem secret_constant_launders :
    (∃ r s' exit, (Elaboration.evalStmts 5 { mode := .step {}, canLift := true } Surface.here
      (.binding (.secret (.bool Surface.here true))) [Surface.returnIf]).Yields {} r s' ∧
      exit ∈ r.value.exits ∧ exit.value.level = .pub) ∧
    (∃ p, (compileBundle 40 {} {} (Surface.decidingApp (.call Surface.here
      (Surface.thunk [Surface.returnIf, .ret Surface.here (some (Surface.number "2"))]) [])) "main").1 =
      .ok p) ∧
    ∃ f, (compileBundle 40 {} {} (Surface.decidingApp (.ternary Surface.here (Surface.name "s")
      (Surface.number "1") (Surface.number "2"))) "main").1 = .error (.fault f) ∧
      f.kind = .secretUse := by
  obtain ⟨r, s', hrun, hexits⟩ := exists_yields_of_any (s := {})
    (f := fun r : Lifted Outcome => r.value.exits.any fun exit => decide (exit.value.level = .pub))
    (x := Elaboration.evalStmts 5 { mode := .step {}, canLift := true } Surface.here
      (.binding (.secret (.bool Surface.here true))) [Surface.returnIf]) (by decide +kernel)
  obtain ⟨exit, hexit, hlevel⟩ := List.any_eq_true.1 hexits
  exact ⟨⟨r, s', exit, hrun, hexit, of_decide_eq_true hlevel⟩,
    exists_ok_and_fault (by decide +kernel) (by decide +kernel)⟩

/-! ### Loops -/

/-- Every variable is an unknown that everyone knows, and nothing else is bound. -/
theorem find?_unknowns {vars : List (String × Var × Arg)} {unknowns : Bindings}
    (hunknowns : unknowns = .ofList (vars.map fun i => (i.1, .pub (.var i.2.1)))) (name : String) :
    if name ∈ vars.map (·.1) then
      ∃ v ∈ vars.map (·.2.1), unknowns.find? name = some (.pub (.var v))
    else unknowns.find? name = none := by
  have hmem {sv : SecValue} (h : unknowns.find? name = some sv) :
      ∃ i ∈ vars, i.1 = name ∧ sv = .pub (.var i.2.1) := by
    rw [hunknowns] at h
    obtain ⟨i, hi, heq⟩ := List.mem_map.1 (Env.mem_ofList (Bindings.mem_of_find? h))
    obtain ⟨hname, hsv⟩ := Prod.mk.inj heq
    exact ⟨i, hi, hname, hsv.symm⟩
  split
  · rename_i hname
    have hsome : (unknowns.find? name).isSome := by
      rw [hunknowns, Env.ofList, Env.find?_setAll, Option.isSome_or, List.lookup_isSome_iff.2]
      · rfl
      · obtain ⟨i, hi, rfl⟩ := List.mem_map.1 hname
        exact ⟨_, List.mem_reverse.2 (List.mem_map.2 ⟨i, hi, rfl⟩), by simp⟩
    obtain ⟨sv, hsv⟩ := Option.isSome_iff_exists.1 hsome
    obtain ⟨i, hi, _, rfl⟩ := hmem hsv
    exact ⟨i.2.1, List.mem_map_of_mem hi, hsv⟩
  · rename_i hname
    refine Option.eq_none_iff_forall_ne_some.2 fun sv hsv => hname ?_
    obtain ⟨i, hi, rfl, _⟩ := hmem hsv
    exact List.mem_map_of_mem hi

theorem assignLoopVars_public {loc : Loc} {vars : NameMap Var} {bindings : List (String × SecValue)} :
    ∀ {assignment : Assignment} {s s' : Supply},
      (assignLoopVars loc vars bindings).Yields s assignment s' → ∀ b ∈ bindings, b.2.level = .pub := by
  induction bindings with
  | nil => simp
  | cons b bindings ih =>
    intro assignment s s' hrun
    simp only [assignLoopVars, yields_bind, SecValue.requirePublic_yields] at hrun
    obtain ⟨_, _, _, _, _, ⟨hpublic, _⟩, _, _, _, _, _, hrest, _⟩ := hrun
    exact List.forall_mem_cons.2 ⟨by rw [hpublic]; rfl, ih hrest⟩

/-- The run of a loop from the point where `vars` are bound in `inner`. The invariant, the condition,
the body and what follows the loop are all evaluated there, one after another. -/
inductive LoopRun (ctx : Ctx) (loc : Loc) (scope : Scope) (invariant : List Surface.Expr)
    (cond : Surface.Expr) (body : Surface.Stmt) (rest : List Surface.Stmt) (inner : Bindings)
    (before : Code) (vars : Assignment) (s : Supply) : Lifted Outcome → Supply → Prop
  | mk {condition : Surface.Expr} {depth : Nat} {declLoc invariantLoc : Loc} {i c : Lifted SecValue}
    {iResult cResult : Arg} {turn after : Lifted Outcome} {loopVars : Option (NameMap Var)}
    {s₁ s₂ s₃ s' : Supply} (hone : invariant = [condition])
    (hinvariant : (Elaboration.evalExpr depth ctx inner condition).Yields s i s₁)
    (hcond : (Elaboration.evalExpr depth ctx inner cond).Yields s₁ c s₂)
    (hbody : (Elaboration.evalStmts depth ctx loc
      { scope with style := .needExplicit, env := inner, loopVars } [body]).Yields s₂ turn s₃)
    (hrest : (Elaboration.evalStmts depth ctx loc { scope with env := inner } rest).Yields s₃ after s') :
    LoopRun ctx loc scope invariant cond body rest inner before vars s
      { code := before ++ .loop declLoc vars ⟨invariantLoc, ctx.frames, i.code, iResult⟩
          ⟨cond.loc, ctx.frames, c.code, cResult⟩ turn.code :: after.code
        value := { env := after.value.env, exits := turn.value.exits ++ after.value.exits } } s'

theorem loop_run {loc declLoc invariantLoc nameLoc loopLoc : Loc} {decls : List Surface.Decl}
    {init : Lifted Bindings} {invariant : List Surface.Expr} {cond : Surface.Expr}
    {body : Surface.Stmt} (hinit : ((evaluator fuel').decls ctx scope.env decls).Yields s init s₁)
    (hrun : (Elaboration.evalStmts fuel ctx loc scope (.varDecl declLoc decls ::
      .methodCall invariantLoc (.ident nameLoc "invariant") invariant ::
      .loop loopLoc cond body :: rest)).Yields s r s') :
    ∃ inner vars s₂,
      LoopRun ctx loopLoc scope invariant cond body rest inner init.code vars s₂ r s' ∧
      ∀ name, if init.value.contains name then
          ∃ v ∈ vars.map (·.1), inner.find? name = some (.pub (.var v))
        else inner.find? name = scope.env.find? name := by
  match fuel with
  | 0 => exact absurd hrun yields_outOfFuel
  | depth + 1 =>
    change ((evaluator depth).loop ctx declLoc scope decls invariantLoc invariant loopLoc cond body
      rest).Yields s r s' at hrun
    simp only [Evaluator.loop, Evaluator.boolBlock, Ctx.expectMode_yields, yields_bind] at hrun
    obtain ⟨_, _, ⟨_, rfl⟩, _, _, hdecls, vars, _, hvars, inner, _, hmerge, hrun⟩ := hrun
    obtain ⟨rfl, rfl⟩ := yields_unique (x := fun n => (evaluator n).decls ctx scope.env decls)
      (fun hn => (evaluator_extends hn).decls ..) hinit hdecls
    split at hrun
    · simp only [yields_bind, Value.checkType_yields, yields_pure] at hrun
      obtain ⟨_, _, ⟨i, _, hinvariant, _, _, ⟨_, rfl⟩, rfl, rfl⟩, _, _,
        ⟨c, _, hcond, _, _, ⟨_, rfl⟩, rfl, rfl⟩, turn, _, hturn, after, _, hafter, rfl, rfl⟩ := hrun
      refine ⟨inner, _, _, .mk rfl hinvariant hcond hturn hafter, fun name => ?_⟩
      have hfind := Bindings.merge_find? hmerge name
      have hunknown := @find?_unknowns vars _ rfl name
      simp only [Ctx.loopVars_names.result hvars, ← Env.contains_iff_mem] at hunknown
      split
      · rename_i hname
        rw [if_pos hname] at hunknown
        obtain ⟨v, hv, hfound⟩ := hunknown
        have hfresh := Bindings.merge_fresh hmerge _ (Bindings.mem_of_find? hfound)
        exact ⟨v, by simpa using hv, by rw [hfind, hfresh, Option.none_or, hfound]⟩
      · rename_i hname
        rw [if_neg hname] at hunknown
        rw [hfind, hunknown, Option.or_none]
    · simp at hrun

theorem continue_public {loc assignLoc contLoc : Loc} {lhs rhs : Surface.Expr}
    {updates : Lifted Bindings}
    (hupdates : ((evaluator fuel').decl ctx {} scope.env
      { loc := assignLoc, lhs, init := some rhs }).Yields s updates s₁)
    (hrun : (Elaboration.evalStmts fuel ctx loc scope
      (.assign assignLoc .assign lhs rhs :: .cont contLoc :: rest)).Yields s r s') :
    ∀ b ∈ updates.value.entries, b.2.level = .pub := by
  match fuel with
  | 0 => exact absurd hrun yields_outOfFuel
  | depth + 1 =>
    change ((evaluator depth).continueLoop ctx contLoc scope assignLoc lhs rhs rest).Yields
      s r s' at hrun
    simp only [Evaluator.continueLoop, Ctx.expectMode_yields, yields_bind] at hrun
    obtain ⟨_, _, ⟨_, rfl⟩, _, _, hdecl, _, _, _, _, _, hassign, _⟩ := hrun
    obtain ⟨rfl, rfl⟩ := yields_unique (x := fun n => (evaluator n).decl ctx {} scope.env
      { loc := assignLoc, lhs, init := some rhs }) (fun hn => (evaluator_extends hn).decl ..)
      hupdates hdecl
    exact assignLoopVars_public hassign

/-- The variables of a loop are public in its invariant, its condition, its body and what follows it,
whatever their initial values are. What `continue` assigns to them has to be public. -/
theorem loop_levels (ctx : Ctx) (scope : Scope) (s : Supply) :
    (∀ decls fuel init s₁, ((evaluator fuel).decls ctx scope.env decls).Yields s init s₁ →
      ∀ fuel loc declLoc invariantLoc nameLoc invariant loopLoc cond body rest r s',
        (Elaboration.evalStmts fuel ctx loc scope (.varDecl declLoc decls ::
          .methodCall invariantLoc (.ident nameLoc "invariant") invariant ::
          .loop loopLoc cond body :: rest)).Yields s r s' →
        ∃ inner vars s₂,
          LoopRun ctx loopLoc scope invariant cond body rest inner init.code vars s₂ r s' ∧
          ∀ name, if init.value.contains name then
              ∃ v ∈ vars.map (·.1), inner.find? name = some (.pub (.var v))
            else inner.find? name = scope.env.find? name) ∧
    ∀ assignLoc lhs rhs fuel updates s₁, ((evaluator fuel).decl ctx {} scope.env
        { loc := assignLoc, lhs, init := some rhs }).Yields s updates s₁ →
      ∀ fuel loc contLoc rest r s', (Elaboration.evalStmts fuel ctx loc scope
          (.assign assignLoc .assign lhs rhs :: .cont contLoc :: rest)).Yields s r s' →
        ∀ b ∈ updates.value.entries, b.2.level = .pub :=
  ⟨fun _ _ _ _ hinit _ _ _ _ _ _ _ _ _ _ _ _ hrun => loop_run hinit hrun,
    fun _ _ _ _ _ _ hupdates _ _ _ _ _ _ hrun => continue_public hupdates hrun⟩

namespace Surface

/-- The text `var x = e; invariant(true); while (false) { continue; }`. -/
def loopFrom (e : Expr) : List Stmt :=
  [.varDecl here [⟨here, name "x", some e⟩], .methodCall here (name "invariant") [.bool here true],
   .loop here (.bool here false) (.block ⟨here, [.cont here]⟩)]

/-- An app that pays a number of `x` that the given statements bind. -/
def payingApp (binding : List Stmt) : Bundle :=
  appOf ["A"] ([.expr here (method (name "A") "publish" [])] ++ binding ++ [
    .expr here (method (apply "transfer" [name "x"]) "to" [name "A"]),
    .expr here (apply "commit" []),
    .expr here (apply "exit" [])])

end Surface

theorem loopFrom_levels : ∃ inner vars s₂ r s' v, LoopRun { mode := .consensus {} {}, canLift := true }
      Surface.here (.binding (.pub (.null Surface.here))) [.bool Surface.here true]
      (.bool Surface.here false) (.block ⟨Surface.here, [.cont Surface.here]⟩) [] inner [] vars s₂ r s' ∧
    inner.find? "x" = some (.pub (.var v)) := by
  obtain ⟨r, s', hrun, _⟩ := exists_yields_of_any (s := {}) (f := fun _ => true)
    (x := Elaboration.evalStmts 5 { mode := .consensus {} {}, canLift := true } Surface.here
      (.binding (.pub (.null Surface.here))) (Surface.loopFrom (Surface.number "7")))
    (by decide +kernel)
  have hinit : ((evaluator 5).decls { mode := .consensus {} {}, canLift := true }
      (Scope.binding (.pub (.null Surface.here))).env
      [⟨Surface.here, Surface.name "x", some (Surface.number "7")⟩]).Yields {}
      (.plain ⟨[("x", .pub (.int Surface.here 7))]⟩) {} := rfl
  obtain ⟨inner, vars, s₂, hloop, hpublic⟩ :=
    (loop_levels _ _ _).1 _ _ _ _ hinit _ _ _ _ _ _ _ _ _ _ _ _ hrun
  obtain ⟨v, _, hv⟩ := hpublic "x"
  exact ⟨inner, vars, s₂, r, s', v, hloop, hv⟩

/-- A loop variable that starts as a secret is public after the loop: it can be paid, and the secret
cannot. -/
theorem secret_start_launders :
    (∃ init r s₁ s' v, ((evaluator 5).decls { mode := .consensus {} {}, canLift := true }
        (Scope.binding (.secret (.int Surface.here 7))).env
        [⟨Surface.here, Surface.name "x", some (Surface.name "s")⟩]).Yields {} init s₁ ∧
      init.value.find? "x" = some (.secret (.int Surface.here 7)) ∧
      (Elaboration.evalStmts 5 { mode := .consensus {} {}, canLift := true } Surface.here
        (.binding (.secret (.int Surface.here 7))) (Surface.loopFrom (Surface.name "s"))).Yields {} r s' ∧
      r.value.env.find? "x" = some (.pub v)) ∧
    (∃ p, (compileBundle 40 {} {} (Surface.payingApp (Surface.loopFrom
      (Surface.second (Surface.name "A") (Surface.number "1")))) "main").1 = .ok p) ∧
    ∃ f, (compileBundle 40 {} {} (Surface.payingApp [Surface.define "x"
      (Surface.second (Surface.name "A") (Surface.number "1"))]) "main").1 = .error (.fault f) ∧
      f.kind = .secretUse := by
  refine ⟨?_, exists_ok_and_fault (by decide +kernel) (by decide +kernel)⟩
  obtain ⟨r, s', hrun, hx⟩ := exists_yields_of_any (s := {})
    (f := fun r : Lifted Outcome =>
      (r.value.env.find? "x").any fun sv : SecValue => decide (sv.level = .pub))
    (x := Elaboration.evalStmts 5 { mode := .consensus {} {}, canLift := true } Surface.here
      (.binding (.secret (.int Surface.here 7))) (Surface.loopFrom (Surface.name "s")))
    (by decide +kernel)
  obtain ⟨⟨level, v⟩, hfind, hlevel⟩ := (Option.any_eq_true _ _).1 hx
  cases of_decide_eq_true hlevel
  exact ⟨_, r, {}, s', v, rfl, rfl, hrun, hfind⟩

end Choreography
