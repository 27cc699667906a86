import Choreography.Proofs.ShapedPrograms

/-!
Evaluation where no code may be emitted: at the top level of modules, and where the function of an
`only` is made. The application of a function begins with a new number for its slot, so none goes on
there, and evaluation follows the text of the program. It ends whatever names are bound to, hence so
does linking.
-/

namespace Choreography

open Eval Ir

variable {ctx : Ctx} {loc : Loc} {env : Bindings} {scope : Scope} {es : List Surface.Expr}
  {rest : List Surface.Stmt}

/-- Numbers are given out only where code may be emitted. -/
theorem Ctx.alloc_ends : Ends (fun _ => ctx.alloc loc) fun _ => ctx.canLift = true := by
  cases h : ctx.canLift with
  | true => exact (Ends.passes Ctx.alloc_routine).imp fun _ _ => rfl
  | false =>
    unfold Ctx.alloc
    rw [h]
    exact .fail

theorem Ctx.expectMode_ends {operation : String} {allowed : Mode → Bool} :
    Ends (fun _ => ctx.expectMode loc operation allowed) fun _ => allowed ctx.mode = true :=
  .ensure

/-! ### Expressions -/

theorem applyClosure_pure_ends (hctx : ctx.canLift = false) {c : Closure} {args : List SecValue} :
    Ends (fun fuel => (evaluator fuel).applyClosure ctx loc c args) fun _ => True :=
  Ctx.alloc_ends.bind fun _ h => by cases hctx.symm.trans h

theorem onlyForm_pure_ends (hctx : ctx.canLift = false) (who : String)
    (hargs : ∀ {ctx : Ctx} {env : Bindings}, ctx.canLift = false →
      ∀ e ∈ es, ExprEnds ctx env e fun _ => True) :
    Ends (fun fuel => (evaluator fuel).onlyForm ctx loc env who es) fun _ => True := by
  have henv : env.Fits .privately fun _ => .any := fun _ _ => .any
  unfold Evaluator.onlyForm
  split
  · refine Ends.orFail.bind fun view _ => ?_
    refine Ends.bind (ExprsEnd.of_each (S := .privately) (hargs rfl)).exprs fun made _ => ?_
    split
    · rename_i level tag c hmade
      refine (sharedArgs_ends Setting.privately_lawful henv c.formals).bind fun shared _ => ?_
      refine Ends.bind (applyClosure_pure_ends (by exact hctx)) fun _ _ => ?_
      exact Ends.freshTag.bind fun _ _ => .pure trivial
    · exact .fail
  · exact .fail

theorem Round.fill_passes (r : Round) (stage : Stage) :
    Ends (fun _ => r.fill loc stage es) fun _ => True := by
  cases stage with
  | publish =>
    exact Ends.ensure.bind fun _ _ => Ends.skip (publishedNames_routine es) fun _ =>
      .pure trivial
  | pay =>
    refine Ends.ensure.bind fun _ _ => ?_
    split
    · exact .pure trivial
    · exact .fail
  | timeout =>
    refine Ends.ensure.bind fun _ _ => ?_
    split
    · exact .pure trivial
    · exact .fail

/-- Any value is applied without going into a function of the program. -/
theorem apply_pure_ends (hctx : ctx.canLift = false) (v : Value)
    (hargs : ∀ {ctx : Ctx} {env : Bindings}, ctx.canLift = false →
      ∀ e ∈ es, ExprEnds ctx env e fun _ => True) :
    Ends (fun fuel => (evaluator fuel).apply ctx loc env v es) fun _ => True := by
  have henv : env.Fits .privately fun _ => .any := fun _ _ => .any
  have hargs' : ∀ e ∈ es, ExprEnds ctx env e fun _ => True := hargs hctx
  have hexprs := (ExprsEnd.of_each (S := .privately) hargs').exprs
  unfold Evaluator.apply
  split
  · exact hexprs.bind fun args _ => Ends.bind
      (applyValues_prim_ends (Q := fun _ => True) (Ctx.applyPrim_ends.imp fun _ _ => trivial))
        fun _ _ => .pure trivial
  · exact hexprs.bind fun args _ => Ends.bind (applyClosure_pure_ends hctx) fun _ _ => .pure trivial
  · rename_i formLoc tag f
    cases f with
    | app => exact appForm_ends (Q := fun _ => True) henv hargs' fun _ _ _ => trivial
    | only who => exact onlyForm_pure_ends hctx who hargs
    | onlyDone => exact .fail
    | round r =>
      exact Ctx.expectMode_ends.bind fun _ _ => Ends.orFail.bind fun stage _ =>
        (Round.fill_passes r stage).bind fun _ _ => Ends.freshTag.bind fun _ _ => .pure trivial
  · exact .fail

/-- Expressions end where no code may be emitted. The induction is on their size. -/
theorem pureExpr_ends (e : Surface.Expr) (hctx : ctx.canLift = false) :
    ExprEnds ctx env e fun _ => True := by
  induction hsize : sizeOf e using Nat.strongRecOn generalizing ctx env e with
  | ind n ih =>
    subst hsize
    have hparts : ∀ {ctx : Ctx} {env : Bindings}, ctx.canLift = false →
        ∀ part ∈ e.parts, ExprEnds ctx env part fun _ => True :=
      fun hctx part hpart => ih _ (Surface.Expr.sizeOf_part_lt hpart) part hctx rfl
    have henv : env.Fits .privately fun _ => .any := fun _ _ => .any
    cases e with
    | call callLoc callee args =>
      exact .call (hparts hctx callee List.mem_cons_self) fun v _ => apply_pure_ends hctx v
        fun hctx => (List.forall_mem_cons.1 (hparts hctx)).2
    | binary opLoc op lhs rhs =>
      exact .of_rule ((Surface.BinaryOp.rator_ends henv op).bind fun v _ =>
        apply_pure_ends hctx v hparts)
    | unary opLoc op operand =>
      exact .of_rule ((Surface.UnaryOp.rator_ends henv op).bind fun v _ =>
        apply_pure_ends hctx v hparts)
    | _ => exact .of_parts (hparts hctx) rfl

/-! ### Statements -/

theorem pureDecls_ends (hctx : ctx.canLift = false) (ds : List Surface.Decl) :
    ∀ bound : Bindings, Ends (fun fuel => (evaluator fuel).declsFrom ctx bound env ds)
      fun _ => True := by
  induction ds with
  | nil => exact fun _ => .pure trivial
  | cons d ds ih =>
    refine fun bound => Ends.bind (P := fun _ => True) ?_ fun first _ =>
      (ih first.value).bind fun _ _ => .pure trivial
    refine Ends.orFail.bind fun init _ => Ends.skip (Target.ofExpr_routine _)
      fun target => Ends.bind (pureExpr_ends init hctx) fun rhs _ => ?_
    split
    · exact Ends.skip (Bindings.bind_routine ..) fun _ => .pure trivial
    · exact (Ends.of_faults Ctx.components_meets.toMeets).bind fun _ _ =>
        Ends.ensure.bind fun _ _ => Ends.skip (Bindings.bindAll_routine ..)
          fun _ => .pure trivial

section Statements

variable {n : Nat} (hctx : ctx.canLift = false) (hmode : ctx.mode.isPrivate = true)
  (ih : ∀ stmts : List Surface.Stmt, sizeOf stmts < n → ∀ {loc : Loc} {scope : Scope},
    Ends (fun fuel => (evaluator fuel).stmts ctx loc scope stmts) fun _ => True)

include ih

theorem pureContinueWith_ends (hsize : sizeOf rest < n) (first : Lifted Outcome) :
    Ends (fun fuel => (evaluator fuel).continueWith ctx loc scope first rest) fun _ => True := by
  unfold Evaluator.continueWith
  split
  · exact .pure trivial
  · exact Ends.bind (ih _ (Nat.lt_of_le_of_lt (Surface.sizeOf_dropEmpty_le rest) hsize))
      fun _ _ => .pure trivial

include hctx

theorem pureBranch_ends (cond : Surface.Expr) {onTrue : Surface.Stmt} {onFalse : Option Surface.Stmt}
    (hTrue : sizeOf [onTrue] < n) (hFalse : sizeOf onFalse.toList < n) (hsize : sizeOf rest < n) :
    Ends (fun fuel => (evaluator fuel).branch ctx loc scope cond onTrue onFalse rest)
      fun _ => True := by
  have hsmall : sizeOf (Surface.dropEmpty rest) < n :=
    Nat.lt_of_le_of_lt (Surface.sizeOf_dropEmpty_le rest) hsize
  refine Ends.bind (pureExpr_ends cond hctx) fun c _ => ?_
  simp only
  split
  · split
    · exact Ends.bind (ih _ hTrue) fun _ _ => pureContinueWith_ends ih hsmall _
    · exact Ends.bind (ih _ hFalse) fun _ _ => pureContinueWith_ends ih hsmall _
  · exact Ends.bind (ih _ hTrue) fun _ _ => Ends.bind (ih _ hFalse) fun _ _ =>
      pureContinueWith_ends ih hsmall _
  · exact .fail

include hmode

/-- No protocol goes on, so a value that stands as a statement is null. -/
theorem pureExprStmt_ends (e : Surface.Expr) (hsize : sizeOf rest < n) :
    Ends (fun fuel => (evaluator fuel).exprStmt ctx loc scope e rest) fun _ => True := by
  refine Ends.bind (pureExpr_ends e hctx) fun r _ => ?_
  split
  any_goals
    rename_i hprotocol _
    rw [hprotocol] at hmode
    cases hmode
  exact Ends.skip (Value.expectNull_routine _) fun _ =>
    Ends.bind (ih _ hsize) fun _ _ => .pure trivial

end Statements

/-- Statements end where no code may be emitted and no protocol goes on. -/
theorem pureStmts_ends (hctx : ctx.canLift = false) (hmode : ctx.mode.isPrivate = true)
    (stmts : List Surface.Stmt) :
    Ends (fun fuel => (evaluator fuel).stmts ctx loc scope stmts) fun _ => True := by
  induction hsize : sizeOf stmts using Nat.strongRecOn generalizing loc scope stmts with
  | ind n ih =>
    subst hsize
    have ih : ∀ smaller : List Surface.Stmt, sizeOf smaller < sizeOf stmts →
        ∀ {loc : Loc} {scope : Scope},
          Ends (fun fuel => (evaluator fuel).stmts ctx loc scope smaller) fun _ => True :=
      fun smaller hsize => ih _ hsize smaller rfl
    have hconsensus : ctx.mode.isConsensus = true → False := by
      intro h
      cases hm : ctx.mode with
      | consensus => rw [hm] at hmode; cases hmode
      | _ => rw [hm] at h; cases h
    refine .of_succ ?_
    cases stmts with
    | nil => exact .pure trivial
    | cons s rest =>
      have hrest : sizeOf rest < sizeOf (s :: rest) := by simp +arith
      cases s with
      | block body =>
        obtain ⟨bodyLoc, body⟩ := body
        exact Ends.bind (ih body (by simp +arith)) fun _ _ => pureContinueWith_ends ih hrest _
      | constDecl stmtLoc ds =>
        exact (pureDecls_ends hctx ds _).bind fun _ _ =>
          Ends.skip (Bindings.bindAll_routine ..) fun _ =>
            Ends.bind (ih rest hrest) fun _ _ => .pure trivial
      | function stmtLoc name formals body =>
        exact Ends.orFail.bind fun _ _ => Ends.freshTag.bind fun _ _ =>
          Ends.skip (Bindings.bind_routine ..) fun _ =>
            Ends.bind (ih rest hrest) fun _ _ => .pure trivial
      | branch stmtLoc cond onTrue onFalse =>
        obtain ⟨hTrue, hFalse⟩ := Surface.sizeOf_branches_lt
        exact pureBranch_ends hctx ih cond hTrue hFalse hrest
      | empty stmtLoc => exact ih rest hrest
      | expr stmtLoc e => exact pureExprStmt_ends hctx hmode ih e hrest
      | methodCall stmtLoc callee args => exact pureExprStmt_ends hctx hmode ih _ hrest
      | ret stmtLoc value =>
        exact (ret_ends (S := .privately) (Γ := fun _ => .any) (σ := .any) (fun _ _ => .any)
          fun e _ => (pureExpr_ends e hctx).imp fun _ _ => .any).imp fun _ _ => trivial
      | cont stmtLoc => exact Ctx.expectMode_ends.bind fun _ h => (hconsensus h).elim
      | assign | varDecl =>
        show Ends (fun fuel => (evaluator fuel).evalStmts ctx loc scope _) _
        unfold Evaluator.evalStmts
        split
        any_goals exact .fail
        all_goals (rename_i heq; cases heq)
        exact Ctx.expectMode_ends.bind fun _ h => (hconsensus h).elim
      | loop => exact .fail
      | foreign => exact .fail

end Choreography
