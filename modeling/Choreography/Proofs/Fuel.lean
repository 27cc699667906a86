import Choreography.Elaboration

/-!
The bound on the depth of evaluation shows only where it is reached: what an evaluation gives within
one bound, a result or a fault, it gives within every larger one, with the same supply.
-/

namespace Choreography

open Ir

namespace Eval

variable {α β : Type}

/-- The second computation does what the first does, unless the first runs out of depth. -/
structure Extends (x y : Eval α) : Prop where
  run (s : Supply) : (x.runFrom s).1 = .error .outOfFuel ∨ x.runFrom s = y.runFrom s

namespace Extends

theorem refl (x : Eval α) : Extends x x := ⟨fun _ => .inr rfl⟩

theorem outOfFuel (y : Eval α) : Extends (throw .outOfFuel) y := ⟨fun _ => .inl rfl⟩

theorem bind {x y : Eval α} {f g : α → Eval β} (h : Extends x y) (hrest : ∀ a, Extends (f a) (g a)) :
    Extends (x >>= f) (y >>= g) := by
  refine ⟨fun s => ?_⟩
  rw [runFrom_bind, runFrom_bind]
  rcases h.run s with hout | heq
  · generalize x.runFrom s = first at hout
    obtain ⟨_ | _, _⟩ := first
    · cases hout
      exact .inl rfl
    · cases hout
  · rw [← heq]
    obtain ⟨_ | a, rest⟩ := x.runFrom s
    · exact .inr rfl
    · exact (hrest a).run rest

/-- What is the same in both runs goes first. -/
theorem bind_refl (x : Eval α) {f g : α → Eval β} (hrest : ∀ a, Extends (f a) (g a)) :
    Extends (x >>= f) (x >>= g) :=
  .bind (.refl x) hrest

end Extends

end Eval

open Eval

/-- The second evaluator does what the first does, unless the first runs out of depth. -/
structure Evaluator.Extends (ev ev' : Evaluator) : Prop where
  expr (ctx : Ctx) (env : Bindings) (e : Surface.Expr) :
    Eval.Extends (ev.expr ctx env e) (ev'.expr ctx env e)
  stmts (ctx : Ctx) (loc : Loc) (scope : Scope) (stmts : List Surface.Stmt) :
    Eval.Extends (ev.stmts ctx loc scope stmts) (ev'.stmts ctx loc scope stmts)

namespace Evaluator.Extends

variable {ev ev' : Evaluator} (hev : ev.Extends ev') (ctx : Ctx) (loc : Loc) (env : Bindings)
  (scope : Scope)
include hev

/-! ### Expressions -/

theorem exprs (es : List Surface.Expr) :
    Eval.Extends (ev.exprs ctx env es) (ev'.exprs ctx env es) := by
  induction es with
  | nil => exact .refl _
  | cons e es ih => exact .bind (hev.expr ctx env e) fun _ => .bind ih fun _ => .refl _

theorem ternary (cond onTrue onFalse : Surface.Expr) :
    Eval.Extends (ev.ternary ctx loc env cond onTrue onFalse)
      (ev'.ternary ctx loc env cond onTrue onFalse) :=
  .bind (hev.expr ..) fun _ => .bind (hev.expr ..) fun _ => .bind (hev.expr ..) fun _ => .refl _

theorem applyClosure (c : Closure) (args : List SecValue) :
    Eval.Extends (ev.applyClosure ctx loc c args) (ev'.applyClosure ctx loc c args) :=
  .bind_refl _ fun _ => .bind_refl _ fun _ => .bind_refl _ fun _ =>
    .bind (hev.stmts ..) fun _ => .refl _

theorem applyValues (rator : Value) (args : List SecValue) :
    Eval.Extends (ev.applyValues ctx loc env rator args) (ev'.applyValues ctx loc env rator args) := by
  unfold Evaluator.applyValues
  split
  · exact .refl _
  · exact hev.applyClosure ctx loc _ args
  · exact .refl _

theorem appForm (args : List Surface.Expr) :
    Eval.Extends (ev.appForm ctx loc env args) (ev'.appForm ctx loc env args) := by
  refine .bind_refl _ fun _ => ?_
  split
  · exact .bind (hev.exprs ..) fun _ => .refl _
  · exact .refl _

theorem onlyForm (who : String) (args : List Surface.Expr) :
    Eval.Extends (ev.onlyForm ctx loc env who args) (ev'.onlyForm ctx loc env who args) := by
  unfold Evaluator.onlyForm
  split
  · refine .bind_refl _ fun _ => .bind (hev.exprs ..) fun _ => ?_
    split
    · exact .bind_refl _ fun _ => .bind (hev.applyValues ..) fun _ => .refl _
    · exact .refl _
  · exact .refl _

theorem apply (rator : Value) (rands : List Surface.Expr) :
    Eval.Extends (ev.apply ctx loc env rator rands) (ev'.apply ctx loc env rator rands) := by
  cases rator with
  | prim => exact .bind (hev.exprs ..) fun _ => .bind (hev.applyValues ..) fun _ => .refl _
  | closure => exact .bind (hev.exprs ..) fun _ => .bind (hev.applyValues ..) fun _ => .refl _
  | form formLoc tag f =>
    cases f with
    | app => exact hev.appForm ctx loc env rands
    | only who => exact hev.onlyForm ctx loc env who rands
    | _ => exact .refl _
  | _ => exact .refl _

theorem property (object : PartialObject) (p : Surface.Property) :
    Eval.Extends (ev.property ctx env object p) (ev'.property ctx env object p) := by
  cases p with
  | value propLoc name value =>
    refine .bind ?_ fun _ => .bind (hev.expr ..) fun _ => .refl _
    cases name with
    | computed key => exact .bind (hev.expr ..) fun _ => .refl _
    | _ => exact .refl _
  | spread => exact .bind (hev.expr ..) fun _ => .refl _
  | _ => exact .refl _

theorem properties (ps : List Surface.Property) : ∀ object : PartialObject,
    Eval.Extends (ev.properties ctx env object ps) (ev'.properties ctx env object ps) := by
  induction ps with
  | nil => exact fun _ => .refl _
  | cons p ps ih => exact fun object => .bind (hev.property ctx env object p) fun _ => ih _

theorem evalExpr (e : Surface.Expr) :
    Eval.Extends (ev.evalExpr ctx env e) (ev'.evalExpr ctx env e) := by
  unfold Evaluator.evalExpr
  cases e with
  | array => exact .bind (hev.exprs ..) fun _ => .refl _
  | object loc props => exact .bind (hev.properties ..) fun _ => .refl _
  | call => exact .bind (hev.expr ..) fun _ => .bind (hev.apply ..) fun _ => .refl _
  | dot => exact .bind (hev.expr ..) fun _ => .refl _
  | index => exact .bind (hev.expr ..) fun _ => .bind (hev.expr ..) fun _ => .refl _
  | binary => exact .bind_refl _ fun _ => hev.apply ..
  | unary => exact .bind_refl _ fun _ => hev.apply ..
  | paren => exact hev.expr ..
  | ternary => exact hev.ternary ..
  | function _ name => cases name <;> exact .refl _
  | _ => exact .refl _

/-! ### Statements -/

theorem decl (bound : Bindings) (d : Surface.Decl) :
    Eval.Extends (ev.decl ctx bound env d) (ev'.decl ctx bound env d) :=
  .bind_refl _ fun _ => .bind_refl _ fun _ => .bind (hev.expr ..) fun _ => .refl _

theorem decls (ds : List Surface.Decl) : ∀ bound : Bindings,
    Eval.Extends (ev.declsFrom ctx bound env ds) (ev'.declsFrom ctx bound env ds) := by
  induction ds with
  | nil => exact fun _ => .refl _
  | cons d ds ih =>
    exact fun bound => .bind (hev.decl ctx env bound d) fun _ => .bind (ih _) fun _ => .refl _

theorem extend (code : Code) (rest : List Surface.Stmt) :
    Eval.Extends (ev.extend ctx loc scope code env rest) (ev'.extend ctx loc scope code env rest) :=
  .bind (hev.stmts ..) fun _ => .refl _

theorem continueWith (first : Lifted Outcome) (rest : List Surface.Stmt) :
    Eval.Extends (ev.continueWith ctx loc scope first rest)
      (ev'.continueWith ctx loc scope first rest) := by
  unfold Evaluator.continueWith
  split
  · exact .refl _
  · exact .bind (hev.stmts ..) fun _ => .refl _

theorem branch (cond : Surface.Expr) (onTrue : Surface.Stmt) (onFalse : Option Surface.Stmt)
    (rest : List Surface.Stmt) :
    Eval.Extends (ev.branch ctx loc scope cond onTrue onFalse rest)
      (ev'.branch ctx loc scope cond onTrue onFalse rest) := by
  refine .bind (hev.expr ..) fun c => ?_
  simp only
  split
  · rename_i b _
    cases b with
    | true => exact .bind (hev.stmts ..) fun _ => hev.continueWith ..
    | false => exact .bind (hev.stmts ..) fun _ => hev.continueWith ..
  · exact .bind (hev.stmts ..) fun _ => .bind (hev.stmts ..) fun _ => hev.continueWith ..
  · exact .refl _

theorem continueLoop (assignLoc : Loc) (lhs rhs : Surface.Expr) (rest : List Surface.Stmt) :
    Eval.Extends (ev.continueLoop ctx loc scope assignLoc lhs rhs rest)
      (ev'.continueLoop ctx loc scope assignLoc lhs rhs rest) :=
  .bind_refl _ fun _ => .bind (hev.decl ..) fun _ => .refl _

theorem loop (ds : List Surface.Decl) (invariantLoc : Loc) (invariant : List Surface.Expr)
    (loopLoc : Loc) (cond : Surface.Expr) (body : Surface.Stmt) (rest : List Surface.Stmt) :
    Eval.Extends (ev.loop ctx loc scope ds invariantLoc invariant loopLoc cond body rest)
      (ev'.loop ctx loc scope ds invariantLoc invariant loopLoc cond body rest) := by
  refine .bind_refl _ fun _ => .bind (hev.decls ..) fun _ => .bind_refl _ fun _ =>
    .bind_refl _ fun _ => ?_
  split
  · exact .bind (.bind (hev.expr ..) fun _ => .refl _) fun _ =>
      .bind (.bind (hev.expr ..) fun _ => .refl _) fun _ =>
        .bind (hev.stmts ..) fun _ => .bind (hev.stmts ..) fun _ => .refl _
  · exact .refl _

theorem payment (amount : Option Surface.Expr) :
    Eval.Extends (ev.payment ctx env amount) (ev'.payment ctx env amount) := by
  cases amount with
  | none => exact .refl _
  | some e => exact .bind (hev.expr ..) fun _ => .refl _

theorem deadline (timeout : Option Timeout) :
    Eval.Extends (ev.deadline ctx scope timeout) (ev'.deadline ctx scope timeout) := by
  cases timeout with
  | none => exact .refl _
  | some t =>
    exact .bind (hev.expr ..) fun _ => .bind_refl _ fun _ => .bind_refl _ fun _ =>
      .bind (hev.stmts ..) fun _ => .refl _

theorem takeRound (parties : Parties) (before : Code) (roundLoc : Loc) (r : Round)
    (rest : List Surface.Stmt) :
    Eval.Extends (ev.takeRound ctx parties loc scope before roundLoc r rest)
      (ev'.takeRound ctx parties loc scope before roundLoc r rest) :=
  .bind_refl _ fun _ => .bind_refl _ fun _ => .bind_refl _ fun _ => .bind_refl _ fun _ =>
    .bind_refl _ fun _ => .bind_refl _ fun _ => .bind (hev.payment ..) fun _ =>
      .bind (hev.expr ..) fun _ => .bind (hev.deadline ..) fun _ =>
        .bind (hev.stmts ..) fun _ => .refl _

theorem commitRound (opened : Bindings) (parties : Parties) (before : Code)
    (rest : List Surface.Stmt) :
    Eval.Extends (ev.commitRound ctx opened parties loc scope before rest)
      (ev'.commitRound ctx opened parties loc scope before rest) :=
  .bind_refl _ fun _ => .bind (hev.stmts ..) fun _ => .refl _

theorem exprStmt (e : Surface.Expr) (rest : List Surface.Stmt) :
    Eval.Extends (ev.exprStmt ctx loc scope e rest) (ev'.exprStmt ctx loc scope e rest) := by
  refine .bind (hev.expr ..) fun r => ?_
  split
  · exact .refl _
  · exact .bind_refl _ fun _ => .bind (hev.stmts ..) fun _ => .refl _
  · split
    · exact hev.takeRound ..
    · exact .refl _
  · exact hev.commitRound ..
  · exact .bind_refl _ fun _ => hev.extend ..

theorem ret (value : Option Surface.Expr) (rest : List Surface.Stmt) :
    Eval.Extends (ev.ret ctx loc scope value rest) (ev'.ret ctx loc scope value rest) := by
  cases value with
  | none => exact .refl _
  | some e => exact .bind (hev.expr ..) fun _ => .refl _

theorem evalStmts (stmts : List Surface.Stmt) :
    Eval.Extends (ev.evalStmts ctx loc scope stmts) (ev'.evalStmts ctx loc scope stmts) := by
  unfold Evaluator.evalStmts
  split
  · exact .refl _
  · exact .bind (hev.stmts ..) fun _ => hev.continueWith ..
  · exact .bind (hev.decls ..) fun _ => .bind_refl _ fun _ => hev.extend ..
  · exact hev.continueLoop ..
  · exact .bind_refl _ fun _ => .bind_refl _ fun _ => .bind_refl _ fun _ => hev.extend ..
  · exact hev.branch ..
  · exact hev.stmts ..
  · exact hev.exprStmt ..
  · exact hev.exprStmt ..
  · exact hev.continueLoop ..
  · exact .refl _
  · exact hev.ret ..
  · exact hev.loop ..
  · exact .refl _
  · exact .refl _
  · exact .refl _

end Evaluator.Extends

/-- Evaluation to a larger depth does what evaluation to a smaller one does. -/
theorem evaluator_extends {fuel fuel' : Nat} (h : fuel ≤ fuel') :
    (evaluator fuel).Extends (evaluator fuel') := by
  induction fuel generalizing fuel' with
  | zero => exact ⟨fun _ _ _ => .outOfFuel _, fun _ _ _ _ => .outOfFuel _⟩
  | succ fuel ih =>
    obtain ⟨fuel', rfl⟩ := Nat.exists_eq_add_of_le' (Nat.lt_of_lt_of_le (Nat.succ_pos fuel) h)
    have hev := ih (Nat.le_of_succ_le_succ h)
    exact ⟨fun ctx env e => hev.evalExpr ctx env e,
      fun ctx loc scope stmts => hev.evalStmts ctx loc scope stmts⟩

/-! ### Linking -/

namespace Evaluator.Extends

variable {ev ev' : Evaluator} (hev : ev.Extends ev') (options : Options) (sources : SourceTable)
include hev

theorem topLevel (loc : Loc) (env : Bindings) (stmt : Surface.Stmt) :
    Eval.Extends (Link.topLevel ev loc env stmt) (Link.topLevel ev' loc env stmt) :=
  .bind (hev.stmts ..) fun _ => .refl _

theorem item (libs : Libraries) (m : ModuleState) (i : Surface.Item) :
    Eval.Extends (Link.item ev sources libs m i) (Link.item ev' sources libs m i) := by
  cases i with
  | importFrom => exact .refl _
  | exported => exact .bind (hev.topLevel ..) fun _ => .refl _
  | plain => exact .bind (hev.topLevel ..) fun _ => .refl _
  | foreign _ what => cases what <;> exact .refl _

theorem items (libs : Libraries) (is : List Surface.Item) : ∀ m : ModuleState,
    Eval.Extends (Link.items ev sources libs m is) (Link.items ev' sources libs m is) := by
  induction is with
  | nil => exact fun _ => .refl _
  | cons i is ih => exact fun m => .bind (hev.item sources libs m i) fun _ => ih _

theorem modules (bundle : Bundle) : ∀ libs : Libraries,
    Eval.Extends (Link.modules ev options sources libs bundle)
      (Link.modules ev' options sources libs bundle) := by
  induction bundle with
  | nil => exact fun _ => .refl _
  | cons m bundle ih =>
    refine fun libs => .bind (.bind_refl _ fun _ => .bind_refl _ fun _ => ?_) fun _ => ih _
    exact .bind (hev.items ..) fun _ => .refl _

end Evaluator.Extends

end Choreography
