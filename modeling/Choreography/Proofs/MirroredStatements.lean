import Choreography.Proofs.MirroredExpressions

/-!
Statements at the top level of a module, under a renaming of identities. Of the statements only
declarations, blocks, conditionals and expressions worth null stand there.
-/

namespace Choreography

open Eval Ir

variable {ρ : Tag → Tag} {ctx : Ctx} {loc : Loc} {scope : Scope} {ev : Evaluator}

/-! ### Declarations -/

namespace Ctx.AtTop

theorem tupleParts (h : ctx.AtTop) (x : Var) (i : Nat) (ts : List Ty) :
    Mirrors ρ (Lifted.map (List.map (Value.rename ρ))) (ctx.tupleParts loc x i ts)
      (ctx.tupleParts loc x i ts) := by
  cases ts with
  | nil => exact .pure rfl
  | cons => exact .of_fails h.lift_fails.bind

theorem arrayParts (h : ctx.AtTop) (x : Var) (elem : Ty) (size : Nat) (positions : List Nat) :
    Mirrors ρ (Lifted.map (List.map (Value.rename ρ))) (ctx.arrayParts loc x elem size positions)
      (ctx.arrayParts loc x elem size positions) := by
  cases positions with
  | nil => exact .pure rfl
  | cons => exact .of_fails h.lift_fails.bind

theorem components (h : ctx.AtTop) (v : Value) :
    Mirrors ρ (Lifted.map (List.map (Value.rename ρ))) (ctx.components loc v)
      (ctx.components loc (v.rename ρ)) := by
  cases v with
  | tuple tupleLoc elems =>
    rw [Value.rename_tuple]
    exact .pure rfl
  | var x =>
    simp only [Ctx.components, Value.rename_var]
    split
    · exact h.tupleParts x 0 _
    · exact h.arrayParts x _ _ _
    · exact .fail
  | _ => exact .fail

end Ctx.AtTop

theorem Target.identifiers_mirrors (es : List Surface.Expr) :
    Mirrors ρ id (Target.identifiers es) (Target.identifiers es) := by
  induction es with
  | nil => exact .pure rfl
  | cons e es ih =>
    cases e with
    | ident loc name => exact ih.bind fun _ => .pure rfl
    | _ => exact .fail

theorem Target.ofExpr_mirrors (e : Surface.Expr) :
    Mirrors ρ id (Target.ofExpr e) (Target.ofExpr e) := by
  cases e with
  | ident => exact .pure rfl
  | array loc elems => exact (Target.identifiers_mirrors elems).bind fun _ => .pure rfl
  | _ => exact .fail

theorem Exit.combine_rename (level : Level) (left right : List Exit) :
    Exit.combine loc level (left.map (Exit.rename ρ)) (right.map (Exit.rename ρ)) =
      (Exit.combine loc level left right).map (Exit.rename ρ) := by
  cases left <;> cases right <;> simp [Exit.combine] <;> rfl

theorem Exit.map_taint_rename (level : Level) (exits : List Exit) :
    (exits.map (Exit.rename ρ)).map (Exit.taint level) =
      (exits.map (Exit.taint level)).map (Exit.rename ρ) := by
  rw [List.map_map, List.map_map]
  rfl

namespace Evaluator.Mirrored

variable (hev : ev.Mirrored ρ) (h : ctx.AtTop) (hslot : scope.slot = none)
include hev h hslot

omit hslot in
theorem decl (bound env : Bindings) (d : Surface.Decl) :
    Mirrors ρ (Lifted.map (Bindings.rename ρ)) (ev.decl ctx bound env d)
      (ev.decl ctx (bound.rename ρ) (env.rename ρ) d) := by
  refine Mirrors.bind (f := id) (.orFail (by simp)) fun init =>
    (Target.ofExpr_mirrors d.lhs).bind fun target => ?_
  have hinner : Ctx.AtTop { ctx with localNames := some target.all } := ⟨h.mode, h.silent⟩
  refine (hev.expr hinner env init).bind fun rhs => ?_
  cases target with
  | single n => exact (Bindings.bind_mirrors bound n rhs.value).bind fun _ => .pure rfl
  | several ns =>
    refine (hinner.components rhs.value.value).bind fun parts =>
      (Mirrors.ensure (by simp)).bind fun _ => ?_
    have hparts : (parts.value.map (Value.rename ρ)).map (fun v => ⟨rhs.value.level, v⟩) =
        (parts.value.map fun v => ⟨rhs.value.level, v⟩).map (SecValue.rename ρ) := by
      simp [SecValue.rename]
    simp only [Lifted.map_value, Lifted.map_code, SecValue.rename_level, hparts]
    exact (Bindings.bindZip_mirrors bound ns _).bind fun _ => .pure rfl

omit hslot in
theorem declsFrom (env : Bindings) (ds : List Surface.Decl) :
    ∀ bound : Bindings, Mirrors ρ (Lifted.map (Bindings.rename ρ)) (ev.declsFrom ctx bound env ds)
      (ev.declsFrom ctx (bound.rename ρ) (env.rename ρ) ds) := by
  induction ds with
  | nil => exact fun _ => .pure rfl
  | cons d ds ih =>
    exact fun bound => (hev.decl h bound env d).bind fun first =>
      (ih first.value).bind fun _ => .pure rfl

/-! ### Statements -/

theorem extend (code : Code) (env : Bindings) (rest : List Surface.Stmt) :
    Mirrors ρ (Lifted.map (Outcome.rename ρ)) (ev.extend ctx loc scope code env rest)
      (ev.extend ctx loc (scope.rename ρ) code (env.rename ρ) rest) :=
  Mirrors.bind (hev.stmts h loc (by exact hslot) rest) fun _ => .pure rfl

theorem continueWith (first : Lifted Outcome) (rest : List Surface.Stmt) :
    Mirrors ρ (Lifted.map (Outcome.rename ρ)) (ev.continueWith ctx loc scope first rest)
      (ev.continueWith ctx loc (scope.rename ρ) (first.map (Outcome.rename ρ)) rest) := by
  unfold Evaluator.continueWith
  split
  · exact .pure rfl
  · have hstyle : (first.map (Outcome.rename ρ)).value.exits.isEmpty = first.value.exits.isEmpty :=
      List.isEmpty_map
    simp only [hstyle]
    refine Mirrors.bind (hev.stmts h loc (by exact hslot) _) fun next => .pure ?_
    simp [Lifted.map, Outcome.rename]

theorem branch (cond : Surface.Expr) (onTrue : Surface.Stmt) (onFalse : Option Surface.Stmt)
    (rest : List Surface.Stmt) :
    Mirrors ρ (Lifted.map (Outcome.rename ρ)) (ev.branch ctx loc scope cond onTrue onFalse rest)
      (ev.branch ctx loc (scope.rename ρ) cond onTrue onFalse rest) := by
  refine (hev.expr h scope.env cond).bind fun c => ?_
  obtain ⟨inner, hinnerSlot, hinner, hinner'⟩ : ∃ inner : Scope, inner.slot = none ∧
      (if (Surface.dropEmpty rest).isEmpty then scope else { scope with style := .mayBeEmpty }) = inner ∧
      (if (Surface.dropEmpty rest).isEmpty then scope.rename ρ
        else { scope.rename ρ with style := .mayBeEmpty }) = inner.rename ρ := by
    cases (Surface.dropEmpty rest).isEmpty
    · exact ⟨{ scope with style := .mayBeEmpty }, hslot, rfl, rfl⟩
    · exact ⟨scope, hslot, rfl, rfl⟩
  simp only [Lifted.map_value, SecValue.rename_value, Value.condition?_rename, hinner, hinner']
  split
  · rename_i b _
    cases b with
    | true =>
      exact (hev.stmts h _ hinnerSlot _).bind fun taken => hev.continueWith h hslot (taken.after c.code) _
    | false =>
      exact (hev.stmts h _ hinnerSlot _).bind fun taken => hev.continueWith h hslot (taken.after c.code) _
  · rename_i v _
    refine (hev.stmts h _ hinnerSlot _).bind fun t => (hev.stmts h _ hinnerSlot _).bind fun f =>
      .of_eq (hev.continueWith h hslot _ _) ?_
    simp only [Lifted.map, Outcome.rename, SecValue.rename_level, Exit.map_taint_rename,
      Exit.combine_rename]
    rfl
  · exact .fail

omit hev h hslot in
theorem expectNull_mirrors (v : Value) :
    Mirrors ρ id (v.expectNull loc) ((v.rename ρ).expectNull loc) := by
  unfold Value.expectNull
  rw [Value.typed?_rename]
  split
  · exact .pure rfl
  · exact .fail

theorem exprStmt (e : Surface.Expr) (rest : List Surface.Stmt) :
    Mirrors ρ (Lifted.map (Outcome.rename ρ)) (ev.exprStmt ctx loc scope e rest)
      (ev.exprStmt ctx loc (scope.rename ρ) e rest) := by
  refine (hev.expr h scope.env e).bind fun r => ?_
  rw [h.mode]
  exact (expectNull_mirrors r.value.value).bind fun _ => hev.extend h hslot r.code scope.env rest

omit hev h in
theorem ret_fails {value : Option Surface.Expr} {rest : List Surface.Stmt} :
    (ev.ret ctx loc scope value rest).Fails := by
  unfold Evaluator.ret
  rw [hslot]
  cases value with
  | none => exact .of_rest fun _ => fails_fail.bind
  | some e => exact .of_rest fun _ => fails_fail.bind

theorem evalStmts (stmts : List Surface.Stmt) :
    Mirrors ρ (Lifted.map (Outcome.rename ρ)) (ev.evalStmts ctx loc scope stmts)
      (ev.evalStmts ctx loc (scope.rename ρ) stmts) := by
  unfold Evaluator.evalStmts
  split
  · refine .pure ?_
    by_cases hstyle : scope.style = .implicitNull
    · simp only [Scope.rename, hstyle, if_true]
      rfl
    · simp only [Scope.rename, hstyle, if_false]
      rfl
  · exact (hev.stmts h _ hslot _).bind fun first => hev.continueWith h hslot first _
  · exact (hev.declsFrom h scope.env _ {}).bind fun bound =>
      (Bindings.merge_mirrors scope.env bound.value).bind fun env => hev.extend h hslot bound.code env _
  · exact .of_fails (h.expectMode_fails rfl).bind
  · refine Mirrors.bind (f := id) (.orFail (by simp)) fun name => Mirrors.freshTag.bind fun tag => ?_
    refine Mirrors.bind (.of_eq (Bindings.bind_mirrors scope.env name _) ?_) fun env =>
      hev.extend h hslot [] env _
    simp [SecValue.rename, Labelled.pub, Scope.rename]
  · exact hev.branch h hslot ..
  · exact hev.stmts h _ hslot _
  · exact hev.exprStmt h hslot ..
  · exact hev.exprStmt h hslot ..
  · exact .of_fails (h.expectMode_fails rfl).bind
  · exact .fail
  · exact .of_fails (ret_fails hslot)
  · exact .of_fails (h.expectMode_fails rfl).bind
  · exact .fail
  · exact .fail
  · exact .fail

end Evaluator.Mirrored

/-- Evaluation does not depend on which tags are drawn. -/
theorem evaluator_mirrored (ρ : Tag → Tag) : ∀ fuel : Nat, (evaluator fuel).Mirrored ρ
  | 0 => ⟨fun _ _ _ => .outOfFuel, fun _ _ _ _ _ => .outOfFuel⟩
  | fuel + 1 =>
    { expr := (evaluator_mirrored ρ fuel).evalExpr
      stmts := fun h _ _ hslot stmts => (evaluator_mirrored ρ fuel).evalStmts h hslot stmts }

end Choreography
