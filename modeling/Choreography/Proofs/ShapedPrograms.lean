import Choreography.Proofs.ShapedEvaluation

/-!
Evaluation of statements that have shapes. A round is taken where it is written, so what it keeps is
smaller than the statement; what it publishes is data, and committing it teaches the views names that
have their shapes. So evaluation ends, first privately and then in the protocol.
-/

namespace Choreography

open Eval Ir

variable {S : Setting} {Γ : Shaping} {σ τ : Shape} {n : Nat} {u : Use} {v : Value} {loc : Loc}
  {ctx : Ctx} {env : Bindings} {scope : Scope} {rest : List Surface.Stmt} {e : Surface.Expr}

/-! ### Shapes of statements -/

namespace Surface

theorem stmtsShape_cons {s : Stmt} {rest : List Stmt} :
    stmtsShape Γ (s :: rest) = some σ ↔
      ∃ τ ρ, s.returnShape Γ = some τ ∧ stmtsShape Γ rest = some ρ ∧ τ.join ρ = σ := by
  simp [stmtsShape, Option.bind_eq_some_iff]

@[simp] theorem stmtsShape_singleton (s : Stmt) : stmtsShape Γ [s] = s.returnShape Γ := by
  simp [stmtsShape]

/-- Empty statements return nothing. -/
theorem stmtsShape_dropEmpty (stmts : List Stmt) :
    stmtsShape Γ (dropEmpty stmts) = stmtsShape Γ stmts := by
  induction stmts with
  | nil => rfl
  | cons s stmts ih =>
    unfold dropEmpty at ih ⊢
    rw [List.filter_cons]
    split
    · rw [stmtsShape, stmtsShape, ih]
    · rename_i hempty
      cases s with
      | empty => simpa [stmtsShape, Stmt.returnShape] using ih
      | _ => exact absurd rfl hempty

theorem one_le_sizeOf (stmts : List Stmt) : 1 ≤ sizeOf stmts := by
  cases stmts <;> simp +arith

theorem sizeOf_dropEmpty_le (stmts : List Stmt) : sizeOf (dropEmpty stmts) ≤ sizeOf stmts := by
  induction stmts with
  | nil => exact Nat.le_refl _
  | cons s stmts ih =>
    unfold dropEmpty at ih ⊢
    rw [List.filter_cons]
    split
    · simpa using ih
    · simp only [List.cons.sizeOf_spec]
      omega

/-- The branches of a conditional are smaller than the list that it begins. -/
theorem sizeOf_branches_lt {cond : Expr} {onTrue : Stmt} {onFalse : Option Stmt} {rest : List Stmt} :
    sizeOf [onTrue] < sizeOf (Stmt.branch loc cond onTrue onFalse :: rest) ∧
      sizeOf onFalse.toList < sizeOf (Stmt.branch loc cond onTrue onFalse :: rest) := by
  have hone := one_le_sizeOf rest
  simp only [List.cons.sizeOf_spec, List.nil.sizeOf_spec, Stmt.branch.sizeOf_spec]
  cases onFalse with
  | none =>
    simp only [Option.toList_none, List.nil.sizeOf_spec]
    omega
  | some onFalse =>
    simp only [Option.toList_some, List.cons.sizeOf_spec, List.nil.sizeOf_spec,
      Option.some.sizeOf_spec]
    omega

/-- The branches of a conditional return what it returns. -/
theorem Stmt.returnShape_branch {cond : Expr} {onTrue : Stmt} {onFalse : Option Stmt}
    (h : (Stmt.branch loc cond onTrue onFalse).returnShape Γ = some σ) :
    (∃ u, cond.use Γ = some u) ∧ ∃ τ ρ, onTrue.returnShape Γ = some τ ∧
      stmtsShape Γ onFalse.toList = some ρ ∧ τ.join ρ = σ := by
  cases onFalse with
  | none =>
    simp only [Stmt.returnShape, Option.bind_eq_bind, Option.bind_eq_some_iff] at h
    obtain ⟨u, hcond, hTrue⟩ := h
    exact ⟨⟨u, hcond⟩, σ, .data, hTrue, rfl, by simp⟩
  | some onFalse =>
    simp only [Stmt.returnShape, Option.bind_eq_bind, Option.pure_def, Option.bind_eq_some_iff,
      Option.some.injEq] at h
    obtain ⟨u, hcond, τ, hTrue, ρ, hFalse, rfl⟩ := h
    exact ⟨⟨u, hcond⟩, τ, ρ, hTrue, by simpa using hFalse, rfl⟩

end Surface

namespace Use.Holds

variable {tag : Tag}

theorem done {who : String} {view : Bindings} {result : SecValue}
    (h : u.Holds S Γ n (.form loc tag (.onlyDone who view result)))
    (hstatement : u.isStatement = true) : view.Fits .privately Γ := by
  cases u with
  | value σ => cases Setting.Fits.eq_app h (by rintro rfl; cases hstatement)
  | act =>
    cases h with
    | data h => cases h.eq_app (by simp)
    | done h => exact h

theorem stored {r : Round} (h : u.Holds S Γ n (.form loc tag (.round r)))
    (hstatement : u.isStatement = true) : r.Stores Γ n := by
  cases u with
  | value σ => cases Setting.Fits.eq_app h (by rintro rfl; cases hstatement)
  | act => exact h.stores rfl

end Use.Holds

namespace Outcome.Fits

variable {o : Outcome}

theorem le (h : o.Fits S Γ σ) (hle : σ.le τ = true) : o.Fits S Γ τ :=
  ⟨h.env, fun exit hexit => (h.exits exit hexit).le hle⟩

end Outcome.Fits

namespace Ending

variable (h : Ending S Γ n) (hmode : S.admits ctx.mode) (henv : scope.env.Fits S Γ)
include h hmode henv

/-! ### Declarations -/

omit henv in
theorem decl (henv : env.Fits S Γ) {bound : Bindings} (hbound : bound.Fits S Γ) {d : Surface.Decl}
    (hsize : ∀ e, d.init = some e → sizeOf e < n) (hshaped : d.isShaped Γ = true) :
    Ends (fun fuel => (evaluator fuel).decl ctx bound env d) fun r => r.value.Fits S Γ := by
  refine Ends.orFail.bind fun init hinit => ?_
  obtain ⟨u, huse, hbinds⟩ : ∃ u, init.use Γ = some u ∧ Γ.binds d.lhs u.shape = true := by
    obtain ⟨declLoc, lhs, _⟩ := d
    cases hinit
    simpa [Surface.Decl.isShaped, Option.any_eq_true] using hshaped
  have hnames : ∀ name ∈ d.lhs.targets, u.shape.le (Γ name) = true := List.all_eq_true.1 hbinds
  refine Ends.bind (P := fun target => target.all = d.lhs.targets)
    (.of_routine (Target.ofExpr_routine _) fun hrun => ((Target.ofExpr_of _).result hrun).all_eq)
    fun target htarget => ?_
  rw [← htarget] at hnames
  refine Ends.bind (h.expr (hsize init hinit) huse (by exact hmode) henv) fun rhs hrhs => ?_
  split
  · exact (hbound.bind (hrhs.fits.le (hnames _ List.mem_cons_self))).bind fun _ hout => .pure hout
  · rename_i ns
    refine (Ctx.components_ends hrhs.fits).bind fun parts hparts => Ends.ensure.bind fun _ _ => ?_
    refine (hbound.bindAll fun b hb => ?_).bind fun _ hout => .pure hout
    obtain ⟨hname, hvalue⟩ := List.of_mem_zip hb
    obtain ⟨v, hv, heq⟩ := List.mem_map.1 hvalue
    rw [← heq]
    exact (hparts v hv).le (hnames _ hname)

omit henv in
theorem decls (henv : env.Fits S Γ) :
    ∀ {ds : List Surface.Decl} {bound : Bindings}, sizeOf ds ≤ n → Surface.declsShaped Γ ds = true →
      bound.Fits S Γ →
      Ends (fun fuel => (evaluator fuel).declsFrom ctx bound env ds) fun r => r.value.Fits S Γ := by
  intro ds
  induction ds with
  | nil => exact fun _ _ hbound => .pure hbound
  | cons d ds ih =>
    intro bound hsize hshaped hbound
    obtain ⟨hfirst, hrest⟩ := by simpa [Surface.declsShaped] using hshaped
    simp only [List.cons.sizeOf_spec] at hsize
    refine (h.decl hmode henv hbound (fun e he => ?_) hfirst).bind fun _ hout => ?_
    · obtain ⟨declLoc, lhs, init⟩ := d
      cases he
      simp only [Surface.Decl.mk.sizeOf_spec, Option.some.sizeOf_spec] at hsize
      omega
    · exact (ih (by omega) hrest hout).bind fun _ hrest => .pure hrest

/-! ### Sequences, conditionals and loops -/

theorem continueWith (hsize : sizeOf rest < n) (hrest : Surface.stmtsShape Γ rest = some τ)
    {first : Lifted Outcome} (hfirst : first.value.Fits S Γ σ) :
    Ends (fun fuel => (evaluator fuel).continueWith ctx loc scope first rest)
      fun r => r.value.Fits S Γ (σ.join τ) := by
  unfold Evaluator.continueWith
  split
  · exact .pure (hfirst.le (Shape.le_join_left ..))
  · have hsmall := Surface.sizeOf_dropEmpty_le rest
    refine Ends.bind (h.stmts (by omega) ((Surface.stmtsShape_dropEmpty rest).trans hrest) hmode
      (by exact henv)) fun next hnext => ?_
    refine .pure ⟨hnext.env, List.forall_mem_append.2 ⟨fun exit hexit => ?_, fun exit hexit => ?_⟩⟩
    · exact (hfirst.exits exit hexit).join_left
    · exact (hnext.exits exit hexit).join_right

theorem branch {cond : Surface.Expr} {onTrue : Surface.Stmt} {onFalse : Option Surface.Stmt}
    (hcond : sizeOf cond < n) (hTrue : sizeOf [onTrue] < n) (hFalse : sizeOf onFalse.toList < n)
    (hsize : sizeOf rest < n) {branchLoc : Loc}
    (hreturns : (Surface.Stmt.branch branchLoc cond onTrue onFalse).returnShape Γ = some σ)
    (hrest : Surface.stmtsShape Γ rest = some τ) :
    Ends (fun fuel => (evaluator fuel).branch ctx loc scope cond onTrue onFalse rest)
      fun r => r.value.Fits S Γ (σ.join τ) := by
  obtain ⟨⟨u, huse⟩, σt, σf, ht, hf, rfl⟩ := Surface.Stmt.returnShape_branch hreturns
  refine Ends.bind (h.expr hcond huse hmode henv) fun c _ => ?_
  have hinner : Bindings.Fits S Γ (if (Surface.dropEmpty rest).isEmpty then scope
      else { scope with style := .mayBeEmpty }).env := by
    split <;> exact henv
  have hsmall : sizeOf (Surface.dropEmpty rest) < n :=
    Nat.lt_of_le_of_lt (Surface.sizeOf_dropEmpty_le rest) hsize
  have hdropped := (Surface.stmtsShape_dropEmpty rest).trans hrest
  have hTrue : ∀ {trueLoc}, Ends (fun fuel => (evaluator fuel).branchBody ctx trueLoc
      (if (Surface.dropEmpty rest).isEmpty then scope else { scope with style := .mayBeEmpty })
      (some onTrue)) fun r => r.value.Fits S Γ σt :=
    h.stmts hTrue (by simpa using ht) hmode hinner
  have hFalse : ∀ {falseLoc}, Ends (fun fuel => (evaluator fuel).branchBody ctx falseLoc
      (if (Surface.dropEmpty rest).isEmpty then scope else { scope with style := .mayBeEmpty })
      onFalse) fun r => r.value.Fits S Γ σf :=
    h.stmts hFalse hf hmode hinner
  simp only
  split
  · split
    · exact hTrue.bind fun _ ho => h.continueWith hmode henv hsmall hdropped
        (by exact ho.le (Shape.le_join_left ..))
    · exact hFalse.bind fun _ ho => h.continueWith hmode henv hsmall hdropped
        (by exact ho.le (Shape.le_join_right ..))
  · refine hTrue.bind fun t ht => hFalse.bind fun f hf => ?_
    refine h.continueWith hmode henv hsmall hdropped ⟨henv, Exit.combine_forall ?_ ?_ ?_⟩
    · exact .of_tame (.atom rfl)
    · intro exit hexit
      obtain ⟨e, he, rfl⟩ := List.mem_map.1 hexit
      exact (ht.exits e he).join_left
    · intro exit hexit
      obtain ⟨e, he, rfl⟩ := List.mem_map.1 hexit
      exact (hf.exits e he).join_right
  · exact .fail

theorem continueLoop {lhs rhs : Surface.Expr} (hsize : sizeOf rhs < n) (huse : rhs.use Γ = some u)
    (hbinds : Γ.binds lhs u.shape = true) (assignLoc : Loc) :
    Ends (fun fuel => (evaluator fuel).continueLoop ctx loc scope assignLoc lhs rhs rest)
      fun r => r.value.Fits S Γ σ := by
  refine Ends.skip (Ctx.expectMode_routine ..) fun _ => ?_
  refine (h.decl hmode henv .empty (fun e he => ?_) ?_).bind fun _ _ => ?_
  · cases he
    exact hsize
  · simp [Surface.Decl.isShaped, huse, hbinds]
  · exact Ends.orFail.bind fun _ _ =>
      Ends.skip (assignLoopVars_routine ..) fun _ =>
        Ends.skip (expectLast_routine rest) fun _ => .pure ⟨henv, by simp⟩

omit henv in
theorem boolBlock (henv : env.Fits S Γ) (hsize : sizeOf e < n) (huse : e.use Γ = some u) :
    Ends (fun fuel => (evaluator fuel).boolBlock ctx loc env e) fun _ => True :=
  Ends.bind (h.expr hsize huse hmode henv) fun _ _ =>
    Ends.skip (Value.checkType_routine ..) fun _ => .pure trivial

theorem loop {ds : List Surface.Decl} {invariant : List Surface.Expr} {cond : Surface.Expr}
    {body : Surface.Stmt} (hds : sizeOf ds ≤ n) (hinvariant : sizeOf invariant ≤ n)
    (hcond : sizeOf cond < n) (hbody : sizeOf [body] < n) (hsize : sizeOf rest < n)
    (hshaped : Surface.declsShaped Γ ds = true) {uses : List Use}
    (huses : Surface.exprsUse Γ invariant = some uses) (huse : cond.use Γ = some u)
    (hreturns : body.returnShape Γ = some σ) (hrest : Surface.stmtsShape Γ rest = some τ)
    (invariantLoc loopLoc : Loc) :
    Ends (fun fuel => (evaluator fuel).loop ctx loc scope ds invariantLoc invariant loopLoc cond body
        rest) fun r => r.value.Fits S Γ (σ.join τ) := by
  refine Ends.skip (Ctx.expectMode_routine ..) fun _ => ?_
  refine (h.decls hmode henv hds hshaped .empty).bind fun init _ => ?_
  refine Ends.skip (Ctx.loopVars_routine _) fun vars => ?_
  refine (henv.merge fun b hb => ?_).bind fun inner hinner => ?_
  · obtain ⟨x, _, rfl⟩ := List.mem_map.1 (Env.mem_ofList hb)
    exact .of_tame (.atom rfl)
  · split
    · rename_i condition
      simp only [Surface.exprsUse, Option.bind_eq_bind, Option.bind_eq_some_iff] at huses
      obtain ⟨ui, hui, _⟩ := huses
      simp only [List.cons.sizeOf_spec] at hinvariant
      refine (h.boolBlock hmode hinner (by omega) hui).bind fun _ _ =>
        (h.boolBlock hmode hinner hcond huse).bind fun _ _ => ?_
      refine Ends.bind (h.stmts hbody (by simpa using hreturns) hmode (by exact hinner))
        fun turn hturn => ?_
      refine Ends.bind (h.stmts hsize hrest hmode (by exact hinner)) fun after hafter => ?_
      refine .pure ⟨hafter.env, List.forall_mem_append.2 ⟨fun exit hexit => ?_, fun exit hexit => ?_⟩⟩
      · exact (hturn.exits exit hexit).join_left
      · exact (hafter.exits exit hexit).join_right
    · exact .fail

end Ending

/-! ### Rounds -/

theorem messages_ends (roundLoc : Loc) (view : Bindings) (names : List String) :
    ∀ {sent : Bindings}, (∀ b ∈ sent.entries, b.2.value.Tame) →
      Ends (fun _ => ctx.messages loc roundLoc view sent names)
        fun r => ∀ b ∈ r.2.entries, b.2.value.Tame := by
  induction names with
  | nil => exact fun hsent => .pure hsent
  | cons name names ih =>
    intro sent hsent
    refine Ends.skip (view.lookup_routine name) fun _ =>
      Ends.skip (SecValue.requirePublic_routine _) fun _ =>
        Ends.skip (Value.typeOf_routine _) fun _ =>
          Ends.skip Ctx.alloc_routine fun _ => ?_
    refine Ends.bind (.of_routine (sent.bind_routine ..) fun hrun => ?_) fun out hout =>
      (ih hout).bind fun _ hrest => .pure hrest
    obtain ⟨_, rfl, _⟩ := Bindings.bind_yields.1 hrun
    exact List.forall_mem_append.2 ⟨hsent, List.forall_mem_singleton.2 (.atom rfl)⟩

theorem joinedSender_ends (displayName : Option String) (address : Var) :
    Ends (fun _ => joinedSender loc env displayName address)
      fun sender => ∀ b, sender = some b → b.2.value.Tame := by
  unfold joinedSender
  split
  · exact .pure (by simp)
  · refine Ends.skip (env.lookup_routine _) fun sv => ?_
    split
    · refine Ends.freshTag.bind fun _ _ => .pure ?_
      rintro b ⟨⟩
      exact .atom rfl
    · exact .fail

/-- A traversal of the views that keeps the shapes of each view keeps those of all. -/
theorem traverse_ends {views : NameMap Bindings} {f : String → Bindings → Eval Bindings}
    (hviews : ∀ e ∈ views.entries, Bindings.Fits .privately Γ e.2)
    (hf : ∀ who view, view.Fits .privately Γ →
      Meets (·.isOrdinary = true) (Bindings.Fits .privately Γ) (f who view)) :
    Ends (fun _ => views.traverse f) fun out => ∀ e ∈ out.entries, Bindings.Fits .privately Γ e.2 := by
  have hall := OrderedMap.traverse_meets (Q := fun e => Bindings.Fits .privately Γ e.2) hviews hf
  exact .of_faults (hall.imp fun _ h => h.1)

theorem amountCheck_calm (h : e.calm = true) : (amountCheck loc e).calm = true := by
  have hnames : "require" ∈ quietNames ∧ "__txn.value__" ∈ quietNames := by decide
  simp [amountCheck, Surface.Expr.calm, Surface.exprsCalm, Surface.Expr.isQuietName,
    Surface.BinaryOp.operation?, hnames, h]

namespace Ending

/-- Amounts are calm, so they end although the view of the sender is no place for functions. -/
theorem payment (hΓ : Γ.Based) (henv : env.Fits S Γ)
    {amount : Option Surface.Expr} (h : ∀ {e}, amount = some e → e.calm = true) :
    Ends (fun fuel => (evaluator fuel).payment ctx env amount) fun _ => True := by
  cases amount with
  | none => exact .pure trivial
  | some e =>
    exact Ends.bind (calm_ends hΓ henv (h rfl)) fun _ _ =>
      Ends.skip (SecValue.requirePublic_routine _) fun _ =>
        Ends.skip (Value.checkType_routine ..) fun _ => .pure trivial

theorem deadline (h : Ending S Γ n) (hmode : S.admits ctx.mode) (henv : scope.env.Fits S Γ)
    {timeout : Option Timeout} (ht : ∀ {t}, timeout = some t → t.Stores Γ n) :
    Ends (fun fuel => (evaluator fuel).deadline ctx scope timeout)
      fun r => ∀ exit ∈ r.value.2, S.Fits .data exit.value.value := by
  cases timeout with
  | none => exact .pure (by simp [Lifted.plain])
  | some t =>
    have ht := ht rfl
    obtain ⟨u, hdelay⟩ := Option.isSome_iff_exists.1 ht.delay
    have hhandler := ht.handler
    rw [Surface.Block.returnShape_eq] at hhandler
    exact Ends.bind (h.expr ht.delay_lt hdelay hmode henv) fun _ _ =>
      Ends.skip (SecValue.requirePublic_routine _) fun _ =>
        Ends.skip (Value.checkType_routine ..) fun _ =>
          Ends.bind (h.stmts ht.handler_lt hhandler hmode henv) fun _ ho =>
            .pure fun exit hexit => ho.exits exit hexit

theorem takeRound (h : Ending S Γ n) (hS : S.Lawful Γ) (hΓ : Γ.Based) {parties : Parties}
    (hstep : ctx.mode = .step parties) (hmode : S.admits ctx.mode) (henv : scope.env.Fits S Γ)
    {r : Round} (hr : r.Stores Γ n) (hsize : sizeOf rest < n)
    (hrest : Surface.stmtsShape Γ rest = some σ) (before : Code) (roundLoc : Loc) :
    Ends (fun fuel => (evaluator fuel).takeRound ctx parties loc scope before roundLoc r rest)
      fun out => out.value.Fits S Γ σ := by
  have hparties : ∀ e ∈ parties.views.entries, Bindings.Fits .privately Γ e.2 := by
    have := hS.views hmode
    rwa [hstep] at this
  have hprotocol : ctx.mode.isPrivate = false := by rw [hstep]; rfl
  refine Ends.orFail.bind fun view hview => ?_
  refine (messages_ends roundLoc view _ (by simp)).bind fun sent hsent => ?_
  refine Ends.skip (Ctx.addressOf_routine ..) fun address => ?_
  refine (joinedSender_ends ..).bind fun sender hsender => ?_
  refine (henv.merge fun b hb => .of_tame (hsent b hb)).bind fun shared hshared => ?_
  have hshared := hshared.withSender hsender
  refine (traverse_ends hparties fun who old hold => ?_).bind fun views hviews => ?_
  · split
    · exact .pure (hold.withSender hsender)
    · exact Meets.map (P := Bindings.Fits .privately Γ) ⟨fun hrun =>
        hold.of_append (fun b hb => .of_tame (hsent b hb)) (Bindings.merge_yields hrun).1,
          (Bindings.bindAll_routine ..).stop⟩ fun _ hreceived => hreceived.withSender hsender
  · have hsenderView : Bindings.Fits .privately Γ ((views.get? r.who).getD {}) :=
      OrderedMap.getD_of_forall hviews .empty
    have hamount : (r.pay.getD (.int roundLoc "0" 10)).calm = true := by
      cases hpay : r.pay with
      | none => rfl
      | some e => exact hr.pay hpay
    -- the amount is evaluated in the view of the sender and its check in what is shared; the round
    -- need not have been written where it is taken, so neither may apply a function of the program
    refine (payment hΓ hsenderView hr.pay).bind fun amount _ => ?_
    refine Ends.bind (calm_ends hΓ hshared (amountCheck_calm hamount))
      fun check _ => ?_
    refine (h.deadline hmode henv hr.timeout).bind fun late hlate => ?_
    refine Ends.bind (h.stmts hsize hrest ?_ (by exact hshared)) fun next hnext => ?_
    · exact hS.admits hmode hprotocol hviews
    · exact .pure ⟨hnext.env, Exit.combine_forall (.of_tame (.atom rfl))
        (fun exit hexit => .of_data (hlate exit hexit)) hnext.exits⟩

theorem commitRound (h : Ending S Γ n) (hS : S.Lawful Γ) {opened : Bindings} {parties : Parties}
    (hconsensus : ctx.mode = .consensus opened parties) (hmode : S.admits ctx.mode)
    (henv : scope.env.Fits S Γ) (hsize : sizeOf rest < n)
    (hrest : Surface.stmtsShape Γ rest = some σ) (before : Code) :
    Ends (fun fuel => (evaluator fuel).commitRound ctx opened parties loc scope before rest)
      fun out => out.value.Fits S Γ σ := by
  have hparties : ∀ e ∈ parties.views.entries, Bindings.Fits .privately Γ e.2 := by
    have := hS.views hmode
    rwa [hconsensus] at this
  refine (traverse_ends hparties fun who old hold => ⟨fun hrun => ?_,
    (Bindings.bindAll_routine ..).stop⟩).bind fun views hviews => ?_
  · refine hold.of_append (fun b hb => hS.privately (henv b ?_)) (Bindings.merge_yields hrun).1
    exact List.filter_subset_self _ hb
  · refine Ends.bind (h.stmts hsize hrest ?_ henv) fun _ hnext => .pure hnext
    exact hS.admits hmode (by rw [hconsensus]; rfl) hviews

/-! ### Statements -/

theorem exprStmt (h : Ending S Γ n) (hS : S.Lawful Γ) (hΓ : Γ.Based) (hmode : S.admits ctx.mode)
    (henv : scope.env.Fits S Γ) (he : ExprEnds ctx scope.env e (u.Holds S Γ n))
    (hstatement : u.isStatement = true) (hsize : sizeOf rest < n)
    (hrest : Surface.stmtsShape Γ rest = some σ) :
    Ends (fun fuel => (evaluator fuel).exprStmt ctx loc scope e rest)
      fun r => r.value.Fits S Γ σ := by
  refine Ends.bind he fun r hr => ?_
  split
  · exact Ends.skip (expectLast_routine rest) fun _ => .pure ⟨henv, by simp⟩
  · rename_i parties formLoc tag who view result hstep hvalue
    rw [hvalue] at hr
    have hview : Bindings.Fits .privately Γ view := hr.done hstatement
    have hparties := hS.views hmode
    rw [hstep] at hparties
    refine Ends.skip (Value.expectNull_routine _) fun _ => ?_
    refine Ends.bind (h.stmts hsize hrest ?_ henv) fun _ hnext => .pure hnext
    exact hS.admits hmode (by rw [hstep]; rfl) (OrderedMap.forall_mem_insert hview hparties)
  · rename_i parties roundLoc tag round hstep hvalue
    rw [hvalue] at hr
    split
    · exact h.takeRound hS hΓ hstep hmode henv (hr.stored hstatement) hsize hrest _ _
    · exact .fail
  · rename_i opened parties primLoc hconsensus _
    exact h.commitRound hS hconsensus hmode henv hsize hrest _
  · exact Ends.skip (Value.expectNull_routine _) fun _ =>
      Ends.bind (h.stmts hsize hrest hmode henv) fun _ hnext => .pure hnext

/-- An assignment stands in front of a `continue` only. -/
theorem assign {stmtLoc : Loc} {op : Surface.AssignOp} {lhs rhs : Surface.Expr}
    (h : Ending S Γ (sizeOf (Surface.Stmt.assign stmtLoc op lhs rhs :: rest)))
    (hmode : S.admits ctx.mode) (henv : scope.env.Fits S Γ)
    (hs : (Surface.Stmt.assign stmtLoc op lhs rhs).returnShape Γ = some τ) :
    Ends (fun fuel => (evaluator fuel).evalStmts ctx loc scope
      (Surface.Stmt.assign stmtLoc op lhs rhs :: rest)) fun r => r.value.Fits S Γ σ := by
  simp only [Surface.Stmt.returnShape, Option.bind_eq_bind, Option.bind_eq_some_iff,
    Option.ite_none_right_eq_some, Option.some.injEq] at hs
  obtain ⟨u, huse, hbinds, rfl⟩ := hs
  unfold Evaluator.evalStmts
  split
  any_goals exact .fail
  all_goals (rename_i heq; cases heq)
  exact h.continueLoop hmode henv (by simp +arith) huse hbinds _

/-- Variables are declared in front of an invariant and a loop only. -/
theorem varDecl {stmtLoc : Loc} {ds : List Surface.Decl}
    (h : Ending S Γ (sizeOf (Surface.Stmt.varDecl stmtLoc ds :: rest))) (hΓ : Γ.Based)
    (hmode : S.admits ctx.mode) (henv : scope.env.Fits S Γ)
    (hs : (Surface.Stmt.varDecl stmtLoc ds).returnShape Γ = some σ)
    (hrest : Surface.stmtsShape Γ rest = some τ) :
    Ends (fun fuel => (evaluator fuel).evalStmts ctx loc scope
      (Surface.Stmt.varDecl stmtLoc ds :: rest)) fun r => r.value.Fits S Γ (σ.join τ) := by
  simp only [Surface.Stmt.returnShape, Option.ite_none_right_eq_some, Option.some.injEq] at hs
  obtain ⟨hshaped, rfl⟩ := hs
  unfold Evaluator.evalStmts
  split
  any_goals exact .fail
  all_goals (rename_i heq; cases heq)
  rename_i invariantLoc identLoc invariant loopLoc cond body rest
  obtain ⟨_, _, hinvariant, hafter, rfl⟩ := Surface.stmtsShape_cons.1 hrest
  obtain ⟨ρ, τ, hloop, hlast, rfl⟩ := Surface.stmtsShape_cons.1 hafter
  simp only [Surface.Stmt.returnShape, Surface.Expr.use, hΓ.invariant, Shaping.call, Option.bind_eq_bind,
    Option.bind_eq_some_iff, Option.some.injEq, Option.ite_none_right_eq_some] at hinvariant hloop
  obtain ⟨_, ⟨_, rfl, uses, huses, _⟩, _, rfl⟩ := hinvariant
  obtain ⟨u, hcond, hbody⟩ := hloop
  rw [Shape.data_join, Shape.data_join]
  generalize hsize : sizeOf (Surface.Stmt.varDecl stmtLoc ds :: _) = n at h
  simp only [List.cons.sizeOf_spec, Surface.Stmt.varDecl.sizeOf_spec,
    Surface.Stmt.methodCall.sizeOf_spec, Surface.Stmt.loop.sizeOf_spec] at hsize
  have hone := Surface.one_le_sizeOf rest
  refine h.loop hmode henv ?_ ?_ ?_ ?_ ?_ hshaped huses hcond hbody hlast _ _
  · omega
  · omega
  · omega
  · simp only [List.cons.sizeOf_spec, List.nil.sizeOf_spec]
    omega
  · omega

theorem evalStmts {stmts : List Surface.Stmt} (h : Ending S Γ (sizeOf stmts)) (hS : S.Lawful Γ)
    (hΓ : Γ.Based) (hmode : S.admits ctx.mode) (henv : scope.env.Fits S Γ)
    (hreturn : Surface.stmtsShape Γ stmts = some σ) : StmtsEnd S Γ σ ctx loc scope stmts := by
  refine .of_succ ?_
  cases stmts with
  | nil =>
    refine .pure ⟨henv, fun exit hexit => ?_⟩
    split at hexit
    · obtain rfl := List.mem_singleton.1 hexit
      exact .of_tame (.atom rfl)
    · exact absurd hexit List.not_mem_nil
  | cons s rest =>
    obtain ⟨τ, ρ, hs, hrest, rfl⟩ := Surface.stmtsShape_cons.1 hreturn
    have hsize : sizeOf rest < sizeOf (s :: rest) := by simp +arith
    cases s with
    | block body =>
      obtain ⟨bodyLoc, body⟩ := body
      exact Ends.bind (h.stmts (by simp +arith) hs hmode henv) fun _ hfirst =>
        h.continueWith hmode henv hsize hrest hfirst
    | constDecl stmtLoc ds =>
      simp only [Surface.Stmt.returnShape, Option.ite_none_right_eq_some, Option.some.injEq] at hs
      obtain ⟨hshaped, rfl⟩ := hs
      rw [Shape.data_join]
      exact (h.decls hmode henv (by simp +arith) hshaped .empty).bind fun _ hbound =>
        (henv.merge hbound).bind fun _ hout =>
          Ends.bind (h.stmts hsize hrest hmode (by exact hout)) fun _ hnext => .pure hnext
    | varDecl stmtLoc ds => exact h.varDecl hΓ hmode henv hs hrest
    | function stmtLoc name formals body =>
      obtain ⟨bodyLoc, body⟩ := body
      simp only [Surface.Stmt.returnShape, Option.bind_eq_bind, Option.bind_eq_some_iff,
        Option.ite_none_right_eq_some, Option.some.injEq] at hs
      obtain ⟨result, hbody, hname, rfl⟩ := hs
      rw [Shape.data_join]
      refine Ends.orFail.bind fun name hsome => Ends.freshTag.bind fun tag _ => ?_
      subst hsome
      refine (henv.bind (Setting.Fits.le (by simpa using hname) (closure_fits hS
        (c := ⟨stmtLoc, some name, formals, ⟨bodyLoc, body⟩, scope.env⟩) henv hbody
        fun hmode henv => h.stmts (by simp +arith) hbody hmode henv))).bind fun _ hout => ?_
      exact Ends.bind (h.stmts hsize hrest hmode (by exact hout)) fun _ hnext => .pure hnext
    | branch stmtLoc cond onTrue onFalse =>
      obtain ⟨hTrue, hFalse⟩ := Surface.sizeOf_branches_lt
      exact h.branch hmode henv (by simp +arith) hTrue hFalse hsize hs hrest
    | empty stmtLoc =>
      cases hs
      rw [Shape.data_join]
      exact h.stmts hsize hrest hmode henv
    | expr stmtLoc e =>
      simp only [Surface.Stmt.returnShape, Option.bind_eq_bind, Option.bind_eq_some_iff,
        Option.ite_none_right_eq_some, Option.some.injEq] at hs
      obtain ⟨u, huse, hstatement, rfl⟩ := hs
      rw [Shape.data_join]
      exact h.exprStmt hS hΓ hmode henv ((h.expr (by simp +arith) huse hmode henv).imp
        fun _ hr => hr.mono (by simp +arith)) hstatement hsize hrest
    | assign stmtLoc op lhs rhs => exact h.assign hmode henv hs
    | methodCall stmtLoc callee args =>
      simp only [Surface.Stmt.returnShape, Option.bind_eq_bind, Option.bind_eq_some_iff,
        Option.ite_none_right_eq_some, Option.some.injEq] at hs
      obtain ⟨u, huse, hstatement, rfl⟩ := hs
      rw [Shape.data_join]
      exact h.exprStmt hS hΓ hmode henv (h.call hS hmode henv (by simp +arith) (by simp +arith) huse)
        hstatement hsize hrest
    | ret stmtLoc value =>
      refine ret_ends henv fun e he => ?_
      subst he
      obtain ⟨u, huse, rfl⟩ := Option.map_eq_some_iff.1 hs
      exact (h.expr (by simp +arith) huse hmode henv).imp fun _ hr => hr.fits.join_left
    | cont stmtLoc =>
      have hone := Surface.one_le_sizeOf rest
      refine h.continueLoop hmode henv (u := .value .data) ?_ rfl rfl stmtLoc
      simp only [List.cons.sizeOf_spec, List.nil.sizeOf_spec, Surface.Expr.array.sizeOf_spec,
        Surface.Stmt.cont.sizeOf_spec]
      omega
    | loop => exact .fail
    | foreign => exact .fail

end Ending

/-- In a lawful setting everything that has a shape ends. -/
theorem Setting.Lawful.total (hS : S.Lawful Γ) (hΓ : Γ.Based) (n : Nat) : Ending S Γ n := by
  induction n using Nat.strongRecOn with
  | ind n ih =>
    exact ⟨fun hsize huse hmode henv => (ih _ hsize).evalExpr hS hmode henv huse,
      fun hsize hreturn hmode henv => (ih _ hsize).evalStmts hS hΓ hmode henv hreturn⟩

section Total

variable (hS : S.Lawful Γ) (hΓ : Γ.Based) (hmode : S.admits ctx.mode)

include hS hΓ hmode

theorem Setting.Lawful.expr_ends (henv : env.Fits S Γ) (huse : e.use Γ = some u) :
    ExprEnds ctx env e (S.Fits u.shape) :=
  ((hS.total hΓ (sizeOf e + 1)).expr (Nat.lt_succ_self _) huse hmode henv).imp fun _ hr => hr.fits

theorem Setting.Lawful.exprs_ends {es : List Surface.Expr} {uses : List Use} (henv : env.Fits S Γ)
    (huses : Surface.exprsUse Γ es = some uses) :
    Ends (fun fuel => (evaluator fuel).exprs ctx env es)
      fun r => S.Arguments (uses.map (·.shape)) r.value :=
  ((hS.total hΓ (sizeOf es)).exprs hmode henv (Nat.le_refl _) huses).exprs

theorem Setting.Lawful.stmts_ends {stmts : List Surface.Stmt} (henv : scope.env.Fits S Γ)
    (hshape : Surface.stmtsShape Γ stmts = some σ) : StmtsEnd S Γ σ ctx loc scope stmts :=
  (hS.total hΓ (sizeOf stmts + 1)).stmts (Nat.lt_succ_self _) hshape hmode henv

end Total

theorem Setting.privately_lawful : Setting.privately.Lawful Γ where
  also _ _ := trivial
  apps _ _ := trivial
  privately h := h
  views {mode} hmode := by
    cases mode with
    | step | consensus => cases hmode
    | _ => simp [Mode.views]
  admits hmode hprotocol := by cases hmode.symm.trans hprotocol
  ending hmode hprotocol := by cases hmode.symm.trans hprotocol

theorem Participant.interactValue_tame (p : Participant) : Value.Tame p.interactValue := by
  refine .object fun b hb => ?_
  obtain ⟨_, _, rfl⟩ := List.mem_map.1 hb
  exact .atom rfl

/-- The first views bind what the app sees, and frontends, which are data. -/
theorem App.views_ends (henv : env.Fits (.protocol Γ) Γ) (parts : List Participant) :
    ∀ {known : NameMap Bindings}, (∀ e ∈ known.entries, Bindings.Fits .privately Γ e.2) →
      Ends (fun _ => App.views loc env known parts)
        fun views => ∀ e ∈ views.entries, Bindings.Fits .privately Γ e.2 := by
  induction parts with
  | nil => exact fun hknown => .pure hknown
  | cons p parts ih =>
    intro known hknown
    exact (henv.bind (.of_tame p.interactValue_tame)).bind fun _ hview =>
      ih (OrderedMap.forall_mem_insertNew hview.privately hknown)

theorem App.compile_ends {a : App} (henv : Bindings.Fits (.protocol Γ) Γ a.env)
    (hbody : ∀ {ctx : Ctx} {scope : Scope}, (Setting.protocol Γ).admits ctx.mode →
      scope.env.Fits (.protocol Γ) Γ →
        StmtsEnd (.protocol Γ) Γ σ ctx a.body.loc scope a.body.stmts) :
    (Setting.protocol Γ).apps a :=
  fun _ => (App.views_ends henv _ (by simp)).bind fun _ hviews =>
    (Ends.of_meets .restartIds).bind fun _ _ => Ends.bind (hbody (by exact hviews) henv)
      fun _ _ => .pure trivial

theorem Setting.protocol_lawful (hΓ : Γ.Based) : (Setting.protocol Γ).Lawful Γ where
  also {c σ} henv hreturns := by
    -- an `only` may apply what the protocol has bound, and privately everything ends already
    rw [Surface.Block.returnShape_eq] at hreturns
    exact fun ctx loc vs hmode hargs => (applyClosure_ends (Bindings.Fits.privately henv) hmode hargs
      fun hmode henv => privately_lawful.stmts_ends hΓ hmode henv hreturns).imp fun _ h => h.2
  apps henv hbody := App.compile_ends henv hbody
  privately h := h.privately
  views hmode := hmode
  admits _ _ hviews := hviews
  ending _ _ := privately_lawful.total hΓ

end Choreography
