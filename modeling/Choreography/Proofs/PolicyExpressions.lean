import Choreography.Proofs.Policies

/-!
Expressions of programs that follow a policy. Where the value of an expression is used, it follows
the policy too. Where an expression is called it may also name a stage of a round, and where it is
called by a statement, a private computation; as a statement it may be a private computation that is
done.
-/

namespace Choreography

open Eval Ir

variable {π : Policy} {loc : Loc} {ctx : Ctx} {env : Bindings} {ev : Evaluator}
  {args : List Surface.Expr} {base : Surface.Expr}

/-- What an expression may come out as where it stands. -/
inductive Lifted.Obeys (π : Policy) (position : Position) (e : Surface.Expr) (r : Lifted SecValue) :
    Prop
  | plain (hcode : r.code.Obeys π) (hvalue : r.value.value.Obeys π)
  | stage {loc dotLoc : Loc} {tag : Tag} {round : Round} {stage : Stage} {base : Surface.Expr}
    (hposition : position = .callee ∨ position = .asked) (hcode : r.code.Obeys π)
    (hround : round.Obeys π) (hstage : round.stage = some stage)
    (hname : e = .dot dotLoc base stage.name)
    (hvalue : r.value.value = .form loc tag (.round round))
  | only {loc : Loc} {tag : Tag} {who : String} (hposition : position = .asked)
    (hcode : r.code.Local) (hvalue : r.value.value = .form loc tag (.only who))
  | onlyDone {loc : Loc} {tag : Tag} {who : String} {view : Bindings} {result : SecValue}
    (hposition : position = .statement) (hcode : r.code.Local) (hview : view.Obeys π)
    (hvalue : r.value.value = .form loc tag (.onlyDone who view result))

/-- What a list of statements leaves behind. -/
structure Lifted.Leaves (π : Policy) (r : Lifted Outcome) : Prop where
  code : r.code.Obeys π
  env : r.value.env.Obeys π
  exits : ∀ exit ∈ r.value.exits, exit.value.value.Obeys π

/-- Programs that follow the policy are evaluated to code that follows it. -/
structure Evaluator.Obeys (π : Policy) (ev : Evaluator) : Prop where
  predictable : ev.Predictable
  phased : ev.Phased
  expr {position : Position} {ctx : Ctx} {env : Bindings} {e : Surface.Expr} {s s' : Supply}
    {r : Lifted SecValue} : (ev.expr ctx env e).Yields s r s' → ctx.mode.Obeys π → env.Obeys π →
    π.Demands (e.obeys π position) → r.Obeys π position e
  stmts {ctx : Ctx} {loc : Loc} {scope : Scope} {stmts : List Surface.Stmt} {s s' : Supply}
    {r : Lifted Outcome} : (ev.stmts ctx loc scope stmts).Yields s r s' → ctx.mode.Obeys π →
    scope.env.Obeys π → π.Demands (Surface.stmtsObey π stmts) → r.Leaves π

theorem Surface.demands_exprsObey {es : List Expr} :
    π.Demands (exprsObey π es) ↔ ∀ e ∈ es, π.Demands (e.obeys π .operand) := by
  induction es with
  | nil => simp [exprsObey, Policy.demands_true]
  | cons e es ih => simp [exprsObey, Policy.demands_and, ih]

theorem Surface.demands_propsObey {ps : List Property} :
    π.Demands (propsObey π ps) ↔ ∀ p ∈ ps, π.Demands (p.obeys π) := by
  induction ps with
  | nil => simp [propsObey, Policy.demands_true]
  | cons p ps ih => simp [propsObey, Policy.demands_and, ih]

/-! ### Operations and primitives -/

/-- A value that follows the policy, and code that does. -/
structure Lifted.Follows (π : Policy) (r : Lifted SecValue) : Prop where
  code : r.code.Obeys π
  value : r.value.value.Obeys π

theorem Value.Atomic.obeys {v : Value} (h : v.Atomic) : v.Obeys π := by
  cases h <;> constructor

/-- Values that follow the policy, and code that does. -/
def Trait.following (π : Policy) : Trait where
  stops _ := True
  code := Code.Obeys π
  value := Value.Obeys π
  has := Lifted.Follows π
  ordinary _ := trivial
  nil := Code.obeys_nil
  append := .append
  tuple := ⟨fun h => by cases h with | tuple h => exact h, .tuple⟩
  object := ⟨fun h => by cases h with | object h => exact h, .object⟩
  has_iff := ⟨fun h => ⟨h.code, h.value⟩, fun h => ⟨h.1, h.2⟩⟩

theorem Trait.following_basic : (Trait.following π).Basic where
  silent h := h.obeys
  atomic h := h.obeys
  choice hTrue hFalse :=
    .prompt (.branch (hTrue.append (.atom trivial rfl)) (hFalse.append (.atom trivial rfl)))

theorem Ir.Stmt.ByPrim.obeys {mode : Mode} {p : Prim} {st : Stmt} (h : st.ByPrim mode p) :
    Code.Obeys π [st] := by
  cases h with
  | compute | ask | claim | transfer | stop => exact .atom trivial rfl

theorem enumBody_obeys (loc : Loc) (n : Nat) : (enumBody loc n).obeys π = true := by
  simp [enumBody, Surface.Block.returning, Surface.Block.obeys, Surface.stmtsObey,
    Surface.Stmt.obeys, Surface.Expr.obeys]

theorem Ctx.applyPrim_follows {p : Prim} {args : List SecValue} (henv : env.Obeys π)
    (hargs : ∀ sv ∈ args, sv.value.Obeys π) :
    Gives (Lifted.Follows π) (ctx.applyPrim loc env p args) := by
  refine Ctx.applyPrim_meets.gives.imp fun r hr => ⟨fun t ht => ?_, ?_⟩
  · obtain ⟨st, hst, hmem⟩ := mem_statements.1 ht
    exact (hr.code st hst).obeys t (by simpa using hmem)
  obtain ⟨_, hvalue⟩ := hr
  generalize r.value.value = v at hvalue
  cases hvalue with
  | atomic h => exact h.obeys
  | enumeration =>
    refine .tuple (List.forall_mem_cons.2 ⟨henv.closure (fun _ => enumBody_obeys _ _) ?_, ?_⟩)
    · exact List.forall_mem_singleton.2 (Policy.free_of_reserved (by decide))
    · intro v hv
      obtain ⟨i, _, rfl⟩ := List.mem_map.1 hv
      exact .int
  | declassified h => exact hargs _ h
  | committed | exited => exact .prim (by simp)
  | payment =>
    refine .object fun b hb => ?_
    rw [List.mem_singleton.1 (Env.mem_ofList hb)]
    exact .prim (by simp)

/-! ### Access -/

/-- What a participant or a round offers by a name: a private computation, or a stage. -/
inductive Value.Offered (π : Policy) (field : String) : Value → Prop
  | only {loc : Loc} {tag : Tag} {who : String} (hname : field = "only") :
    Offered π field (.form loc tag (.only who))
  | stage {loc : Loc} {tag : Tag} {round : Round} {stage : Stage} (hname : field = stage.name)
    (hstage : round.stage = some stage) (hround : round.Obeys π) :
    Offered π field (.form loc tag (.round round))

/-- The field of a value is a part of it, or it is offered by a participant or a round. -/
theorem Value.Offers.offered {v w : Value} {field : String} (h : v.Offers loc field w)
    (hv : v.Obeys π) : w.Obeys π ∨ w.Offered π field := by
  cases h with
  | part hfind =>
    cases hv with
    | object hfields => exact .inl (hfields _ (Bindings.mem_of_find? hfind))
  | only hname => exact .inr (.only hname)
  | start hname => exact .inr (.stage hname.symm rfl ⟨by simp, by simp, by simp⟩)
  | next hname =>
    cases hv with
    | round _ hround =>
      exact .inr (.stage hname.symm rfl ⟨hround.publish, hround.pay, hround.timeout⟩)

/-! ### Applications -/

/-- What an application leaves behind. -/
structure Lifted.Yielded (π : Policy) (r : Lifted Applied) : Prop where
  code : r.code.Obeys π
  value : r.value.value.value.Obeys π
  env : r.value.env.Obeys π

theorem Ctx.joinExits_yielded {slot : Nat} {body : Lifted Outcome} (hbody : body.Leaves π) :
    Gives (Lifted.Yielded π) (ctx.joinExits loc slot body) := by
  unfold Ctx.joinExits
  simp only
  split
  · exact .pure ⟨hbody.code.unprompted _ _ _, .null, hbody.env⟩
  · rename_i exit hone
    exact .pure ⟨hbody.code.unprompted _ _ _, hbody.exits exit (by simp [hone]), hbody.env⟩
  · exact .skip fun _ => .skip fun _ =>
      .pure ⟨.prompt hbody.code, .var, hbody.env⟩

theorem publishedNames_free (args : List Surface.Expr) :
    Gives (· ⊆ args.flatMap (·.targets)) (publishedNames args) := by
  induction args with
  | nil => exact .pure (by simp)
  | cons arg args ih =>
    cases arg with
    | ident => exact ih.bind fun _ hrest => .pure (List.cons_subset_cons _ hrest)
    | _ => exact .fail trivial

theorem Round.Obeys.fill {round : Round} {stage : Stage} {dotLoc : Loc} (hround : round.Obeys π)
    (hargs : π.Demands (Surface.exprsObey π args))
    (htakes : π.Demands (π.takes args (.dot dotLoc base stage.name))) :
    Gives (fun next => next.Obeys π ∧ next.stage = none) (round.fill loc stage args) := by
  simp only [Policy.takes, Policy.demands_and] at htakes
  unfold Round.fill
  cases stage with
  | publish =>
    refine .skip fun _ => (publishedNames_free args).bind fun names hnames =>
      .pure ⟨⟨?_, hround.pay, hround.timeout⟩, rfl⟩
    rintro _ ⟨⟩ name hname
    have hfree : π.Demands (π.frees (args.flatMap (·.targets))) := by simpa using htakes.1
    exact hfree.free name (hnames hname)
  | pay =>
    refine .skip fun _ => ?_
    split
    · simp only [Surface.exprsObey, Policy.demands_and] at hargs
      refine .pure ⟨⟨hround.publish, ?_, hround.timeout⟩, rfl⟩
      rintro e ⟨⟩
      exact Policy.demands_and.2 ⟨by simpa using htakes.2, hargs.1⟩
    · exact .fail trivial
  | timeout =>
    refine .skip fun _ => ?_
    split
    · simp only [Surface.exprsObey, Surface.Expr.obeys, Policy.demands_and] at hargs
      refine .pure ⟨⟨hround.publish, hround.pay, ?_⟩, rfl⟩
      rintro t ⟨⟩
      exact Policy.demands_and.2 ⟨hargs.1, hargs.2.1.2⟩
    · exact .fail trivial

namespace Evaluator.Obeys

/-- A stage of a round is filled in where it is named. -/
theorem applyRound {formLoc dotLoc : Loc} {round : Round} {stage : Stage} (hround : round.Obeys π)
    (hstage : round.stage = some stage) (hargs : π.Demands (Surface.exprsObey π args))
    (htakes : π.Demands (π.takes args (.dot dotLoc base stage.name))) :
    Gives (fun r => r.code = [] ∧ r.value.value.Obeys π)
      (ev.applyForm ctx loc env formLoc (.round round) args) := by
  refine .skip fun _ => Gives.orFail.bind fun waits hwaits => ?_
  obtain rfl : stage = waits := Option.some.inj (hstage.symm.trans hwaits)
  exact (hround.fill hargs htakes).bind fun next hnext => .skip fun _ =>
    .pure ⟨rfl, .round (fun _ => hnext.2) hnext.1⟩

section

variable (hev : ev.Obeys π) (hmode : ctx.mode.Obeys π)

include hev hmode

theorem body {scope : Scope} {stmts : List Surface.Stmt} (henv : scope.env.Obeys π)
    (h : π.Demands (Surface.stmtsObey π stmts)) :
    Gives (Lifted.Leaves π) (ev.stmts ctx loc scope stmts) :=
  .of_yields fun hrun => hev.stmts hrun hmode henv h

/-- The formals of a closure that is applied are bound anew, so they hide no name of the base
environment. -/
theorem applyClosure {tag : Tag} {c : Closure} {args : List SecValue}
    (hc : (Value.closure tag c).Obeys π) (hargs : ∀ sv ∈ args, sv.value.Obeys π) :
    Gives (fun r => r.Yielded π ∧ ∀ name ∈ c.formals, name ∉ baseNames)
      (ev.applyClosure ctx loc c args) := by
  cases hc with
  | closure hobeys hformals hbased hfixes hvalues =>
    have henv : Bindings.Obeys π c.env := ⟨hbased, fun b hb => ⟨hfixes b hb, hvalues b hb⟩⟩
    rw [Surface.Block.obeys_eq] at hobeys
    refine .skip fun _ => Gives.ensure.bind fun _ hlength => ?_
    refine ((henv.bindAll fun b hb => ?_).and (Q := fun _ => ∀ name ∈ c.formals, name ∉ baseNames)
      (.of_yields fun hbind name hname => ?_)).bind fun _ hinner =>
        Meets.bind (hev.body (by exact hmode) hinner.1 hobeys) fun _ hbody =>
          (Ctx.joinExits_yielded hbody).imp fun _ hr => ⟨hr, hinner.2⟩
    · exact .of_free (hformals b.1 (List.of_mem_zip hb).1) (hargs b.2 (List.of_mem_zip hb).2)
    · exact hbased.not_mem_of_fresh
        (Bindings.formals_fresh (of_decide_eq_true hlength) hbind name hname)

variable (henv : env.Obeys π)

include henv

/-- Where the value of an expression is used, it follows the policy. -/
theorem operand {e : Surface.Expr} (he : π.Demands (e.obeys π .operand)) :
    Gives (Lifted.Follows π) (ev.expr ctx env e) := by
  refine .of_yields fun hrun => ?_
  cases hev.expr hrun hmode henv he with
  | plain hcode hvalue => exact ⟨hcode, hvalue⟩
  | stage hposition => rcases hposition with h | h <;> cases h
  | only hposition | onlyDone hposition => cases hposition

theorem operands {es : List Surface.Expr} (hes : π.Demands (Surface.exprsObey π es)) :
    ∀ e ∈ es, Gives (Lifted.Follows π) (ev.expr ctx env e) :=
  fun _ he => hev.operand hmode henv (Surface.demands_exprsObey.1 hes _ he)

theorem exprs {es : List Surface.Expr} (hes : π.Demands (Surface.exprsObey π es)) :
    Gives (fun r => r.code.Obeys π ∧ ∀ sv ∈ r.value, sv.value.Obeys π) (ev.exprs ctx env es) :=
  (Trait.following π).exprs (hev.operands hmode henv hes)

theorem applyValues {rator : Value} {args : List SecValue} (hrator : rator.Obeys π)
    (hargs : ∀ sv ∈ args, sv.value.Obeys π) :
    Gives (fun r => r.code.Obeys π ∧ r.value.value.value.Obeys π)
      (ev.applyValues ctx loc env rator args) := by
  unfold Evaluator.applyValues
  split
  · exact (Ctx.applyPrim_follows henv hargs).bind fun _ hr => .pure ⟨hr.code, hr.value⟩
  · exact (hev.applyClosure hmode hrator hargs).imp fun _ hr => ⟨hr.1.code, hr.1.value⟩
  · exact .fail trivial

/-! ### Forms -/

theorem appForm (hargs : π.Demands (Surface.exprsObey π args)) :
    Gives (Lifted.Follows π) (ev.appForm ctx loc env args) := by
  refine .skip fun _ => ?_
  split
  · simp only [Surface.exprsObey, Surface.Expr.obeys, Policy.demands_and] at hargs
    obtain ⟨hoptions, hparts, ⟨hformals, hbody⟩, _⟩ := hargs
    refine (hev.exprs hmode henv (by
      simp only [Surface.exprsObey, Policy.demands_and]
      exact ⟨hoptions, hparts, Policy.demands_true⟩)).bind fun _ hevaluated => ?_
    split
    · refine .skip fun parts => .skip fun _ =>
        (henv.bindAll fun b hb => .of_free ?_ ?_).bind fun _ hinner => .skip fun _ =>
          .pure ⟨hevaluated.1, .app hbody hinner.based (fun b hb => (hinner.holds b hb).fixes)
            fun b hb => (hinner.holds b hb).value⟩
      · exact hformals.free b.1 (List.of_mem_zip hb).1
      · obtain ⟨p, _, hvalue⟩ := List.mem_map.1 (List.of_mem_zip hb).2
        rw [← hvalue]
        exact .participant
    · exact .fail trivial
  · exact .fail trivial

/-- Private computation emits local code, and leaves a view that follows the policy. -/
theorem onlyForm {who : String} (hargs : π.Demands (Surface.exprsObey π args)) :
    Gives (fun r => ∃ tag view result, r.value.value = .form loc tag (.onlyDone who view result) ∧
        r.code.Local ∧ Bindings.Obeys π view)
      (ev.onlyForm ctx loc env who args) := by
  unfold Evaluator.onlyForm
  split
  · rename_i parties hstep
    rw [hstep] at hmode
    refine Gives.orFail.bind fun view hview => ?_
    have hviewObeys : view.Obeys π := hmode _ (OrderedMap.mem_of_get? hview)
    refine ((hev.exprs (by exact trivial) hviewObeys hargs).and (Q := fun r =>
      r.code.During .privately) (.of_yields hev.phased.composes.exprs.result)).bind fun made hmade => ?_
    split
    · rename_i level tag c hvalue
      have hclosure : (Value.closure tag c).Obeys π :=
        hmade.1.2 ⟨level, _⟩ (by rw [hvalue]; exact List.mem_cons_self)
      refine Meets.bind ((Trait.following π).sharedArgs fun _ _ => henv.identify)
        fun shared hshared => ?_
      refine Meets.bind (Meets.and (P := fun r => r.Yielded π ∧ ∀ name ∈ c.formals, name ∉ baseNames)
        (Q := fun r => r.code.During .privately) (hev.applyClosure (by exact trivial) hclosure hshared)
        (.of_yields hev.phased.composes.applyValues)) fun applied happlied => ?_
      exact .skip fun newTag => .pure ⟨newTag, _, _, rfl,
        (Code.during_append.2 ⟨hmade.2, happlied.2⟩).isLocal,
        happlied.1.1.env.without happlied.1.2⟩
    · exact .fail trivial
  · exact .fail trivial

theorem apply {rator : Value} {rands : List Surface.Expr} (hrator : rator.Obeys π)
    (hrands : π.Demands (Surface.exprsObey π rands)) :
    Gives (Lifted.Follows π) (ev.apply ctx loc env rator rands) := by
  refine (Trait.following π).apply (hev.operands hmode henv hrands)
    (hev.applyValues hmode henv hrator) ?_
  rintro _ _ _ rfl
  cases hrator with
  | appForm => exact hev.appForm hmode henv hrands
  | only hfree =>
    refine (hev.onlyForm hmode henv hrands).imp fun _ hr => ?_
    obtain ⟨tag, view, result, hvalue, hlocal, hview⟩ := hr
    exact ⟨hlocal.obeys, hvalue ▸ .onlyDone hfree hview.based
      (fun b hb => (hview.holds b hb).fixes) fun b hb => (hview.holds b hb).value⟩
  | onlyDone => exact .fail trivial
  | @round _ _ round hstage hround =>
    cases hwaits : round.stage with
    | none =>
      refine .skip fun _ => Gives.orFail.bind fun _ hsome => ?_
      cases hwaits.symm.trans hsome
    | some stage =>
      -- only a policy that is not enforced lets the stage wait
      have hfree : ¬ π.enforced = true := fun henforced => by simp [hstage henforced] at hwaits
      have htakes : π.Demands (π.takes rands (.dot loc (.null loc) stage.name)) :=
        fun henforced => absurd henforced hfree
      exact (applyRound hround hwaits hrands htakes).imp fun _ hr =>
        ⟨hr.1 ▸ Code.obeys_nil, hr.2⟩

theorem reads {p : Surface.Property} (hp : π.Demands (p.obeys π)) :
    (Trait.following π).Reads ev ctx env p := by
  cases p with
  | value _ name value =>
    simp only [Surface.Property.obeys, Policy.demands_and] at hp
    refine ⟨fun key hkey => hev.operand hmode henv ?_, hev.operand hmode henv hp.2⟩
    simpa [hkey, Surface.PropertyName.obeys] using hp.1
  | shorthand => exact henv.identify
  | spread _ base =>
    simp only [Surface.Property.obeys] at hp
    exact hev.operand hmode henv hp
  | method => trivial

end

/-! ### The rule for each expression -/

theorem lookup (henv : env.Obeys π) (name : String) :
    Gives (fun sv => sv.value.Obeys π) (env.lookup loc name) :=
  .of_yields fun hrun => henv.find? (Bindings.lookup_yields.1 hrun).1

section

variable (hev : ev.Obeys π) (hmode : ctx.mode.Obeys π) (henv : env.Obeys π) {position : Position}

include hev hmode henv

/-- A field is used where the policy allows it. -/
theorem dot {field : String}
    (hobeys : π.Demands ((Surface.Expr.dot loc base field).obeys π position)) :
    Gives (Lifted.Obeys π position (.dot loc base field))
      (ev.evalExpr ctx env (.dot loc base field)) := by
  simp only [Surface.Expr.obeys, Policy.demands_and] at hobeys
  obtain ⟨hbase, hallows⟩ := hobeys
  refine ((hev.operand hmode henv hbase).and (Q := fun r => base.calm = true → r.code.Local)
    (.of_yields fun hrun hcalm => (hev.predictable.calm henv.based hcalm).result hrun)).bind
      fun object hobject =>
      Ctx.field_meets.gives.bind fun result hresult => .pure ?_
  obtain ⟨hsilent, hatomic | hoffers⟩ := hresult
  · exact .plain (hobject.1.code.append hsilent.obeys) hatomic.obeys
  have hall : Code.Obeys π (object.code ++ result.code) := hobject.1.code.append hsilent.obeys
  rcases hoffers.offered hobject.1.value with hvalue | hoffered
  · exact .plain hall hvalue
  generalize hresult : result.value.value = v at hoffered
  cases hoffered with
  | only hname =>
    subst hname
    by_cases hseparate : π.enforced = true ∧ π.separate = true
    · obtain ⟨henforced, hseparate⟩ := hseparate
      -- the participant is computed calmly, and a statement asks
      have hallowed := hallows henforced
      cases position with
      | asked =>
        have hcalm : base.calm = true := by simpa [Policy.allows, hseparate] using hallowed
        exact .only rfl (Code.local_append.2 ⟨hobject.2 hcalm, hsilent.isLocal⟩) hresult
      | operand | callee | statement => simp [Policy.allows, hseparate] at hallowed
    · refine .plain hall ?_
      change result.value.value.Obeys π
      rw [hresult]
      exact .only fun henforced => by simpa [henforced] using hseparate
  | @stage _ _ _ stage hname hstage hround =>
    subst hname
    by_cases henforced : π.enforced = true
    · have hallowed := hallows henforced
      cases position with
      | callee => exact .stage (.inl rfl) hall hround hstage rfl hresult
      | asked => exact .stage (.inr rfl) hall hround hstage rfl hresult
      | operand | statement => cases stage <;> simp [Policy.allows, Stage.all] at hallowed
    · refine .plain hall ?_
      change result.value.value.Obeys π
      rw [hresult]
      exact .round (fun h => absurd h henforced) hround

/-- What is called is a value that follows the policy, a stage, or a private computation. -/
theorem call {callee : Surface.Expr}
    (hobeys : π.Demands ((Surface.Expr.call loc callee args).obeys π position)) :
    Gives (Lifted.Obeys π position (.call loc callee args))
      (ev.evalExpr ctx env (.call loc callee args)) := by
  simp only [Surface.Expr.obeys, Policy.demands_and] at hobeys
  obtain ⟨⟨hcallee, htakes⟩, hargs⟩ := hobeys
  refine Meets.bind (.of_yields fun hrun => hev.expr hrun hmode henv hcallee) fun rator hrator => ?_
  cases hrator with
  | plain hcode hvalue =>
    exact (hev.apply hmode henv hvalue hargs).bind fun _ hresult =>
      .pure (.plain (hcode.append hresult.code) hresult.value)
  | stage _ hcode hround hstage hname hvalue =>
    rw [hvalue, Evaluator.apply]
    rw [hname] at htakes
    exact (applyRound hround hstage hargs htakes).bind fun _ hresult =>
      .pure (.plain (hcode.append (hresult.1 ▸ Code.obeys_nil)) hresult.2)
  | only hposition hcode hvalue =>
    rw [hvalue, Evaluator.apply]
    refine Meets.bind (hev.onlyForm hmode henv hargs) fun result hresult => .pure ?_
    obtain ⟨tag, view, answer, hdone, hlocal, hview⟩ := hresult
    cases position with
    | statement => exact .onlyDone rfl (Code.local_append.2 ⟨hcode, hlocal⟩) hview hdone
    | operand | callee | asked => cases hposition
  | onlyDone hposition => cases position <;> cases hposition

theorem evalExpr {e : Surface.Expr} (hobeys : π.Demands (e.obeys π position)) :
    Gives (Lifted.Obeys π position e) (ev.evalExpr ctx env e) := by
  have hplain : ∀ {e : Surface.Expr} {x : Eval (Lifted SecValue)}, Gives (Lifted.Follows π) x →
      Gives (Lifted.Obeys π position e) x := fun h => h.imp fun _ hr => .plain hr.code hr.value
  unfold Evaluator.evalExpr
  cases e with
  | ident loc name => exact henv.identify.bind fun _ hv => .pure (.plain Code.obeys_nil hv)
  | int => exact .pure (.plain Code.obeys_nil .int)
  | string => exact .pure (.plain Code.obeys_nil .bytes)
  | bool => exact .pure (.plain Code.obeys_nil .bool)
  | null => exact .pure (.plain Code.obeys_nil .null)
  | array loc elems =>
    simp only [Surface.Expr.obeys] at hobeys
    exact hplain ((Trait.following π).array (hev.operands hmode henv hobeys))
  | object loc props =>
    simp only [Surface.Expr.obeys] at hobeys
    exact hplain ((Trait.following π).objectLiteral fun p hp =>
      hev.reads hmode henv (Surface.demands_propsObey.1 hobeys p hp))
  | call loc callee args => exact hev.call hmode henv hobeys
  | dot loc base field => exact hev.dot hmode henv hobeys
  | index loc base place =>
    simp only [Surface.Expr.obeys, Policy.demands_and] at hobeys
    exact hplain (Trait.following_basic.index (hev.operand hmode henv hobeys.1)
      (hev.operand hmode henv hobeys.2))
  | binary loc op lhs rhs =>
    simp only [Surface.Expr.obeys, Policy.demands_and] at hobeys
    have hargs : π.Demands (Surface.exprsObey π [lhs, rhs]) := by
      simpa only [Surface.exprsObey, Policy.demands_and, Bool.and_true] using hobeys
    exact hplain (Meets.bind (op.rator_meets (fun _ => trivial) (fun name _ => lookup henv name)
      fun _ => .prim (by simp)) fun _ hrator => hev.apply hmode henv hrator hargs)
  | unary loc op operand =>
    simp only [Surface.Expr.obeys] at hobeys
    have hargs : π.Demands (Surface.exprsObey π [operand]) := by
      simpa only [Surface.exprsObey, Bool.and_true] using hobeys
    exact hplain (Meets.bind (op.rator_meets (fun _ => trivial) fun name _ => lookup henv name)
      fun _ hrator => hev.apply hmode henv hrator hargs)
  | paren _ inner =>
    simp only [Surface.Expr.obeys] at hobeys
    exact hplain (hev.operand hmode henv hobeys)
  | ternary loc cond onTrue onFalse =>
    simp only [Surface.Expr.obeys, Policy.demands_and] at hobeys
    exact hplain (Trait.following_basic.ternary (hev.operand hmode henv hobeys.1.1)
      (hev.operand hmode henv hobeys.1.2) (hev.operand hmode henv hobeys.2))
  | arrow loc formals body =>
    simp only [Surface.Expr.obeys, Policy.demands_and] at hobeys
    exact .skip fun _ =>
      .pure (.plain Code.obeys_nil (henv.closure hobeys.2 hobeys.1.free))
  | function loc name formals body =>
    simp only [Surface.Expr.obeys, Policy.demands_and] at hobeys
    cases name with
    | none =>
      exact .skip fun _ =>
        .pure (.plain Code.obeys_nil (henv.closure hobeys.2 hobeys.1.free))
    | some _ => exact .fail trivial
  | foreign => exact .fail trivial

end

end Evaluator.Obeys

end Choreography
