import Choreography.Proofs.Tidiness
import Choreography.Proofs.Traits

/-!
Expressions of staged programs. Where an expression is no statement of its own, its value is plain
and its code is quiet. As a statement, it may also come out as something that acts: a private
computation, a round, a commit or an exit.
-/

namespace Choreography

open Eval Ir

variable {strict : Bool} {S T : List String} {loc : Loc} {ctx : Ctx} {env : Bindings}
  {ev : Evaluator} {args : List Surface.Expr}

/-- A plain value and the quiet code that computes it. -/
structure Lifted.Settled (strict : Bool) (S : List String) (r : Lifted SecValue) : Prop where
  code : r.code.Quiet strict S
  value : r.value.value.Plain strict S

/-- What an expression may come out as where it is a statement: something plain, or something that
acts. Only expressions that move the protocol on give rounds, commits and exits. -/
inductive Lifted.Acted (strict : Bool) (S : List String) (moves : Bool) (r : Lifted SecValue) : Prop
  | settled (h : r.Settled strict S)
  | only {loc : Loc} {tag : Tag} {who : String} (hcode : r.code.Quiet strict S)
    (hvalue : r.value.value = .form loc tag (.only who))
  | onlyDone {loc : Loc} {tag : Tag} {who : String} {view : Bindings} {result : SecValue}
    (hcode : r.code.Quiet strict (who :: S)) (hview : view.Plain strict (who :: S))
    (hvalue : r.value.value = .form loc tag (.onlyDone who view result))
  | round {loc : Loc} {tag : Tag} {round : Round} (hmoves : moves = true)
    (hcode : r.code.Quiet strict S) (hround : round.Staged strict)
    (hvalue : r.value.value = .form loc tag (.round round))
  | ending {loc : Loc} {p : Prim} (hmoves : moves = true) (hcode : r.code.Quiet strict S)
    (hp : p = .commit ∨ p = .committed ∨ p = .exit) (hvalue : r.value.value = .prim loc p)
  | exited {loc stopLoc : Loc} {frames : List Frame} {before : Code} (hmoves : moves = true)
    (hbefore : before.Quiet strict S) (hcode : r.code = before ++ [.stop stopLoc frames])
    (hvalue : r.value.value = .prim loc .exited)

/-- The views of a mode are plain, each within the private code of its participant. -/
def Mode.Plain (strict : Bool) (S : List String) : Mode → Prop
  | .step parties | .consensus _ parties =>
    ∀ e ∈ parties.views.entries, Bindings.Plain strict (e.1 :: S) e.2
  | .module | .pureLocal | .localStep => True

theorem Mode.Plain.mono {mode : Mode} (h : mode.Plain strict S) (hsub : S ⊆ T) :
    mode.Plain strict T := by
  cases mode with
  | step | consensus => exact fun e he => (h e he).mono (List.cons_subset_cons _ hsub)
  | _ => exact trivial

/-- What a list of statements leaves behind. It moves the protocol on only where it is not still. -/
structure Lifted.Ended (strict : Bool) (S : List String) (still : Bool) (r : Lifted Outcome) :
    Prop where
  code : r.code.Tidy strict S
  calm : strict = true → still = true → ∀ st ∈ r.code, st.endsList = false
  env : r.value.env.Plain strict S
  exits : ∀ e ∈ r.value.exits, e.value.value.Plain strict S

/-- Staged expressions and statements are evaluated to tidy code. -/
structure Evaluator.Staged (strict : Bool) (ev : Evaluator) : Prop where
  expr {S : List String} {ctx : Ctx} {env : Bindings} {e : Surface.Expr} {s s' : Supply}
    {r : Lifted SecValue} : (ev.expr ctx env e).Yields s r s' → ctx.mode.Plain strict S →
    env.Plain strict S → e.staged strict false = true → r.Settled strict S
  acting {S : List String} {ctx : Ctx} {env : Bindings} {e : Surface.Expr} {s s' : Supply}
    {r : Lifted SecValue} : (ev.expr ctx env e).Yields s r s' → ctx.mode.Plain strict S →
    env.Plain strict S → e.staged strict true = true → r.Acted strict S e.moves
  stmts {S : List String} {ctx : Ctx} {loc : Loc} {scope : Scope} {stmts : List Surface.Stmt}
    {s s' : Supply} {r : Lifted Outcome} : (ev.stmts ctx loc scope stmts).Yields s r s' →
    ctx.mode.Plain strict S → scope.env.Plain strict S → Surface.stmtsStaged strict stmts = true →
    r.Ended strict S (Surface.stmtsStill stmts)

theorem Surface.exprsStaged_iff {es : List Expr} :
    exprsStaged strict es = true ↔ ∀ e ∈ es, e.staged strict false = true := by
  induction es with
  | nil => simp [exprsStaged]
  | cons e es ih => simp [exprsStaged, ih]

theorem Surface.propsStaged_iff {ps : List Property} :
    propsStaged strict ps = true ↔ ∀ p ∈ ps, p.staged strict = true := by
  induction ps with
  | nil => simp [propsStaged]
  | cons p ps ih => simp [propsStaged, ih]

/-! ### Operations and primitives -/

theorem Value.Atomic.plain {v : Value} (h : v.Atomic) : v.Plain strict S := by
  cases h <;> constructor

/-- Plain values, and the quiet code that computes them. -/
def Trait.settled (strict : Bool) (S : List String) : Trait where
  stops _ := True
  code := Code.Quiet strict S
  value := Value.Plain strict S
  has := Lifted.Settled strict S
  ordinary _ := trivial
  nil := .nil
  append := .append
  tuple := ⟨fun h => by cases h with | tuple h => exact h, .tuple⟩
  object := ⟨fun h => by cases h with | object h => exact h, .object⟩
  has_iff := ⟨fun h => ⟨h.code, h.value⟩, fun h => ⟨h.1, h.2⟩⟩

theorem Trait.settled_basic : (Trait.settled strict S).Basic where
  silent h := h.quiet
  atomic h := h.plain
  choice hTrue hFalse := .single (.prompt (.single (.branch
    (hTrue.append_tidy (.single (.atom rfl rfl))) (hFalse.append_tidy (.single (.atom rfl rfl)))))) rfl

/-- The function that tells the members of an enumeration names nothing that acts. -/
theorem enumBody_staged (loc : Loc) (n : Nat) : (enumBody loc n).staged strict = true := by
  cases strict <;>
    simp [enumBody, Surface.Block.returning, Surface.Block.staged, Surface.stmtsStaged,
      Surface.Stmt.staged, Surface.Expr.staged, Surface.actingNames, Surface.Stmt.followable,
      Surface.Stmt.isCompound]

theorem Ctx.applyPrim_settled {p : Prim} {args : List SecValue} (hp : p.Plain strict S)
    (henv : env.Plain strict S) (hargs : ∀ sv ∈ args, sv.value.Plain strict S) :
    Gives (Lifted.Settled strict S) (ctx.applyPrim loc env p args) := by
  refine Ctx.applyPrim_meets.gives.imp fun r hr => ⟨⟨fun st hst => ?_, fun hstrict st hst => ?_⟩, ?_⟩
  · exact ((hr.code st hst).quiet hp).kept st List.mem_cons_self
  · exact ((hr.code st hst).quiet hp).calm hstrict st List.mem_cons_self
  obtain ⟨_, hvalue⟩ := hr
  generalize r.value.value = v at hvalue
  cases hvalue with
  | atomic h => exact h.plain
  | enumeration =>
    refine .tuple (List.forall_mem_cons.2 ⟨.closure (enumBody_staged _ _) henv, fun v hv => ?_⟩)
    obtain ⟨i, _, rfl⟩ := List.mem_map.1 hv
    exact .int
  | declassified h => exact hargs _ h
  | committed | exited => exact .prim hp
  | payment =>
    refine .object fun b hb => ?_
    rw [List.mem_singleton.1 (Env.mem_ofList hb)]
    exact .prim trivial

/-! ### Access -/

/-- The field of a plain value is plain, or it is a field by which a participant acts. -/
theorem Ctx.field_acted {v : Value} {field : String} (hv : v.Plain strict S) :
    Gives (fun r => r.Settled strict S ∨ field ∈ Surface.actingFields strict ∧
        r.Acted strict S ((Stage.all.map (·.name)).contains field))
      (ctx.field loc v field) := by
  refine Ctx.field_meets.gives.imp fun r hr => ?_
  obtain ⟨hsilent, hatomic | hoffers⟩ := hr
  · exact .inl ⟨hsilent.quiet, hatomic.plain⟩
  generalize hvalue : r.value.value = w at hoffers
  cases hoffers with
  | part hfind =>
    cases hv with
    | object h => exact .inl ⟨hsilent.quiet, hvalue ▸ h _ (Bindings.mem_of_find? hfind)⟩
  | only hname => exact .inr ⟨hname ▸ List.mem_cons_self, .only hsilent.quiet hvalue⟩
  | @start _ _ _ stage hname =>
    have hstage : field ∈ Stage.all.map (·.name) := by
      rw [← hname]
      cases stage <;> decide
    cases strict with
    | false => exact .inl ⟨hsilent.quiet, hvalue ▸ .round rfl ⟨by simp, by simp⟩⟩
    | true =>
      exact .inr ⟨List.mem_cons_of_mem _ hstage,
        .round (by simpa using hstage) hsilent.quiet ⟨by simp, by simp⟩ hvalue⟩
  | next =>
    cases hv with
    | round hfree hround =>
      exact .inl ⟨hsilent.quiet, hvalue ▸ .round hfree ⟨hround.pay, hround.timeout⟩⟩

/-! ### Applications -/

/-- What an application leaves behind. -/
structure Lifted.Done (strict : Bool) (S : List String) (r : Lifted Applied) : Prop where
  code : r.code.Quiet strict S
  value : r.value.value.value.Plain strict S
  env : r.value.env.Plain strict S

theorem Ctx.joinExits_done {slot : Nat} {still : Bool} {body : Lifted Outcome}
    (hbody : body.Ended strict S still) :
    Gives (Lifted.Done strict S) (ctx.joinExits loc slot body) := by
  unfold Ctx.joinExits
  simp only
  split
  · exact .pure ⟨hbody.code.unprompted _ _ _, .null, hbody.env⟩
  · rename_i exit hone
    exact .pure ⟨hbody.code.unprompted _ _ _, hbody.exits exit (by simp [hone]), hbody.env⟩
  · exact .skip fun _ => .skip fun _ =>
      .pure ⟨.single (.prompt hbody.code) rfl, .var, hbody.env⟩

theorem sharedArgs_plain (henv : env.Plain strict S) (formals : List String) :
    Gives (fun svs => ∀ b ∈ formals.zip svs, ¬ Acts strict b → b.2.value.Plain strict S)
      (Evaluator.sharedArgs loc env formals) := by
  induction formals with
  | nil => exact .pure (by simp)
  | cons formal formals ih =>
    exact henv.identify.bind fun v hv => ih.bind fun vs hvs =>
      .pure (List.forall_mem_cons.2 ⟨hv.resolve_right, hvs⟩)

theorem Round.Staged.fill {round : Round} {stage : Stage} (hround : round.Staged strict)
    (hargs : Surface.exprsStaged strict args = true) :
    Gives (Round.Staged strict) (round.fill loc stage args) := by
  unfold Round.fill
  cases stage with
  | publish =>
    exact .skip fun _ => .skip fun _ => .pure ⟨hround.pay, hround.timeout⟩
  | pay =>
    refine .skip fun _ => ?_
    split
    · simp only [Surface.exprsStaged, Bool.and_true] at hargs
      refine .pure ⟨?_, hround.timeout⟩
      rintro e ⟨⟩
      exact hargs
    · exact .fail trivial
  | timeout =>
    refine .skip fun _ => ?_
    split
    · simp only [Surface.exprsStaged, Surface.Expr.staged, Bool.and_eq_true, Bool.and_true] at hargs
      refine .pure ⟨hround.pay, ?_⟩
      rintro t ⟨⟩
      exact hargs
    · exact .fail trivial

namespace Evaluator.Staged

/-- The next stage of a round is filled in with what is staged. -/
theorem applyRound {formLoc : Loc} {round : Round} (hround : round.Staged strict)
    (hargs : Surface.exprsStaged strict args = true) :
    Gives (fun r => r.code = [] ∧
        ∃ tag next, r.value.value = .form formLoc tag (.round next) ∧ next.Staged strict)
      (ev.applyForm ctx loc env formLoc (.round round) args) :=
  .skip fun _ => .skip fun _ => (hround.fill hargs).bind fun next hnext =>
    .skip fun tag => .pure ⟨rfl, tag, next, rfl, hnext⟩

section

variable (hev : ev.Staged strict) (hmode : ctx.mode.Plain strict S)

include hev hmode

theorem body {scope : Scope} {stmts : List Surface.Stmt} (henv : scope.env.Plain strict S)
    (h : Surface.stmtsStaged strict stmts = true) :
    Gives (Lifted.Ended strict S (Surface.stmtsStill stmts)) (ev.stmts ctx loc scope stmts) :=
  .of_yields fun hrun => hev.stmts hrun hmode henv h

/-- A closure is applied to what its formals may be bound to: something plain, or, for a formal that
has the name of what acts, the same binding. -/
theorem applyClosure {tag : Tag} {c : Closure} {args : List SecValue}
    (hc : (Value.closure tag c).Plain strict S)
    (hargs : ∀ b ∈ c.formals.zip args, ¬ Acts strict b → b.2.value.Plain strict S) :
    Gives (Lifted.Done strict S) (ev.applyClosure ctx loc c args) := by
  cases hc with
  | closure hstaged henv =>
    rw [Surface.Block.staged_eq] at hstaged
    exact .skip fun _ => .skip fun _ =>
      (Bindings.Plain.bindAll henv hargs).bind fun _ hinner =>
        Meets.bind (hev.body (by exact hmode) hinner hstaged) fun _ hbody =>
          Ctx.joinExits_done hbody

variable (henv : env.Plain strict S)

include henv

theorem operand {e : Surface.Expr} (he : e.staged strict false = true) :
    Gives (Lifted.Settled strict S) (ev.expr ctx env e) :=
  .of_yields fun hrun => hev.expr hrun hmode henv he

theorem operands {es : List Surface.Expr} (hes : Surface.exprsStaged strict es = true) :
    ∀ e ∈ es, Gives (Lifted.Settled strict S) (ev.expr ctx env e) :=
  fun _ he => hev.operand hmode henv (Surface.exprsStaged_iff.1 hes _ he)

theorem exprs {es : List Surface.Expr} (hes : Surface.exprsStaged strict es = true) :
    Gives (fun r => r.code.Quiet strict S ∧ ∀ sv ∈ r.value, sv.value.Plain strict S)
      (ev.exprs ctx env es) :=
  (Trait.settled strict S).exprs (hev.operands hmode henv hes)

theorem applyValues {rator : Value} {args : List SecValue} (hrator : rator.Plain strict S)
    (hargs : ∀ sv ∈ args, sv.value.Plain strict S) :
    Gives (fun r => r.code.Quiet strict S ∧ r.value.value.value.Plain strict S)
      (ev.applyValues ctx loc env rator args) := by
  unfold Evaluator.applyValues
  split
  · cases hrator with
    | prim hp =>
      exact (Ctx.applyPrim_settled hp henv hargs).bind fun _ hr => .pure ⟨hr.code, hr.value⟩
    | app => exact .fail_bind trivial
  · exact (hev.applyClosure hmode hrator fun b hb _ => hargs b.2 (List.of_mem_zip hb).2).imp
      fun _ hr => ⟨hr.code, hr.value⟩
  · exact .fail trivial

/-! ### Forms -/

theorem appForm (hargs : Surface.exprsStaged strict args = true) :
    Gives (Lifted.Settled strict S) (ev.appForm ctx loc env args) := by
  refine .skip fun _ => ?_
  split
  · simp only [Surface.exprsStaged, Surface.Expr.staged, Bool.and_eq_true, Bool.and_true] at hargs
    obtain ⟨hoptions, hparts, hbody⟩ := hargs
    refine (hev.exprs hmode henv (by simp [Surface.exprsStaged, hoptions, hparts])).bind
      fun _ hevaluated => ?_
    split
    · refine .skip fun parts => .skip fun _ =>
        (henv.bindAll fun b hb _ => ?_).bind fun _ hinner => .skip fun _ =>
          .pure ⟨hevaluated.1, .app hbody hinner⟩
      obtain ⟨p, _, hvalue⟩ := List.mem_map.1 (List.of_mem_zip hb).2
      rw [← hvalue]
      exact .participant
    · exact .fail trivial
  · exact .fail trivial

/-- Private computation stays within the private code of its participant. -/
theorem onlyForm {who : String} (hargs : Surface.exprsStaged strict args = true) :
    Gives (fun r => ∃ tag view result, r.value.value = .form loc tag (.onlyDone who view result) ∧
        r.code.Quiet strict (who :: S) ∧ Bindings.Plain strict (who :: S) view)
      (ev.onlyForm ctx loc env who args) := by
  unfold Evaluator.onlyForm
  split
  · rename_i parties hstep
    rw [hstep] at hmode
    refine Gives.orFail.bind fun view hview => ?_
    have hviewPlain : view.Plain strict (who :: S) := hmode _ (OrderedMap.mem_of_get? hview)
    refine (hev.exprs (by exact trivial) hviewPlain hargs).bind fun made hmade => ?_
    split
    · rename_i level tag c hvalue
      have hclosure : (Value.closure tag c).Plain strict (who :: S) :=
        hmade.2 ⟨level, _⟩ (by rw [hvalue]; exact List.mem_cons_self)
      refine (sharedArgs_plain henv c.formals).bind fun shared hshared => ?_
      exact Meets.bind (P := Lifted.Done strict (who :: S))
        (hev.applyClosure (by exact trivial) hclosure fun b hb hacts =>
          (hshared b hb hacts).mono (List.subset_cons_self _ _))
        fun _ hdone => .skip fun newTag =>
          .pure ⟨newTag, _, _, rfl, hmade.1.append hdone.code, hdone.env.without c.formals⟩
    · exact .fail trivial
  · exact .fail trivial

theorem apply {rator : Value} {rands : List Surface.Expr} (hrator : rator.Plain strict S)
    (hrands : Surface.exprsStaged strict rands = true) :
    Gives (Lifted.Settled strict S) (ev.apply ctx loc env rator rands) := by
  refine (Trait.settled strict S).apply (hev.operands hmode henv hrands)
    (hev.applyValues hmode henv hrator) ?_
  rintro _ _ _ rfl
  cases hrator with
  | appForm => exact hev.appForm hmode henv hrands
  | round hfree hround =>
    refine (applyRound hround hrands).imp fun _ hr => ?_
    obtain ⟨hcode, _, _, hvalue, hnext⟩ := hr
    exact ⟨hcode ▸ .nil, hvalue ▸ .round hfree hnext⟩

theorem reads {p : Surface.Property} (hp : p.staged strict = true) :
    (Trait.settled strict S).Reads ev ctx env p := by
  cases p with
  | value _ name value =>
    simp only [Surface.Property.staged, Bool.and_eq_true] at hp
    refine ⟨fun key hkey => hev.operand hmode henv ?_, hev.operand hmode henv hp.2⟩
    simpa [hkey, Surface.PropertyName.staged] using hp.1
  | shorthand _ name =>
    simp only [Surface.Property.staged, Bool.not_eq_true', List.contains_eq_mem,
      decide_eq_false_iff_not] at hp
    exact henv.identify.imp fun _ hv => hv.resolve_right fun hacts => hp hacts.1
  | spread _ base =>
    simp only [Surface.Property.staged] at hp
    exact hev.operand hmode henv hp
  | method => trivial

end

/-! ### The rule for each expression -/

section

variable (henv : env.Plain strict S)

include henv

theorem lookup {name : String} (hname : name ∉ Surface.actingNames true) :
    Gives (fun sv => sv.value.Plain strict S) (env.lookup loc name) := by
  refine .of_yields fun hrun => henv.find? (fun hmem => hname ?_) (Bindings.lookup_yields.1 hrun).1
  cases strict with
  | true => exact hmem
  | false => simp [Surface.actingNames] at hmem

theorem binaryRator (op : Surface.BinaryOp) : Gives (Value.Plain strict S) (op.rator loc env) := by
  refine op.rator_meets (fun _ => trivial) (fun name hname => lookup henv ?_) fun _ => .prim trivial
  cases op <;> cases hname <;> decide

theorem unaryRator (op : Surface.UnaryOp) : Gives (Value.Plain strict S) (op.rator loc env) := by
  refine op.rator_meets (fun _ => trivial) fun name hname => lookup henv ?_
  cases op <;> cases hname <;> decide

end

/-- An expression that is no statement of its own has a plain value. -/
theorem evalExpr (hev : ev.Staged strict) (hmode : ctx.mode.Plain strict S)
    (henv : env.Plain strict S) {e : Surface.Expr} (hstaged : e.staged strict false = true) :
    Gives (Lifted.Settled strict S) (ev.evalExpr ctx env e) := by
  unfold Evaluator.evalExpr
  cases e with
  | ident loc name =>
    simp only [Surface.Expr.staged, Bool.false_or, Bool.not_eq_true', List.contains_eq_mem,
      decide_eq_false_iff_not] at hstaged
    exact henv.identify.bind fun _ hv =>
      .pure ⟨.nil, hv.resolve_right fun hacts => hstaged hacts.1⟩
  | int => exact .pure ⟨.nil, .int⟩
  | string => exact .pure ⟨.nil, .bytes⟩
  | bool => exact .pure ⟨.nil, .bool⟩
  | null => exact .pure ⟨.nil, .null⟩
  | array loc elems =>
    simp only [Surface.Expr.staged] at hstaged
    exact (Trait.settled strict S).array (hev.operands hmode henv hstaged)
  | object loc props =>
    simp only [Surface.Expr.staged] at hstaged
    exact (Trait.settled strict S).objectLiteral fun p hp =>
      hev.reads hmode henv (Surface.propsStaged_iff.1 hstaged p hp)
  | call loc callee args =>
    simp only [Surface.Expr.staged, Bool.and_eq_true] at hstaged
    exact (hev.operand hmode henv hstaged.1).bind fun _ hrator =>
      (hev.apply hmode henv hrator.value hstaged.2).bind fun _ hresult =>
        .pure ⟨hrator.code.append hresult.code, hresult.value⟩
  | dot loc base field =>
    simp only [Surface.Expr.staged, Bool.false_or, Bool.and_eq_true, Bool.not_eq_true',
      List.contains_eq_mem, decide_eq_false_iff_not] at hstaged
    refine (hev.operand hmode henv hstaged.1).bind fun _ hobject =>
      (Ctx.field_acted hobject.value).bind fun _ hfield => ?_
    have hsettled := hfield.resolve_right fun hacted => hstaged.2 hacted.1
    exact .pure ⟨hobject.code.append hsettled.code, hsettled.value⟩
  | index loc base position =>
    simp only [Surface.Expr.staged, Bool.and_eq_true] at hstaged
    exact Trait.settled_basic.index (hev.operand hmode henv hstaged.1)
      (hev.operand hmode henv hstaged.2)
  | binary loc op lhs rhs =>
    simp only [Surface.Expr.staged, Bool.and_eq_true] at hstaged
    exact (binaryRator henv op).bind fun _ hrator =>
      hev.apply hmode henv hrator (by simp [Surface.exprsStaged, hstaged])
  | unary loc op operand =>
    simp only [Surface.Expr.staged] at hstaged
    exact (unaryRator henv op).bind fun _ hrator =>
      hev.apply hmode henv hrator (by simp [Surface.exprsStaged, hstaged])
  | paren _ inner =>
    simp only [Surface.Expr.staged] at hstaged
    exact hev.operand hmode henv hstaged
  | ternary loc cond onTrue onFalse =>
    simp only [Surface.Expr.staged, Bool.and_eq_true] at hstaged
    exact Trait.settled_basic.ternary (hev.operand hmode henv hstaged.1.1)
      (hev.operand hmode henv hstaged.1.2) (hev.operand hmode henv hstaged.2)
  | arrow loc formals body =>
    simp only [Surface.Expr.staged] at hstaged
    exact .skip fun _ => .pure ⟨.nil, .closure hstaged henv⟩
  | function loc name formals body =>
    simp only [Surface.Expr.staged] at hstaged
    cases name with
    | none => exact .skip fun _ => .pure ⟨.nil, .closure hstaged henv⟩
    | some _ => exact .fail trivial
  | foreign => exact .fail trivial

/-- Calling something that acts: a private computation is done, a stage of a round is filled in, and
a commit or an exit is marked. -/
theorem actingCall (hev : ev.Staged strict) (hmode : ctx.mode.Plain strict S)
    (henv : env.Plain strict S) {moves : Bool} {rator : Lifted SecValue} {level : Level}
    {rands : List Surface.Expr} (hrator : rator.Acted strict S moves)
    (hrands : Surface.exprsStaged strict rands = true) :
    Gives (fun result => Lifted.Acted strict S moves
        { code := rator.code ++ result.code, value := result.value.taint level })
      (ev.apply ctx loc env rator.value.value rands) := by
  cases hrator with
  | settled h =>
    exact (hev.apply hmode henv h.value hrands).imp fun _ hresult =>
      .settled ⟨h.code.append hresult.code, hresult.value⟩
  | only hcode hvalue =>
    rw [hvalue]
    refine (hev.onlyForm hmode henv hrands).imp fun _ hresult => ?_
    obtain ⟨tag, view, answer, hdone, hcode', hview⟩ := hresult
    exact .onlyDone ((hcode.mono (List.subset_cons_self _ _)).append hcode') hview hdone
  | onlyDone _ _ hvalue =>
    rw [hvalue]
    exact .fail trivial
  | round hmoves hcode hround hvalue =>
    rw [hvalue, Evaluator.apply]
    refine (applyRound hround hrands).imp fun _ hresult => ?_
    obtain ⟨hnone, tag, next, hnext, hstaged⟩ := hresult
    exact .round hmoves (by rw [hnone, List.append_nil]; exact hcode) hstaged hnext
  | ending hmoves hcode hp hvalue =>
    rw [hvalue]
    refine (hev.exprs hmode henv hrands).bind fun args hargs => .of_yields fun hrun => ?_
    simp only [Evaluator.applyValues, yields_bind, yields_pure] at hrun
    obtain ⟨_, _, ⟨answer, _, hprim, rfl, _⟩, rfl, _⟩ := hrun
    rcases hp with rfl | rfl | rfl
    · simp only [Ctx.applyPrim, Ctx.commit, yields_bind, yields_pure] at hprim
      obtain ⟨_, _, _, _, _, _, rfl, _⟩ := hprim
      exact .ending hmoves (hcode.append (hargs.1.append .nil)) (.inr (.inl rfl)) rfl
    · simp [Ctx.applyPrim] at hprim
    · simp only [Ctx.applyPrim, Ctx.exit, yields_bind, yields_pure] at hprim
      obtain ⟨_, _, _, _, _, _, rfl, _⟩ := hprim
      exact .exited hmoves (hcode.append hargs.1) (List.append_assoc _ _ _).symm rfl
  | exited _ _ _ hvalue =>
    rw [hvalue]
    exact .skip fun _ => Meets.bind (P := fun _ => False) (.fail_bind trivial)
      fun _ hnever => hnever.elim

theorem actingDot {moves : Bool} {base : Lifted SecValue} {level : Level} {field : String}
    (hbase : base.Acted strict S moves) :
    Gives (fun result =>
        Lifted.Acted strict S (moves || (Stage.all.map (·.name)).contains field)
          { code := base.code ++ result.code, value := result.value.taint level })
      (ctx.field loc base.value.value field) := by
  cases hbase with
  | settled h =>
    refine (Ctx.field_acted h.value).imp fun result hresult => ?_
    rcases hresult with hsettled | ⟨_, hacted⟩
    · exact .settled ⟨h.code.append hsettled.code, hsettled.value⟩
    · cases hacted with
      | settled hsettled => exact .settled ⟨h.code.append hsettled.code, hsettled.value⟩
      | only hcode hvalue => exact .only (h.code.append hcode) hvalue
      | onlyDone hcode hview hvalue =>
        exact .onlyDone ((h.code.mono (List.subset_cons_self _ _)).append hcode) hview hvalue
      | round hmoves hcode hround hvalue =>
        exact .round (by simp only [hmoves, Bool.or_true]) (h.code.append hcode) hround hvalue
      | ending hmoves hcode hp hvalue =>
        exact .ending (by simp only [hmoves, Bool.or_true]) (h.code.append hcode) hp hvalue
      | exited hmoves hbefore hcode hvalue =>
        have hwhole := congrArg (base.code ++ ·) hcode
        exact .exited (by simp only [hmoves, Bool.or_true]) (h.code.append hbefore)
          (hwhole.trans (List.append_assoc _ _ _).symm) hvalue
  | round hmoves hcode hround hvalue =>
    rw [hvalue]
    refine Ctx.field_meets.gives.imp fun result hresult => ?_
    obtain ⟨hsilent, hatomic | hoffers⟩ := hresult
    · exact .settled ⟨hcode.append hsilent.quiet, hatomic.plain⟩
    · generalize hnext : result.value.value = w at hoffers
      cases hoffers
      exact .round (by simp [hmoves]) (hcode.append hsilent.quiet)
        (by exact ⟨hround.pay, hround.timeout⟩) hnext
  | only _ hvalue | onlyDone _ _ hvalue | exited _ _ _ hvalue =>
    rw [hvalue]
    exact .fail trivial
  | ending _ _ hp hvalue =>
    rw [hvalue]
    rcases hp with rfl | rfl | rfl <;> exact .fail trivial

/-- An expression as a statement. -/
theorem evalActing (hev : ev.Staged strict) (hmode : ctx.mode.Plain strict S)
    (henv : env.Plain strict S) {e : Surface.Expr} (hstaged : e.staged strict true = true) :
    Gives (Lifted.Acted strict S e.moves) (ev.evalExpr ctx env e) := by
  have hacting : ∀ {e : Surface.Expr}, e.staged strict true = true →
      Gives (Lifted.Acted strict S e.moves) (ev.expr ctx env e) :=
    fun he => .of_yields fun hrun => hev.acting hrun hmode henv he
  cases e with
  | ident loc name =>
    refine henv.identify.bind fun _ hv => .pure ?_
    rcases hv with hplain | ⟨hname, hprim⟩
    · exact .settled ⟨.nil, hplain⟩
    · have hmoves : (Surface.Expr.ident loc name).moves = true := by
        cases strict with
        | true => simpa [Surface.Expr.moves] using hname
        | false => simp [Surface.actingNames] at hname
      rcases hprim with hcommit | hexit
      · exact .ending hmoves .nil (.inl rfl) hcommit
      · exact .ending hmoves .nil (.inr (.inr rfl)) hexit
  | call loc callee args =>
    simp only [Surface.Expr.staged, Bool.and_eq_true] at hstaged
    rw [Surface.Expr.moves]
    exact (hacting hstaged.1).bind fun _ hrator =>
      (hev.actingCall hmode henv hrator hstaged.2).bind fun _ hresult => .pure hresult
  | dot loc base field =>
    simp only [Surface.Expr.staged, Bool.true_or, Bool.and_true] at hstaged
    rw [Surface.Expr.moves]
    exact (hacting hstaged).bind fun _ hobject => (actingDot hobject).bind fun _ hresult =>
      .pure hresult
  | paren loc inner =>
    simp only [Surface.Expr.staged] at hstaged
    rw [Surface.Expr.moves]
    exact hacting hstaged
  | _ =>
    exact (hev.evalExpr hmode henv (by simp_all only [Surface.Expr.staged])).imp fun _ => .settled

end Evaluator.Staged

end Choreography
