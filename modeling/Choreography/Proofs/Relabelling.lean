import Choreography.Proofs.LikeStatements
import Choreography.Proofs.Modes

/-!
Values and programs that differ in levels only. Where one is `Raised` to another, both are built in
the same way, identities and numbers included, and each level in the second is at least as secret as
the corresponding level in the first. Levels stand at bindings, at the fields of objects, and in the
environments that closures, apps and finished private computations hold.

Text has no levels, so that being raised is the same as being alike where levels vary.
-/

namespace Choreography

open Eval Ir

/-! ### Values -/

/-- The form that holds an environment. -/
def Form.isDone : Form → Bool
  | .onlyDone .. => true
  | .app | .only _ | .round _ => false

mutual

/-- Values that are built in the same way, with levels that are the same or higher in the second.
The fields of objects have distinct names. -/
inductive Value.Raised : Value → Value → Prop
  | null {loc : Loc} : Value.Raised (.null loc) (.null loc)
  | bool {loc : Loc} {b : Bool} : Value.Raised (.bool loc b) (.bool loc b)
  | int {loc : Loc} {n : Int} : Value.Raised (.int loc n) (.int loc n)
  | bytes {loc : Loc} {s : String} : Value.Raised (.bytes loc s) (.bytes loc s)
  | type {loc : Loc} {t : Ty} : Value.Raised (.type loc t) (.type loc t)
  | participant {tag : Tag} {p : Participant} : Value.Raised (.participant tag p) (.participant tag p)
  | var {v : Var} : Value.Raised (.var v) (.var v)
  | prim {loc : Loc} {p : Prim} (h : p.isApp = false) : Value.Raised (.prim loc p) (.prim loc p)
  | app {loc : Loc} {tag : Tag} {options options' env env' : Bindings} {parts : List Participant}
    {body : Surface.Block} (hoptions : Bindings.Raised options options')
    (henv : Bindings.Raised env env') :
    Value.Raised (.prim loc (.app tag ⟨options, parts, body, env⟩))
      (.prim loc (.app tag ⟨options', parts, body, env'⟩))
  | form {loc : Loc} {tag : Tag} {f : Form} (h : f.isDone = false) :
    Value.Raised (.form loc tag f) (.form loc tag f)
  | onlyDone {loc : Loc} {tag : Tag} {who : String} {view view' : Bindings}
    {result result' : SecValue} (hview : Bindings.Raised view view')
    (hresult : SecValue.Raised result result') :
    Value.Raised (.form loc tag (.onlyDone who view result)) (.form loc tag (.onlyDone who view' result'))
  | tuple {loc : Loc} {elems elems' : List Value} (h : List.Forall₂ Value.Raised elems elems') :
    Value.Raised (.tuple loc elems) (.tuple loc elems')
  | object {loc : Loc} {fields fields' : Bindings} (hdistinct : fields.Distinct)
    (h : Bindings.Raised fields fields') : Value.Raised (.object loc fields) (.object loc fields')
  | closure {tag : Tag} {loc : Loc} {name : Option String} {formals : List String}
    {body : Surface.Block} {env env' : Bindings} (h : Bindings.Raised env env') :
    Value.Raised (.closure tag ⟨loc, name, formals, body, env⟩)
      (.closure tag ⟨loc, name, formals, body, env'⟩)

inductive SecValue.Raised : SecValue → SecValue → Prop
  | mk {level level' : Level} {v v' : Value} (hlevel : level ≤ level') (h : Value.Raised v v') :
    SecValue.Raised ⟨level, v⟩ ⟨level', v'⟩

inductive Binding.Raised : String × SecValue → String × SecValue → Prop
  | mk {name : String} {sv sv' : SecValue} (h : SecValue.Raised sv sv') :
    Binding.Raised (name, sv) (name, sv')

inductive Bindings.Raised : Bindings → Bindings → Prop
  | mk {entries entries' : List (String × SecValue)}
    (h : List.Forall₂ Binding.Raised entries entries') : Bindings.Raised ⟨entries⟩ ⟨entries'⟩

end

/-! ### Values that are alike where levels vary -/

theorem Round.Like.eq {r r' : Round} (h : r.Like .levels r') : r = r' := by
  obtain ⟨hpay, htimeout⟩ := h
  congr 1
  · cases hpay with
    | none => rfl
    | some h => rw [Surface.Expr.Like.eq _ _ h]
  · cases htimeout with
    | none => rfl
    | some h =>
      obtain ⟨hdelay, hhandler⟩ := h
      rw [Surface.Expr.Like.eq _ _ hdelay, Surface.Block.Like.eq _ _ hhandler]

mutual

theorem Value.Like.raised : ∀ v v' : Value, v.Like .levels v' → v.Raised v'
  | .null _, _, .null h => by
    cases h rfl
    exact .null
  | .bool .., _, .bool => .bool
  | .int .., _, .int => .int
  | .bytes .., _, .bytes => .bytes
  | .type .., _, .type => .type
  | .participant .., _, .participant => .participant
  | .var _, _, .var => .var
  | .prim _ _, _, .prim h => .prim h
  | .prim _ (.app _ ⟨⟨options⟩, _, _, ⟨env⟩⟩), _, .app (.mk hoptions) hbody (.mk henv) => by
    cases Surface.Block.Like.eq _ _ hbody
    exact .app (.mk (entries_like_raised options _ hoptions)) (.mk (entries_like_raised env _ henv))
  | .form _ _ .app, _, .appForm => .form rfl
  | .form _ _ (.only _), _, .only => .form rfl
  | .form _ _ (.round _), _, .round h => by
    cases h.eq
    exact .form rfl
  | .form _ _ (.onlyDone _ ⟨view⟩ ⟨_, result⟩), _, .onlyDone (.mk hview) (.mk hlevel hresult) =>
    .onlyDone (.mk (entries_like_raised view _ hview)) (.mk hlevel (Value.Like.raised result _ hresult))
  | .tuple _ elems, _, .tuple h => .tuple (values_like_raised elems _ h)
  | .object _ ⟨fields⟩, _, .object hdistinct (.mk h) =>
    .object (hdistinct rfl) (.mk (entries_like_raised fields _ h))
  | .closure _ ⟨_, _, _, _, ⟨env⟩⟩, _, .closure hbody (.mk h) => by
    cases Surface.Block.Like.eq _ _ hbody
    exact .closure (.mk (entries_like_raised env _ h))

theorem values_like_raised : ∀ vs vs' : List Value, List.Forall₂ (Value.Like .levels) vs vs' →
    List.Forall₂ Value.Raised vs vs'
  | [], _, .nil => .nil
  | v :: vs, _, .cons hv h => .cons (Value.Like.raised v _ hv) (values_like_raised vs _ h)

theorem entries_like_raised : ∀ bs bs' : List (String × Labelled Value),
    List.Forall₂ (Binding.Like .levels) bs bs' → List.Forall₂ Binding.Raised bs bs'
  | [], _, .nil => .nil
  | (_, ⟨_, v⟩) :: bs, _, .cons (.mk (.mk hlevel hv)) h =>
    .cons (.mk (.mk hlevel (Value.Like.raised v _ hv))) (entries_like_raised bs _ h)

end

mutual

theorem Value.Raised.like : ∀ v v' : Value, v.Raised v' → v.Like .levels v'
  | .null _, _, .null => .null fun _ => rfl
  | .bool .., _, .bool => .bool
  | .int .., _, .int => .int
  | .bytes .., _, .bytes => .bytes
  | .type .., _, .type => .type
  | .participant .., _, .participant => .participant
  | .var _, _, .var => .var
  | .prim _ _, _, .prim h => .prim h
  | .prim _ (.app _ ⟨⟨options⟩, _, _, ⟨env⟩⟩), _, .app (.mk hoptions) (.mk henv) =>
    .app (.mk (entries_raised_like options _ hoptions)) (.refl _)
      (.mk (entries_raised_like env _ henv))
  | .form _ _ .app, _, .form _ => .appForm
  | .form _ _ (.only _), _, .form _ => .only
  | .form _ _ (.round _), _, .form _ => .round (.refl _)
  | .form _ _ (.onlyDone _ ⟨view⟩ ⟨_, result⟩), _, .onlyDone (.mk hview) (.mk hlevel hresult) =>
    .onlyDone (.mk (entries_raised_like view _ hview)) (.mk hlevel (Value.Raised.like result _ hresult))
  | .tuple _ elems, _, .tuple h => .tuple (values_raised_like elems _ h)
  | .object _ ⟨fields⟩, _, .object hdistinct (.mk h) =>
    .object (fun _ => hdistinct) (.mk (entries_raised_like fields _ h))
  | .closure _ ⟨_, _, _, _, ⟨env⟩⟩, _, .closure (.mk h) =>
    .closure (.refl _) (.mk (entries_raised_like env _ h))

theorem values_raised_like : ∀ vs vs' : List Value, List.Forall₂ Value.Raised vs vs' →
    List.Forall₂ (Value.Like .levels) vs vs'
  | [], _, .nil => .nil
  | v :: vs, _, .cons hv h => .cons (Value.Raised.like v _ hv) (values_raised_like vs _ h)

theorem entries_raised_like : ∀ bs bs' : List (String × Labelled Value),
    List.Forall₂ Binding.Raised bs bs' → List.Forall₂ (Binding.Like .levels) bs bs'
  | [], _, .nil => .nil
  | (_, ⟨_, v⟩) :: bs, _, .cons (.mk (.mk hlevel hv)) h =>
    .cons (.mk (.mk hlevel (Value.Raised.like v _ hv))) (entries_raised_like bs _ h)

end

theorem SecValue.Like.raised {sv sv' : SecValue} (h : sv.Like .levels sv') : sv.Raised sv' := by
  obtain ⟨hlevel, h⟩ := h
  exact .mk hlevel (Value.Like.raised _ _ h)

theorem Bindings.Like.raised {env env' : Bindings} (h : env.Like .levels env') : env.Raised env' := by
  obtain ⟨h⟩ := h
  exact .mk (entries_like_raised _ _ h)

theorem Bindings.Raised.like {env env' : Bindings} (h : env.Raised env') : env.Like .levels env' := by
  obtain ⟨h⟩ := h
  exact .mk (entries_raised_like _ _ h)

/-! ### Code -/

namespace Ir

mutual

/-- Statements that are the same, but for the levels inside the values that they return. -/
inductive Stmt.Raised : Stmt → Stmt → Prop
  | letIn {loc : Loc} {v : Var} {e : Expr} : Stmt.Raised (.letIn loc v e) (.letIn loc v e)
  | claim {loc : Loc} {frames : List Frame} {c : Claim} {a : Arg} :
    Stmt.Raised (.claim loc frames c a) (.claim loc frames c a)
  | transfer {loc : Loc} {frames : List Frame} {recipient amount : Arg} :
    Stmt.Raised (.transfer loc frames recipient amount) (.transfer loc frames recipient amount)
  | stop {loc : Loc} {frames : List Frame} : Stmt.Raised (.stop loc frames) (.stop loc frames)
  | ret {loc : Loc} {slot : Nat} {v v' : Value} (h : v.Raised v') :
    Stmt.Raised (.ret loc slot (some v)) (.ret loc slot (some v'))
  | prompt {loc : Loc} {slot : Nat} {result : Option Var} {body body' : Code}
    (h : List.Forall₂ Stmt.Raised body body') :
    Stmt.Raised (.prompt loc slot result body) (.prompt loc slot result body')
  | branch {loc : Loc} {cond : Arg} {onTrue onTrue' onFalse onFalse' : Code}
    (ht : List.Forall₂ Stmt.Raised onTrue onTrue') (hf : List.Forall₂ Stmt.Raised onFalse onFalse') :
    Stmt.Raised (.branch loc cond onTrue onFalse) (.branch loc cond onTrue' onFalse')
  | only {loc : Loc} {who : String} {body body' : Code} (h : List.Forall₂ Stmt.Raised body body') :
    Stmt.Raised (.only loc who body) (.only loc who body')
  | toConsensus {loc : Loc} {who : String} {join : Bool} {whoVar : Var}
    {messages : List (Arg × Var)} {amount : Arg} {timeout timeout' : Option Deadline}
    {body body' : Code} (htimeout : Option.Rel Deadline.Raised timeout timeout')
    (h : List.Forall₂ Stmt.Raised body body') :
    Stmt.Raised (.toConsensus loc ⟨who, join, whoVar, messages, amount, timeout, body⟩)
      (.toConsensus loc ⟨who, join, whoVar, messages, amount, timeout', body'⟩)
  | fromConsensus {loc : Loc} {body body' : Code} (h : List.Forall₂ Stmt.Raised body body') :
    Stmt.Raised (.fromConsensus loc body) (.fromConsensus loc body')
  | loop {loc : Loc} {init : Assignment} {invariant invariant' cond cond' : Block}
    {body body' : Code} (hinvariant : Block.Raised invariant invariant')
    (hcond : Block.Raised cond cond') (h : List.Forall₂ Stmt.Raised body body') :
    Stmt.Raised (.loop loc init invariant cond body) (.loop loc init invariant' cond' body')
  | cont {loc : Loc} {a : Assignment} : Stmt.Raised (.cont loc a) (.cont loc a)

inductive Deadline.Raised : Deadline → Deadline → Prop
  | mk {delay : Arg} {body body' : Code} (h : List.Forall₂ Stmt.Raised body body') :
    Deadline.Raised ⟨delay, body⟩ ⟨delay, body'⟩

inductive Block.Raised : Block → Block → Prop
  | mk {loc : Loc} {frames : List Frame} {code code' : Code} {result : Arg}
    (h : List.Forall₂ Stmt.Raised code code') :
    Block.Raised ⟨loc, frames, code, result⟩ ⟨loc, frames, code', result⟩

end

/-- Code that is the same, but for the levels inside the values that it returns. -/
abbrev Code.Raised (code code' : Code) : Prop := List.Forall₂ Stmt.Raised code code'

mutual

theorem Stmt.Like.raised : ∀ s s' : Stmt, s.Like .levels s' → s.Raised s'
  | .letIn .., _, .letIn => .letIn
  | .claim .., _, .claim => .claim
  | .transfer .., _, .transfer => .transfer
  | .stop .., _, .stop => .stop
  | .ret _ _ _, _, .ret h => .ret (Value.Like.raised _ _ h)
  | .prompt _ _ _ body, _, .prompt h => .prompt (code_like_raised body _ h)
  | .branch _ _ onTrue onFalse, _, .branch ht hf =>
    .branch (code_like_raised onTrue _ ht) (code_like_raised onFalse _ hf)
  | .only _ _ body, _, .only h => .only (code_like_raised body _ h)
  | .toConsensus _ ⟨_, _, _, _, _, none, body⟩, _, .toConsensus .none h =>
    .toConsensus .none (code_like_raised body _ h)
  | .toConsensus _ ⟨_, _, _, _, _, some ⟨_, late⟩, body⟩, _, .toConsensus (.some (.mk hlate)) h =>
    .toConsensus (.some (.mk (code_like_raised late _ hlate))) (code_like_raised body _ h)
  | .fromConsensus _ body, _, .fromConsensus h => .fromConsensus (code_like_raised body _ h)
  | .loop _ _ ⟨_, _, invariant, _⟩ ⟨_, _, cond, _⟩ body, _, .loop (.mk hinvariant) (.mk hcond) h =>
    .loop (.mk (code_like_raised invariant _ hinvariant)) (.mk (code_like_raised cond _ hcond))
      (code_like_raised body _ h)
  | .cont .., _, .cont => .cont

theorem code_like_raised : ∀ code code' : List Stmt, List.Forall₂ (Stmt.Like .levels) code code' →
    List.Forall₂ Stmt.Raised code code'
  | [], _, .nil => .nil
  | s :: rest, _, .cons hs h => .cons (Stmt.Like.raised s _ hs) (code_like_raised rest _ h)

end

end Ir

/-! ### Contexts, scopes and results -/

/-- Private views of the same participants. -/
def Views.Raised (views views' : NameMap Bindings) : Prop :=
  List.Forall₂ (fun e e' => e.1 = e'.1 ∧ Bindings.Raised e.2 e'.2) views.entries views'.entries

inductive Mode.Raised : Mode → Mode → Prop
  | module : Raised .module .module
  | step {joined : NameMap Var} {views views' : NameMap Bindings} (h : Views.Raised views views') :
    Raised (.step ⟨joined, views⟩) (.step ⟨joined, views'⟩)
  | pureLocal : Raised .pureLocal .pureLocal
  | localStep : Raised .localStep .localStep
  | consensus {opened opened' : Bindings} {joined : NameMap Var} {views views' : NameMap Bindings}
    (hopened : opened.Raised opened') (h : Views.Raised views views') :
    Raised (.consensus opened ⟨joined, views⟩) (.consensus opened' ⟨joined, views'⟩)

inductive Ctx.Raised : Ctx → Ctx → Prop
  | mk {mode mode' : Mode} {canLift : Bool} {frames : List Frame} {localNames : Option (List String)}
    (h : mode.Raised mode') :
    Raised ⟨mode, canLift, frames, localNames⟩ ⟨mode', canLift, frames, localNames⟩

inductive Scope.Raised : Scope → Scope → Prop
  | mk {slot : Option Nat} {style : ReturnStyle} {env env' : Bindings}
    {loopVars : Option (NameMap Var)} (h : env.Raised env') :
    Raised ⟨slot, style, env, loopVars⟩ ⟨slot, style, env', loopVars⟩

structure Lifted.Raised {α β : Type} (R : α → β → Prop) (r : Lifted α) (r' : Lifted β) : Prop where
  code : r.code.Raised r'.code
  value : R r.value r'.value

inductive Exit.Raised : Exit → Exit → Prop
  | mk {loc : Loc} {sv sv' : SecValue} (h : sv.Raised sv') : Raised ⟨loc, sv⟩ ⟨loc, sv'⟩

structure Outcome.Raised (o o' : Outcome) : Prop where
  env : o.env.Raised o'.env
  exits : List.Forall₂ Exit.Raised o.exits o'.exits

/-! ### Contexts, scopes and results that are alike where levels vary -/

theorem Views.Raised.like {views views' : NameMap Bindings} (h : Views.Raised views views') :
    Views.Like .levels views views' :=
  List.Forall₂.imp (fun _ _ he => ⟨he.1, he.2.like⟩) h

theorem Ctx.Raised.like {ctx ctx' : Ctx} (h : ctx.Raised ctx') : ctx.Like .levels ctx' := by
  obtain ⟨h⟩ := h
  refine .mk ?_
  cases h with
  | module => exact .module
  | step h => exact .step h.like
  | pureLocal => exact .pureLocal
  | localStep => exact .localStep
  | consensus hopened h => exact .consensus hopened.like h.like

theorem Scope.Raised.like {scope scope' : Scope} (h : scope.Raised scope') :
    scope.Like .levels scope' := by
  obtain ⟨h⟩ := h
  exact .mk h.like

theorem Lifted.Like.raised {α β : Type} {R Q : α → β → Prop} {r : Lifted α} {r' : Lifted β}
    (h : r.Like .levels R r') (hvalue : R r.value r'.value → Q r.value r'.value) : r.Raised Q r' :=
  ⟨code_like_raised _ _ h.code, hvalue h.value⟩

theorem Outcome.Like.raised {o o' : Outcome} (h : o.Like .levels o') : o.Raised o' := by
  refine ⟨h.env.raised, h.exits.imp ?_⟩
  rintro ⟨loc, sv⟩ ⟨loc', sv'⟩ ⟨hloc, hvalue⟩
  cases hloc rfl
  exact .mk hvalue.raised

/-! ### Independence of levels -/

/-- Levels never show in what is emitted, and they are monotone. Take an expression or a list of
statements, and contexts and environments that are the same but for levels, wherever these stand,
each at least as high on the right. If evaluation has a result on both sides from one supply, it
leaves one supply, and the values and the code are the same but for levels, each at least as high on
the right. -/
theorem evaluation_independent_of_levels (fuel fuel' : Nat) {ctx ctx' : Ctx}
    (hctx : ctx.Raised ctx') :
    (∀ env env' e s r s₁ r' s₂, env.Raised env' →
      (Elaboration.evalExpr fuel ctx env e).Yields s r s₁ →
      (Elaboration.evalExpr fuel' ctx' env' e).Yields s r' s₂ →
      s₁ = s₂ ∧ r.Raised SecValue.Raised r') ∧
    ∀ loc scope scope' stmts s r s₁ r' s₂, scope.Raised scope' →
      (Elaboration.evalStmts fuel ctx loc scope stmts).Yields s r s₁ →
      (Elaboration.evalStmts fuel' ctx' loc scope' stmts).Yields s r' s₂ →
      s₁ = s₂ ∧ r.Raised Outcome.Raised r' := by
  have htracked : (evaluator fuel).Tracked .levels := evaluator_tracked fuel
  constructor
  · intro env env' e s r s₁ r' s₂ henv hrun hrun'
    obtain ⟨hr, hs⟩ := (htracked.expr hctx.like henv.like (.refl e)).agree hrun hrun'
    exact ⟨hs, hr.raised SecValue.Like.raised⟩
  · intro loc scope scope' stmts s r s₁ r' s₂ hscope hrun hrun'
    have htracks := htracked.stmts hctx.like (fun _ => (rfl : loc = loc)) hscope.like
      (Surface.stmts_like_refl stmts .free)
    obtain ⟨hr, hs⟩ := htracks.agree hrun hrun'
    exact ⟨hs, hr.raised Outcome.Like.raised⟩

namespace Surface

/-- A function that returns an object with a number in it, applied at once. -/
def wrapped : Expr :=
  .call here (thunk [define "y" (name "x"),
    .ret here (some (.object here [.value here (.ident "a") (name "y")]))]) []

/-- A number that is known at run time only, at a level. -/
def knowingAt (level : Level) : Bindings :=
  ⟨[("x", ⟨level, .var { loc := here, name := "x", type := .uint256, id := 0 }⟩)]⟩

end Surface

/-- The level of the only field of an object. -/
def Value.soleLevel? : Value → Option Level
  | .object _ ⟨[(_, sv)]⟩ => some sv.level
  | _ => none

theorem wrapped_independent_of_levels :
    ∃ r r' s₁ s₂,
      (Elaboration.evalExpr 10 { mode := .step {}, canLift := true } (Surface.knowingAt .pub)
        Surface.wrapped).Yields {} r s₁ ∧
      (Elaboration.evalExpr 10 { mode := .step {}, canLift := true } (Surface.knowingAt .secret)
        Surface.wrapped).Yields {} r' s₂ ∧
      r.value.value.soleLevel? = some .pub ∧ r'.value.value.soleLevel? = some .secret ∧
      s₁ = s₂ ∧ r.Raised SecValue.Raised r' := by
  obtain ⟨r, s₁, hrun, hlevel⟩ := exists_yields_of_any (s := {})
    (f := fun r => r.value.value.soleLevel? == some .pub)
    (x := Elaboration.evalExpr 10 { mode := .step {}, canLift := true } (Surface.knowingAt .pub)
      Surface.wrapped) (by decide +kernel)
  obtain ⟨r', s₂, hrun', hlevel'⟩ := exists_yields_of_any (s := {})
    (f := fun r => r.value.value.soleLevel? == some .secret)
    (x := Elaboration.evalExpr 10 { mode := .step {}, canLift := true } (Surface.knowingAt .secret)
      Surface.wrapped) (by decide +kernel)
  have hctx : Ctx.Raised { mode := .step {}, canLift := true } { mode := .step {}, canLift := true } :=
    .mk (.step .nil)
  have henv : (Surface.knowingAt .pub).Raised (Surface.knowingAt .secret) :=
    .mk (.cons (.mk (.mk (Level.pub_le _) .var)) .nil)
  exact ⟨r, r', s₁, s₂, hrun, hrun', by simpa using hlevel, by simpa using hlevel',
    (evaluation_independent_of_levels 10 10 hctx).1 _ _ _ _ _ _ _ _ henv hrun hrun'⟩

end Choreography
