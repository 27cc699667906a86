import Choreography.Proofs.Casts

/-!
Evaluation within a cast: expressions. In an environment that refers to the cast only, where everyone
of the cast has a view, an expression evaluates to a value that refers to the cast only, or stops with
a fault that the cast excuses. At the top level of modules no one takes part, and apps bring their
own cast.
-/

namespace Choreography

open Eval Ir

variable {C : Cast} {at' : Option String} {loc : Loc} {ctx : Ctx} {env : Bindings} {ev : Evaluator}

/-- Everyone of the cast has a view, and the views refer to the cast only. -/
structure Parties.Within (C : Cast) (parties : Parties) : Prop where
  known {who : String} : C.Plays who → ∃ view, parties.views.get? who = some view
  views : ∀ e ∈ parties.views.entries, Bindings.Within C e.2

def Mode.Within (C : Cast) : Mode → Prop
  | .step parties | .consensus _ parties => parties.Within C
  | .module => C = {}
  | .pureLocal | .localStep => True

structure Outcome.Within (C : Cast) (o : Outcome) : Prop where
  env : o.env.Within C
  exits : ∀ exit ∈ o.exits, exit.value.value.Within C none

structure Applied.Within (C : Cast) (a : Applied) : Prop where
  env : a.env.Within C
  value : a.value.value.Within C none

/-- What the evaluator gives refers to the cast only, and its faults are excused. -/
structure Evaluator.Casts (C : Cast) (ev : Evaluator) : Prop where
  expr {ctx : Ctx} {env : Bindings} (hmode : ctx.mode.Within C) (henv : env.Within C)
    (e : Surface.Expr) : Meets C.Excuses (Lifted.Within C) (ev.expr ctx env e)
  stmts {ctx : Ctx} {loc : Loc} {scope : Scope} (hmode : ctx.mode.Within C)
    (henv : scope.env.Within C) (stmts : List Surface.Stmt) :
    Meets C.Excuses (fun r => r.value.Within C) (ev.stmts ctx loc scope stmts)

/-- Values that refer to the cast only. -/
def Cast.refers (C : Cast) : Trait where
  stops := C.Excuses
  code _ := True
  value v := v.Within C none
  has := Lifted.Within C
  ordinary := .ordinary
  nil := trivial
  append _ _ := trivial
  tuple := ⟨fun h => by cases h with | tuple h => exact h, .tuple⟩
  object := ⟨fun h => by cases h with | object h => exact h, .object⟩
  has_iff := ⟨fun h => ⟨trivial, h⟩, fun h => h.2⟩

theorem Cast.refers_basic (C : Cast) : C.refers.Basic where
  silent _ := trivial
  atomic h := h.within
  choice _ _ := trivial

/-! ### Application -/

theorem Cast.joinExits {body : Lifted Outcome} (hbody : body.value.Within C) (slot : Nat) :
    Meets C.Excuses (fun r => r.value.Within C) (ctx.joinExits loc slot body) := by
  unfold Ctx.joinExits
  simp only
  split
  · exact .pure ⟨hbody.env, .null⟩
  · rename_i exit hexits
    exact .pure ⟨hbody.env, hbody.exits exit (by rw [hexits]; exact List.mem_cons_self)⟩
  · exact C.skip (Exit.types_routine _) fun _ =>
      C.skip (Ty.joinAll_routine _) fun _ => .pure ⟨hbody.env, .var⟩

namespace Evaluator.Casts

variable (hev : ev.Casts C) (hmode : ctx.mode.Within C) (henv : env.Within C)
include hev hmode henv

theorem exprs (es : List Surface.Expr) :
    Meets C.Excuses (fun r => ∀ sv ∈ r.value, sv.value.Within C none) (ev.exprs ctx env es) :=
  (C.refers.exprs fun e _ => hev.expr hmode henv e).imp fun _ h => h.2

omit henv in
theorem applyClosure {c : Closure} {args : List SecValue} (hc : Bindings.Within C c.env)
    (hargs : ∀ sv ∈ args, sv.value.Within C none) :
    Meets C.Excuses (fun r => r.value.Within C) (ev.applyClosure ctx loc c args) := by
  have hformals : ∀ b ∈ c.formals.zip args, b.2.value.Within C (some b.1) :=
    fun b hb => (hargs b.2 (List.of_mem_zip hb).2).bound
  exact C.skip Ctx.alloc_routine fun slot => C.skip (.ensure rfl) fun _ =>
    (C.bindAll hc hformals).bind fun env henv =>
      Meets.bind (hev.stmts (by exact hmode) henv c.body.stmts) fun body hbody => C.joinExits hbody slot

theorem applyValues {rator : Value} {args : List SecValue} (hrator : rator.Within C at')
    (hargs : ∀ sv ∈ args, sv.value.Within C none) :
    Meets C.Excuses (fun r => r.value.Within C) (ev.applyValues ctx loc env rator args) := by
  unfold Evaluator.applyValues
  split
  · exact (C.applyPrim henv hrator hargs).bind fun _ hresult => .pure ⟨henv, hresult⟩
  · cases hrator with
    | closure hc => exact hev.applyClosure hmode hc hargs
  · exact .fail (.ordinary rfl)

end Evaluator.Casts

/-! ### Forms -/

/-- Participants have no names of their own when an app begins. -/
theorem Cast.participantsOf (C : Cast) (specs : List Value) :
    Meets C.Excuses (fun parts => ∀ e ∈ parts, e.2.displayName = none)
      (Choreography.participantsOf loc specs) := by
  induction specs with
  | nil => exact .pure (by simp)
  | cons spec specs ih =>
    refine Meets.bind (P := fun p => p.displayName = none) ?_ fun p hp =>
      Meets.freshTag.bind fun tag _ => ih.bind fun rest hrest =>
        .pure (List.forall_mem_cons.2 ⟨hp, hrest⟩)
    unfold participantOf
    split
    · exact C.skip (interfaceOf_routine _) fun _ => .pure rfl
    · exact .fail (.ordinary rfl)

/-- What has been bound is found. -/
theorem Bindings.bindAll_find? {bindings : List (String × SecValue)} :
    ∀ {env out : Bindings} {s s' : Supply}, (env.bindAll loc bindings).Yields s out s' →
      ∀ b ∈ bindings, out.find? b.1 = some b.2 := by
  induction bindings with
  | nil => simp
  | cons first rest ih =>
    intro env out s s' hrun b hb
    simp only [Bindings.bindAll, yields_bind, bind_yields] at hrun
    obtain ⟨_, _, ⟨hnew, rfl, rfl⟩, hrest⟩ := hrun
    rcases List.mem_cons.1 hb with rfl | hmem
    · exact Env.find?_of_older (bindAll_extends hrest) (Env.find?_push_self hnew)
    · exact ih hrest b hmem

/-- The formals of an app's function name its participants. -/
theorem Cast.enter (henv : env.Within {}) {formals : List String} {parts : List (Tag × Participant)}
    (hparts : ∀ e ∈ parts, e.2.displayName = none) (hlength : formals.length = parts.length) :
    Meets C.Excuses (fun out => Bindings.Within ⟨parts.map (·.2), formals⟩ out ∧
        ∀ name ∈ formals, ∃ tag p, out.find? name = some (.secret (.participant tag p)))
      (env.bindAll loc
        (formals.zip (parts.map fun e => Labelled.secret (Value.participant e.1 e.2)))) := by
  refine C.meets (env.bindAll_routine _) fun hrun => ⟨?_, fun name hname => ?_⟩
  · refine Bindings.Within.of_append (fun b hb => (henv b hb).anywhere) (fun b hb => ?_)
      (Bindings.bindAll_yields hrun).1
    obtain ⟨hformal, hsecret⟩ := List.of_mem_zip hb
    obtain ⟨e, he, heq⟩ := List.mem_map.1 hsecret
    rw [← heq]
    exact .participant ⟨e.2, List.mem_map_of_mem he, rfl⟩ hformal (by rw [hparts e he]; rfl)
  · have hzip : (formals.zip (parts.map fun e => Labelled.secret (Value.participant e.1 e.2))).map
        Prod.fst = formals := List.map_fst_zip (by simp [hlength])
    rw [← hzip] at hname
    obtain ⟨b, hb, rfl⟩ := List.mem_map.1 hname
    obtain ⟨e, _, heq⟩ := List.mem_map.1 (List.of_mem_zip hb).2
    exact ⟨e.1, e.2, by rw [Bindings.bindAll_find? hrun b hb, ← heq]⟩

/-- A stage that is filled in changes neither who sends nor by which name. -/
theorem Cast.fill {r : Round} (hplays : C.Plays r.who)
    (hnames : ∀ name, r.displayName = some name → name ∈ C.names) (stage : Stage)
    (args : List Surface.Expr) :
    Meets C.Excuses (fun next => C.Plays next.who ∧
      ∀ name, next.displayName = some name → name ∈ C.names) (r.fill loc stage args) := by
  cases stage with
  | publish =>
    exact C.skip (.ensure rfl) fun _ =>
      C.skip (publishedNames_routine args) fun _ => .pure ⟨hplays, hnames⟩
  | pay =>
    refine C.skip (.ensure rfl) fun _ => ?_
    split
    · exact .pure ⟨hplays, hnames⟩
    · exact .fail (.ordinary rfl)
  | timeout =>
    refine C.skip (.ensure rfl) fun _ => ?_
    split
    · exact .pure ⟨hplays, hnames⟩
    · exact .fail (.ordinary rfl)

namespace Evaluator.Casts

variable (hev : ev.Casts C) (hmode : ctx.mode.Within C) (henv : env.Within C)
include hev hmode henv

/-- An app is made at the top level of a module, where no one takes part. Its cast are the
participants that it names, and the formals of its function name them. -/
theorem appForm (args : List Surface.Expr) :
    Meets C.Excuses (Lifted.Within C) (ev.appForm ctx loc env args) := by
  refine Meets.bind (Meets.ensure fun _ => .ordinary rfl) fun _ hmodule => ?_
  have hcast : C = {} := by
    cases hctx : ctx.mode with
    | module =>
      rw [hctx] at hmode
      exact hmode
    | _ => simp [hctx, Mode.isModule] at hmodule
  subst hcast
  split
  · rename_i options parts topLoc formals body
    refine (hev.exprs hmode henv _).bind fun evaluated _ => ?_
    split
    · rename_i specs _
      refine (Cast.participantsOf _ specs).bind fun parts hparts => ?_
      refine (Meets.ensure fun _ => .ordinary rfl).bind fun _ hlength => ?_
      exact (Cast.enter henv hparts (of_decide_eq_true hlength)).bind fun _ happ =>
        Meets.freshTag.bind fun _ _ => .pure (.app happ.2 happ.1)
    · exact .fail (.ordinary rfl)
  · exact .fail (.ordinary rfl)

/-- Whoever may act alone has a view to act in. -/
theorem onlyForm {who : String} (hplays : C.Plays who) (args : List Surface.Expr) :
    Meets C.Excuses (Lifted.Within C) (ev.onlyForm ctx loc env who args) := by
  unfold Evaluator.onlyForm
  split
  · rename_i parties hstep
    rw [hstep] at hmode
    obtain ⟨known, hknown⟩ := hmode.known hplays
    refine (Meets.orFail fun hnone => by simp [hknown] at hnone).bind fun view hview => ?_
    have hwithin : view.Within C := hmode.views _ (OrderedMap.mem_of_get? hview)
    refine (hev.exprs (by exact trivial) hwithin args).bind fun made hmade => ?_
    split
    · rename_i level tag c hvalue
      refine Meets.bind (C.refers.sharedArgs fun name _ => C.identify henv name)
        fun shared hshared => ?_
      have hclosure : (Value.closure tag c).Within C none :=
        hmade ⟨level, .closure tag c⟩ (by rw [hvalue]; exact List.mem_cons_self)
      refine (hev.applyValues (by exact trivial) hwithin hclosure hshared).bind fun applied happlied => ?_
      exact Meets.freshTag.bind fun _ _ => .pure (.onlyDone (happlied.env.without c.formals))
    · exact .fail (.ordinary rfl)
  · exact .fail (.ordinary rfl)

theorem applyForm {f : Form} {formLoc : Loc} {tag : Tag}
    (hf : (Value.form formLoc tag f).Within C at') (args : List Surface.Expr) :
    Meets C.Excuses (Lifted.Within C) (ev.applyForm ctx loc env formLoc f args) := by
  cases hf with
  | appForm => exact hev.appForm hmode henv args
  | only hplays => exact hev.onlyForm hmode henv hplays args
  | onlyDone => exact .fail (.ordinary rfl)
  | round hplays hnames =>
    refine C.skip (Ctx.expectMode_routine ..) fun _ => ?_
    exact C.skip (.orFail rfl) fun stage => (C.fill hplays hnames stage args).bind
      fun next hnext => Meets.freshTag.bind fun _ _ => .pure (.round hnext.1 hnext.2)

theorem apply {rator : Value} (hrator : rator.Within C at') (rands : List Surface.Expr) :
    Meets C.Excuses (Lifted.Within C) (ev.apply ctx loc env rator rands) := by
  refine C.refers.apply (fun e _ => hev.expr hmode henv e) (fun hargs =>
    (hev.applyValues hmode henv hrator hargs).imp fun _ h => ⟨trivial, h.value⟩) ?_
  rintro _ _ _ rfl
  exact hev.applyForm hmode henv hrator rands

/-! ### Expressions -/

theorem reads (p : Surface.Property) : C.refers.Reads ev ctx env p := by
  cases p with
  | value => exact ⟨fun key _ => hev.expr hmode henv key, hev.expr hmode henv _⟩
  | shorthand => exact C.identify henv _
  | spread => exact hev.expr hmode henv _
  | method => trivial

omit hev hmode in
theorem lookup (name : String) :
    Meets C.Excuses (fun sv => ∃ at', sv.value.Within C at') (env.lookup loc name) :=
  (C.lookup henv name).imp fun _ hsv => ⟨some name, hsv⟩

theorem evalExpr (e : Surface.Expr) :
    Meets C.Excuses (Lifted.Within C) (ev.evalExpr ctx env e) := by
  unfold Evaluator.evalExpr
  cases e with
  | ident loc name => exact (C.identify henv name).bind fun _ hsv => .pure hsv
  | int => exact .pure .int
  | string => exact .pure .bytes
  | bool => exact .pure .bool
  | null => exact .pure .null
  | array loc elems => exact C.refers.array fun e _ => hev.expr hmode henv e
  | object loc props => exact C.refers.objectLiteral fun p _ => hev.reads hmode henv p
  | call loc callee args =>
    exact (hev.expr hmode henv callee).bind fun rator hrator =>
      (hev.apply hmode henv hrator args).bind fun _ hresult => .pure hresult
  | dot loc base field =>
    exact (hev.expr hmode henv base).bind fun object hobject =>
      (C.field hobject field).bind fun _ hresult => .pure hresult
  | index loc base position =>
    exact C.refers_basic.index (hev.expr hmode henv base) (hev.expr hmode henv position)
  | binary loc op lhs rhs =>
    refine Meets.bind (op.rator_meets (Q := fun v => ∃ at', v.Within C at') .ordinary
      (fun name _ => lookup henv name) fun _ => ⟨none, .prim rfl⟩) ?_
    rintro rator ⟨at', hrator⟩
    exact hev.apply hmode henv hrator [lhs, rhs]
  | unary loc op operand =>
    refine Meets.bind (op.rator_meets (Q := fun v => ∃ at', v.Within C at') .ordinary
      fun name _ => lookup henv name) ?_
    rintro rator ⟨at', hrator⟩
    exact hev.apply hmode henv hrator [operand]
  | paren _ inner => exact hev.expr hmode henv inner
  | ternary loc cond onTrue onFalse =>
    exact C.refers_basic.ternary (hev.expr hmode henv cond) (hev.expr hmode henv onTrue)
      (hev.expr hmode henv onFalse)
  | arrow loc formals body => exact Meets.freshTag.bind fun _ _ => .pure (.closure henv)
  | function loc name formals body =>
    cases name with
    | none => exact Meets.freshTag.bind fun _ _ => .pure (.closure henv)
    | some name => exact .fail (.ordinary rfl)
  | foreign => exact .fail (.ordinary rfl)

end Evaluator.Casts

end Choreography
