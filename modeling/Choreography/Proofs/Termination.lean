import Choreography.Proofs.Policies
import Choreography.Proofs.PureEvaluation

/-!
Elaboration ends. Where no code may be emitted it always does, so linking always does. Elsewhere
functions of the program are applied, and evaluation ends for programs that have shapes: the names
that every module begins with have theirs, what has a shape ends and binds names to values of their
shapes, and the app of a bundle that has shapes is compiled. A function that is applied to itself has
no shape, and its evaluation never ends.
-/

namespace Choreography

open Eval Ir

variable {S : Setting} {Γ : Shaping} {loc : Loc} {env : Bindings} {options : Options}
  {sources : SourceTable} {bundle : Bundle} {top : String}

/-! ### Linking -/

namespace Link

theorem topLevel_ends (stmt : Surface.Stmt) :
    Ends (fun fuel => topLevel (evaluator fuel) loc env stmt) fun _ => True :=
  Ends.bind (pureStmts_ends rfl rfl [stmt]) fun _ _ => Ends.ensure.bind fun _ _ => .pure trivial

theorem item_ends (libs : Libraries) (m : ModuleState) (i : Surface.Item) :
    Ends (fun fuel => item (evaluator fuel) sources libs m i) fun _ => True := by
  cases i with
  | importFrom =>
    exact Ends.orFail.bind fun _ _ => Ends.skip (Bindings.bindAll_routine ..)
      fun _ => .pure trivial
  | exported loc stmt =>
    exact (topLevel_ends stmt).bind fun _ _ => Ends.skip (Bindings.bindAll_routine ..)
      fun _ => .pure trivial
  | plain loc stmt => exact (topLevel_ends stmt).bind fun _ _ => .pure trivial
  | foreign loc what => cases what <;> exact .fail

theorem items_ends (libs : Libraries) (is : List Surface.Item) : ∀ m : ModuleState,
    Ends (fun fuel => items (evaluator fuel) sources libs m is) fun _ => True := by
  induction is with
  | nil => exact fun _ => .pure trivial
  | cons i is ih => exact fun m => (item_ends libs m i).bind fun next _ => ih next

theorem initialEnv_ends (libs : Libraries) (m : ModuleSource) :
    Ends (fun _ => initialEnv libs m) fun _ => True := by
  unfold initialEnv
  split
  · exact .pure trivial
  · exact Ends.orFail.bind fun _ _ => .pure trivial

theorem moduleExports_ends (libs : Libraries) (m : ModuleSource) :
    Ends (fun fuel => moduleExports (evaluator fuel) options sources libs m) fun _ => True := by
  refine Ends.bind (P := fun _ => True) ?_ fun items _ => (initialEnv_ends libs m).bind fun _ _ =>
    (items_ends libs items _).bind fun _ _ => .pure trivial
  unfold Surface.Module.afterHeader
  split
  · exact .fail
  · exact Ends.ensure.bind fun _ _ => .pure trivial

theorem modules_ends (bundle : Bundle) : ∀ libs : Libraries,
    Ends (fun fuel => modules (evaluator fuel) options sources libs bundle) fun _ => True := by
  induction bundle with
  | nil => exact fun _ => .pure trivial
  | cons m bundle ih => exact fun libs => (moduleExports_ends libs m).bind fun _ _ => ih _

end Link

theorem link_ends : Ends (fun fuel => link fuel options sources bundle) fun _ => True :=
  Link.modules_ends _ _

/-! ### Shapes of modules -/

theorem baseEnv_fits (hΓ : Γ.Based) : baseEnv.Fits S Γ := by
  intro b hb
  rw [hΓ.base b hb]
  rcases baseEnv_entry hb with ⟨p, hvalue, hp⟩ | ⟨t, hvalue⟩ | hvalue <;> rw [hvalue]
  · cases p with
    | makeEnum => exact .inr (.atom (.inr (.inr ⟨_, rfl⟩)))
    | declassify => exact .inr (.atom (.inr (.inr ⟨_, rfl⟩)))
    | app tag a => exact absurd rfl (hp tag a)
    | _ => exact .of_tame (.atom rfl)
  · exact .of_tame (.atom rfl)
  · refine .of_tame (.object fun b hb => ?_)
    obtain rfl := List.mem_singleton.1 (Env.mem_ofList hb)
    exact .atom rfl

/-- The statement of the item, if it has one, has a shape. -/
def Surface.Item.isShaped (Γ : Shaping) : Surface.Item → Bool
  | .exported _ stmt | .plain _ stmt => (stmt.returnShape Γ).isSome
  | .importFrom .. | .foreign .. => true

/-- The statements of all modules that are linked have shapes. -/
def Bundle.isShaped (Γ : Shaping) (options : Options) (bundle : Bundle) : Bool :=
  (Link.withLibrary options bundle).all fun m => m.tree.items.all (·.isShaped Γ)

theorem Bundle.items_shaped (h : bundle.isShaped Γ options = true) :
    ∀ m ∈ Link.withLibrary options bundle, ∀ item ∈ m.tree.items,
      item.Satisfies fun stmt => (stmt.returnShape Γ).isSome = true := by
  intro m hm item hitem
  have hshaped := List.all_eq_true.1 (List.all_eq_true.1 h m hm) item hitem
  cases item with
  | exported | plain => exact hshaped
  | importFrom | foreign => exact trivial

/-- Statements at the top level bind names to values of their shapes. -/
theorem Link.keeps_shapes (hΓ : Γ.Based) (fuel : Nat) :
    Link.Keeps (evaluator fuel) (fun b => (Setting.protocol Γ).Fits (Γ b.1) b.2.value)
      fun stmt => (stmt.returnShape Γ).isSome = true where
  base := baseEnv_fits hΓ
  topLevel {loc env out stmt s s'} hrun henv hstmt := by
    obtain ⟨σ, hσ⟩ := Option.isSome_iff_exists.1 hstmt
    have hmode : (Setting.protocol Γ).admits Link.moduleCtx.mode :=
      fun e he => absurd he List.not_mem_nil
    have hstmts : StmtsEnd (.protocol Γ) Γ σ Link.moduleCtx loc { env } [stmt] :=
      (Setting.protocol_lawful hΓ).stmts_ends hΓ hmode henv (by simpa using hσ)
    have htop : Ends (fun fuel => Link.topLevel (evaluator fuel) loc env stmt)
        (Bindings.Fits (.protocol Γ) Γ) :=
      Ends.bind hstmts fun _ hr => Ends.ensure.bind fun _ _ => .pure hr.env
    exact htop.result (fun h => (evaluator_extends h).topLevel ..) hrun

theorem link_fits (hΓ : Γ.Based) (h : bundle.isShaped Γ options = true) {fuel : Nat}
    {s s' : Supply} {libs : Libraries} (hrun : (link fuel options sources bundle).Yields s libs s') :
    ∀ e ∈ libs.entries, Bindings.Fits (.protocol Γ) Γ e.2 :=
  (Link.keeps_shapes hΓ fuel).preserves.modules hrun (by simp [Libraries.Satisfies])
    (Bundle.items_shaped h)

/-! ### Compilation -/

theorem compile_ends (hΓ : Γ.Based) (h : bundle.isShaped Γ options = true) (htop : Γ top = .data) :
    Ends (fun fuel => compile fuel options sources bundle top) fun _ => True := by
  refine Ends.orFail.bind fun entry _ => ?_
  refine (link_ends.of_results (link_fits hΓ h)).bind fun libs hlibs => ?_
  refine Ends.orFail.bind fun exports hexports => ?_
  have hexports : Bindings.Fits (.protocol Γ) Γ exports := hlibs _ (OrderedMap.mem_of_get? hexports)
  refine (hexports.lookup top).bind fun sv hsv => ?_
  refine Ends.bind (P := fun v => (Setting.protocol Γ).Fits .data v)
    (.of_routine sv.requirePublic_routine fun hrun => ?_) fun v hv => ?_
  · rw [htop] at hsv
    rw [(SecValue.requirePublic_yields.1 hrun).1] at hsv
    exact hsv
  · split
    · rename_i appLoc tag a
      rcases hv.atom (by simp) (by simp) (by simp) with hv | ⟨_, _, _, hv, happ⟩ | hv
      · cases hv
      · cases hv
        exact happ appLoc
      · exact hv.elim
    · exact .fail

/-- From some depth on the operation has one outcome, and it is not that the depth was reached. -/
def Concludes {α β : Type} (x : Nat → Except Stop α × β) : Prop :=
  ∃ depth out, (∀ fuel, depth ≤ fuel → x fuel = out) ∧ out.1 ≠ .error .outOfFuel

theorem Elaboration.perform_concludes {α : Type} {x : Nat → Eval α} {Q : α → Prop} (h : Ends x Q)
    (e : Elaboration) :
    Concludes fun fuel => ((e.perform (x fuel)).1, (e.perform (x fuel)).2.session) := by
  obtain ⟨depth, ⟨outcome, middle⟩, hrun, hout, _⟩ := h.run e.supply
  have hsame : ∀ fuel, depth ≤ fuel → e.perform (x fuel) = e.perform (x depth) := by
    intro fuel hfuel
    unfold Elaboration.perform
    rw [hrun fuel hfuel, hrun depth (Nat.le_refl depth)]
  refine ⟨depth, ((e.perform (x depth)).1, (e.perform (x depth)).2.session),
    fun fuel hfuel => ?_, ?_⟩
  · simp only [hsame fuel hfuel]
  · unfold Elaboration.perform
    rw [hrun depth (Nat.le_refl depth)]
    split
    · simp
    · rename_i heq
      cases heq
      exact hout

/-! ### Environments -/

/-- The environments that elaboration comes to from those that the modules of a bundle begin with.
The shared ones are those of the protocol, and the others are views of participants. -/
inductive Bindings.Built (Γ : Shaping) (options : Options) (bundle : Bundle) : Bool → Bindings → Prop
  /-- What a module begins with. -/
  | initial {fuel : Nat} {sources : SourceTable} {m : ModuleSource} {env : Bindings} {s s' : Supply}
    (hrun : Eval.Yields (do
      let libs ← link fuel options sources bundle
      Link.initialEnv libs m) s env s') : Built Γ options bundle true env
  /-- A view that knows what is shared. -/
  | learned {env : Bindings} (h : Built Γ options bundle true env) : Built Γ options bundle false env
  /-- A view that knows a frontend. -/
  | frontend {loc : Loc} {env out : Bindings} {p : Participant} {s s' : Supply}
    (h : Built Γ options bundle true env)
    (hrun : (env.bind loc "interact" (.secret p.interactValue)).Yields s out s') :
    Built Γ options bundle false out
  | participant {shared : Bool} {loc : Loc} {env out : Bindings} {name : String} {level : Level}
    {tag : Tag} {p : Participant} {s s' : Supply} (h : Built Γ options bundle shared env)
    (hrun : (env.bind loc name ⟨level, .participant tag p⟩).Yields s out s') :
    Built Γ options bundle shared out
  /-- The value of an expression is bound to a name of its shape. -/
  | bound {shared : Bool} {fuel : Nat} {ctx : Ctx} {loc : Loc} {env out : Bindings} {name : String}
    {e : Surface.Expr} {u : Use} {r : Lifted SecValue} {s₁ s₂ s s' : Supply}
    (hprivate : shared = false → ctx.mode.isPrivate = true)
    (hviews : ∀ view ∈ ctx.mode.views.entries, Built Γ options bundle false view.2)
    (h : Built Γ options bundle shared env) (huse : e.use Γ = some u)
    (hname : u.shape.le (Γ name) = true)
    (hvalue : (Elaboration.evalExpr fuel ctx env e).Yields s₁ r s₂)
    (hrun : (env.bind loc name r.value).Yields s out s') : Built Γ options bundle shared out
  /-- What statements leave. -/
  | after {shared : Bool} {fuel : Nat} {ctx : Ctx} {loc : Loc} {scope : Scope}
    {stmts : List Surface.Stmt} {σ : Shape} {r : Lifted Outcome} {s s' : Supply}
    (hprivate : shared = false → ctx.mode.isPrivate = true)
    (hviews : ∀ view ∈ ctx.mode.views.entries, Built Γ options bundle false view.2)
    (h : Built Γ options bundle shared scope.env) (hshape : Surface.stmtsShape Γ stmts = some σ)
    (hrun : (Elaboration.evalStmts fuel ctx loc scope stmts).Yields s r s') :
    Built Γ options bundle shared r.value.env

/-- The context has views that elaboration comes to. Views themselves are environments of contexts
where no protocol goes on. -/
structure Ctx.Built (Γ : Shaping) (options : Options) (bundle : Bundle) (shared : Bool) (ctx : Ctx) :
    Prop where
  isPrivate : shared = false → ctx.mode.isPrivate = true
  views : ∀ view ∈ ctx.mode.views.entries, Bindings.Built Γ options bundle false view.2

/-- The setting of an environment. -/
def Setting.ofShared (Γ : Shaping) (shared : Bool) : Setting :=
  if shared then .protocol Γ else .privately

theorem Setting.ofShared_lawful (hΓ : Γ.Based) (shared : Bool) :
    (Setting.ofShared Γ shared).Lawful Γ := by
  cases shared with
  | true => exact protocol_lawful hΓ
  | false => exact privately_lawful

theorem Setting.ofShared_admits {shared : Bool} {mode : Mode}
    (hprivate : shared = false → mode.isPrivate = true)
    (hviews : ∀ view ∈ mode.views.entries, Bindings.Fits .privately Γ view.2) :
    (Setting.ofShared Γ shared).admits mode := by
  cases shared with
  | true => exact hviews
  | false => exact hprivate rfl

theorem Bindings.Built.fits (hΓ : Γ.Based) (hbundle : bundle.isShaped Γ options = true)
    {shared : Bool} (h : env.Built Γ options bundle shared) : env.Fits (.ofShared Γ shared) Γ := by
  induction h with
  | initial hrun =>
    obtain ⟨libs, middle, hlink, hinitial⟩ := yields_bind.1 hrun
    exact (Link.keeps_shapes hΓ 0).preserves.initialEnv hinitial (link_fits hΓ hbundle hlink)
  | learned _ ih => exact ih.privately
  -- frontends and participants are data, which any name may be bound to
  | @frontend _ _ _ p _ _ _ hrun ih =>
    obtain ⟨_, rfl, _⟩ := Bindings.bind_yields.1 hrun
    exact ih.privately.of_append (by simpa using .of_tame p.interactValue_tame) rfl
  | participant _ hrun ih =>
    obtain ⟨_, rfl, _⟩ := Bindings.bind_yields.1 hrun
    exact ih.of_append (by simpa using .of_tame (.atom rfl)) rfl
  | @bound shared _ ctx _ env _ _ e u _ _ _ _ _ hprivate _ _ huse hname hvalue hrun hviews ih =>
    obtain ⟨_, rfl, _⟩ := Bindings.bind_yields.1 hrun
    have hexpr := (Setting.ofShared_lawful hΓ shared).expr_ends hΓ
      (Setting.ofShared_admits hprivate hviews) ih huse
    have hr := hexpr.result (fun h => (evaluator_extends h).expr ..) hvalue
    exact ih.of_append (by simpa using hr.le hname) rfl
  | @after shared _ ctx loc scope stmts _ _ _ _ hprivate _ _ hshape hrun hviews ih =>
    have hstmts : StmtsEnd (.ofShared Γ shared) Γ _ ctx loc scope stmts :=
      (Setting.ofShared_lawful hΓ shared).stmts_ends hΓ (Setting.ofShared_admits hprivate hviews)
        ih hshape
    exact (hstmts.result (fun h => (evaluator_extends h).stmts ..) hrun).env

theorem Ctx.Built.admits (hΓ : Γ.Based) (hbundle : bundle.isShaped Γ options = true) {shared : Bool}
    {ctx : Ctx} (h : ctx.Built Γ options bundle shared) :
    (Setting.ofShared Γ shared).admits ctx.mode :=
  Setting.ofShared_admits h.isPrivate fun view hview => (h.views view hview).fits hΓ hbundle

/-! ### Elaboration -/

/-- Where no code may be emitted evaluation ends, whatever the program and the environment are, and
so does the linking of every bundle. Everywhere else it ends for what has a shape, in every
environment and context that elaboration comes to from the modules of a bundle that has shapes:
expressions, lists of statements, and the application of what a callee is evaluated to, to what
arguments are evaluated to. So the app of the bundle is compiled. -/
theorem elaboration_ends :
    (∀ ctx env e, ctx.canLift = false →
      Ends (fun fuel => Elaboration.evalExpr fuel ctx env e) fun _ => True) ∧
    (∀ ctx loc scope stmts, ctx.canLift = false → ctx.mode.isPrivate = true →
      Ends (fun fuel => Elaboration.evalStmts fuel ctx loc scope stmts) fun _ => True) ∧
    (∀ options session bundle, Concludes fun fuel => linkBundle fuel options session bundle) ∧
    ∀ Γ options bundle, Shaping.Based Γ → bundle.isShaped Γ options = true →
      (∀ shared ctx scope, ctx.Built Γ options bundle shared →
        scope.env.Built Γ options bundle shared →
        (∀ e u, e.use Γ = some u →
          Ends (fun fuel => Elaboration.evalExpr fuel ctx scope.env e) fun _ => True) ∧
        (∀ loc stmts σ, Surface.stmtsShape Γ stmts = some σ →
          Ends (fun fuel => Elaboration.evalStmts fuel ctx loc scope stmts) fun _ => True) ∧
        ∀ callee args σ uses τ, callee.use Γ = some (.value σ) →
          Surface.exprsUse Γ args = some uses → σ.applied (uses.map (·.shape)) = some τ →
          ∀ fuel f vs s₁ s₂ s₃ s₄, (Elaboration.evalExpr fuel ctx scope.env callee).Yields s₁ f s₂ →
            (Elaboration.evalExprs fuel ctx scope.env args).Yields s₃ vs s₄ → ∀ loc,
            Ends (fun fuel => Elaboration.applyValues fuel ctx loc scope.env f.value.value vs.value)
              fun _ => True) ∧
      ∀ session top, Γ top = .data →
        Concludes fun fuel => compileBundle fuel options session bundle top := by
  refine ⟨fun _ _ e hctx => pureExpr_ends e hctx,
    fun _ _ _ stmts hctx hmode => pureStmts_ends hctx hmode stmts,
    fun _ _ _ => Elaboration.perform_concludes link_ends _, fun Γ options bundle hΓ hbundle =>
      ⟨fun shared ctx scope hctx henv => ?_, fun _ _ htop =>
        Elaboration.perform_concludes (compile_ends hΓ hbundle htop) _⟩⟩
  have hmode := hctx.admits hΓ hbundle
  have henv := henv.fits hΓ hbundle
  have hlawful := Setting.ofShared_lawful hΓ shared
  refine ⟨fun e u huse => (hlawful.expr_ends hΓ hmode henv huse).imp fun _ _ => trivial,
    fun loc stmts σ hσ => (hlawful.stmts_ends hΓ hmode henv hσ).imp fun _ _ => trivial,
    fun callee args σ uses τ hcallee huses hτ fuel f vs s₁ s₂ s₃ s₄ hf hvs loc => ?_⟩
  have hfits : (Setting.ofShared Γ shared).Fits σ f.value.value :=
    (hlawful.expr_ends hΓ hmode henv hcallee).result (fun h => (evaluator_extends h).expr ..) hf
  have hargs : (Setting.ofShared Γ shared).Arguments (uses.map (·.shape)) vs.value :=
    (hlawful.exprs_ends hΓ hmode henv huses).result (fun h => (evaluator_extends h).exprs ..) hvs
  exact (applyValues_ends hfits (by rintro rfl; cases hτ) (fun _ h => .of_tame h)
    fun h => h.applied hmode hargs hτ).imp fun _ _ => trivial

/-! ### Functions of functions -/

namespace Surface

/-- A function that applies another function twice. -/
def twice : Expr := .arrow here ["g", "n"] (.returning here (apply "g" [apply "g" [name "n"]]))

/-- The next number. -/
def next : Expr := .arrow here ["n"] (.returning here (.binary here .plus (name "n") (number "1")))

/-- A number is published, paid and counted up twice. -/
def twiceApp : Bundle :=
  appOf ["A"] [
    define "twice" twice,
    define "next" next,
    .expr here (method (name "A") "only" [thunk [
      define "x" (apply "declassify" [method (name "interact") "getX" []])]]),
    .expr here (method (method (method (name "A") "publish" [name "x"]) "pay" [name "x"]) "timeout"
      [number "10", thunk [.expr here (apply "exit" [])]]),
    define "y" (apply "twice" [name "next", name "x"]),
    .expr here (apply "commit" []),
    .expr here (apply "exit" [])]

end Surface

/-- Names are data, apart from these. -/
def twiceShaping : Shaping := fun x =>
  let shapes : List (String × Shape) := [("makeEnum", .enumerator), ("declassify", .revealer),
    ("not", .fn [.data] .data), ("minus", .fn [.data] .data), ("neq", .fn [.data, .data] .data),
    ("bytes_neq", .fn [.data, .data] .data), ("and", .fn [.data, .data] .data),
    ("or", .fn [.data, .data] .data), ("g", .fn [.data] .data), ("next", .fn [.data] .data),
    ("twice", .fn [.fn [.data] .data, .data] .data)]
  (shapes.lookup x).getD .data

theorem twiceShaping_based : twiceShaping.Based := ⟨by decide, by decide⟩

/-- A function of functions ends in the environment that the app's module begins with, and so does the
compilation of the app. -/
theorem twiceApp_ends :
    (∃ env : Bindings, env.Built twiceShaping {} Surface.twiceApp true ∧
      Ends (fun fuel => Elaboration.evalExpr fuel { mode := .step {}, canLift := true } env
        (.call Surface.here Surface.twice [Surface.next, Surface.number "5"])) fun _ => True) ∧
    Surface.twiceApp.isShaped twiceShaping {} = true ∧
    Concludes fun fuel => compileBundle fuel {} {} Surface.twiceApp "main" := by
  have hshaped : Surface.twiceApp.isShaped twiceShaping {} = true := by decide
  obtain ⟨hends, hcompile⟩ :=
    elaboration_ends.2.2.2 twiceShaping {} Surface.twiceApp twiceShaping_based hshaped
  refine ⟨?_, hshaped, hcompile {} "main" rfl⟩
  obtain ⟨env, hinitial, _⟩ := exists_ok_of_any (f := fun _ => true) (x := (Eval.runFrom (do
    let libs ← link 10 {} {} Surface.twiceApp
    Link.initialEnv libs ⟨1, ⟨Surface.here, []⟩⟩) {}).1) (by decide +kernel)
  have henv : env.Built twiceShaping {} Surface.twiceApp true := .initial (Prod.ext hinitial rfl)
  refine ⟨env, henv, (hends true _ { env } ⟨by simp, by simp [Mode.views]⟩ henv).1 _
    (.value .data) rfl⟩

/-! ### Self-application -/

/-- The function that applies its argument to the argument itself. -/
def Surface.selfApplier : Surface.Expr :=
  .arrow here ["f"] (.returning here (apply "f" [name "f"]))

section

variable {ctx : Ctx} {e : Surface.Expr} {scope : Scope} {stmts : List Surface.Stmt} {fuel : Nat}

/-- Evaluation at depth `fuel` runs out, or does what the rule does at some smaller depth. -/
theorem expr_meets {Q : Lifted SecValue → Prop}
    (h : ∀ k < fuel, Meets (· = .outOfFuel) Q ((evaluator k).evalExpr ctx env e)) :
    Meets (· = .outOfFuel) Q ((evaluator fuel).expr ctx env e) := by
  cases fuel with
  | zero => exact .outOfFuel rfl
  | succ k => exact h k (Nat.lt_succ_self k)

theorem stmts_meets {Q : Lifted Outcome → Prop}
    (h : ∀ k < fuel, Meets (· = .outOfFuel) Q ((evaluator k).evalStmts ctx loc scope stmts)) :
    Meets (· = .outOfFuel) Q ((evaluator fuel).stmts ctx loc scope stmts) := by
  cases fuel with
  | zero => exact .outOfFuel rfl
  | succ k => exact h k (Nat.lt_succ_self k)

theorem ident_meets {x : String} {sv : SecValue} (hx : env.find? x = some sv)
    (hsv : ∀ tag p, sv.value ≠ .participant tag p) :
    Meets (· = .outOfFuel) (fun r => r.value = sv) ((evaluator fuel).expr ctx env (.ident loc x)) := by
  refine expr_meets fun k _ => Meets.bind (P := fun r => r = sv) ?_ fun r hr => .pure hr
  refine (Meets.orFail (by simp [hx])).bind fun found hfound => ?_
  obtain rfl : sv = found := Option.some.inj (hx.symm.trans hfound)
  split
  · exact absurd ‹_› (hsv _ _)
  · exact .pure rfl

/-- The function that applies its argument to the argument, closed over an environment. -/
structure Closure.IsSelfApplier (c : Closure) : Prop where
  formals : c.formals = ["f"]
  body : c.body = .returning Surface.here (Surface.apply "f" [Surface.name "f"])
  env : c.env.contains "f" = false

theorem selfApplier_evaluates (ctx : Ctx) (henv : env.contains "f" = false) :
    ∃ c : Closure, c.IsSelfApplier ∧ ∀ {fuel}, Meets (· = .outOfFuel)
      (fun r => ∃ tag, r.value.value = .closure tag c)
      ((evaluator fuel).expr ctx env Surface.selfApplier) :=
  ⟨⟨Surface.here, some (ctx.localName "arrow"), ["f"], _, env⟩, ⟨rfl, rfl, henv⟩,
    expr_meets fun _ _ => Meets.freshTag.bind fun tag _ => .pure ⟨tag, rfl⟩⟩

/-- Each application of the function to itself comes to another one, at a smaller depth. -/
theorem selfApplier_meets {c : Closure} (hc : c.IsSelfApplier) (hctx : ctx.canLift = true)
    {sv : SecValue} {tag : Tag} (hsv : sv.value = .closure tag c) :
    Meets (· = .outOfFuel) (fun _ => False) ((evaluator fuel).applyClosure ctx loc c [sv]) := by
  induction fuel using Nat.strongRecOn generalizing ctx loc sv with
  | ind fuel ih =>
    have halloc : Meets (· = .outOfFuel) (fun _ => True) (ctx.alloc loc) := by
      unfold Ctx.alloc
      rw [hctx]
      exact .freshId
    unfold Evaluator.applyClosure
    rw [hc.formals, hc.body]
    refine halloc.bind fun slot _ => (Meets.ensure (by simp)).bind fun _ _ => ?_
    refine Meets.bind (P := fun inner : Bindings => inner.find? "f" = some sv) ?_ fun inner hf => ?_
    · refine (Meets.orFail ?_).bind fun out hout => .pure ?_
      · simp [Env.insert?, hc.env]
      · simp only [Env.insert?, hc.env] at hout
        cases hout
        exact Env.find?_push_self hc.env
    have hident : ∀ {k : Nat} {ctx : Ctx} {loc : Loc}, Meets (· = .outOfFuel) (fun r => r.value = sv)
        ((evaluator k).expr ctx inner (.ident loc "f")) :=
      ident_meets hf (by simp [hsv])
    -- the body returns the value of `f(f)`, three levels further down
    refine Meets.bind (P := fun _ => False) (stmts_meets fun k hk => ?_) fun _ h => h.elim
    refine Meets.bind (P := fun _ => False) (expr_meets fun j hj => ?_) fun _ h => h.elim
    refine hident.bind fun rator hrator => Meets.bind (P := fun _ => False) ?_ fun _ h => h.elim
    rw [hrator, hsv]
    refine Meets.bind (P := fun args => args.value = [sv]) ?_ fun args hargs => ?_
    · exact hident.bind fun r hr => .pure (by simp [hr, Lifted.plain])
    · rw [hargs]
      exact Meets.bind (ih j (by omega) (by exact hctx) hsv) fun _ h => h.elim

end

/-- The function that applies its argument to the argument, applied to itself, is a finite expression
whose evaluation runs out of every depth, in every environment in which the formal is not bound. -/
theorem self_application_never_ends :
    ∃ e : Surface.Expr, ∀ ctx env, ctx.canLift = true → env.find? "f" = none → ∀ fuel s,
      ((Elaboration.evalExpr fuel ctx env e).runFrom s).1 = .error .outOfFuel := by
  refine ⟨.call Surface.here Surface.selfApplier [Surface.selfApplier], ?_⟩
  intro ctx env hctx henv fuel s
  obtain ⟨c, hc, harrow⟩ := selfApplier_evaluates ctx (Env.contains_eq_false.2 henv)
  have hstalls : Meets (· = .outOfFuel) (fun _ => False) ((evaluator fuel).expr ctx env
      (.call Surface.here Surface.selfApplier [Surface.selfApplier])) := by
    refine expr_meets fun k _ => harrow.bind fun rator hrator => ?_
    obtain ⟨tag, hrator⟩ := hrator
    refine Meets.bind (P := fun _ => False) ?_ fun _ h => h.elim
    rw [hrator]
    refine Meets.bind (P := fun args => ∃ sv, args.value = [sv] ∧ ∃ tag, sv.value = .closure tag c)
      (harrow.bind fun r hr => .pure ⟨r.value, rfl, hr⟩) fun args hargs => ?_
    obtain ⟨sv, hargs, tag, hsv⟩ := hargs
    rw [hargs]
    exact Meets.bind (selfApplier_meets hc hctx hsv) fun _ h => h.elim
  unfold Elaboration.evalExpr
  cases hout : ((evaluator fuel).expr ctx env _).runFrom s with
  | mk out s' =>
    cases out with
    | error stop => rw [hstalls.stop hout]
    | ok r => exact (hstalls.result hout).elim

end Choreography
