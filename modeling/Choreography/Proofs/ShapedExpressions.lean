import Choreography.Proofs.ShapedOperations

/-!
Expressions of a shape end. Each rule of evaluation ends when the parts that it evaluates do; a call
ends because the callee has a shape under which the arguments may be passed. Expressions that apply no
function of the program end whatever the setting is, which is what the amounts of rounds need: they
are evaluated in the view of the sender while the protocol goes on.
-/

namespace Choreography

open Eval Ir

variable {S : Setting} {Γ : Shaping} {σ τ : Shape} {σs : List Shape} {n : Nat} {u : Use} {v : Value}
  {loc : Loc} {ctx : Ctx} {env : Bindings} {e : Surface.Expr} {es : List Surface.Expr}
  {P Q : Value → Prop} {args : List SecValue}

/-- Evaluation of the expression ends, and a value satisfies `Q`. -/
abbrev ExprEnds (ctx : Ctx) (env : Bindings) (e : Surface.Expr) (Q : Value → Prop) : Prop :=
  Ends (fun fuel => (evaluator fuel).expr ctx env e) fun r => Q r.value.value

theorem ExprEnds.of_rule
    (h : Ends (fun fuel => (evaluator fuel).evalExpr ctx env e) fun r => Q r.value.value) :
    ExprEnds ctx env e Q :=
  .of_succ h

/-- Evaluation of the expressions ends, and each value has its shape. -/
def ExprsEnd (S : Setting) (ctx : Ctx) (env : Bindings) : List Shape → List Surface.Expr → Prop
  | [], [] => True
  | σ :: σs, e :: es => ExprEnds ctx env e (S.Fits σ) ∧ ExprsEnd S ctx env σs es
  | _, _ => False

namespace ExprsEnd

theorem exprs (h : ExprsEnd S ctx env σs es) :
    Ends (fun fuel => (evaluator fuel).exprs ctx env es) fun r => S.Arguments σs r.value := by
  induction es generalizing σs with
  | nil =>
    cases σs with
    | nil => exact .pure trivial
    | cons => exact h.elim
  | cons e es ih =>
    cases σs with
    | nil => exact h.elim
    | cons σ σs => exact h.1.bind fun _ hr => (ih h.2).bind fun _ hrs => .pure ⟨hr, hrs⟩

theorem each (h : ExprsEnd S ctx env σs es) : ∀ e ∈ es, ExprEnds ctx env e fun _ => True := by
  induction es generalizing σs with
  | nil => simp
  | cons e es ih =>
    cases σs with
    | nil => exact h.elim
    | cons σ σs =>
      exact List.forall_mem_cons.2 ⟨h.1.imp fun _ _ => trivial, ih h.2⟩

theorem of_each (h : ∀ e ∈ es, ExprEnds ctx env e fun _ => True) :
    ExprsEnd S ctx env (es.map fun _ => .any) es := by
  induction es with
  | nil => exact trivial
  | cons e es ih =>
    obtain ⟨hfirst, hrest⟩ := List.forall_mem_cons.1 h
    exact ⟨hfirst.imp fun _ _ => .any, ih hrest⟩

end ExprsEnd

/-! ### Application -/

/-- The app is made from the arguments, in an environment where names have their shapes. -/
structure App.MadeFrom (S : Setting) (Γ : Shaping) (args : List Surface.Expr) (a : App) : Prop where
  env : Bindings.Fits S Γ a.env
  args : ∃ options parts topLoc formals, args = [options, parts, .arrow topLoc formals a.body]

theorem App.MadeFrom.length_eq {a : App} (h : a.MadeFrom S Γ es) : es.length = 3 := by
  obtain ⟨_, _, _, _, rfl⟩ := h.args
  rfl

theorem appForm_ends (henv : env.Fits S Γ) (h : ∀ e ∈ es, ExprEnds ctx env e fun _ => True)
    (happ : ∀ tag a, a.MadeFrom S Γ es → Q (.prim loc (.app tag a))) :
    Ends (fun fuel => (evaluator fuel).appForm ctx loc env es) fun r => Q r.value.value := by
  refine Ends.skip (Ctx.expectMode_routine ..) fun _ => ?_
  split
  · rename_i options parts _ _ _
    have hparts : ExprsEnd S ctx env [.any, .any] [options, parts] :=
      ⟨(h options (by simp)).imp fun _ _ => .any, (h parts (by simp)).imp fun _ _ => .any, trivial⟩
    refine hparts.exprs.bind fun evaluated _ => ?_
    split
    · refine Ends.skip (participantsOf_routine _) fun parts => Ends.ensure.bind fun _ _ =>
        (henv.bindAll fun b hb => ?_).bind fun _ hout => Ends.freshTag.bind fun tag _ =>
          .pure (happ tag _ ⟨hout, _, _, _, _, rfl⟩)
      obtain ⟨p, _, hp⟩ := List.mem_map.1 (List.of_mem_zip hb).2
      rw [← hp]
      exact .of_tame (.atom rfl)
    · exact .fail
  · exact .fail

theorem applyValues_prim_ends {p : Prim} {primLoc : Loc}
    (h : Ends (fun _ => ctx.applyPrim loc env p args) fun r => Q r.value.value) :
    Ends (fun fuel => (evaluator fuel).applyValues ctx loc env (.prim primLoc p) args)
      fun r => Q r.value.value.value :=
  h.bind fun _ hr => .pure hr

theorem apply_prim_ends {p : Prim} {primLoc : Loc} (hp : (Value.prim primLoc p).isTame = true)
    (hargs : ∀ e ∈ es, ExprEnds ctx env e fun _ => True) :
    Ends (fun fuel => (evaluator fuel).apply ctx loc env (.prim primLoc p) es)
      fun r => r.value.value.Tame :=
  Ends.bind (ExprsEnd.of_each (S := .privately) hargs).exprs fun _ _ =>
    (applyValues_prim_ends (Ctx.applyPrim_ends.imp fun _ h => h.tame hp)).bind
      fun _ hr => .pure hr

/-- Data is applied without evaluating anything, so only the application of a function matters. -/
theorem applyValues_ends (hv : S.Fits σ v) (hσ : σ ≠ .any) (htame : ∀ v : Value, v.Tame → Q v)
    (hfunction : S.Functional σ v →
      Ends (fun fuel => (evaluator fuel).applyValues ctx loc env v args)
        fun r => Q r.value.value.value) :
    Ends (fun fuel => (evaluator fuel).applyValues ctx loc env v args)
      fun r => Q r.value.value.value := by
  cases v with
  | prim primLoc p =>
    rcases hv.atom hσ (by simp) (by simp) with hp | ⟨_, _, _, hp, _⟩ | hp
    · exact applyValues_prim_ends (Ctx.applyPrim_ends.imp fun _ h => htame _ (h.tame hp))
    · cases hp
      exact applyValues_prim_ends .fail
    · exact hfunction hp
  | closure tag c =>
    rcases hv.atom hσ (by simp) (by simp) with hc | ⟨_, _, _, hc, _⟩ | hc
    · cases hc
    · cases hc
    · exact hfunction hc
  | _ => exact .fail

theorem Setting.Functional.applied {result : Shape} (hv : S.Functional σ v)
    (hmode : S.admits ctx.mode) (hargs : S.Arguments σs args)
    (hresult : σ.applied σs = some result) :
    Ends (fun fuel => (evaluator fuel).applyValues ctx loc env v args)
      fun r => S.Fits result r.value.value.value := by
  cases σ with
  | any => cases hresult
  | enumerator => cases hresult
  | revealer => cases hresult
  | data => exact hv.elim
  | fn formals ρ =>
    simp only [Shape.applied, Option.ite_none_right_eq_some, Option.some.injEq] at hresult
    obtain ⟨hle, rfl⟩ := hresult
    obtain ⟨tag, c, rfl, _, happlies⟩ := hv
    exact happlies ctx loc args hmode (hargs.le hle)

/-- Only the application of a function matters, and the apps that are made. -/
theorem apply_ends (henv : env.Fits S Γ) (hv : S.Fits σ v) (hσ : σ ≠ .any)
    (hargs : ExprsEnd S ctx env σs es) (htame : ∀ v : Value, v.Tame → Q v)
    (happ : ∀ tag a, a.MadeFrom S Γ es → Q (.prim loc (.app tag a)))
    (hfunction : S.Functional σ v → ∀ args, S.Arguments σs args →
      Ends (fun fuel => (evaluator fuel).applyValues ctx loc env v args)
        fun r => Q r.value.value.value) :
    Ends (fun fuel => (evaluator fuel).apply ctx loc env v es) fun r => Q r.value.value := by
  unfold Evaluator.apply
  split
  · exact hargs.exprs.bind fun args hargs => Ends.bind
      (applyValues_ends hv hσ htame fun h => hfunction h _ hargs) fun _ hr => .pure hr
  · exact hargs.exprs.bind fun args hargs => Ends.bind
      (applyValues_ends hv hσ htame fun h => hfunction h _ hargs) fun _ hr => .pure hr
  · rename_i formLoc tag f
    obtain rfl := hv.eq_app hσ
    exact appForm_ends henv hargs.each happ
  · exact .fail

section Apps

variable (henv : env.Fits S Γ) (happs : ∀ a : App, a.MadeFrom S Γ es → S.apps a)

include henv happs

theorem apply_shaped_ends (hv : S.Fits σ v) (hσ : σ ≠ .any) (hargs : ExprsEnd S ctx env σs es)
    (hfunction : S.Functional σ v → ∀ args, S.Arguments σs args →
      Ends (fun fuel => (evaluator fuel).applyValues ctx loc env v args)
        fun r => S.Fits τ r.value.value.value) :
    Ends (fun fuel => (evaluator fuel).apply ctx loc env v es) fun r => S.Fits τ r.value.value :=
  apply_ends henv hv hσ hargs (fun _ h => .of_tame h)
    (fun _ a h => .inr (.atom (.inr (.inl ⟨_, _, a, rfl, happs a h⟩)))) hfunction

theorem apply_applied_ends (hmode : S.admits ctx.mode) (hv : S.Fits σ v)
    (hargs : ExprsEnd S ctx env σs es) {result : Shape} (hresult : σ.applied σs = some result) :
    Ends (fun fuel => (evaluator fuel).apply ctx loc env v es)
      fun r => S.Fits result r.value.value :=
  apply_shaped_ends henv happs hv (by rintro rfl; cases hresult) hargs
    fun h _ hargs => h.applied hmode hargs hresult

theorem apply_revealer_ends (hv : S.Fits .revealer v) (hargs : ExprsEnd S ctx env σs es) :
    Ends (fun fuel => (evaluator fuel).apply ctx loc env v es)
      fun r => S.Fits (Shape.joinAll σs) r.value.value := by
  refine apply_shaped_ends henv happs hv (by simp) hargs ?_
  rintro ⟨primLoc, rfl⟩ args hargs
  exact applyValues_prim_ends (Ctx.applyPrim_declassify_ends hargs.joinAll)

theorem apply_enumerator_ends (hv : S.Fits .enumerator v) (hargs : ExprsEnd S ctx env σs es)
    (hmember : ∀ enumLoc count tag, S.Fits σ (.closure tag
      { loc := enumLoc, name := some (ctx.localName "makeEnum"), formals := ["x"],
        body := enumBody enumLoc count, env })) :
    Ends (fun fuel => (evaluator fuel).apply ctx loc env v es) fun r => S.Fits σ r.value.value := by
  refine apply_shaped_ends henv happs hv (by simp) hargs ?_
  rintro ⟨primLoc, rfl⟩ args _
  exact applyValues_prim_ends (Ctx.applyPrim_makeEnum_ends hmember)

end Apps

/-! ### Operators, choice and objects -/

theorem Surface.BinaryOp.rator_ends (henv : env.Fits S Γ) (op : BinaryOp) :
    Ends (fun _ => op.rator loc env) fun v =>
      match op.function? with
      | some name => S.Fits (Γ name) v
      | none => ∃ primLoc p, v = .prim primLoc p ∧ v.isTame = true := by
  have hfunction : ∀ name, Ends (fun _ => (do let sv ← env.lookup loc name; return sv.value :
      Eval Value)) fun v => S.Fits (Γ name) v :=
    fun name => (henv.lookup name).bind fun _ h => .pure h
  cases op <;> first
    | exact hfunction _
    | exact .pure ⟨_, _, rfl, rfl⟩
    | exact .fail

theorem Surface.UnaryOp.rator_ends (henv : env.Fits S Γ) (op : UnaryOp) :
    Ends (fun _ => op.rator loc env) fun v =>
      match op.function? with
      | some name => S.Fits (Γ name) v
      | none => ∃ primLoc p, v = .prim primLoc p ∧ v.isTame = true := by
  have hfunction : ∀ name, Ends (fun _ => (do let sv ← env.lookup loc name; return sv.value :
      Eval Value)) fun v => S.Fits (Γ name) v :=
    fun name => (henv.lookup name).bind fun _ h => .pure h
  cases op <;> first
    | exact hfunction _
    | exact .fail

/-- An operator applies a function of its shape, or an operation. -/
theorem operate_ends (hmode : S.admits ctx.mode) (henv : env.Fits S Γ)
    (happs : ∀ a : App, a.MadeFrom S Γ es → S.apps a) {function : Option String} {uses : List Use}
    (huse : Γ.operate function uses = some u)
    (hargs : ExprsEnd S ctx env (uses.map (·.shape)) es)
    (hv : match function with
      | some name => S.Fits (Γ name) v
      | none => ∃ primLoc p, v = .prim primLoc p ∧ v.isTame = true) :
    Ends (fun fuel => (evaluator fuel).apply ctx loc env v es)
      fun r => u.Holds S Γ n r.value.value := by
  cases function with
  | none =>
    obtain ⟨primLoc, p, rfl, hp⟩ := hv
    exact (apply_prim_ends hp hargs.each).imp fun _ => Use.Holds.of_tame
  | some name =>
    obtain ⟨result, hresult, rfl⟩ := Option.map_eq_some_iff.1 huse
    exact apply_applied_ends henv happs hmode hv hargs hresult

theorem ternary_ends {cond onTrue onFalse : Surface.Expr}
    (hcond : ExprEnds ctx env cond fun _ => True) (hTrue : ExprEnds ctx env onTrue (S.Fits σ))
    (hFalse : ExprEnds ctx env onFalse (S.Fits τ)) :
    Ends (fun fuel => (evaluator fuel).ternary ctx loc env cond onTrue onFalse)
      fun r => S.Fits (σ.join τ) r.value.value := by
  refine hcond.bind fun c _ => hTrue.bind fun t ht => hFalse.bind fun f hf => ?_
  simp only
  split
  · rename_i b _
    refine .pure ?_
    cases b with
    | true => exact ht.join_left
    | false => exact hf.join_right
  · split
    · exact (Ends.of_faults Ctx.applyOp_simple.toMeets).bind fun _ h => .pure (.of_tame h.value.tame)
    · exact Ends.skip (Ctx.joinBranches_routine ..) fun _ =>
        .pure (.of_tame (.atom rfl))
  · exact .fail

/-- Evaluation of what a property holds ends, and what it contributes has the shape. -/
def PropertyEnds (S : Setting) (σ : Shape) (ctx : Ctx) (env : Bindings) : Surface.Property → Prop
  | .value _ name value => (∀ key, name = .computed key → ExprEnds ctx env key fun _ => True) ∧
      ExprEnds ctx env value (S.Fits σ)
  | .shorthand loc name => Ends (fun _ => env.identify loc name) fun sv => S.Fits σ sv.value
  | .spread _ base => ExprEnds ctx env base (S.Fits σ)
  | .method .. => True

theorem propertyName_ends {name : Surface.PropertyName}
    (h : ∀ key, name = .computed key → ExprEnds ctx env key fun _ => True) :
    Ends (fun fuel => (evaluator fuel).propertyName ctx env loc name) fun _ => True := by
  cases name with
  | ident => exact .pure trivial
  | string => exact .pure trivial
  | number => exact .fail
  | computed key =>
    refine (h key rfl).bind fun k _ => ?_
    split
    · exact .pure trivial
    · exact .fail

theorem property_ends {object : PartialObject}
    (hobject : ∀ b ∈ object.fields.entries, S.Fits σ b.2.value) {p : Surface.Property}
    (h : PropertyEnds S σ ctx env p) :
    Ends (fun fuel => (evaluator fuel).property ctx env object p)
      fun out => ∀ b ∈ out.fields.entries, S.Fits σ b.2.value := by
  have hbind : ∀ (propLoc : Loc) (name : String) (sv : SecValue), S.Fits σ sv.value →
      Ends (fun _ => object.fields.bind propLoc name sv)
        fun out => ∀ b ∈ out.entries, S.Fits σ b.2.value := by
    intro propLoc name sv hsv
    refine .of_routine (Bindings.bind_routine ..) fun hrun => ?_
    obtain ⟨_, rfl, _⟩ := Bindings.bind_yields.1 hrun
    exact List.forall_mem_append.2 ⟨hobject, List.forall_mem_singleton.2 hsv⟩
  cases p with
  | value propLoc name value =>
    exact (propertyName_ends h.1).bind fun n _ => h.2.bind fun v hv =>
      (hbind propLoc _ _ hv).bind fun _ hfields => .pure hfields
  | shorthand propLoc name =>
    exact Ends.bind h fun v hv => (hbind propLoc name v hv).bind fun _ hfields => .pure hfields
  | spread propLoc base =>
    refine Ends.bind h fun v hv => ?_
    split
    · rename_i level objectLoc more hvalue
      have hmore : S.Fits σ (.object objectLoc more) := by rwa [hvalue] at hv
      refine Ends.bind (P := fun out : Bindings => ∀ b ∈ out.entries, S.Fits σ b.2.value)
        (.of_routine (Bindings.bindAll_routine ..) fun hrun => ?_) fun _ hfields => .pure hfields
      rw [(Bindings.bindAll_yields hrun).1]
      exact List.forall_mem_append.2 ⟨hobject, hmore.fields⟩
    · exact .fail
  | method => exact .fail

theorem properties_ends {props : List Surface.Property}
    (h : ∀ p ∈ props, PropertyEnds S σ ctx env p) : ∀ {object : PartialObject},
    (∀ b ∈ object.fields.entries, S.Fits σ b.2.value) →
      Ends (fun fuel => (evaluator fuel).properties ctx env object props)
        fun out => ∀ b ∈ out.fields.entries, S.Fits σ b.2.value := by
  induction props with
  | nil => exact fun hobject => .pure hobject
  | cons p props ih =>
    obtain ⟨hfirst, hrest⟩ := List.forall_mem_cons.1 h
    exact fun hobject => (property_ends hobject hfirst).bind fun _ hout => ih hrest hout

theorem objectLiteral_ends {props : List Surface.Property}
    (h : ∀ p ∈ props, PropertyEnds S σ ctx env p) :
    Ends (fun fuel => (evaluator fuel).objectLiteral ctx loc env props)
      fun r => S.Fits σ r.value.value :=
  (properties_ends h (by simp)).bind fun _ hfields => .pure (.object hfields)

/-! ### Rules for expressions -/

namespace ExprEnds

theorem ident (henv : env.Fits S Γ) (name : String) :
    ExprEnds ctx env (.ident loc name) (S.Fits (Γ name)) :=
  .of_rule ((henv.identify name).bind fun _ h => .pure h)

theorem array (h : ExprsEnd S ctx env σs es) :
    ExprEnds ctx env (.array loc es) (S.Fits (Shape.joinAll σs)) := by
  refine .of_rule (h.exprs.bind fun vs hvs => .pure (.tuple fun v hv => ?_))
  obtain ⟨sv, hsv, rfl⟩ := List.mem_map.1 hv
  exact hvs.joinAll sv hsv

theorem call {callee : Surface.Expr} (hcallee : ExprEnds ctx env callee P)
    (happly : ∀ v, P v → Ends (fun fuel => (evaluator fuel).apply ctx loc env v es)
      fun r => Q r.value.value) : ExprEnds ctx env (.call loc callee es) Q :=
  .of_rule (hcallee.bind fun _ hrator => (happly _ hrator).bind fun _ hresult => .pure hresult)

theorem dot (h : ExprEnds ctx env e (u.Holds S Γ n)) (field : String) :
    ExprEnds ctx env (.dot loc e field) ((u.field field).Holds S Γ n) :=
  .of_rule (h.bind fun _ hobject => (Ctx.field_ends hobject field).bind fun _ hresult =>
    .pure hresult)

theorem index {position : Surface.Expr} (h : ExprEnds ctx env e (u.Holds S Γ n))
    (hposition : ExprEnds ctx env position fun _ => True) :
    ExprEnds ctx env (.index loc e position) (S.Fits u.element) :=
  .of_rule (h.bind fun _ hv => hposition.bind fun _ _ => (Ctx.element_ends hv _ _).bind
    fun _ hresult => .pure hresult)

theorem binary (hmode : S.admits ctx.mode) (henv : env.Fits S Γ) {op : Surface.BinaryOp}
    {lhs rhs : Surface.Expr} (uses : List Use) (huse : Γ.operate op.function? uses = some u)
    (hargs : ExprsEnd S ctx env (uses.map (·.shape)) [lhs, rhs]) :
    ExprEnds ctx env (.binary loc op lhs rhs) (u.Holds S Γ n) :=
  .of_rule ((Surface.BinaryOp.rator_ends henv op).bind fun _ hrator =>
    operate_ends hmode henv (fun _ ha => by cases ha.length_eq) huse hargs hrator)

theorem unary (hmode : S.admits ctx.mode) (henv : env.Fits S Γ) {op : Surface.UnaryOp}
    {operand : Surface.Expr} (uses : List Use) (huse : Γ.operate op.function? uses = some u)
    (hargs : ExprsEnd S ctx env (uses.map (·.shape)) [operand]) :
    ExprEnds ctx env (.unary loc op operand) (u.Holds S Γ n) :=
  .of_rule ((Surface.UnaryOp.rator_ends henv op).bind fun _ hrator =>
    operate_ends hmode henv (fun _ ha => by cases ha.length_eq) huse hargs hrator)

end ExprEnds

/-! ### Parts -/

namespace Surface

/-- The expressions that a property evaluates. -/
def Property.parts : Property → List Expr
  | .value _ (.computed key) e => [key, e]
  | .value _ _ e => [e]
  | .spread _ base => [base]
  | .shorthand .. | .method .. => []

/-- The expressions that an expression evaluates where it stands. -/
def Expr.parts : Expr → List Expr
  | .array _ elems => elems
  | .object _ props => props.flatMap (·.parts)
  | .call _ callee args => callee :: args
  | .dot _ base _ => [base]
  | .index _ base position => [base, position]
  | .binary _ _ lhs rhs => [lhs, rhs]
  | .unary _ _ operand => [operand]
  | .paren _ inner => [inner]
  | .ternary _ cond onTrue onFalse => [cond, onTrue, onFalse]
  | _ => []

/-- Whether the expression applies a value. -/
def Expr.isApplication : Expr → Bool
  | .call .. | .binary .. | .unary .. => true
  | _ => false

theorem Property.sizeOf_part_lt {p : Property} {e : Expr} (h : e ∈ p.parts) : sizeOf e < sizeOf p := by
  cases p with
  | value _ name value =>
    cases name with
    | computed key =>
      rcases List.mem_pair.1 h with rfl | rfl <;> simp +arith
    | _ =>
      obtain rfl := List.mem_singleton.1 h
      simp +arith
  | spread _ base =>
    obtain rfl := List.mem_singleton.1 h
    simp +arith
  | _ => exact absurd h List.not_mem_nil

theorem Expr.sizeOf_part_lt {e part : Expr} (h : part ∈ e.parts) : sizeOf part < sizeOf e := by
  cases e with
  | array _ elems =>
    have hsmall : sizeOf part < sizeOf elems := List.sizeOf_lt_of_mem h
    simp only [Expr.array.sizeOf_spec]
    omega
  | object _ props =>
    obtain ⟨p, hp, hpart⟩ := List.mem_flatMap.1 h
    have hsmall := List.sizeOf_lt_of_mem hp
    have hpart := Property.sizeOf_part_lt hpart
    simp only [Expr.object.sizeOf_spec]
    omega
  | call _ callee args =>
    simp only [Expr.call.sizeOf_spec]
    rcases List.mem_cons.1 h with rfl | h
    · omega
    · have hsmall := List.sizeOf_lt_of_mem h
      omega
  | dot _ base _ =>
    obtain rfl := List.mem_singleton.1 h
    simp +arith
  | index _ base position => rcases List.mem_pair.1 h with rfl | rfl <;> simp +arith
  | binary _ _ lhs rhs => rcases List.mem_pair.1 h with rfl | rfl <;> simp +arith
  | unary _ _ operand =>
    obtain rfl := List.mem_singleton.1 h
    simp +arith
  | paren _ inner =>
    obtain rfl := List.mem_singleton.1 h
    simp +arith
  | ternary _ cond onTrue onFalse =>
    rcases List.mem_cons.1 h with rfl | h
    · simp +arith
    · rcases List.mem_pair.1 h with rfl | rfl <;> simp +arith
  | _ => exact absurd h List.not_mem_nil

end Surface

/-- What applies nothing ends where its parts do. -/
theorem ExprEnds.of_parts (h : ∀ part ∈ e.parts, ExprEnds ctx env part fun _ => True)
    (happlication : e.isApplication = false) : ExprEnds ctx env e fun _ => True := by
  have henv : env.Fits .privately fun _ => .any := fun _ _ => .any
  have hany : ∀ part ∈ e.parts, ExprEnds ctx env part (Setting.privately.Fits .any) :=
    fun part hpart => (h part hpart).imp fun _ _ => .any
  cases e with
  | ident identLoc name => exact (ExprEnds.ident henv name).imp fun _ _ => trivial
  | array _ elems => exact (ExprEnds.array (S := .privately) (.of_each h)).imp fun _ _ => trivial
  | object objectLoc props =>
    refine .of_rule ((objectLiteral_ends (S := .privately) (σ := .any) fun p hp => ?_).imp
      fun _ _ => trivial)
    have hpart : ∀ part ∈ p.parts, part ∈ (Surface.Expr.object objectLoc props).parts :=
      fun part hpart => List.mem_flatMap.2 ⟨p, hp, hpart⟩
    cases p with
    | value propLoc name value =>
      refine ⟨?_, hany value (hpart value (by cases name <;> simp [Surface.Property.parts]))⟩
      rintro key rfl
      exact h key (hpart key (by simp [Surface.Property.parts]))
    | shorthand propLoc name => exact (henv.identify name).imp fun _ _ => .any
    | spread propLoc base => exact hany base (hpart base (by simp [Surface.Property.parts]))
    | method => exact trivial
  | dot dotLoc base field =>
    exact (ExprEnds.dot (Γ := fun _ => .any) (n := 0) (u := .value .any)
      (hany base List.mem_cons_self) field).imp fun _ _ => trivial
  | index indexLoc base position =>
    exact (ExprEnds.index (Γ := fun _ => .any) (n := 0) (u := .value .any)
      (hany base List.mem_cons_self) (h position (by simp [Surface.Expr.parts]))).imp
        fun _ _ => trivial
  | paren _ inner => exact .of_rule (h inner List.mem_cons_self)
  | ternary choiceLoc cond onTrue onFalse =>
    exact .of_rule ((ternary_ends (h cond List.mem_cons_self)
      (hany onTrue (by simp [Surface.Expr.parts])) (hany onFalse (by simp [Surface.Expr.parts]))).imp
        fun _ _ => trivial)
  | arrow arrowLoc formals body => exact .of_rule (Ends.freshTag.bind fun _ _ => .pure trivial)
  | function functionLoc name formals body =>
    cases name with
    | none => exact .of_rule (Ends.freshTag.bind fun _ _ => .pure trivial)
    | some => exact .of_rule .fail
  | foreign => exact .of_rule .fail
  | int | string | bool | null => exact .of_rule (.pure trivial)
  | call | binary | unary => cases happlication

/-! ### Calm expressions -/

namespace Surface

/-- The parts of a calm expression are calm. -/
theorem Expr.calm_part {e part : Expr} (hcalm : e.calm = true) (h : part ∈ e.parts) :
    part.calm = true := by
  cases e with
  | array _ elems => exact exprsCalm_iff.1 hcalm part h
  | object _ props =>
    obtain ⟨p, hp, hpart⟩ := List.mem_flatMap.1 h
    have hp := propsCalm_iff.1 hcalm p hp
    cases p with
    | value _ name value =>
      simp only [Property.calm, Bool.and_eq_true] at hp
      cases name with
      | computed key =>
        rcases List.mem_pair.1 hpart with rfl | rfl
        · exact hp.1
        · exact hp.2
      | _ =>
        obtain rfl := List.mem_singleton.1 hpart
        exact hp.2
    | spread _ base =>
      obtain rfl := List.mem_singleton.1 hpart
      exact hp
    | _ => exact absurd hpart List.not_mem_nil
  | call _ callee args =>
    simp only [Expr.calm, Bool.and_eq_true] at hcalm
    rcases List.mem_cons.1 h with rfl | h
    · cases part with
      | ident => rfl
      | _ => cases hcalm.1
    · exact exprsCalm_iff.1 hcalm.2 part h
  | dot _ base _ =>
    obtain rfl := List.mem_singleton.1 h
    exact hcalm
  | index _ base position =>
    simp only [Expr.calm, Bool.and_eq_true] at hcalm
    rcases List.mem_pair.1 h with rfl | rfl
    · exact hcalm.1
    · exact hcalm.2
  | binary _ op lhs rhs =>
    simp only [Expr.calm, Bool.and_eq_true] at hcalm
    rcases List.mem_pair.1 h with rfl | rfl
    · exact hcalm.1.2
    · exact hcalm.2
  | unary => cases hcalm
  | paren _ inner =>
    obtain rfl := List.mem_singleton.1 h
    exact hcalm
  | ternary _ cond onTrue onFalse =>
    simp only [Expr.calm, Bool.and_eq_true] at hcalm
    rcases List.mem_cons.1 h with rfl | h
    · exact hcalm.1.1
    · rcases List.mem_pair.1 h with rfl | rfl
      · exact hcalm.1.2
      · exact hcalm.2
  | _ => exact absurd h List.not_mem_nil

end Surface

theorem apply_builtin_ends (henv : env.Fits S Γ) (hv : S.Fits σ v) (hσ : σ.isBuiltin = true)
    (hargs : ∀ e ∈ es, ExprEnds ctx env e fun _ => True) :
    Ends (fun fuel => (evaluator fuel).apply ctx loc env v es) fun _ => True := by
  refine apply_ends henv hv (by rintro rfl; cases hσ) (.of_each hargs) (fun _ _ => trivial)
    (fun _ _ _ => trivial) fun hv args hargs => ?_
  cases σ with
  | any => cases hσ
  | fn => cases hσ
  | data => exact hv.elim
  | enumerator =>
    obtain ⟨primLoc, rfl⟩ := hv
    exact (applyValues_prim_ends (Ctx.applyPrim_makeEnum_ends (S := S) (σ := .any)
      fun _ _ _ => .any)).imp fun _ _ => trivial
  | revealer =>
    obtain ⟨primLoc, rfl⟩ := hv
    exact (applyValues_prim_ends (Ctx.applyPrim_declassify_ends hargs.joinAll)).imp
      fun _ _ => trivial

theorem Surface.BinaryOp.function?_of_operation? {op : BinaryOp} (h : op.operation?.isSome = true) :
    op.function? = none := by
  cases op with
  | and | or | neq | strictNeq => simp [operation?] at h
  | _ => rfl

/-- An expression that applies no function of the program ends. The induction is on its size. -/
theorem calm_ends (hΓ : Γ.Based) (henv : env.Fits S Γ) (hcalm : e.calm = true) :
    ExprEnds ctx env e fun _ => True := by
  induction hsize : sizeOf e using Nat.strongRecOn generalizing e with
  | ind n ih =>
    subst hsize
    have hparts : ∀ part ∈ e.parts, ExprEnds ctx env part fun _ => True := by
      intro part hpart
      exact ih _ (Surface.Expr.sizeOf_part_lt hpart) (Surface.Expr.calm_part hcalm hpart) rfl
    cases e with
    | call callLoc callee args =>
      simp only [Surface.Expr.calm, Bool.and_eq_true] at hcalm
      cases callee with
      | ident identLoc name =>
        refine .call (.ident henv name) fun v hv => apply_builtin_ends henv hv (hΓ.quiet ?_)
          (List.forall_mem_cons.1 hparts).2
        simpa [Surface.Expr.isQuietName] using hcalm.1
      | _ => cases hcalm.1
    | binary opLoc op lhs rhs =>
      simp only [Surface.Expr.calm, Bool.and_eq_true] at hcalm
      refine .of_rule ((Surface.BinaryOp.rator_ends henv op).bind fun v hv => ?_)
      rw [Surface.BinaryOp.function?_of_operation? hcalm.1.1] at hv
      obtain ⟨primLoc, p, rfl, hp⟩ := hv
      exact (apply_prim_ends hp hparts).imp fun _ _ => trivial
    | unary => cases hcalm
    | _ => exact .of_parts hparts rfl

end Choreography
