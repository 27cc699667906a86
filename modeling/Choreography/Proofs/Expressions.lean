import Choreography.Elaborate.Expression
import Choreography.Proofs.Access
import Choreography.Proofs.Applications
import Choreography.Proofs.Lookup

/-!
Every expression is evaluated soundly by an evaluator that is sound for its parts: object literals,
the forms that see their arguments unevaluated, and the rule for each expression.
-/

namespace Choreography

open Eval Ir

variable {R : Regime} {J : List (String × Var)} {X Y : List Known} {s s₁ s' : Supply} {loc : Loc}
  {ctx : Ctx} {env : Bindings} {ev : Evaluator} {args : List Surface.Expr} {level : Level}

/-! ### Object literals -/

/-- The fields of an object: distinct names, each with a formed value. -/
def Bindings.Fields (R : Regime) (X : List Known) (fields : Bindings) : Prop :=
  (fields.entries.map (·.1)).Nodup ∧ ∀ b ∈ fields.entries, SecValue.Formed R X b.2

theorem Bindings.Fields.mono {fields : Bindings} (h : fields.Fields R X) (hX : X ⊆ Y) :
    fields.Fields R Y :=
  ⟨h.1, fun b hb => (h.2 b hb).mono hX⟩

theorem Bindings.Fields.bind {fields out : Bindings} {name : String} {sv : SecValue}
    (h : fields.Fields R X) (hsv : sv.Formed R X)
    (hrun : (fields.bind loc name sv).Yields s out s') : out.Fields R X ∧ s' = s := by
  obtain ⟨hnew, rfl, rfl⟩ := Bindings.bind_yields.1 hrun
  refine ⟨⟨?_, ?_⟩, rfl⟩
  · exact Env.Distinct.push h.1 hnew
  · intro b hb
    rcases List.mem_append.1 hb with hold | hlast
    · exact h.2 b hold
    · obtain rfl := List.mem_singleton.1 hlast
      exact hsv

theorem Bindings.Fields.bindAll {bindings : List (String × SecValue)} {fields out : Bindings}
    (h : fields.Fields R X) (hall : ∀ b ∈ bindings, SecValue.Formed R X b.2)
    (hrun : (fields.bindAll loc bindings).Yields s out s') : out.Fields R X ∧ s' = s := by
  induction bindings generalizing fields s with
  | nil =>
    obtain ⟨rfl, rfl⟩ := yields_pure.1 hrun
    exact ⟨h, rfl⟩
  | cons b rest ih =>
    obtain ⟨hfirst, hrest⟩ := List.forall_mem_cons.1 hall
    obtain ⟨_, _, hbind, hothers⟩ := yields_bind.1 hrun
    obtain ⟨hnext, rfl⟩ := h.bind hfirst hbind
    exact ih hnext hrest hothers

/-- An object literal read up to some property. -/
def PartialObject.Sound (R : Regime) (J : List (String × Var)) (X : List Known) (s s' : Supply)
    (object : PartialObject) : Prop :=
  Lifted.Sound R J X s s' (Bindings.Fields R) ⟨object.code, object.fields⟩

/-- An identifier keeps what its binding is, under a new tag where the value has one. -/
theorem Bindings.Formed.identifies {name : String} (henv : env.Formed R X)
    (hname : R.Admits [name]) :
    From s (fun sv s' => sv.Formed R X ∧ s.nextId ≤ s'.nextId) (env.identify loc name) := by
  refine ⟨fun hrun => ⟨henv.identify hname hrun, ?_⟩⟩
  obtain ⟨_, _, hnext, _⟩ := Bindings.identify_yields hrun
  exact Nat.le_of_eq hnext.symm

namespace Evaluator.Sound

variable (hev : ev.Sound R) (hmode : ctx.mode.Formed R J X) (henv : env.Formed R X)
include hev hmode henv

theorem propertyName {name : Surface.PropertyName} (hnames : R.Admits name.idents) :
    Computes R J X s (fun _ _ => True) (ev.propertyName ctx env loc name) := by
  cases name with
  | ident | string => exact .plain trivial
  | number => exact .fail
  | computed key =>
    refine (hev.computes hmode henv hnames).andThen fun _ _ O B hcode _ => ?_
    split
    · exact .pure ⟨O, B, hcode, trivial⟩
    · exact .fail

theorem property {p : Surface.Property} {object : PartialObject} (hnames : R.Admits p.idents)
    (hobject : object.Sound R J X s s₁) :
    From s₁ (fun out s' => out.Sound R J X s s') (ev.property ctx env object p) := by
  obtain ⟨O, B, hcode, hfields⟩ := hobject
  have hsub : X ⊆ X ++ O := List.subset_append_left X O
  cases p with
  | value loc name value =>
    simp only [Surface.Property.idents, Regime.admits_append] at hnames
    refine (hev.propertyName (hmode.mono hsub) (henv.mono hsub) hnames.1).andThen
      fun _ _ On Bn hnCode _ => ?_
    have hsubn : X ⊆ X ++ O ++ On := List.Subset.trans hsub (List.subset_append_left _ _)
    refine (hev.computes (hmode.mono hsubn) (henv.mono hsubn) hnames.2).andThen
      fun _ _ Ov Bv hvCode hvFormed => .keep ((hfields.mono (by simp)).bind hvFormed)
        fun _ hout => .pure ⟨O ++ On ++ Ov, B ++ Bn ++ Bv, ?_, by simpa using hout⟩
    exact (hcode.append hnCode).append (by simpa using hvCode)
  | shorthand loc name =>
    exact ((henv.mono hsub).identifies hnames).bind fun _ _ hv => .keep (hfields.bind hv.1)
      fun _ hout => .pure ⟨O, B, hcode.widen (Nat.le_refl _) hv.2, hout⟩
  | spread loc base =>
    refine (hev.computes (hmode.mono hsub) (henv.mono hsub) hnames).andThen
      fun _ _ Ov _ hvCode hvFormed => ?_
    split
    · rename_i level objectLoc more heq
      rw [SecValue.Formed, heq] at hvFormed
      cases hvFormed with
      | object _ hmore =>
        exact .keep ((hfields.mono (List.subset_append_left _ Ov)).bindAll hmore)
          fun _ hout => .pure ⟨_, _, hcode.append hvCode, by simpa using hout⟩
    · exact .fail
  | method => exact .fail

theorem properties {props : List Surface.Property} {object : PartialObject}
    (hnames : R.Admits (Surface.propsIdents props)) (hobject : object.Sound R J X s s₁) :
    From s₁ (fun out s' => out.Sound R J X s s') (ev.properties ctx env object props) := by
  induction props generalizing object s₁ with
  | nil => exact .pure hobject
  | cons p ps ih =>
    simp only [Surface.propsIdents, Regime.admits_append] at hnames
    exact (hev.property hmode henv hnames.1 hobject).bind fun _ _ hnext => ih hnames.2 hnext

theorem objectLiteral {props : List Surface.Property}
    (hnames : R.Admits (Surface.propsIdents props)) :
    Computes R J X s (SecValue.Formed R) (ev.objectLiteral ctx loc env props) := by
  have hempty : PartialObject.Sound R J X s s {} :=
    .plain (Nat.le_refl _) ⟨List.nodup_nil, by simp⟩
  refine (hev.properties hmode henv hnames hempty).bind fun object _ hobject => .pure ?_
  obtain ⟨O, B, hcode, hdistinct, hfields⟩ := hobject
  exact ⟨O, B, hcode, .object hdistinct hfields⟩

end Evaluator.Sound

/-! ### Forms -/

theorem interfaceOf_yields {bindings : List (String × SecValue)} {methods : List (String × Ty)}
    (hall : ∀ b ∈ bindings, SecValue.Formed R X b.2)
    (hrun : (interfaceOf loc bindings).Yields s methods s') :
    (methods.map (·.1) = bindings.map (·.1) ∧ ∀ m ∈ methods, m.2.Ground) ∧ s' = s := by
  induction bindings generalizing methods s with
  | nil =>
    obtain ⟨rfl, rfl⟩ := yields_pure.1 hrun
    simp
  | cons b bindings ih =>
    obtain ⟨hfirst, hrest⟩ := List.forall_mem_cons.1 hall
    obtain ⟨method, sv⟩ := b
    unfold interfaceOf at hrun
    split at hrun
    · simp only [yields_bind, yields_pure] at hrun
      obtain ⟨more, _, hmore, rfl, rfl⟩ := hrun
      obtain ⟨⟨hnames, hground⟩, rfl⟩ := ih hrest hmore
      cases hfirst with
      | type ht => exact ⟨⟨by simp [hnames], List.forall_mem_cons.2 ⟨ht, hground⟩⟩, rfl⟩
    · simp at hrun

theorem participantOf_formed {spec : Value} (hspec : spec.Formed R X level) :
    From s (fun p s' => (p.Formed ∧ p.address = none) ∧ s' = s) (participantOf loc spec) := by
  unfold participantOf
  split
  · cases hspec with
    | tuple helems =>
      cases helems _ (List.mem_cons_of_mem _ List.mem_cons_self) with
      | object hdistinct hfields =>
        exact .keep (interfaceOf_yields hfields) fun _ h =>
          .pure ⟨⟨⟨by rw [h.1]; exact hdistinct, h.2⟩, rfl⟩, rfl⟩
  · exact .fail

theorem participantsOf_formed {specs : List Value} (hall : ∀ spec ∈ specs, spec.Formed R X level) :
    From s (fun parts s' => (∀ p ∈ parts, p.2.Formed ∧ p.2.address = none) ∧ s.nextId ≤ s'.nextId)
      (participantsOf loc specs) := by
  induction specs generalizing s with
  | nil => exact .pure ⟨by simp, Nat.le_refl _⟩
  | cons spec specs ih =>
    obtain ⟨hfirst, hrest⟩ := List.forall_mem_cons.1 hall
    exact .keep (participantOf_formed hfirst).result fun _ hp => .freshTag ((ih hrest).bind
      fun _ _ hothers => .pure ⟨List.forall_mem_cons.2 ⟨hp, hothers.1⟩, hothers.2⟩)

theorem sharedArgs_formed (henv : env.Formed R X) {formals : List String}
    (hnames : R.Admits formals) :
    From s (fun svs s' => (∀ sv ∈ svs, sv.Formed R X) ∧ s.nextId ≤ s'.nextId)
      (Evaluator.sharedArgs loc env formals) := by
  induction formals generalizing s with
  | nil => exact .pure ⟨by simp, Nat.le_refl _⟩
  | cons formal formals ih =>
    obtain ⟨hfirst, hrest⟩ := Regime.admits_cons.1 hnames
    exact (henv.identifies hfirst).bind fun _ _ hv => (ih hrest).bind fun _ _ hothers =>
      .pure ⟨List.forall_mem_cons.2 ⟨hv.1, hothers.1⟩, Nat.le_trans hv.2 hothers.2⟩

theorem publishedNames_admits {names : List String} (hnames : R.Admits (Surface.exprsIdents args))
    (hrun : (publishedNames args).Yields s names s') : R.Admits names ∧ s' = s := by
  induction args generalizing names s with
  | nil =>
    obtain ⟨rfl, rfl⟩ := yields_pure.1 hrun
    exact ⟨Regime.admits_nil, rfl⟩
  | cons e args ih =>
    simp only [Surface.exprsIdents, Regime.admits_append] at hnames
    unfold publishedNames at hrun
    split at hrun
    · rename_i heq
      cases heq
    · rename_i name rest heq
      obtain ⟨rfl, rfl⟩ := List.cons.inj heq
      simp only [yields_bind, yields_pure] at hrun
      obtain ⟨more, _, hmore, rfl, rfl⟩ := hrun
      obtain ⟨hothers, rfl⟩ := ih hnames.2 hmore
      exact ⟨Regime.admits_cons.2 ⟨hnames.1, hothers⟩, rfl⟩
    · simp at hrun

theorem Round.fill_admits {round : Round} {stage : Stage} (hround : R.Admits round.idents)
    (hnames : R.Admits (Surface.exprsIdents args)) :
    From s (fun out s' => R.Admits out.idents ∧ s' = s) (round.fill loc stage args) := by
  simp only [Round.idents, Regime.admits_append] at hround
  obtain ⟨⟨hpublish, hpay⟩, htimeout⟩ := hround
  unfold Round.fill
  cases stage with
  | publish =>
    refine .ensure fun _ => .keep (publishedNames_admits hnames) fun _ hadmits => .pure ⟨?_, rfl⟩
    simp only [Round.idents, Regime.admits_append]
    exact ⟨⟨hadmits, hpay⟩, htimeout⟩
  | pay =>
    refine .ensure fun _ => ?_
    split
    · simp only [Surface.exprsIdents, List.append_nil] at hnames
      refine .pure ⟨?_, rfl⟩
      simp only [Round.idents, Regime.admits_append]
      exact ⟨⟨hpublish, hnames⟩, htimeout⟩
    · exact .fail
  | timeout =>
    refine .ensure fun _ => ?_
    split
    · simp only [Surface.exprsIdents, Surface.Expr.idents, List.nil_append, List.append_nil,
        Regime.admits_append] at hnames
      refine .pure ⟨?_, rfl⟩
      simp only [Round.idents, Option.map_some, Option.getD_some, Regime.admits_append]
      exact ⟨⟨hpublish, hpay⟩, hnames⟩
    · exact .fail

namespace Evaluator.Sound

variable (hev : ev.Sound R) (hmode : ctx.mode.Formed R J X) (henv : env.Formed R X)
include hev hmode henv

theorem appForm (hnames : R.Admits (Surface.exprsIdents args)) :
    Computes R J X s (SecValue.Formed R) (ev.appForm ctx loc env args) := by
  refine .ensure fun _ => ?_
  split
  · rename_i options parts topLoc formals body
    have hidents : R.Admits (Surface.exprsIdents [options, parts]) ∧ R.Admits body.idents := by
      simp only [Surface.exprsIdents, Surface.Expr.idents, Regime.admits_append] at hnames ⊢
      exact ⟨⟨hnames.1, hnames.2.1, Regime.admits_nil⟩, hnames.2.2.1.2⟩
    refine (hev.exprs hmode henv hidents.1).andThen fun _ _ O B hcode hvalues => ?_
    split
    · rename_i optionsLevel optionsLoc options partsLevel partsLoc specs hevaluated
      rw [hevaluated] at hvalues
      have hspecs : ∀ spec ∈ specs, spec.Formed R (X ++ O) partsLevel := by
        cases hvalues _ (List.mem_cons_of_mem _ List.mem_cons_self) with
        | tuple helems => exact helems
      refine (participantsOf_formed hspecs).bind fun parts _ hparts => .ensure fun _ =>
        .keep Bindings.bindAll_yields fun inner hentries => .freshTag (.pure ?_)
      have hinner : inner.Formed R (X ++ O) := by
        refine (henv.mono (List.subset_append_left X O)).of_append ?_ hentries
        intro b hb _
        obtain ⟨p, hp, hvalue⟩ := List.mem_map.1 (List.of_mem_zip hb).2
        rw [← hvalue]
        exact .participant (by simp [(hparts.1 p hp).2])
      refine ⟨O, B, hcode.widen (Nat.le_refl _) hparts.2, .app ?_ hidents.2 hinner⟩
      intro p hp
      obtain ⟨tp, htp, rfl⟩ := List.mem_map.1 hp
      exact (hparts.1 tp htp).1
    · exact .fail
  · exact .fail

/-- The view after a private computation is formed where the computation's code has left its
variables. -/
theorem onlyForm {who : String} (hnames : R.Admits (Surface.exprsIdents args)) :
    Computes R J X s (SecValue.Formed R) (ev.onlyForm ctx loc env who args) := by
  unfold Evaluator.onlyForm
  split
  · rename_i parties hstep
    rw [hstep] at hmode
    refine .orFail fun view hview => ?_
    have hviewFormed : view.Formed R X := by
      obtain ⟨e, he, rfl⟩ := Option.map_eq_some_iff.1 hview
      exact hmode.views e (List.mem_of_find?_eq_some he)
    have hpure : ({ ctx with mode := .pureLocal, canLift := false } : Ctx).mode.Formed R J X :=
      trivial
    refine (hev.exprs hpure hviewFormed hnames).andThen fun _ _ O B hcode hvalues => ?_
    split
    · rename_i level tag c hvalue
      have hsub : X ⊆ X ++ O := List.subset_append_left X O
      rw [hvalue] at hvalues
      have hclosure : (Value.closure tag c).Formed R (X ++ O) level := hvalues _ List.mem_cons_self
      have hformals : R.Admits c.formals := by
        cases hclosure with
        | closure hidents _ => exact (Regime.admits_append.1 hidents).1
      have hlocal : ({ ctx with mode := .localStep } : Ctx).mode.Formed R J (X ++ O) := trivial
      refine (sharedArgs_formed (henv.mono hsub) hformals).bind fun _ _ hargs =>
        (hev.applyValues hlocal (hviewFormed.mono hsub) hclosure hargs.1).bind
          fun applied _ happlied => .freshTag (.pure ?_)
      obtain ⟨O', B', hcode', hresult, hend⟩ := happlied
      have hafter : Bindings.Formed R (X ++ (O ++ O')) (applied.value.env.without c.formals) := by
        simpa using (hend trivial).without c.formals
      exact ⟨_, _, hcode.append (hcode'.widen hargs.2 (Nat.le_refl _)),
        .onlyDone hafter (by simpa using hresult)⟩
    · exact .fail
  · exact .fail

theorem applyForm {formLoc : Loc} {tag : Tag} {f : Form}
    (hf : (Value.form formLoc tag f).Formed R X level)
    (hnames : R.Admits (Surface.exprsIdents args)) :
    Computes R J X s (SecValue.Formed R) (ev.applyForm ctx loc env formLoc f args) := by
  unfold Evaluator.applyForm
  cases hf with
  | appForm => exact hev.appForm hmode henv hnames
  | only => exact hev.onlyForm hmode henv hnames
  | onlyDone => exact .fail
  | round hround =>
    exact .ensure fun _ => .orFail fun _ _ => .keep (Round.fill_admits hround hnames).result
      fun _ hadmits => .freshTag (.pure (.plain (Nat.le_refl _) (.round hadmits)))

theorem apply {rator : Value} {rands : List Surface.Expr} (hrator : rator.Formed R X level)
    (hnames : R.Admits (Surface.exprsIdents rands)) :
    Computes R J X s (SecValue.Formed R) (ev.apply ctx loc env rator rands) := by
  have hvalues : Computes R J X s (SecValue.Formed R) (do
      let args ← ev.exprs ctx env rands
      let result ← ev.applyValues ctx loc env rator args.value
      return { code := args.code ++ result.code, value := result.value.value }) := by
    refine (hev.exprs hmode henv hnames).andThen fun _ _ O _ hcode hformed => ?_
    have hsub : X ⊆ X ++ O := List.subset_append_left X O
    refine (hev.applyValues (hmode.mono hsub) (henv.mono hsub) (hrator.mono hsub .refl)
      hformed).bind fun _ _ happlied => .pure ?_
    obtain ⟨O', B', hcode', hvalue, _⟩ := happlied
    exact ⟨_, _, hcode.append hcode', by simpa using hvalue⟩
  unfold Evaluator.apply
  split
  · exact hvalues
  · exact hvalues
  · exact hev.applyForm hmode henv hrator hnames
  · exact .fail

end Evaluator.Sound

/-! ### The rule for each expression -/

theorem Ctx.makeClosure_sound {label : String} {formals : List String} {body : Surface.Block}
    (henv : env.Formed R X) (hnames : R.Admits (formals ++ body.idents)) :
    Computes R J X s (SecValue.Formed R) (ctx.makeClosure loc env label formals body) :=
  .freshTag (.pure (.plain (Nat.le_refl _) (.closure hnames henv)))

theorem lookup_value_formed {name : String} (henv : env.Formed R X) (hname : name ≠ "declassify") :
    From s (fun v s' => (∃ level, v.Formed R X level) ∧ s' = s)
      (do let sv ← env.lookup loc name; return sv.value : Eval Value) :=
  .bind ⟨Bindings.lookup_yields.1⟩ fun sv _ h => .pure
    ⟨⟨sv.level, henv.find? (Regime.admits_of_ne hname) h.1⟩, h.2⟩

theorem Surface.BinaryOp.rator_formed {op : Surface.BinaryOp} (henv : env.Formed R X) :
    From s (fun v s' => (∃ level, v.Formed R X level) ∧ s' = s) (op.rator loc env) := by
  cases op with
  | and | or | neq | strictNeq => exact lookup_value_formed henv (by decide)
  | shiftRightUnsigned | inside | instanceOf => exact .fail
  | _ => exact .pure ⟨⟨.pub, .prim trivial⟩, rfl⟩

theorem Surface.UnaryOp.rator_formed {op : Surface.UnaryOp} (henv : env.Formed R X) :
    From s (fun v s' => (∃ level, v.Formed R X level) ∧ s' = s) (op.rator loc env) := by
  cases op with
  | minus | not => exact lookup_value_formed henv (by decide)
  | _ => exact .fail

/-- An evaluator that is sound for the parts of an expression evaluates the expression soundly. -/
theorem Evaluator.Sound.evalExpr (hev : ev.Sound R) {e : Surface.Expr}
    (hmode : ctx.mode.Formed R J X) (henv : env.Formed R X) (hnames : R.Admits e.idents) :
    Computes R J X s (SecValue.Formed R) (ev.evalExpr ctx env e) := by
  unfold Evaluator.evalExpr
  cases e with
  | ident loc name =>
    exact (henv.identifies hnames).bind fun _ _ hv => .pure (.plain hv.2 hv.1)
  | int | string | bool | null =>
    refine .plain ?_
    constructor
  | array loc elems =>
    refine (hev.exprs hmode henv hnames).bind fun _ _ h => .pure (h.imp fun Y _ hvalues =>
      .tuple fun v hv => ?_)
    obtain ⟨sv, hsv, rfl⟩ := List.mem_map.1 hv
    exact (hvalues sv hsv).raise (.levelOf hsv)
  | object loc props => exact hev.objectLiteral hmode henv hnames
  | call loc callee args =>
    simp only [Surface.Expr.idents, Regime.admits_append] at hnames
    refine (hev.computes hmode henv hnames.1).andThen fun _ _ O _ hcode hvalue => ?_
    have hsub : X ⊆ X ++ O := List.subset_append_left X O
    exact (hev.apply (hmode.mono hsub) (henv.mono hsub) hvalue hnames.2).andThen
      fun _ _ _ _ hcode' hresult =>
        .pure ⟨_, _, hcode.append hcode', by simpa using SecValue.Formed.taint hresult⟩
  | dot loc base field =>
    exact (hev.computes (e := base) hmode henv hnames).andThen fun _ _ _ _ hcode hvalue =>
      (Ctx.field_sound hvalue).andThen fun _ _ _ _ hcode' hresult =>
        .pure ⟨_, _, hcode.append hcode', by simpa using hresult⟩
  | index loc base position =>
    simp only [Surface.Expr.idents, Regime.admits_append] at hnames
    refine (hev.computes hmode henv hnames.1).andThen fun v _ O _ hcode hvalue => ?_
    have hsub : X ⊆ X ++ O := List.subset_append_left X O
    refine (hev.computes (hmode.mono hsub) (henv.mono hsub) hnames.2).andThen
      fun _ _ O' _ hcode' hindex => ?_
    have hv : v.value.Formed R (X ++ O ++ O') := hvalue.mono (List.subset_append_left _ O')
    refine (Ctx.element_sound (J := J) (hv.raise .meet_left) (hindex.raise .meet_right)).bind
      fun _ _ helement => .pure (.after (hcode.append hcode') ?_)
    simpa using helement
  | binary loc op lhs rhs =>
    simp only [Surface.Expr.idents, Regime.admits_append] at hnames
    refine .keep (Surface.BinaryOp.rator_formed henv).result fun _ hrator => ?_
    obtain ⟨level, hformed⟩ := hrator
    exact hev.apply hmode henv hformed (by simpa [Surface.exprsIdents] using hnames)
  | unary loc op operand =>
    simp only [Surface.Expr.idents] at hnames
    refine .keep (Surface.UnaryOp.rator_formed henv).result fun _ hrator => ?_
    obtain ⟨level, hformed⟩ := hrator
    exact hev.apply hmode henv hformed (by simpa [Surface.exprsIdents] using hnames)
  | paren _ inner => exact hev.computes hmode henv hnames
  | ternary loc cond onTrue onFalse => exact hev.ternary hmode henv hnames
  | arrow loc formals body => exact Ctx.makeClosure_sound henv hnames
  | function loc name formals body =>
    cases name with
    | none => exact Ctx.makeClosure_sound henv hnames
    | some _ => exact .fail
  | foreign => exact .fail

end Choreography
