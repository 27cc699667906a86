import Choreography.Elaborate.Run
import Choreography.Proofs.Expressions
import Choreography.Proofs.Rounds

/-!
The rule for lists of statements is sound when the evaluator of their parts is, and so is the
evaluator of every depth.
-/

namespace Choreography

open Eval Ir

variable {R : Regime} {J : List (String × Var)} {X : List Known} {s s₁ s₂ s' : Supply} {loc : Loc}
  {ctx : Ctx} {env : Bindings} {ev : Evaluator} {scope : Scope} {rest : List Surface.Stmt}

theorem Emits.only {who : String} {code : Code} {O B : List Known}
    (h : Emits R J X s s' code [] O B) : Emits R J X s s' [.only loc who code] [] O B := by
  let p : Part := ⟨J, X, code, [], O, B⟩
  have hstmt : Stmt.Formed R J X none (.only loc who p.code) [p] [] p.exports p.binders := by
    have hfits : p.Fits J (X ++ []) := ⟨List.Subset.refl _, by simp [p]⟩
    exact .only hfits rfl (by simp)
  refine .single hstmt (by simpa [p] using h.formed) h.le fun i => ?_
  have honce := h.once i
  simpa [p, Stmt.defines, Stmt.inner, definitions] using honce

theorem Lifted.Sound.returned {v : Lifted SecValue} {mode : Mode} {slot : Nat}
    (h : v.Sound R J X s s' (SecValue.Formed R)) (hscope : scope.Formed R X)
    (hslot : scope.slot = some slot) :
    Lifted.Ends R J X s s' mode scope.slot
      { code := v.code ++ [.ret loc slot (some v.value.value)],
        value := { env := scope.env, exits := [{ loc, value := v.value }] } } := by
  obtain ⟨O, B, hcode, hvalue⟩ := h
  refine ⟨_, _, _, hcode.append (.ret hvalue), ⟨by simp, ?_⟩, ?_,
    fun _ => hscope.env.mono (List.subset_append_left _ _)⟩
  · intro ret hret
    simp only [List.nil_append, List.mem_singleton] at hret
    subst hret
    exact ⟨hslot, _, List.mem_singleton.2 rfl, rfl, .refl⟩
  · rintro e ⟨⟩
    exact SecValue.Formed.mono hvalue
      (subset_append_left (List.Subset.trans hcode.formed.exports_subset escaping_append_left))

namespace Evaluator.Sound

variable (hev : ev.Sound R) (hmode : ctx.mode.Formed R J X) (hscope : scope.Formed R X)
include hev hmode hscope

theorem extend {code : Code} {O B : List Known} (hcode : Emits R J X s s₁ code [] O B)
    (henv : env.Formed R (X ++ O)) (hrest : R.Admits (Surface.stmtsIdents rest)) :
    From s₁ (fun r s' => r.Ends R J X s s' ctx.mode scope.slot)
      (ev.extend ctx loc scope code env rest) := by
  have hsub : X ⊆ X ++ O := List.subset_append_left X O
  have hscope' : Scope.Formed R (X ++ O) { scope with env } := ⟨henv, (hscope.mono hsub).loopVars⟩
  exact (hev.concludes (hmode.mono hsub) hscope' hrest).bind fun _ _ hends =>
    .pure (hends.after hcode)

omit hmode in
/-- After an `only` its participant knows what it has bound. -/
theorem afterOnly {parties : Parties} {who : String} {view : Bindings} {code : Code}
    {O B : List Known} {formLoc : Loc} (hcode : Emits R J X s s₁ code [] O B)
    (hview : view.Formed R (X ++ O)) (hparties : parties.Formed R J X)
    (hrest : R.Admits (Surface.stmtsIdents rest)) :
    From s₁ (fun next s' => (next.after [.only formLoc who code]).Ends R J X s s' (.step parties)
      scope.slot) (ev.stmts { ctx with mode := .step { parties with
        views := parties.views.insert who view } } loc scope rest) := by
  have hsub : X ⊆ X ++ O := List.subset_append_left X O
  have hmode : Mode.Formed R J (X ++ O)
      (.step { parties with views := parties.views.insert who view }) :=
    ⟨(hparties.mono hsub).joined, OrderedMap.forall_mem_insert hview (hparties.mono hsub).views⟩
  refine (hev.concludes (by exact hmode) (hscope.mono hsub) hrest).imp fun _ _ hends => ?_
  exact hends.after hcode.only

theorem exprStmt {e : Surface.Expr} (hnames : R.Admits e.idents)
    (hrest : R.Admits (Surface.stmtsIdents rest)) :
    Concludes R J X s ctx.mode scope.slot (ev.exprStmt ctx loc scope e rest) := by
  refine (hev.computes hmode hscope.env hnames).andThen fun v s₁ O B hcode hvalue => ?_
  have hsub : X ⊆ X ++ O := List.subset_append_left X O
  split
  · exact (expectLast_routine _).steps.bind fun _ _ hlast =>
      .pure ⟨_, _, _, hcode.widen (Nat.le_refl _) hlast.2, .nil, by simp,
        fun _ => hscope.env.mono (List.subset_append_left _ _)⟩
  · rename_i parties formLoc tag who view result hstep hdone
    rw [SecValue.Formed, hdone] at hvalue
    rw [hstep] at hmode ⊢
    cases hvalue with
    | onlyDone hview _ =>
      exact (Value.expectNull_routine _).steps.bind fun _ _ hnull =>
        (hev.afterOnly hscope (hcode.widen (Nat.le_refl _) hnull.2) hview hmode hrest).bind
          fun _ _ hends => .pure hends
  · rename_i parties roundLoc tag round hstep hround
    rw [SecValue.Formed, hround] at hvalue
    split
    · cases hvalue with
      | round hadmits =>
        exact hev.takeRound hstep hcode (hmode.mono hsub) (hscope.mono hsub) hadmits hrest
    · exact .fail
  · rename_i opened parties _ hconsensus _
    have hparties : parties.Formed R J X := by
      rw [hconsensus] at hmode
      exact hmode
    exact hev.commitRound hconsensus (hparties.mono hsub) hcode (hscope.mono hsub) hrest
  · exact (Value.expectNull_routine _).steps.bind fun _ _ hnull =>
      hev.extend hmode hscope (hcode.widen (Nat.le_refl _) hnull.2) (hscope.env.mono hsub) hrest

theorem ret {value : Option Surface.Expr} (hnames : R.Admits (Surface.Stmt.ret loc value).idents) :
    Concludes R J X s ctx.mode scope.slot (ev.ret ctx loc scope value rest) := by
  have hreturn : ∀ {v : Lifted SecValue} {s₁ : Supply}, v.Sound R J X s s₁ (SecValue.Formed R) →
      From s₁ (fun r s' => r.Ends R J X s s' ctx.mode scope.slot) (do
        let slot ← Eval.orFail scope.slot (.noReturn loc)
        Eval.ensure (scope.style != .cannotReturn) (.cannotReturn loc)
        expectLast loc rest
        return ({ code := v.code ++ [.ret loc slot (some v.value.value)],
                  value := { env := scope.env, exits := [{ loc, value := v.value }] } } :
          Lifted Outcome)) := by
    refine fun hv => .orFail fun _ hslot => .ensure fun _ => (expectLast_routine _).steps.bind
      fun _ _ hlast => .pure ?_
    obtain ⟨O, B, hcode, hvalue⟩ := hv
    exact Lifted.Sound.returned ⟨O, B, hcode.widen (Nat.le_refl _) hlast.2, hvalue⟩ hscope hslot
  cases value with
  | some e =>
    simp only [Surface.Stmt.idents] at hnames
    exact (hev.computes hmode hscope.env hnames).bind fun _ _ hv => hreturn hv
  | none => exact hreturn (v := .plain (.pub (.null loc))) (.plain (Nat.le_refl _) .null)

theorem evalStmts {stmts : List Surface.Stmt} (hnames : R.Admits (Surface.stmtsIdents stmts)) :
    Concludes R J X s ctx.mode scope.slot (ev.evalStmts ctx loc scope stmts) := by
  unfold Evaluator.evalStmts
  split
  · refine .pure ⟨[], [], [], .nil (Nat.le_refl _), .nil, ?_, fun _ => hscope.env.mono (by simp)⟩
    simp only [Lifted.plain]
    split
    · rintro e ⟨⟩
      exact .null
    · simp
  all_goals simp only [Surface.stmtsIdents, Regime.admits_append] at hnames
  · rw [Surface.Stmt.idents, Surface.Block.idents_eq] at hnames
    exact (hev.concludes hmode hscope hnames.1).bind fun _ _ hfirst =>
      hev.continueWith hmode hscope hfirst hnames.2
  · rw [Surface.Stmt.idents] at hnames
    refine (hev.decls hmode hscope.env hnames.1).andThen fun _ _ O _ hcode hdeclared =>
      .keep Bindings.merge_yields fun _ hentries => hev.extend hmode hscope hcode ?_ hnames.2
    exact (hscope.env.mono (List.subset_append_left X O)).of_append hdeclared.formed hentries
  · exact hev.continueLoop hmode hscope (by simp [Surface.Expr.idents, Surface.exprsIdents])
  · rw [Surface.Stmt.idents] at hnames
    refine .orFail fun _ _ => .freshTag (.bind ⟨Bindings.bind_yields.1⟩ ?_)
    rintro env _ ⟨_, rfl, rfl⟩
    refine hev.extend hmode hscope (.nil (Nat.le_refl _)) ?_ hnames.2
    rw [List.append_nil]
    exact hscope.env.push (.closure hnames.1 hscope.env)
  · rename_i cond onTrue onFalse rest
    have hparts : R.Admits cond.idents ∧ R.Admits (Surface.stmtsIdents [onTrue]) ∧
        R.Admits (Surface.stmtsIdents onFalse.toList) := by
      cases onFalse <;>
        simpa [Surface.Stmt.idents, Surface.stmtsIdents, and_assoc] using hnames.1
    obtain ⟨hcond, hTrue, hFalse⟩ := hparts
    exact hev.branch hmode hscope hcond hTrue hFalse hnames.2
  · exact hev.concludes hmode hscope hnames.2
  · rw [Surface.Stmt.idents] at hnames
    exact hev.exprStmt hmode hscope hnames.1 hnames.2
  · rw [Surface.Stmt.idents] at hnames
    exact hev.exprStmt hmode hscope hnames.1 hnames.2
  · rw [Surface.Stmt.idents] at hnames
    exact hev.continueLoop hmode hscope hnames.1
  · exact .fail
  · exact hev.ret hmode hscope hnames.1
  · simp only [Surface.Stmt.idents, Regime.admits_append] at hnames
    obtain ⟨hdecls, ⟨_, hinvariant⟩, ⟨hcond, hbody⟩, hrest⟩ := hnames
    exact hev.loop hmode hscope hdecls hinvariant hcond
      (by simpa [Surface.stmtsIdents] using hbody) hrest
  all_goals exact .fail

end Evaluator.Sound

/-- Evaluation of every depth is sound. -/
theorem evaluator_sound (R : Regime) (fuel : Nat) : (evaluator fuel).Sound R := by
  induction fuel with
  | zero =>
    exact ⟨fun hrun => absurd hrun yields_outOfFuel, fun hrun => absurd hrun yields_outOfFuel⟩
  | succ fuel ih =>
    exact ⟨fun hrun hmode henv hnames => (ih.evalExpr hmode henv hnames).result hrun,
      fun hrun hmode hscope hnames => (ih.evalStmts hmode hscope hnames).result hrun⟩

end Choreography
