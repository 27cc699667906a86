import Choreography.Elaborate.Application
import Choreography.Elaborate.Choice
import Choreography.Proofs.Primitives
import Choreography.Proofs.Soundness

/-!
Applications and conditional expressions are sound. Where ways out join, a prompt delimits them; a
body whose only return is its last statement is left without a prompt, and then the value returned
is the value of the application.
-/

namespace Choreography

open Eval Ir

variable {R : Regime} {J : List (String × Var)} {X : List Known} {s s₁ s₂ s' : Supply} {loc : Loc}
  {ctx : Ctx} {env : Bindings} {ev : Evaluator}

/-! ### Conditional expressions -/

theorem Ctx.joinBranches_emits {cond v : Var} {trueLoc falseLoc : Loc} {st : Stmt}
    {onTrue onFalse : Lifted SecValue} {level : Level} {Ot Of Bt Bf : List Known}
    (hcond : R.Sees X level cond) (hcondType : cond.type = .bool)
    (ht : Emits R J X s s₁ onTrue.code [] Ot Bt)
    (htValue : onTrue.value.Formed R (X ++ Ot))
    (hf : Emits R J X s₁ s₂ onFalse.code [] Of Bf)
    (hfValue : onFalse.value.Formed R (X ++ Of))
    (hrun : (ctx.joinBranches loc cond trueLoc falseLoc onTrue onFalse).Yields s₂ (st, v) s') :
    ∃ O B, Emits R J X s s' [st] [] O B ∧ ⟨.pub, v⟩ ∈ O := by
  simp only [Ctx.joinBranches, yields_bind, Ctx.alloc_yields, Value.typeOf_yields, Ty.join_yields,
    yields_pure, Prod.mk.injEq] at hrun
  obtain ⟨_, _, ⟨_, rfl, rfl⟩, ⟨trueType, a⟩, _, ⟨hTrue, rfl⟩, ⟨falseType, b⟩, _, ⟨hFalse, rfl⟩,
    _, _, ⟨rfl, hsame, rfl⟩, ⟨rfl, rfl⟩, rfl⟩ := hrun
  simp only at hsame
  have htRet : Emits R J (X ++ Ot) s₁ s₁ [.ret trueLoc s₂.nextId (some onTrue.value.value)]
    [(s₂.nextId, onTrue.value)] [] [] := .ret htValue
  have hfRet : Emits R J (X ++ Of) s₂ s₂ [.ret falseLoc s₂.nextId (some onFalse.value.value)]
    [(s₂.nextId, onFalse.value)] [] [] := .ret hfValue
  have hbranch : Emits R J X s s₂ [.branch loc (.var cond) _ _] _ [] _ :=
    .branch (.raise (.var hcond) .to_secret) hcondType (ht.append htRet) (hf.append hfRet)
  have hle := ht.le
  have hle' := hf.le
  refine ⟨_, _, hbranch.prompt (Nat.le_refl _) (Nat.le_succ _) ⟨by omega, Nat.lt_succ_self _⟩
    (.inr (Nat.le_refl _)) (by simp) ?_ ?_, ?_⟩
  · rintro w ⟨⟩
    rfl
  · rintro w ⟨⟩ r hr
    simp only [List.nil_append, List.singleton_append, List.mem_cons, List.not_mem_nil,
      or_false] at hr
    rcases hr with rfl | rfl
    · exact ⟨a, hTrue⟩
    · exact ⟨b, hsame ▸ hFalse⟩
  · simp [Labelled.pub]

theorem Value.condition?_runTime {v : Value} {cond : Var}
    (h : v.condition? = some (.runTime cond)) :
    v = .var cond ∧ cond.type = .bool := by
  unfold Value.condition? at h
  split at h
  · cases h
  · split at h
    · cases h
      exact ⟨rfl, by assumption⟩
    · cases h
  · cases h

/-! ### Applications -/

/-- A body with at most one return, without a prompt where it needs none. Its value is `sv`. -/
theorem unprompted_emits (loc : Loc) (sv : SecValue) {body : Code} {E : List Return}
    {O B : List Known} {slot : Nat} (h : Emits R J X s₁ s' body E O B)
    (hdrawn : s.nextId = slot ∧ s₁.nextId = slot + 1) (hone : E.length ≤ 1)
    (hreturn : ∀ r ∈ E, r.1 = slot ∧ sv.value = r.2.value ∧ R.Allows r.2.level sv.level)
    (hsv : sv.Formed R (X ++ escaping body B)) :
    ∃ O' B', Emits R J X s s' (Code.unprompted body loc slot sv.value) [] O' B' ∧
      sv.Formed R (X ++ O') ∧ O ⊆ O' := by
  have hle := h.le
  have hprompt : ∃ O' B', Emits R J X s s' [.prompt loc slot none body] [] O' B' ∧
      sv.Formed R (X ++ O') ∧ O ⊆ O' := by
    refine ⟨_, _, h.prompt (by omega) (Nat.le_refl _) (by omega) (.inl (by omega))
      (fun r hr => (hreturn r hr).1) (by simp) (by simp), by simpa using hsv, ?_⟩
    simpa using h.formed.exports_subset
  unfold Code.unprompted
  split
  · rename_i hlast
    obtain rfl := List.getLast?_eq_none_iff.1 hlast
    obtain ⟨hformed, _, honce⟩ := h
    cases hformed
    exact ⟨[], [], .nil (by omega), by simpa [escaping] using hsv, List.Subset.refl _⟩
  · rename_i retLoc slot' v hlast
    split
    · -- the last statement is the only return, so its value is that of the application
      obtain ⟨before, rfl⟩ := List.getLast?_eq_some_iff.1 hlast
      obtain ⟨E', level, hbefore, rfl, hv⟩ := h.formed.dropRet
      obtain rfl : E' = [] := by
        have hzero : E'.length = 0 := by simpa using hone
        exact List.length_eq_zero_iff.1 hzero
      obtain ⟨_, hvalue, hlevel⟩ := hreturn (slot', ⟨level, v⟩) (by simp)
      refine ⟨O, B, ⟨by simpa using hbefore, by omega, fun i => ?_⟩, ?_, List.Subset.refl _⟩
      · have honce := h.once i
        simp only [definitions_append, definitions_cons, Stmt.defines, Stmt.inner, definitions_nil,
          List.flatMap_nil, List.append_nil, List.dropLast_concat] at honce ⊢
        grind [drawn]
      · rw [SecValue.Formed, hvalue]
        exact hv.raise hlevel
    · exact hprompt
  · exact hprompt

theorem Exit.types_yields {exits : List Exit} :
    ∀ {types : List (Loc × Ty)} {s s' : Supply}, (Exit.types exits).Yields s types s' →
      (∀ e ∈ exits, ∃ t a, e.value.value.typed? = some (t, a) ∧ (e.loc, t) ∈ types) ∧ s' = s := by
  induction exits with
  | nil =>
    intro types s s' h
    simp only [Exit.types, yields_pure] at h
    simp [h.2]
  | cons e exits ih =>
    intro types s s' h
    simp only [Exit.types, yields_bind, Value.typeOf_yields, yields_pure] at h
    obtain ⟨⟨t, a⟩, _, ⟨ht, rfl⟩, rest, _, hrest, rfl, rfl⟩ := h
    obtain ⟨hall, rfl⟩ := ih hrest
    refine ⟨List.forall_mem_cons.2 ⟨⟨t, a, ht, by simp⟩, fun e' he' => ?_⟩, rfl⟩
    obtain ⟨t', a', ht', hmem⟩ := hall e' he'
    exact ⟨t', a', ht', List.mem_cons_of_mem _ hmem⟩

/-- Joining the ways out of a body keeps what the body has bound in scope. -/
theorem Ctx.joinExits_applies {slot : Nat} {body : Lifted Outcome} {mode : Mode}
    (hdrawn : s.nextId = slot ∧ s₁.nextId = slot + 1)
    (hbody : body.Ends R J X s₁ s₂ mode (some slot)) :
    From s₂ (fun r s' => r.Applies R J X s s' mode) (ctx.joinExits loc slot body) := by
  obtain ⟨E, O, B, hcode, hreturned, hexits, henv⟩ := hbody
  have hle := hcode.le
  have hkeep : ∀ {O' : List Known}, O ⊆ O' → mode.Private →
      body.value.env.Formed R (X ++ O') :=
    fun hsub hprivate => (henv hprivate).mono (subset_append_left hsub)
  unfold Ctx.joinExits
  split
  · rename_i hnone
    rw [hnone] at hreturned
    have hnil : E = [] := List.length_eq_zero_iff.1 (Nat.le_zero.1 hreturned.length_le)
    obtain ⟨O', B', hcode', hvalue, hsub⟩ := unprompted_emits loc (.pub (.null loc)) hcode
      hdrawn (by simp [hnil]) (by simp [hnil]) .null
    exact .pure ⟨O', B', hcode', hvalue, hkeep hsub⟩
  · rename_i e hone
    rw [hone] at hreturned
    have hreturn : ∀ r ∈ E, r.1 = slot ∧ e.value.value = r.2.value ∧
        R.Allows r.2.level e.value.level := by
      intro r hr
      obtain ⟨hslot, e', he', hvalue, hlevel⟩ := hreturned.exit r hr
      obtain rfl := List.mem_singleton.1 he'
      exact ⟨(Option.some.inj hslot).symm, hvalue, hlevel⟩
    obtain ⟨O', B', hcode', hvalue, hsub⟩ := unprompted_emits loc e.value hcode hdrawn
      hreturned.length_le hreturn (hexits e hone)
    exact .pure ⟨O', B', hcode', hvalue, hkeep hsub⟩
  · refine .keep Exit.types_yields fun types htyped => .keep Ty.joinAll_yields fun type hsame =>
      .pure ⟨_, _, hcode.prompt (by omega) (Nat.le_refl _) (by omega) (.inl (by omega)) ?_ ?_ ?_,
        .var ⟨.pub, by simp [Labelled.pub], .of_pub⟩, hkeep ?_⟩
    · intro r hr
      exact (Option.some.inj (hreturned.exit r hr).1).symm
    · rintro v ⟨⟩
      rfl
    · rintro v ⟨⟩ r hr
      obtain ⟨_, e, he, hvalue, _⟩ := hreturned.exit r hr
      obtain ⟨t, a, ht, hmem⟩ := htyped e he
      exact ⟨a, by rw [← hvalue, ht, ← hsame _ hmem]⟩
    · exact List.subset_append_right _ _

namespace Evaluator.Sound

variable (hev : ev.Sound R) (hmode : ctx.mode.Formed R J X)
include hev hmode

theorem applyClosure {c : Closure} {args : List SecValue}
    (hnames : R.Admits (c.formals ++ c.body.idents)) (henv : Bindings.Formed R X c.env)
    (hargs : ∀ sv ∈ args, sv.Formed R X) :
    Performs R J X s ctx.mode (ev.applyClosure ctx loc c args) := by
  simp only [Regime.admits_append, Surface.Block.idents_eq] at hnames
  refine Ctx.alloc_from fun _ => .ensure fun _ => .keep Bindings.bindAll_yields
    fun inner hentries => ?_
  have hinner : inner.Formed R X := by
    refine henv.of_append ?_ hentries
    intro b hb _
    exact hargs b.2 (List.of_mem_zip hb).2
  exact From.bind ⟨fun hbody => hev.stmts hbody hmode ⟨hinner, by simp⟩ hnames.2⟩ fun _ _ hends =>
    Ctx.joinExits_applies ⟨rfl, rfl⟩ hends

variable (henv : env.Formed R X)
include henv

theorem applyValues {rator : Value} {args : List SecValue} {level : Level}
    (hrator : rator.Formed R X level) (hargs : ∀ sv ∈ args, sv.Formed R X) :
    Performs R J X s ctx.mode (ev.applyValues ctx loc env rator args) := by
  unfold Evaluator.applyValues
  split
  · exact (Ctx.applyPrim_sound henv hrator hargs).andThen fun _ _ O B hcode hvalue =>
      .pure ⟨O, B, hcode, hvalue, fun _ => henv.mono (List.subset_append_left _ _)⟩
  · cases hrator with
    | closure hnames hclosure => exact hev.applyClosure hmode hnames hclosure hargs
  · exact .fail

theorem exprs {es : List Surface.Expr} (hnames : R.Admits (Surface.exprsIdents es)) :
    Computes R J X s (fun Y svs => ∀ sv ∈ svs, SecValue.Formed R Y sv) (ev.exprs ctx env es) := by
  induction es generalizing X s with
  | nil => exact .plain (by simp)
  | cons e es ih =>
    simp only [Surface.exprsIdents, Regime.admits_append] at hnames
    refine (hev.computes hmode henv hnames.1).andThen fun _ _ O _ hcode hvalue => ?_
    have hsub : X ⊆ X ++ O := List.subset_append_left X O
    refine (ih (hmode.mono hsub) (henv.mono hsub) hnames.2).andThen fun _ _ _ _ hcode' hvalues =>
      .pure ⟨_, _, hcode.append hcode', List.forall_mem_cons.2 ⟨?_, by simpa using hvalues⟩⟩
    exact SecValue.Formed.mono hvalue (by simp)

theorem ternary {cond onTrue onFalse : Surface.Expr}
    (hnames : R.Admits (cond.idents ++ onTrue.idents ++ onFalse.idents)) :
    Computes R J X s (SecValue.Formed R) (ev.ternary ctx loc env cond onTrue onFalse) := by
  simp only [Regime.admits_append] at hnames
  obtain ⟨⟨hcondNames, htNames⟩, hfNames⟩ := hnames
  refine (hev.computes hmode henv hcondNames).andThen fun c s₁ Oc Bc hcCode hcValue => ?_
  have hsubc : X ⊆ X ++ Oc := List.subset_append_left X Oc
  -- where the code of the branch that is not taken stands depends on the condition
  refine (hev.computes (hmode.mono hsubc) (henv.mono hsubc) htNames).andThen
    fun t s₂ Ot Bt htCode htValue => .bind ⟨id⟩ fun f s₃ hf => ?_
  split
  · rename_i b _
    obtain ⟨Of, Bf, hfCode, hfValue⟩ := hev.expr hf (hmode.mono hsubc) (henv.mono hsubc) hfNames
    -- the numbers of the branch that is dropped stay unused
    cases b with
    | true =>
      refine .pure ⟨_, _, hcCode.append (htCode.widen (Nat.le_refl _) hfCode.le), ?_⟩
      simpa using SecValue.Formed.taint htValue
    | false =>
      refine .pure ⟨_, _, hcCode.append (hfCode.widen htCode.le (Nat.le_refl _)), ?_⟩
      simpa using SecValue.Formed.taint hfValue
  · rename_i v hcondition
    obtain ⟨hcv, hvType⟩ := Value.condition?_runTime hcondition
    split
    · have hsubt : X ⊆ X ++ Oc ++ Ot := List.Subset.trans hsubc (List.subset_append_left _ _)
      obtain ⟨Of, Bf, hfCode, hfValue⟩ := hev.expr hf (hmode.mono hsubt) (henv.mono hsubt) hfNames
      have hargs : ∀ sv ∈ [c.value, t.value, f.value],
          SecValue.Formed R (X ++ Oc ++ Ot ++ Of) sv := by
        simp only [List.mem_cons, List.not_mem_nil, or_false, forall_eq_or_imp, forall_eq]
        exact ⟨hcValue.mono (by simp), htValue.mono (List.subset_append_left _ _), hfValue⟩
      refine (Ctx.applyOp_sound (J := J) hargs).andThen fun _ _ Os Bs hsCode hsValue =>
        .pure ⟨Oc ++ Ot ++ Of ++ Os, Bc ++ Bt ++ Bf ++ Bs, ?_, ?_⟩
      · exact ((hcCode.append htCode).append (by simpa using hfCode)).append (by simpa using hsCode)
      · simpa using SecValue.Formed.taint hsValue
    · obtain ⟨Of, Bf, hfCode, hfValue⟩ := hev.expr hf (hmode.mono hsubc) (henv.mono hsubc) hfNames
      have hsees : R.Sees (X ++ Oc) c.value.level v := by
        have hvar : (Value.var v).Formed R (X ++ Oc) c.value.level := hcv ▸ hcValue
        cases hvar
        assumption
      refine .bind ⟨Ctx.joinBranches_emits hsees hvType htCode htValue hfCode hfValue⟩ ?_
      rintro ⟨prompt, result⟩ _ ⟨O, B, hprompt, hmem⟩
      refine .pure ⟨_, _, hcCode.append hprompt, .var ⟨.pub, ?_, .of_pub⟩⟩
      simp [hmem]
  · exact .fail

end Evaluator.Sound

end Choreography
