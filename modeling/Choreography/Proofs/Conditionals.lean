import Choreography.Proofs.Applications
import Choreography.Proofs.Modes
import Choreography.Proofs.Traversal

/-!
Conditional expressions keep the effects of their branches. The code of a branch that may be taken
is emitted once and in order. Where the condition is known only at run time and a branch is
effectful, both stand under the condition.
-/

namespace Choreography

open Eval Ir

/-! ### Purity -/

/-- The statement does something by itself that anyone can observe: it does not only bind, choose,
delimit or return, or what it binds asks a participant or reaches into an array. -/
def Ir.Stmt.isEffectful : Stmt → Bool
  | .letIn _ _ (.arrayRef ..) | .letIn _ _ (.interact ..) => true
  | .letIn .. | .branch .. | .prompt .. | .ret .. => false
  | .claim .. | .transfer .. | .stop .. | .only .. | .toConsensus .. | .fromConsensus .. | .loop ..
  | .cont .. => true

mutual

theorem Ir.Stmt.isPure_iff : ∀ s : Stmt,
    s.isPure = true ↔ s.isEffectful = false ∧ ∀ t ∈ s.inner, t.isEffectful = false
  | .letIn _ _ e => by
    cases e <;> simp [Stmt.isPure, Expr.isPure, Stmt.isEffectful, Stmt.inner]
  | .branch _ _ onTrue onFalse => by
    simp [Stmt.isPure, Stmt.isEffectful, Stmt.inner, codeIsPure_iff onTrue,
      codeIsPure_iff onFalse, or_imp, forall_and]
  | .prompt _ _ _ body => by
    simp [Stmt.isPure, Stmt.isEffectful, Stmt.inner, codeIsPure_iff body]
  | .ret .. => by simp [Stmt.isPure, Stmt.isEffectful, Stmt.inner]
  | .claim .. | .transfer .. | .stop .. | .only .. | .toConsensus .. | .fromConsensus .. | .loop ..
  | .cont .. => by simp [Stmt.isPure, Stmt.isEffectful]

/-- Code is pure when no statement in it is effectful, at any depth. -/
theorem Ir.codeIsPure_iff : ∀ code : List Stmt,
    codeIsPure code = true ↔ ∀ s ∈ statements code, s.isEffectful = false
  | [] => by simp [codeIsPure]
  | s :: rest => by
    simp [codeIsPure, Stmt.isPure_iff s, codeIsPure_iff rest, or_imp, forall_and, and_assoc]

end

/-! ### Conditional expressions -/

variable {fuel : Nat} {ctx : Ctx} {env : Bindings} {s s' : Supply} {loc trueLoc falseLoc : Loc}
  {v : Var} {x y : Value} {c t f r : Lifted SecValue}

theorem Value.condition?_constant {b : Bool} (h : x.condition? = some (.constant b)) :
    ∃ boolLoc, x = .bool boolLoc b := by
  unfold Value.condition? at h
  split at h
  · cases h
    exact ⟨_, rfl⟩
  · split at h <;> cases h
  · cases h

/-- Selection is between two values of one type. -/
theorem select_convert {type : Ty} {operands : List Arg}
    (h : (Op.ifThenElse.type.convert loc [.var v, x, y]).Yields s (type, operands) s') :
    ∃ a a', x.typed? = some (type, a) ∧ y.typed? = some (type, a') ∧
      operands = [.var v, a, a'] := by
  have hstrip : Op.ifThenElse.type.stripForAll = .func [.bool, .var "b", .var "b"] (.var "b") := rfl
  simp only [Ty.convert, hstrip, yields_bind, yields_ensure, yields_pure] at h
  obtain ⟨_, _, ⟨_, rfl⟩, ⟨args, solved⟩, _, hargs, heq, rfl⟩ := h
  obtain ⟨rfl, rfl⟩ := Prod.mk.inj heq
  obtain ⟨ts, hts, rfl, hsolve, rfl⟩ := Ty.convertArgs_yields rfl hargs
  simp only [List.forall₂_cons_left_iff, List.forall₂_nil_left_iff] at hts
  obtain ⟨cond, _, hcond, ⟨first, _, hx, ⟨second, _, hy, rfl, rfl⟩, rfl⟩, rfl⟩ := hts
  obtain ⟨_, hsame : second.1 = first.1, hentries⟩ := solve_select hsolve
  have htype : (Ty.var "b").substAll solved.entries = first.1 := by
    simp [hentries, Ty.substAll, Ty.subst]
  simp only [Value.typed?, Option.some.injEq] at hcond
  refine ⟨first.2, second.2, ?_, ?_, by simp [← hcond]⟩
  · rw [htype, hx]
  · rw [htype, hy, ← hsame]

theorem Ctx.applyOp_select {cond : SecValue} (hcond : cond.value = .var v)
    (h : (ctx.applyOp loc .ifThenElse [cond, t.value, f.value]).Yields s r s') :
    ∃ (result : Var) (a a' : Arg), t.value.value.typed? = some (result.type, a) ∧
      f.value.value.typed? = some (result.type, a') ∧
      r.code = [.letIn loc result (.prim .ifThenElse [.var v, a, a'])] ∧
      r.value.value = .var result := by
  have hnone : Op.ifThenElse.constant? loc [cond, t.value, f.value] = none := by
    simp [Op.constant?]
  simp only [Ctx.applyOp, hnone, List.map_cons, List.map_nil, hcond, yields_bind] at h
  obtain ⟨⟨type, operands⟩, _, hconvert, hlift⟩ := h
  obtain ⟨a, a', ha, ha', rfl⟩ := select_convert hconvert
  obtain ⟨result, rfl, -, rfl, -⟩ := Ctx.liftValue_yields hlift
  exact ⟨result, a, a', ha, ha', rfl, rfl⟩

/-- How a conditional expression at `loc` puts together its condition `c` and its branches `t` and
`f`. -/
inductive Chooses (loc trueLoc falseLoc : Loc) (c t f r : Lifted SecValue) : Prop
  | constant {boolLoc : Loc} {b : Bool} (known : c.value.value = .bool boolLoc b)
      (code : r.code = c.code ++ (if b then t else f).code)
      (value : r.value.value = (if b then t else f).value.value)
  | selected {cond result : Var} {a a' : Arg} (runTime : c.value.value = .var cond)
      (bool : cond.type = .bool)
      (pure : ∀ st ∈ statements (t.code ++ f.code), st.isEffectful = false)
      (onTrue : t.value.value.typed? = some (result.type, a))
      (onFalse : f.value.value.typed? = some (result.type, a'))
      (code : r.code = c.code ++ t.code ++ f.code ++
        [.letIn loc result (.prim .ifThenElse [.var cond, a, a'])])
      (value : r.value.value = .var result)
  | guarded {cond result : Var} (runTime : c.value.value = .var cond) (bool : cond.type = .bool)
      (effectful : ∃ st ∈ statements (t.code ++ f.code), st.isEffectful = true)
      (code : r.code = c.code ++ [.prompt loc result.id (some result) [.branch loc (.var cond)
        (t.code ++ [.ret trueLoc result.id (some t.value.value)])
        (f.code ++ [.ret falseLoc result.id (some f.value.value)])]])
      (value : r.value.value = .var result)

theorem Evaluator.ternary_chooses {ev : Evaluator} {cond onTrue onFalse : Surface.Expr}
    (h : (ev.ternary ctx loc env cond onTrue onFalse).Yields s r s') :
    ∃ c t f s₁ s₂ s₃, (ev.expr ctx env cond).Yields s c s₁ ∧
      (ev.expr ctx env onTrue).Yields s₁ t s₂ ∧ (ev.expr ctx env onFalse).Yields s₂ f s₃ ∧
      Chooses loc onTrue.loc onFalse.loc c t f r := by
  simp only [Evaluator.ternary, yields_bind] at h
  obtain ⟨c, s₁, hc, t, s₂, ht, f, s₃, hf, h⟩ := h
  refine ⟨c, t, f, s₁, s₂, s₃, hc, ht, hf, ?_⟩
  have hpure_iff : (codeIsPure t.code && codeIsPure f.code) = true ↔
      ∀ st ∈ statements (t.code ++ f.code), st.isEffectful = false := by
    simp [codeIsPure_iff, or_imp, forall_and]
  split at h
  · rename_i b hknown
    obtain ⟨_, hvalue⟩ := Value.condition?_constant hknown
    simp only [yields_pure] at h
    rw [h.1]
    exact .constant hvalue rfl rfl
  · rename_i v hrunTime
    obtain ⟨hvalue, hbool⟩ := Value.condition?_runTime hrunTime
    split at h
    · rename_i hpure
      simp only [yields_bind, yields_pure] at h
      obtain ⟨selected, _, happly, rfl, _⟩ := h
      obtain ⟨result, a, a', ha, ha', hcode, hresult⟩ := Ctx.applyOp_select hvalue happly
      exact .selected hvalue hbool (hpure_iff.1 hpure) ha ha' (by rw [hcode]) hresult
    · rename_i himpure
      simp only [yields_bind, yields_pure] at h
      obtain ⟨⟨prompt, result⟩, _, hjoin, rfl, _⟩ := h
      simp only [Ctx.joinBranches, yields_bind, yields_pure, Prod.mk.injEq] at hjoin
      obtain ⟨slot, _, _, _, _, _, _, _, _, _, _, _, ⟨rfl, rfl⟩, _⟩ := hjoin
      exact .guarded hvalue hbool (by simpa using mt hpure_iff.2 himpure) rfl rfl
  · simp at h

/-- Conditional expressions keep the effects of their branches: none is lost, repeated, or moved out
from under the condition. Purity, by which they decide, is that no statement is effectful. -/
theorem ternary_keeps_effects {cond onTrue onFalse : Surface.Expr}
    (h : (Elaboration.evalExpr fuel ctx env (.ternary loc cond onTrue onFalse)).Yields s r s') :
    (∀ code, codeIsPure code = true ↔ ∀ st ∈ statements code, st.isEffectful = false) ∧
    ∃ inner c t f s₁ s₂ s₃, fuel = inner + 1 ∧
      (Elaboration.evalExpr inner ctx env cond).Yields s c s₁ ∧
      (Elaboration.evalExpr inner ctx env onTrue).Yields s₁ t s₂ ∧
      (Elaboration.evalExpr inner ctx env onFalse).Yields s₂ f s₃ ∧
      Chooses loc onTrue.loc onFalse.loc c t f r := by
  refine ⟨codeIsPure_iff, ?_⟩
  cases fuel with
  | zero => exact absurd h yields_outOfFuel
  | succ inner =>
    obtain ⟨c, t, f, s₁, s₂, s₃, hc, ht, hf, hchooses⟩ := Evaluator.ternary_chooses h
    exact ⟨inner, c, t, f, s₁, s₂, s₃, rfl, hc, ht, hf, hchooses⟩

namespace Surface

/-- The text `c ? claim(c) : null`, which claims something under a condition. -/
def claimIf : Expr := .ternary here (name "c") (apply "claim" [name "c"]) (.null here)

/-- A condition that is known at run time, and a way to claim things. -/
def claimEnv : Bindings :=
  .ofList [("c", .pub (.var ⟨here, "c", .bool, 0⟩)), ("claim", .pub (.prim here (.claim .assert)))]

end Surface

theorem claimIf_keeps_effects : ∃ c t f r s', (Elaboration.evalExpr 5
      { mode := .step {}, canLift := true } Surface.claimEnv Surface.claimIf).Yields {} r s' ∧
    codeIsPure r.code = false ∧ Chooses Surface.here Surface.here Surface.here c t f r := by
  obtain ⟨r, s', hrun, himpure⟩ := exists_yields_of_any (s := {}) (f := fun r => !codeIsPure r.code)
    (x := Elaboration.evalExpr 5 { mode := .step {}, canLift := true } Surface.claimEnv
      Surface.claimIf) (by decide +kernel)
  obtain ⟨_, _, c, t, f, _, _, _, _, _, _, _, hchooses⟩ := ternary_keeps_effects hrun
  exact ⟨c, t, f, r, s', hrun, by simpa using himpure, hchooses⟩

end Choreography
