import Choreography.Proofs.Run

/-!
Ways out of statements. Code returns values to a slot around it, and for each list of statements
evaluation records in which ways it is left. Where a closure is applied, the recorded ways decide the
type of the result. What is recorded is what the code returns, in the same order, and in between,
falling off an end.
-/

namespace Choreography

open Eval Ir

namespace Ir

/-! ### Returned values -/

variable {code : Code}

mutual

/-- The values that a statement returns to the slot around it. What is returned inside a prompt goes
to the prompt, and private code returns nothing. -/
def Stmt.returned : Stmt → List Value
  | .ret _ _ value => value.toList
  | .branch _ _ onTrue onFalse => codeReturned onTrue ++ codeReturned onFalse
  | .toConsensus _ ⟨_, _, _, _, _, none, body⟩ => codeReturned body
  | .toConsensus _ ⟨_, _, _, _, _, some ⟨_, late⟩, body⟩ => codeReturned late ++ codeReturned body
  | .fromConsensus _ body | .loop _ _ _ _ body => codeReturned body
  | .letIn .. | .claim .. | .transfer .. | .stop .. | .prompt .. | .only .. | .cont .. => []

def codeReturned : List Stmt → List Value
  | [] => []
  | s :: rest => s.returned ++ codeReturned rest

end

@[simp] theorem codeReturned_nil : codeReturned [] = [] := by simp only [codeReturned]

@[simp] theorem codeReturned_cons (s : Stmt) (rest : Code) :
    codeReturned (s :: rest) = s.returned ++ codeReturned rest := by
  simp only [codeReturned]

@[simp] theorem codeReturned_append (code code' : Code) :
    codeReturned (code ++ code') = codeReturned code ++ codeReturned code' := by
  induction code with
  | nil => simp
  | cons s rest ih => simp [ih]

theorem codeReturned_eq_nil : codeReturned code = [] ↔ ∀ s ∈ code, s.returned = [] := by
  induction code with
  | nil => simp
  | cons s rest ih => simp [ih]

theorem Stmt.returned_toConsensus (loc : Loc) (t : Transition) :
    Stmt.returned (.toConsensus loc t) =
      (t.timeout.toList.flatMap fun d => codeReturned d.body) ++ codeReturned t.body := by
  obtain ⟨who, join, whoVar, messages, amount, _ | ⟨delay, late⟩, body⟩ := t <;>
    simp [Stmt.returned]

end Ir

/-! ### Recorded ways out -/

/-- The ways out are the returned values, in the same order, with implicit nulls in between. -/
inductive Exit.Records : List Value → List Exit → Prop
  | nil : Records [] []
  | returned {exit : Exit} {v : Value} {vs : List Value} {exits : List Exit}
    (hvalue : exit.value.value = v) (h : Records vs exits) : Records (v :: vs) (exit :: exits)
  | implicit {loc : Loc} {level : Level} {vs : List Value} {exits : List Exit}
    (h : Records vs exits) : Records vs (Exit.implicit loc level :: exits)

namespace Exit.Records

variable {vs ws : List Value} {exits exits' : List Exit}

theorem append (h : Records vs exits) (h' : Records ws exits') :
    Records (vs ++ ws) (exits ++ exits') := by
  induction h with
  | nil => exact h'
  | returned hvalue _ ih => exact .returned hvalue ih
  | implicit _ ih => exact .implicit ih

theorem taint (h : Records vs exits) (level : Level) : Records vs (exits.map (Exit.taint level)) := by
  induction h with
  | nil => exact .nil
  | returned hvalue _ ih => exact .returned hvalue ih
  | implicit _ ih => exact .implicit ih

theorem eq_nil (h : Records vs []) : vs = [] := by
  cases h
  rfl

theorem combine (h : Records vs exits) (h' : Records ws exits') (loc : Loc) (level : Level) :
    Records (vs ++ ws) (Exit.combine loc level exits exits') := by
  have horImplicit : ∀ {vs : List Value} {exits : List Exit}, Records vs exits →
      Records vs (if exits.isEmpty then [Exit.implicit loc level] else exits) := by
    intro vs exits hrecords
    split
    · rename_i hnone
      rw [List.isEmpty_iff] at hnone
      subst hnone
      exact .implicit hrecords
    · exact hrecords
  unfold Exit.combine
  split
  · rename_i hnone
    simp only [Bool.and_eq_true, List.isEmpty_iff] at hnone
    obtain ⟨rfl, rfl⟩ := hnone
    rw [h.eq_nil, h'.eq_nil]
    exact .nil
  · exact (horImplicit h).append (horImplicit h')

theorem sublist (h : Records vs exits) : vs.Sublist (exits.map (·.value.value)) := by
  induction h with
  | nil => exact .slnil
  | returned hvalue _ ih =>
    rw [List.map_cons, hvalue]
    exact ih.cons_cons _
  | implicit _ ih => exact ih.cons _

/-- When no more is recorded than is returned, what is recorded is what is returned. -/
theorem values_eq (h : Records vs exits) (hlength : exits.length ≤ vs.length) :
    exits.map (·.value.value) = vs :=
  (h.sublist.eq_of_length_le (by simpa using hlength)).symm

/-- When nothing is returned, all that is recorded is falling off an end. -/
theorem all_null (h : Records [] exits) : ∀ exit ∈ exits, exit.value.value = .null exit.loc := by
  generalize hnone : ([] : List Value) = vs at h
  induction h with
  | nil => simp
  | returned => cases hnone
  | implicit _ ih => exact List.forall_mem_cons.2 ⟨rfl, ih hnone⟩

end Exit.Records

/-- The ways out of alternatives that have none. -/
theorem Exit.combine_nil (loc : Loc) (level : Level) : Exit.combine loc level [] [] = [] := rfl

/-! ### Conditionals -/

/-- What a conditional leaves in a scope before the statements after it: the branch taken, or both
branches and the ways out of either. -/
inductive Evaluator.Branches (ev : Evaluator) (ctx : Ctx) (loc : Loc) (scope : Scope)
    (onTrue : Surface.Stmt) (onFalse : Option Surface.Stmt) (c : Lifted SecValue) :
    Supply → Lifted Outcome → Supply → Prop
  | onlyTrue {s s' : Supply} {taken : Lifted Outcome}
    (htaken : (ev.branchBody ctx onTrue.loc scope (some onTrue)).Yields s taken s') :
    Branches ev ctx loc scope onTrue onFalse c s (taken.after c.code) s'
  | onlyFalse {s s' : Supply} {taken : Lifted Outcome} {falseLoc : Loc}
    (htaken : (ev.branchBody ctx falseLoc scope onFalse).Yields s taken s') :
    Branches ev ctx loc scope onTrue onFalse c s (taken.after c.code) s'
  | both {s s₁ s' : Supply} {v : Var} {t f : Lifted Outcome} {falseLoc : Loc} {env : Bindings}
    (ht : (ev.branchBody ctx onTrue.loc scope (some onTrue)).Yields s t s₁)
    (hf : (ev.branchBody ctx falseLoc scope onFalse).Yields s₁ f s') :
    Branches ev ctx loc scope onTrue onFalse c s
      { code := c.code ++ [.branch loc (.var v) t.code f.code],
        value :=
          { env
            exits := Exit.combine loc c.value.level (t.value.exits.map (Exit.taint c.value.level))
              (f.value.exits.map (Exit.taint c.value.level)) } } s'

/-- A conditional evaluates its condition, one or both branches, and then what follows. Branches that
something follows may be empty. -/
theorem Evaluator.branch_yields {ev : Evaluator} {ctx : Ctx} {loc : Loc} {scope : Scope}
    {cond : Surface.Expr} {onTrue : Surface.Stmt} {onFalse : Option Surface.Stmt}
    {rest : List Surface.Stmt} {s s' : Supply} {r : Lifted Outcome}
    (hrun : (ev.branch ctx loc scope cond onTrue onFalse rest).Yields s r s') :
    ∃ c first s₁ s₂, (ev.expr ctx scope.env cond).Yields s c s₁ ∧
      ev.Branches ctx loc (if (Surface.dropEmpty rest).isEmpty then scope
        else { scope with style := .mayBeEmpty }) onTrue onFalse c s₁ first s₂ ∧
      (ev.continueWith ctx loc scope first (Surface.dropEmpty rest)).Yields s₂ r s' := by
  simp only [Evaluator.branch, yields_bind] at hrun
  obtain ⟨c, s₁, hc, hrun⟩ := hrun
  split at hrun
  · split at hrun
    · simp only [yields_bind] at hrun
      obtain ⟨taken, s₂, htaken, hcontinue⟩ := hrun
      exact ⟨c, _, s₁, s₂, hc, .onlyTrue htaken, hcontinue⟩
    · simp only [yields_bind] at hrun
      obtain ⟨taken, s₂, htaken, hcontinue⟩ := hrun
      exact ⟨c, _, s₁, s₂, hc, .onlyFalse htaken, hcontinue⟩
  · simp only [yields_bind] at hrun
    obtain ⟨t, _, ht, f, s₂, hf, hcontinue⟩ := hrun
    exact ⟨c, _, s₁, s₂, hc, .both ht hf, hcontinue⟩
  · simp at hrun

end Choreography
