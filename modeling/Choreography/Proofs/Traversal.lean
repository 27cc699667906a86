import Choreography.Proofs.Operands
import Choreography.Value.Typing
import Mathlib.Data.List.Basic

/-!
Intermediate programs as collections of statements: all statements at every depth, the operands that
they mention, the numbers that they define, and the variables that they leave in scope.
-/

namespace Choreography.Ir

mutual

/-- All statements inside a statement, at every depth. -/
def Stmt.inner : Stmt → List Stmt
  | .prompt _ _ _ body | .only _ _ body | .fromConsensus _ body => statements body
  | .branch _ _ onTrue onFalse => statements onTrue ++ statements onFalse
  | .toConsensus _ ⟨_, _, _, _, _, none, body⟩ => statements body
  | .toConsensus _ ⟨_, _, _, _, _, some ⟨_, late⟩, body⟩ => statements late ++ statements body
  | .loop _ _ ⟨_, _, invariant, _⟩ ⟨_, _, cond, _⟩ body =>
    statements invariant ++ statements cond ++ statements body
  | .letIn .. | .claim .. | .transfer .. | .stop .. | .ret .. | .cont .. => []

/-- All statements of some code, at every depth. -/
def statements : List Stmt → List Stmt
  | [] => []
  | s :: rest => s :: (s.inner ++ statements rest)

end

@[simp] theorem statements_nil : statements [] = [] := by simp only [statements]

@[simp] theorem statements_cons (s : Stmt) (rest : Code) :
    statements (s :: rest) = s :: (s.inner ++ statements rest) := by
  simp only [statements]

@[simp] theorem statements_append (code code' : Code) :
    statements (code ++ code') = statements code ++ statements code' := by
  induction code with
  | nil => simp
  | cons s rest ih => simp [ih]

theorem mem_statements {s : Stmt} {code : Code} :
    s ∈ statements code ↔ ∃ t ∈ code, s = t ∨ s ∈ t.inner := by
  induction code with
  | nil => simp
  | cons t rest ih => simp [ih, or_assoc]

/-- The operands that a statement mentions itself, outside the code that stands inside it. A value
that is returned is mentioned in the form that it has at run time. -/
def Stmt.operands : Stmt → List Arg
  | .letIn _ _ e => e.operands
  | .claim _ _ _ a => [a]
  | .transfer _ _ recipient amount => [recipient, amount]
  | .ret _ _ value => (value.bind Value.typed?).toList.map (·.2)
  | .branch _ cond _ _ => [cond]
  | .toConsensus _ t => t.messages.map (·.1) ++ [t.amount] ++ t.timeout.toList.map (·.delay)
  | .loop _ init invariant cond _ => init.map (·.2) ++ [invariant.result, cond.result]
  | .cont _ assignment => assignment.map (·.2)
  | .stop .. | .prompt .. | .only .. | .fromConsensus .. => []

/-- The numbers that a statement defines by itself: of the variable it binds, of the slot it owns,
of the variables by which messages are received and of the address that a participant joins with. -/
def Stmt.defines : Stmt → List Nat
  | .letIn _ v _ => [v.id]
  | .prompt _ slot _ _ => [slot]
  | .toConsensus _ t => t.messages.map (·.2.id) ++ if t.join then [t.whoVar.id] else []
  | .loop _ init _ _ _ => init.map (·.1.id)
  | .claim .. | .transfer .. | .stop .. | .ret .. | .branch .. | .only .. | .fromConsensus ..
  | .cont .. => []

/-- The defining occurrences of numbers in some code. -/
def definitions (code : Code) : List Nat := (statements code).flatMap Stmt.defines

@[simp] theorem definitions_nil : definitions [] = [] := by simp [definitions]

@[simp] theorem definitions_append (code code' : Code) :
    definitions (code ++ code') = definitions code ++ definitions code' := by
  simp [definitions]

@[simp] theorem definitions_cons (s : Stmt) (rest : Code) :
    definitions (s :: rest) = s.defines ++ (s.inner.flatMap Stmt.defines ++ definitions rest) := by
  simp [definitions]

/-! ### Variables left in scope -/

mutual

/-- The variables that a statement leaves in scope. Private code leaves all that it binds at its
outer level, and so does the body of a function. The return of a function whose result has no
variable takes its value along, so a prompt without a result leaves what that value may mention:
with `deep`, also what is bound on the way to a return inside a loop or after a commit. -/
def Stmt.leaves (deep : Bool) : Stmt → List Var
  | .letIn _ v _ => [v]
  | .prompt _ _ result body => result.toList ++ codeLeaves result.isNone body
  | .only _ _ body => codeLeaves false body
  | .fromConsensus _ body => if deep then codeLeaves true body else []
  | .loop _ init _ _ body => init.map (·.1) ++ if deep then codeLeaves true body else []
  | .claim .. | .transfer .. | .stop .. | .ret .. | .branch .. | .toConsensus .. | .cont .. => []

def codeLeaves (deep : Bool) : List Stmt → List Var
  | [] => []
  | s :: rest => s.leaves deep ++ codeLeaves deep rest

end

@[simp] theorem codeLeaves_nil {deep : Bool} : codeLeaves deep [] = [] := by simp only [codeLeaves]

@[simp] theorem codeLeaves_cons {deep : Bool} (s : Stmt) (rest : Code) :
    codeLeaves deep (s :: rest) = s.leaves deep ++ codeLeaves deep rest := by
  simp only [codeLeaves]

@[simp] theorem codeLeaves_append {deep : Bool} (code code' : Code) :
    codeLeaves deep (code ++ code') = codeLeaves deep code ++ codeLeaves deep code' := by
  induction code with
  | nil => simp
  | cons s rest ih => simp [ih]

theorem codeLeaves_subset_deep (code : Code) : codeLeaves false code ⊆ codeLeaves true code := by
  induction code with
  | nil => simp
  | cons s rest ih =>
    have hstmt : s.leaves false ⊆ s.leaves true := by
      cases s <;> simp [Stmt.leaves]
    rw [codeLeaves_cons, codeLeaves_cons]
    intro v hv
    rcases List.mem_append.1 hv with hv | hv
    · exact List.mem_append_left _ (hstmt hv)
    · exact List.mem_append_right _ (ih hv)

end Choreography.Ir
