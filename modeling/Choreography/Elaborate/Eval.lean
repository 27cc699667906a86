import Choreography.Fault.Cause
import Choreography.Ir.Code

/-!
Computations of elaboration. They may stop without a result, and they draw numbers from a supply.
What was drawn before a stop stays drawn.
-/

namespace Choreography

/-- Why a computation ended without a result. -/
inductive Stop
  | fault (f : Fault)
  /-- The bound on the depth of evaluation was reached. -/
  | outOfFuel

/-- The numbers that are still unused. -/
structure Supply where
  /-- For variables and return slots. -/
  nextId : Nat := 0
  /-- For the identity of values. The tag zero is taken by the form that the base environment
  holds. -/
  nextTag : Tag := 1
  deriving Inhabited

abbrev Eval := ExceptT Stop (StateM Supply)

namespace Eval

/-- Stops with a fault. -/
def fail {α : Type} (f : Fault) : Eval α := throw (.fault f)

/-- Stops with a fault unless the condition holds. -/
def ensure (condition : Bool) (f : Fault) : Eval Unit := if condition then pure () else fail f

/-- The result, or a fault when there is none. -/
def orFail {α : Type} (result : Option α) (f : Fault) : Eval α :=
  match result with
  | some a => pure a
  | none => fail f

def freshId : Eval Nat := do
  let supply ← get
  set { supply with nextId := supply.nextId + 1 }
  return supply.nextId

def freshTag : Eval Tag := do
  let supply ← get
  set { supply with nextTag := supply.nextTag + 1 }
  return supply.nextTag

/-- Starts numbering variables and slots afresh. -/
def restartIds : Eval Unit := modify fun supply => { supply with nextId := 0 }

/-- Runs a computation from a supply. -/
def runFrom {α : Type} (x : Eval α) (supply : Supply) : Except Stop α × Supply :=
  (ExceptT.run x).run supply

@[simp] theorem runFrom_pure {α : Type} (a : α) (supply : Supply) :
    (pure a : Eval α).runFrom supply = (.ok a, supply) := rfl

@[simp] theorem runFrom_fail {α : Type} (f : Fault) (supply : Supply) :
    (fail f : Eval α).runFrom supply = (.error (.fault f), supply) := rfl

theorem runFrom_bind {α β : Type} (x : Eval α) (f : α → Eval β) (supply : Supply) :
    (x >>= f).runFrom supply = match x.runFrom supply with
      | (.ok a, rest) => (f a).runFrom rest
      | (.error stop, rest) => (.error stop, rest) := by
  simp only [runFrom, bind, ExceptT.bind, ExceptT.run, ExceptT.mk, StateT.bind, StateT.run]
  rcases x supply with ⟨_ | _, _⟩ <;> rfl

/-- A sequence succeeds exactly when both of its parts do, the second with the supply that the
first leaves. -/
theorem runFrom_bind_eq_ok_iff {α β : Type} {x : Eval α} {f : α → Eval β} {supply rest : Supply}
    {b : β} :
    (x >>= f).runFrom supply = (.ok b, rest) ↔
      ∃ a middle, x.runFrom supply = (.ok a, middle) ∧ (f a).runFrom middle = (.ok b, rest) := by
  rw [runFrom_bind]
  rcases x.runFrom supply with ⟨stop | a, middle⟩
  · simp
  · constructor
    · intro h
      exact ⟨a, middle, rfl, h⟩
    · rintro ⟨_, _, heq, h⟩
      cases heq
      exact h

end Eval

/-- A result together with the code that its evaluation emitted, in program order. -/
structure Lifted (α : Type) where
  code : Ir.Code
  value : α
  deriving Inhabited

namespace Lifted

/-- A result that needs no code. -/
def plain {α : Type} (value : α) : Lifted α := ⟨[], value⟩

/-- The same result after some earlier code. -/
def after {α : Type} (code : Ir.Code) (x : Lifted α) : Lifted α := { x with code := code ++ x.code }

end Lifted

end Choreography
