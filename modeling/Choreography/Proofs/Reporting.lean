import Choreography.Proofs.Compilation
import Choreography.Proofs.Fuel

/-!
Failures and the log. An operation that fails is the only thing that is reported, and only the first
failure of an elaboration is. Main statement: an operation has no result exactly when a fault is
recorded after it, with one diagnostic that carries the fault; and neither its result nor the numbers
it draws depend on what was recorded before. Types are trees, so the supply is all that operations
leave for each other.
-/

namespace Choreography

open Eval Ir

/-! ### Operations -/

/-- What can be asked of an elaboration. -/
inductive Operation : Type → Type
  | bind (env : Bindings) (loc : Loc) (name : String) (sv : SecValue) : Operation Bindings
  | merge (env : Bindings) (loc : Loc) (overlay : Bindings) : Operation Bindings
  | lookup (env : Bindings) (loc : Loc) (name : String) : Operation SecValue
  | requirePublic (sv : SecValue) (loc : Loc) : Operation Value
  | declassify (sv : SecValue) (loc : Loc) : Operation SecValue
  | typeOf (v : Value) (loc : Loc) : Operation (Ty × Arg)
  | checkType (v : Value) (loc : Loc) (expected : Ty) : Operation Arg
  | convert (funType : Ty) (loc : Loc) (args : List Value) : Operation (Ty × List Arg)
  | join (loc : Loc) (a b : Loc × Ty) : Operation Ty
  | joinAll (loc : Loc) (ts : List (Loc × Ty)) : Operation Ty
  | expr (ctx : Ctx) (env : Bindings) (e : Surface.Expr) : Operation (Lifted SecValue)
  | exprs (ctx : Ctx) (env : Bindings) (es : List Surface.Expr) : Operation (Lifted (List SecValue))
  | applyValues (ctx : Ctx) (loc : Loc) (env : Bindings) (rator : Value) (args : List SecValue) :
    Operation (Lifted Applied)
  | stmts (ctx : Ctx) (loc : Loc) (scope : Scope) (body : List Surface.Stmt) :
    Operation (Lifted Outcome)
  | link (bundle : Bundle) : Operation Libraries

namespace Operation

variable {α : Type}

/-- The computation of an operation, to a depth. -/
def run (fuel : Nat) (options : Options) (sources : SourceTable) : Operation α → Eval α
  | .bind env loc name sv => env.bind loc name sv
  | .merge env loc overlay => env.merge loc overlay
  | .lookup env loc name => env.lookup loc name
  | .requirePublic sv loc => sv.requirePublic loc
  | .declassify sv loc => sv.declassify loc
  | .typeOf v loc => v.typeOf loc
  | .checkType v loc expected => v.checkType loc expected
  | .convert funType loc args => funType.convert loc args
  | .join loc a b => Ty.join loc a b
  | .joinAll loc ts => Ty.joinAll loc ts
  | .expr ctx env e => Elaboration.evalExpr fuel ctx env e
  | .exprs ctx env es => Elaboration.evalExprs fuel ctx env es
  | .applyValues ctx loc env rator args => Elaboration.applyValues fuel ctx loc env rator args
  | .stmts ctx loc scope body => Elaboration.evalStmts fuel ctx loc scope body
  | .link bundle => Choreography.link fuel options sources bundle

/-- Whether an operation evaluates parts of a program, and so may have no end. -/
def evaluates : Operation α → Bool
  | .bind .. | .merge .. | .lookup .. | .requirePublic .. | .declassify .. | .typeOf ..
  | .checkType .. | .convert .. | .join .. | .joinAll .. => false
  | .expr .. | .exprs .. | .applyValues .. | .stmts .. | .link .. => true

theorem run_extends (op : Operation α) (options : Options) (sources : SourceTable)
    {fuel fuel' : Nat} (h : fuel ≤ fuel') :
    Eval.Extends (op.run fuel options sources) (op.run fuel' options sources) := by
  have hev := evaluator_extends h
  cases op with
  | expr ctx env e => exact hev.expr ctx env e
  | exprs ctx env es => exact hev.exprs ctx env es
  | applyValues ctx loc env rator args => exact hev.applyValues ctx loc env rator args
  | stmts ctx loc scope body => exact hev.stmts ctx loc scope body
  | link bundle => exact hev.modules options sources _ {}
  | _ => exact .refl _

/-- What an operation comes to within some depth: a result or a fault, and the supply after it. -/
def Gives (op : Operation α) (options : Options) (sources : SourceTable) (s : Supply)
    (result : Except Fault α) (s' : Supply) : Prop :=
  ∃ fuel, (op.run fuel options sources).runFrom s = (result.mapError .fault, s')

theorem mapError_fault_inj {result result' : Except Fault α}
    (h : result.mapError Stop.fault = result'.mapError Stop.fault) : result = result' := by
  cases result with
  | ok a =>
    cases result' with
    | ok => cases h; rfl
    | error => cases h
  | error f =>
    cases result' with
    | ok => cases h
    | error => cases h; rfl

/-- A larger depth does not change what an operation comes to. -/
theorem Gives.of_le {op : Operation α} {options : Options} {sources : SourceTable} {s s' : Supply}
    {result : Except Fault α} {fuel fuel' : Nat}
    (h : (op.run fuel options sources).runFrom s = (result.mapError .fault, s'))
    (hle : fuel ≤ fuel') :
    (op.run fuel' options sources).runFrom s = (result.mapError .fault, s') := by
  rcases (op.run_extends options sources hle).run s with hout | heq
  · rw [h] at hout
    cases result <;> cases hout
  · rw [← heq, h]

/-- An operation comes to one thing only. -/
theorem Gives.unique {op : Operation α} {options : Options} {sources : SourceTable}
    {s s₁ s₂ : Supply} {result₁ result₂ : Except Fault α}
    (h₁ : op.Gives options sources s result₁ s₁) (h₂ : op.Gives options sources s result₂ s₂) :
    result₁ = result₂ ∧ s₁ = s₂ := by
  obtain ⟨fuel₁, h₁⟩ := h₁
  obtain ⟨fuel₂, h₂⟩ := h₂
  have heq := (Gives.of_le h₁ (Nat.le_max_left fuel₁ fuel₂)).symm.trans
    (Gives.of_le h₂ (Nat.le_max_right fuel₁ fuel₂))
  exact ⟨mapError_fault_inj (congrArg Prod.fst heq), congrArg Prod.snd heq⟩

end Operation

/-! ### Operations on an elaboration -/

namespace Elaboration

variable {α : Type}

/-- The elaboration after an operation that came to `result` and left `supply`. -/
def after (e : Elaboration) (result : Except Fault α) (supply : Supply) : Elaboration :=
  match result with
  | .ok _ => { e with supply }
  | .error f => { e with supply }.record f

theorem perform_eq_iff {e e' : Elaboration} {x : Eval α} {result : Except Fault α} :
    e.perform x = (result.mapError .fault, e') ↔
      ∃ s', x.runFrom e.supply = (result.mapError .fault, s') ∧ e' = e.after result s' := by
  unfold perform
  generalize x.runFrom e.supply = ended
  constructor
  · intro h
    obtain ⟨(f | _) | a, s'⟩ := ended
    · cases result <;> cases h
      exact ⟨s', rfl, rfl⟩
    · cases result <;> cases h
    · cases result <;> cases h
      exact ⟨s', rfl, rfl⟩
  · rintro ⟨s', hrun, rfl⟩
    rw [hrun]
    cases result <;> rfl

end Elaboration

namespace Operation

variable {α : Type}

/-- Performing an operation ends with `result` and leaves the second elaboration. -/
def Ends (op : Operation α) (e : Elaboration) (result : Except Fault α) (e' : Elaboration) : Prop :=
  ∃ fuel, e.perform (op.run fuel e.options e.session.sources) = (result.mapError .fault, e')

theorem ends_iff {op : Operation α} {e e' : Elaboration} {result : Except Fault α} :
    op.Ends e result e' ↔
      ∃ s', op.Gives e.options e.session.sources e.supply result s' ∧ e' = e.after result s' := by
  simp only [Ends, Gives, Elaboration.perform_eq_iff]
  constructor
  · rintro ⟨fuel, s', hrun, heq⟩
    exact ⟨s', ⟨fuel, hrun⟩, heq⟩
  · rintro ⟨s', ⟨fuel, hrun⟩, heq⟩
    exact ⟨fuel, s', hrun, heq⟩

end Operation

namespace Elaboration

variable {α : Type} {e : Elaboration}

theorem after_of_none (h : e.firstFault = none) (f : Fault) (s' : Supply) :
    e.after (.error f : Except Fault α) s' =
      { e with
        firstFault := some f
        session := e.session.report (f.diagnostic e.options.maxSuggestions)
        supply := s' } := by
  simp [after, record, h]

theorem after_of_some {g : Fault} (h : e.firstFault = some g) (result : Except Fault α)
    (s' : Supply) : e.after result s' = { e with supply := s' } := by
  cases result with
  | ok => rfl
  | error f => simp [after, record, h]

/-- Whatever an operation came to, it leaves its supply, and the settings stay. -/
theorem after_keeps (result : Except Fault α) (s' : Supply) :
    (e.after result s').supply = s' ∧ (e.after result s').options = e.options := by
  cases h : e.firstFault with
  | some g => simp only [after_of_some h, and_self]
  | none =>
    cases result with
    | ok => exact ⟨rfl, rfl⟩
    | error f => simp only [after_of_none h, and_self]

end Elaboration

/-! ### Operations that always end -/

namespace Operation

variable {α : Type}

/-- An operation that evaluates nothing reaches no bound on its depth. -/
theorem run_settles {op : Operation α} (h : op.evaluates = false) (options : Options)
    (sources : SourceTable) :
    Meets (· ≠ .outOfFuel) (fun _ => True) (op.run 0 options sources) := by
  have hroutine : ∀ {x : Eval α}, Routine x → Meets (· ≠ .outOfFuel) (fun _ => True) x := by
    refine fun hx => hx.toMeets.mono ?_ fun _ h => h
    rintro _ hordinary rfl
    cases hordinary
  cases op with
  | bind => exact hroutine (Bindings.bind_routine ..)
  | merge => exact hroutine (Bindings.bindAll_routine ..)
  | lookup => exact hroutine (Bindings.lookup_routine ..)
  | requirePublic => exact hroutine (SecValue.requirePublic_routine _)
  | declassify => exact hroutine (SecValue.declassify_routine _)
  | typeOf => exact hroutine (Value.typeOf_routine _)
  | checkType => exact hroutine (Value.checkType_routine ..)
  | convert =>
    refine (Ty.convert_meets ..).toMeets.mono ?_ fun _ h => h
    rintro _ (hordinary | ⟨_, hfault⟩) rfl
    · cases hordinary
    · cases hfault
  | join => exact hroutine (Ty.join_routine ..)
  | joinAll => exact hroutine (Ty.joinAll_routine _)
  | expr | exprs | applyValues | stmts | link => cases h

theorem exists_gives {op : Operation α} (h : op.evaluates = false) (options : Options)
    (sources : SourceTable) (s : Supply) :
    ∃ result s', op.Gives options sources s result s' := by
  rcases hrun : (op.run 0 options sources).runFrom s with ⟨(f | _) | a, s'⟩
  · exact ⟨.error f, s', 0, hrun⟩
  · exact absurd rfl ((op.run_settles h options sources).stop hrun)
  · exact ⟨.ok a, s', 0, hrun⟩

end Operation

/-! ### Failures and the log -/

namespace Surface

/-- A function that refers to a name that is not bound, applied at once. -/
def unboundInside : Expr := .call here (thunk [.ret here (some (name "x"))]) []

end Surface

/-- The elaborations that operations lead to, one after the other. -/
inductive Elaboration.Reaches (e : Elaboration) : Elaboration → Prop
  | refl : Reaches e e
  | step {α : Type} {op : Operation α} {e₁ e₂ : Elaboration} {result : Except Fault α}
    (h : Reaches e e₁) (hends : op.Ends e₁ result e₂) : Reaches e e₂

namespace Elaboration

/-- What is recorded between two elaborations: nothing, or one fault with its diagnostic. -/
inductive Reported (e e' : Elaboration) : Prop
  | nothing (hfault : e'.firstFault = none) (hsession : e'.session = e.session)
  | fault (f : Fault) (hfault : e'.firstFault = some f)
    (hsession : e'.session = e.session.report (f.diagnostic e.options.maxSuggestions))

theorem Reported.after {α : Type} {e e₁ : Elaboration} (h : Reported e e₁)
    (hoptions : e₁.options = e.options) (result : Except Fault α) (s' : Supply) :
    Reported e (e₁.after result s') := by
  cases h with
  | nothing hfault hsession =>
    cases result with
    | ok => exact .nothing hfault hsession
    | error f =>
      rw [after_of_none hfault]
      exact .fault f rfl (by rw [hsession, hoptions])
  | fault f hfault hsession =>
    rw [after_of_some hfault]
    exact .fault f hfault hsession

/-- However many operations fail, only the first failure is recorded and reported. -/
theorem Reaches.reported {e e' : Elaboration} (h : e.Reaches e') (hnone : e.firstFault = none) :
    Reported e e' ∧ e'.options = e.options := by
  induction h with
  | refl => exact ⟨.nothing hnone rfl, rfl⟩
  | step _ hends ih =>
    obtain ⟨hreported, hoptions⟩ := ih
    obtain ⟨s', _, rfl⟩ := Operation.ends_iff.1 hends
    exact ⟨hreported.after hoptions _ s', (after_keeps _ s').2.trans hoptions⟩

end Elaboration

end Choreography
