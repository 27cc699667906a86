import Choreography.Proofs.Compilation
import Choreography.Proofs.Fuel
import Choreography.Proofs.MaterialPrograms

/-!
The integer constants of programs. Elaboration computes with exact integers, signed and of any size,
and an integer constant is given the type of unsigned words without a check of its range. What stands
in a program has been computed before: every integer constant is the worth of an expression, or counts
something. So the constants are in range as long as nothing that is evaluated leaves it.
-/

namespace Choreography

open Eval Ir

namespace Ir

/-- The integer that an operand is, if it is one. -/
def Arg.integer? : Arg → Option Int
  | .const (.int n) => some n
  | _ => none

/-- The integer constants of some code, at every depth. -/
def constants (code : Code) : List Int :=
  ((statements code).flatMap Stmt.operands).flatMap fun a => (a.atoms true).filterMap Arg.integer?

theorem Arg.integer?_eq_some {a : Arg} {n : Int} : a.integer? = some n ↔ a = .int n := by
  unfold Arg.integer? Arg.int
  split <;> simp_all

theorem Code.MadeOf.constants {M : Material} {code : Code} (h : code.MadeOf M) :
    ∀ n ∈ constants code, M.integer n := by
  intro n hn
  simp only [Ir.constants, List.mem_flatMap, List.mem_filterMap, Arg.integer?_eq_some] at hn
  obtain ⟨a, ⟨st, hst, ha⟩, _, hatom, rfl⟩ := hn
  exact h st hst a ha n hatom

end Ir

/-! ### Watched evaluation -/

/-- Lets the worth of an expression pass, unless it is an integer that is not allowed. -/
def Lifted.pass (allowed : Int → Bool) (r : Lifted SecValue) : Eval (Lifted SecValue) :=
  match r.value.value with
  | .int _ n => if allowed n then pure r else throw .outOfFuel
  | _ => pure r

/-- The evaluator of a given depth that comes to an end as soon as an expression is worth an integer
that is not allowed. -/
def watching (allowed : Int → Bool) : Nat → Evaluator
  | 0 => .exhausted
  | fuel + 1 =>
    { expr := fun ctx env e => (watching allowed fuel).evalExpr ctx env e >>= Lifted.pass allowed
      stmts := fun ctx loc scope stmts => (watching allowed fuel).evalStmts ctx loc scope stmts }

/-- No expression that is evaluated in compiling the bundle is worth an integer that is not
allowed. -/
def staysWithin (allowed : Int → Bool) (fuel : Nat) (options : Options) (sources : SourceTable)
    (bundle : Bundle) (top : String) : Bool :=
  match (compileWith (watching allowed fuel) options sources bundle top).runFrom {} with
  | (.error .outOfFuel, _) => false
  | _ => true

theorem Lifted.pass_extends (allowed : Int → Bool) (r : Lifted SecValue) :
    Eval.Extends (r.pass allowed) (pure r) := by
  unfold Lifted.pass
  split
  · split
    · exact .refl _
    · exact .outOfFuel _
  · exact .refl _

/-- What is watched is what happens anyway, up to where it comes to an end. -/
theorem watching_extends (allowed : Int → Bool) (fuel : Nat) :
    (watching allowed fuel).Extends (evaluator fuel) := by
  induction fuel with
  | zero => exact ⟨fun _ _ _ => .outOfFuel _, fun _ _ _ _ => .outOfFuel _⟩
  | succ fuel ih =>
    refine ⟨fun ctx env e => ?_, fun ctx loc scope stmts => ih.evalStmts ctx loc scope stmts⟩
    have hpass := (ih.evalExpr ctx env e).bind fun r => r.pass_extends allowed
    rwa [bind_pure] at hpass

theorem Evaluator.Extends.compileWith {ev ev' : Evaluator} (hev : ev.Extends ev') (options : Options)
    (sources : SourceTable) (bundle : Bundle) (top : String) :
    Eval.Extends (compileWith ev options sources bundle top)
      (compileWith ev' options sources bundle top) := by
  refine .bind_refl _ fun entry => .bind (hev.modules options sources _ _) fun libs =>
    .bind_refl _ fun exports => .bind_refl _ fun sv => .bind_refl _ fun value => ?_
  split
  · exact .bind_refl _ fun views => .bind_refl _ fun _ => .bind (hev.stmts ..) fun _ => .refl _
  · exact .refl _

/-- A compilation that stays within the allowed integers is the same when it is watched. -/
theorem staysWithin_yields {allowed : Int → Bool} {fuel : Nat} {options : Options}
    {sources : SourceTable} {bundle : Bundle} {top : String} {p : Program} {s' : Supply}
    (hwithin : staysWithin allowed fuel options sources bundle top = true)
    (hrun : (compile fuel options sources bundle top).Yields {} p s') :
    (compileWith (watching allowed fuel) options sources bundle top).Yields {} p s' := by
  have hextends := (watching_extends allowed fuel).compileWith options sources bundle top
  rcases hextends.run {} with hout | heq
  · unfold staysWithin at hwithin
    split at hwithin
    · cases hwithin
    · rename_i hother
      exact (hother _ (Prod.ext hout rfl)).elim
  · exact heq.trans hrun

/-! ### Constants -/

theorem Integer.count?_lt {n : Int} {size : Nat} (h : Integer.count? n = some size) :
    (size : Int) < Int.pow 2 63 := by
  unfold Integer.count? Integer.word? at h
  split at h
  · rename_i m hword
    cases h
    split at hword
    · rename_i hrange
      cases hword
      exact hrange.2
    · cases hword
  · cases h

/-- The integers that are allowed, where the protocol is live. -/
def Material.watched (allowed : Int → Bool)
    (hcounts : ∀ n, 0 ≤ n → n < Int.pow 2 63 → allowed n = true) : Material where
  integer n := allowed n = true
  live := True
  counts hcount i hi := hcounts i (Int.natCast_nonneg i)
    (Int.lt_trans (Int.ofNat_lt.2 hi) (Integer.count?_lt hcount))

theorem watching_makes {allowed : Int → Bool}
    (hcounts : ∀ n, 0 ≤ n → n < Int.pow 2 63 → allowed n = true) (fuel : Nat) :
    (watching allowed fuel).Makes (.watched allowed hcounts) := by
  induction fuel with
  | zero => exact ⟨fun _ _ _ => .outOfFuel trivial, fun _ _ _ => .outOfFuel trivial⟩
  | succ fuel ih =>
    refine ⟨fun hctx henv e => (ih.evalExpr hctx henv e).bind fun r hr => ?_,
      fun hctx henv stmts => ih.evalStmts hctx henv stmts⟩
    unfold Lifted.pass
    split
    · rename_i loc n hvalue
      split
      · rename_i hallowed
        refine .pure (hr.madeOf fun _ m heq => ?_)
        cases hvalue.symm.trans heq
        exact hallowed
      · exact .outOfFuel trivial
    · rename_i hother
      exact .pure (hr.madeOf fun loc n heq => absurd heq (hother loc n))

/-- Every integer constant of a program is the worth of an expression that was evaluated, or counts
something: it is in every set of integers that has all counts and that no expression leaves. -/
theorem compileBundle_constants {allowed : Int → Bool}
    (hcounts : ∀ n, 0 ≤ n → n < Int.pow 2 63 → allowed n = true) {fuel : Nat} {options : Options}
    {session : Session} {bundle : Bundle} {top : String} {p : Program}
    (hcompile : (compileBundle fuel options session bundle top).1 = .ok p)
    (hwithin : staysWithin allowed fuel options session.sources bundle top = true) :
    ∀ n ∈ constants p.body, allowed n = true := by
  obtain ⟨s', hrun⟩ := Elaboration.perform_yields hcompile
  have hmakes := watching_makes hcounts fuel
  obtain ⟨appLoc, tag, a, _, happ, hrun⟩ := compileWith_preserves hmakes.keeps.preserves
    (fun _ _ item _ => by cases item <;> trivial) (fun _ _ item _ => by cases item <;> trivial)
    (staysWithin_yields hwithin hrun)
  exact ((hmakes.compile trivial happ).result hrun).constants

/-- An integer that an unsigned word of 256 bits can hold. -/
def Integer.isUint256 (n : Int) : Bool := 0 ≤ n && n < Int.pow 2 256

/-- Where no expression is worth an integer outside the range of its type, no constant is. -/
theorem compileBundle_constants_in_range {fuel : Nat} {options : Options} {session : Session}
    {bundle : Bundle} {top : String} {p : Program}
    (hcompile : (compileBundle fuel options session bundle top).1 = .ok p)
    (hwithin : staysWithin Integer.isUint256 fuel options session.sources bundle top = true) :
    ∀ n ∈ constants p.body, 0 ≤ n ∧ n < Int.pow 2 256 := by
  have hcounts : ∀ n : Int, 0 ≤ n → n < Int.pow 2 63 → Integer.isUint256 n = true := by
    intro n hnonneg hlt
    have hle : Int.pow 2 63 ≤ Int.pow 2 256 := by decide
    simpa [Integer.isUint256] using ⟨hnonneg, Int.lt_of_lt_of_le hlt hle⟩
  intro n hn
  simpa [Integer.isUint256] using compileBundle_constants hcounts hcompile hwithin n hn

theorem countingApp_constants_in_range :
    ∃ p, (compileBundle 30 {} {} Surface.countingApp "main").1 = .ok p ∧
      staysWithin Integer.isUint256 30 {} {} Surface.countingApp "main" = true ∧
      (3 ∈ constants p.body ∧ 10 ∈ constants p.body) ∧
      ∀ n ∈ constants p.body, 0 ≤ n ∧ n < Int.pow 2 256 := by
  obtain ⟨p, hp, hmem⟩ := exists_ok_of_any
    (f := fun p => (constants p.body).contains 3 && (constants p.body).contains 10)
    (x := (compileBundle 30 {} {} Surface.countingApp "main").1) (by decide +kernel)
  have hwithin : staysWithin Integer.isUint256 30 {} {} Surface.countingApp "main" = true := by
    decide +kernel
  exact ⟨p, hp, hwithin, by simpa using hmem, compileBundle_constants_in_range hp hwithin⟩

namespace Surface

/-- Consensus transfers one less than nothing, and one more than a word can hold. -/
def owingApp : Bundle :=
  let amounts : List Expr :=
    [.binary here .minus (number "0") (number "1"), .binary here .shiftLeft (number "1") (number "256")]
  appOf ["A"] (.expr here (method (name "A") "publish" []) ::
    amounts.map (fun amount => .expr here (method (apply "transfer" [amount]) "to" [name "A"])))

end Surface

/-- Differences and powers are computed exactly, and become constants as they are. -/
theorem constants_leave_range :
    ∃ p, (compileBundle 30 {} {} Surface.owingApp "main").1 = .ok p ∧
      -1 ∈ constants p.body ∧ Int.pow 2 256 ∈ constants p.body := by
  obtain ⟨p, hp, hmem⟩ := exists_ok_of_any
    (f := fun p => (constants p.body).contains (-1) && (constants p.body).contains (Int.pow 2 256))
    (x := (compileBundle 30 {} {} Surface.owingApp "main").1) (by decide +kernel)
  exact ⟨p, hp, by simpa using hmem⟩

end Choreography
