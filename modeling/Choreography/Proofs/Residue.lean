import Choreography.Proofs.Compilation
import Choreography.Proofs.MaterialPrograms
import Mathlib.Logic.Relation

/-!
What linking leaves behind. Modules are elaborated before any protocol runs, so nothing in their
exports is known only at run time, and no one is on the ledger. Participants are only there in apps
that wait to be compiled. So the numbers of an app's program can start at zero, whatever has been
elaborated before.
-/

namespace Choreography

open Eval Ir

/-! ### Parts of values -/

/-- The second value stands directly in the first. An app that waits to be compiled holds its
options, its participants, under any identity, and what its function refers to. -/
inductive Value.Holds : Value → Value → Prop
  | element {loc : Loc} {elems : List Value} {v : Value} (h : v ∈ elems) : Holds (.tuple loc elems) v
  | field {loc : Loc} {fields : Bindings} {b : String × SecValue} (h : b ∈ fields.entries) :
    Holds (.object loc fields) b.2.value
  | captured {tag : Tag} {c : Closure} {b : String × SecValue} (h : b ∈ c.env.entries) :
    Holds (.closure tag c) b.2.value
  | option {loc : Loc} {tag : Tag} {a : App} {b : String × SecValue} (h : b ∈ a.options.entries) :
    Holds (.prim loc (.app tag a)) b.2.value
  | part {loc : Loc} {tag partTag : Tag} {a : App} {p : Participant} (h : p ∈ a.parts) :
    Holds (.prim loc (.app tag a)) (.participant partTag p)
  | bound {loc : Loc} {tag : Tag} {a : App} {b : String × SecValue} (h : b ∈ a.env.entries) :
    Holds (.prim loc (.app tag a)) b.2.value
  | seen {loc : Loc} {tag : Tag} {who : String} {view : Bindings} {result : SecValue}
    {b : String × SecValue} (h : b ∈ view.entries) :
    Holds (.form loc tag (.onlyDone who view result)) b.2.value
  | result {loc : Loc} {tag : Tag} {who : String} {view : Bindings} {result : SecValue} :
    Holds (.form loc tag (.onlyDone who view result)) result.value

/-- The second value stands in the first, at any depth; every value stands in itself. -/
def Value.Reaches : Value → Value → Prop := Relation.ReflTransGen Value.Holds

namespace Value

/-- What only a run of the protocol can have made: a variable, a participant with an address, or the
amount of a transfer that waits for its recipient. -/
def isResidue : Value → Bool
  | .var _ | .prim _ (.transferTo ..) => true
  | .participant _ p => p.address.isSome
  | _ => false

def isParticipant : Value → Bool
  | .participant .. => true
  | _ => false

/-- An app that waits to be compiled. -/
def isDelayedApp : Value → Bool
  | .prim _ (.app ..) => true
  | _ => false

end Value

/-! ### Before the protocol runs -/

/-- All integers may occur, and the protocol is not live. -/
def Material.still : Material where
  integer _ := True
  live := False
  counts _ _ _ := trivial

/-- Evaluation of every depth keeps to a material in which all integers may occur. -/
theorem evaluator_makes {M : Material} (hall : ∀ n, M.integer n) (fuel : Nat) :
    (evaluator fuel).Makes M := by
  induction fuel with
  | zero => exact ⟨fun _ _ _ => .outOfFuel trivial, fun _ _ _ => .outOfFuel trivial⟩
  | succ fuel ih =>
    exact ⟨fun hctx henv e => (ih.evalExpr hctx henv e).imp fun _ hr => hr.madeOf fun _ n _ => hall n,
      fun hctx henv stmts => ih.evalStmts hctx henv stmts⟩

/-! ### What is reached -/

theorem Value.MadeOf.not_participant {v : Value} (h : v.MadeOf .still) : v.isParticipant = false := by
  cases h with
  | participant hlive => exact hlive.elim
  | _ => rfl

/-- A value that no run has touched, or a participant that is not on the ledger. -/
def Value.Dormant (v : Value) : Prop :=
  v.MadeOf .still ∨ ∃ tag p, v = .participant tag p ∧ p.address = none

namespace Value.Dormant

variable {v w : Value}

theorem isResidue (h : v.Dormant) : v.isResidue = false := by
  rcases h with hmade | ⟨tag, p, rfl, haddress⟩
  · cases hmade with
    | transferTo hlive => exact hlive.elim
    | participant hlive => exact hlive.elim
    | var hlive => exact hlive.elim
    | prim hfixed =>
      rename_i p
      cases p with
      | transferTo => cases hfixed
      | _ => rfl
    | _ => rfl
  · simp [Value.isResidue, haddress]

/-- What a dormant value holds is dormant, and only apps hold participants. -/
theorem holds (h : v.Dormant) (hholds : v.Holds w) :
    w.Dormant ∧ (w.isParticipant = true → v.isDelayedApp = true) := by
  have hmade : v.MadeOf .still := by
    rcases h with hmade | ⟨tag, p, rfl, _⟩
    · exact hmade
    · cases hholds
  have hplain : ∀ {w : Value}, w.MadeOf .still →
      w.Dormant ∧ (w.isParticipant = true → v.isDelayedApp = true) :=
    fun hw => ⟨.inl hw, fun hparticipant => by simp [hw.not_participant] at hparticipant⟩
  cases hholds with
  | element hmem =>
    cases hmade with
    | tuple h => exact hplain (h _ hmem)
  | field hmem =>
    cases hmade with
    | object h => exact hplain (h _ hmem)
  | captured hmem =>
    cases hmade with
    | closure h => exact hplain (h _ hmem)
  | option hmem =>
    cases hmade with
    | prim hfixed => cases hfixed
    | app hoptions => exact hplain (hoptions _ hmem)
  | part hmem =>
    cases hmade with
    | prim hfixed => cases hfixed
    | app _ hparts => exact ⟨.inr ⟨_, _, rfl, (hparts _ hmem).1⟩, fun _ => rfl⟩
  | bound hmem =>
    rename_i b
    cases hmade with
    | prim hfixed => cases hfixed
    | app _ _ hcast henv =>
      by_cases hparticipant : ∃ tag p, b.2.value = .participant tag p
      · obtain ⟨tag, p, heq⟩ := hparticipant
        exact ⟨.inr ⟨tag, p, heq, hcast id b hmem tag p heq⟩, fun _ => rfl⟩
      · exact hplain (henv b hmem fun tag p heq => hparticipant ⟨tag, p, heq⟩)
  | seen =>
    cases hmade with
    | onlyDone hlive => exact hlive.elim
  | result =>
    cases hmade with
    | onlyDone hlive => exact hlive.elim

theorem reaches (h : v.Dormant) (hreaches : v.Reaches w) : w.Dormant := by
  induction hreaches with
  | refl => exact h
  | tail _ hholds ih => exact (ih.holds hholds).1

end Value.Dormant

/-- Nothing that is reached from what a linked bundle exports is left over from a run of a protocol,
and participants are only there in apps that wait to be compiled: no export is one, and whatever
holds one is an app. -/
theorem linkBundle_leaves_no_residue {fuel : Nat} {options : Options} {session : Session}
    {bundle : Bundle} {libs : Libraries}
    (hlink : (linkBundle fuel options session bundle).1 = .ok libs) :
    ∀ e ∈ libs.entries, ∀ b ∈ e.2.entries,
      (∀ v, b.2.value.Reaches v → v.isResidue = false) ∧ b.2.value.isParticipant = false ∧
        ∀ v w, b.2.value.Reaches v → v.Holds w → w.isParticipant = true → v.isDelayedApp = true := by
  obtain ⟨s', hrun⟩ := Elaboration.perform_yields hlink
  have hkeeps := (evaluator_makes (M := .still) (fun _ => trivial) fuel).keeps
  have hlibs := hkeeps.preserves.modules hrun (by simp [Libraries.Satisfies]) fun m _ item _ => by
    cases item <;> trivial
  intro e he b hb
  have hmade : b.2.value.MadeOf .still := hlibs e he b hb
  have hdormant : b.2.value.Dormant := .inl hmade
  exact ⟨fun v hv => (hdormant.reaches hv).isResidue, hmade.not_participant,
    fun v w hv hholds => ((hdormant.reaches hv).holds hholds).2⟩

/-- The module exports an app of one participant. -/
theorem countingApp_leaves_no_residue :
    ∃ libs, (linkBundle 30 {} {} Surface.countingApp).1 = .ok libs ∧
      ∀ e ∈ libs.entries, ∀ b ∈ e.2.entries,
        (∀ v, b.2.value.Reaches v → v.isResidue = false) ∧ b.2.value.isParticipant = false ∧
          ∀ v w, b.2.value.Reaches v → v.Holds w → w.isParticipant = true →
            v.isDelayedApp = true := by
  obtain ⟨libs, hlink, _⟩ := exists_ok_of_any (f := fun _ => true)
    (x := (linkBundle 30 {} {} Surface.countingApp).1) (by decide +kernel)
  exact ⟨libs, hlink, linkBundle_leaves_no_residue hlink⟩

end Choreography
