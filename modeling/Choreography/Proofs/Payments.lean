import Choreography.Proofs.PolicyStatements

/-!
What programs pay. Every round checks, in consensus, that the transaction carries what is paid.
Where constants are paid, consensus begins with that check, and the constant that is sent is the one
that is checked. Where private computations are separate and what is paid is calm, private code is
local, and rounds run only what consensus can run. Programs that follow no such policy may send an
amount that consensus does not accept, and may act or stop in the middle of private code.
-/

namespace Choreography

open Eval Ir

variable {π : Policy} {s s' : Supply} {loc : Loc} {env : Bindings} {ev : Evaluator} {fuel : Nat}
  {options : Options} {session : Session} {bundle : Bundle} {top : String} {p : Program}

/-! ### Modules and apps -/

theorem standardLibrary_obeys (file : Nat) (header : String) :
    ∀ item ∈ (standardLibrary file header).items, item.Satisfies (π.Demands <| ·.obeys π) := by
  have hfree : ∀ names ⊆ reservedNames, π.frees names = true := by
    intro names hsub
    simpa [Policy.frees] using fun name hname => π.reserved name (hsub hname)
  intro item hitem
  simp only [standardLibrary, List.mem_cons, List.not_mem_nil, or_false] at hitem
  rcases hitem with rfl | rfl | rfl | rfl | rfl | rfl | rfl <;> intro _ <;>
    simp [Surface.Stmt.obeys, Surface.Block.returning, Surface.Block.obeys, Surface.stmtsObey,
      Surface.Expr.obeys, Surface.exprsObey, Policy.takes]
  all_goals exact hfree _ (by decide)

/-- Modules that follow the policy bind only what follows it, under names of their own. -/
theorem Link.preserves_policy (hev : ev.Obeys π) :
    Link.Preserves ev (Bindings.Obeys π) (fun b => π.Holds b ∧ b.1 ∉ baseNames)
      (π.Demands <| ·.obeys π) where
  base := baseEnv_obeys
  library := by
    intro overlay hoverlay
    refine ⟨baseEnv_based.setAll fun b hb => (hoverlay b hb).2, fun b hb => ?_⟩
    exact (Env.mem_setAll hb).elim (baseEnv_obeys.holds b) fun hb => (hoverlay b hb).1
  imported := fun hrun henv hoverlay => 
    (henv.merge fun b hb => (hoverlay b hb).1).result hrun
  topLevel := by
    intro loc env out stmt s s' hrun henv hobeys
    simp only [Link.topLevel, yields_bind, yields_pure] at hrun
    obtain ⟨r, _, hr, _, _, _, rfl, _⟩ := hrun
    have hmode : Link.moduleCtx.mode.Obeys π := trivial
    have hout := (hev.stmts hr hmode henv (Evaluator.Obeys.stmtsObey_single hobeys)).env
    refine ⟨hout, fun b hb => ?_⟩
    obtain ⟨hmem, hnew⟩ := List.mem_filter.1 hb
    refine ⟨hout.holds b hmem, henv.based.not_mem_of_fresh ?_⟩
    exact Env.contains_eq_false.1 (by simpa using hnew)

theorem Surface.Module.satisfies_obeys {m : Surface.Module} (h : π.Demands (m.obeys π)) :
    ∀ item ∈ m.items, item.Satisfies (π.Demands <| ·.obeys π) := by
  intro item hitem
  cases item with
  | exported | plain => exact fun henforced => List.all_eq_true.1 (h henforced) _ hitem
  | importFrom | foreign => exact trivial

theorem Participant.interactValue_obeys (p : Participant) : p.interactValue.Obeys π := by
  refine .object fun b hb => ?_
  obtain ⟨m, _, rfl⟩ := List.mem_map.1 hb
  exact .prim (by simp)

/-- Bundles that follow a policy compile to programs that follow it. -/
theorem compileBundle_obeys (hcompile : (compileBundle fuel options session bundle top).1 = .ok p)
    (hobeys : ∀ m ∈ bundle, π.Demands (m.tree.obeys π)) : p.body.Obeys π := by
  have hev : (evaluator fuel).Obeys π := evaluator_obeys π fuel
  obtain ⟨_, hrun⟩ := Elaboration.perform_yields hcompile
  obtain ⟨appLoc, tag, a, _, ⟨hexported, _⟩, hrun⟩ := compile_preserves
    (Link.preserves_policy hev) standardLibrary_obeys
    (fun m hm => m.tree.satisfies_obeys (hobeys m hm)) hrun
  have happ : (Value.prim appLoc (.app tag a)).Obeys π := hexported.value
  cases happ with
  | prim h => exact absurd rfl (h tag a)
  | app hbody hbased hfixes hvalues =>
    have henv : Bindings.Obeys π a.env := ⟨hbased, fun b hb => ⟨hfixes b hb, hvalues b hb⟩⟩
    rw [Surface.Block.obeys_eq] at hbody
    simp only [App.compile, yields_bind, yields_pure] at hrun
    obtain ⟨views, _, hviews, _, _, _, r, _, hr, rfl, _⟩ := hrun
    have hmode : Mode.Obeys π (.step { views }) := ((App.views_meets (fun p _ => henv.bind
      (.of_free (Policy.free_of_reserved (by decide)) p.interactValue_obeys)) (by simp)).result hviews).1
    exact (hev.stmts hr hmode henv hbody).code

/-! ### The amount that is sent and the amount that is checked -/

/-- After some code, the body of a round checks that the transaction carries the operand. -/
def Ir.Transition.Checks (t : Transition) (before : Code) (operand : Arg) : Prop :=
  ∃ loc frames carried agree next,
    t.body = before ++ checkCode loc frames operand carried agree ++ next

theorem Ir.Transition.Pays.checks {t : Transition} {e : Surface.Expr} {before next : Code}
    {operand : Arg} (h : t.Pays π e before next operand) : t.Checks before operand := by
  obtain ⟨loc, frames, carried, agree, hbody⟩ := h.body
  exact ⟨loc, frames, carried, agree, next, hbody⟩

/-- The policy that asks for nothing. -/
def Policy.lenient : Policy where
  enforced := false
  fixed := fun _ => none
  pays := fun _ => false
  separate := false
  reserved := fun _ _ => rfl
  calm := by simp

/-- The constant that a round sends. -/
def Ir.Stmt.sent? : Stmt → Option Int
  | .toConsensus _ t =>
    match t.amount with
    | .const (.int n) => some n
    | _ => none
  | _ => none

/-- The module declares a stake, and the rounds of its app pay more than it, and then nothing. -/
def Surface.stakeApp : Bundle :=
  let rounds := appOf ["A"] [
    .expr here (method (name "A") "pay" [.binary here .plus (name "stake") (number "1")]),
    .expr here (apply "commit" []),
    .expr here (method (name "A") "publish" []),
    .expr here (apply "commit" [])]
  let declare (m : Module) : Module :=
    ⟨m.loc, m.items.take 1 ++ [.plain here (define "stake" (number "5"))] ++ m.items.drop 1⟩
  rounds.map fun m => ⟨m.file, declare m.tree⟩

/-- Only constants are paid, and the stake is one. -/
def Policy.staking : Policy where
  enforced := true
  fixed := fun name => if name = "stake" then some 5 else none
  pays := fun e => (e.constant? fun name => if name = "stake" then some 5 else none).isSome
  separate := false
  reserved := by decide +kernel
  calm := by simp

/-- The expression whose value a variable is. -/
def Ir.Code.definition? (code : Code) (v : Var) : Option Ir.Expr :=
  (statements code).findSome? fun
    | .letIn _ w e => if w.id = v.id then some e else none
    | _ => none

def Ir.Code.firstClaim? (code : Code) : Option (Claim × Arg) :=
  (statements code).findSome? fun
    | .claim _ _ kind a => some (kind, a)
    | _ => none

/-- The constant that the first claim of some code requires the transaction to carry. -/
def Ir.Code.required? (code : Code) : Option Int :=
  match Code.firstClaim? code with
  | some (.require, .var agree) =>
    match Code.definition? code agree with
    | some (.prim .eq [.const (.int n), .var carried]) =>
      match Code.definition? code carried with
      | some (.prim .txnValue []) => some n
      | _ => none
    | _ => none
  | _ => none

/-- A round that sends a constant begins by requiring it. -/
def Ir.Stmt.requiresSent (st : Stmt) : Bool :=
  match st with
  | .toConsensus _ t => st.sent?.all (Code.required? t.body == some ·)
  | _ => true

namespace Surface

/-- The sender and everyone else know a stake of the same name, but not the same stake. -/
def twoStakesApp : Bundle :=
  appOf ["A"] [
    .expr here (method (name "A") "only" [thunk [define "n" (number "5")]]),
    define "n" (number "7"),
    .expr here (method (name "A") "pay" [name "n"]),
    .expr here (apply "commit" [])]

/-- The stake is published by the round that pays it. -/
def publishedStakeApp : Bundle :=
  appOf ["A"] [
    .expr here (method (name "A") "only" [thunk [define "n" (number "5")]]),
    .expr here (method (method (name "A") "publish" [name "n"]) "pay" [name "n"]),
    .expr here (apply "commit" [])]

/-- What is paid makes a claim of its own. -/
def claimingStakeApp : Bundle :=
  appOf ["A"] [
    .expr here (method (name "A") "pay"
      [.index here (.array here [apply "assert" [.bool here true], number "5"]) (number "1")]),
    .expr here (apply "commit" [])]

end Surface

/-- The bundle compiles to a program in which a statement fails the check. -/
def Breaks (check : Stmt → Bool) (bundle : Bundle) : Prop :=
  ∃ p, (compileBundle 30 {} {} bundle "main").1 = .ok p ∧
    ∃ st ∈ statements p.body, check st = false

theorem breaks_of_any {check : Stmt → Bool}
    (h : ((compileBundle 30 {} {} bundle "main").1.toOption.any fun p =>
      (statements p.body).any fun st => !check st) = true) : Breaks check bundle := by
  obtain ⟨p, hp, hany⟩ := exists_ok_of_any h
  obtain ⟨st, hst, hfails⟩ := List.any_eq_true.1 hany
  exact ⟨p, hp, st, hst, by simpa using hfails⟩

namespace Ir

/-- The statements that consensus can run. -/
def Stmt.isShared (st : Stmt) : Bool := st.isLocal || st.needsConsensus

/-- Private code is local. -/
def Stmt.privatelyLocal : Stmt → Bool
  | .only _ _ body => (statements body).all (·.isLocal)
  | _ => true

/-- Before it commits, a round runs what consensus can run. -/
def Stmt.publiclyShared : Stmt → Bool
  | .toConsensus _ t => (ownStatements t.body).all (·.isShared)
  | _ => true

theorem Stmt.During.isShared {st : Stmt} {joined : NameMap Var}
    (h : st.During (.consensus joined)) : st.isShared = true := by
  cases h <;> rfl

theorem Code.Local.isShared {code : Code} (h : code.Local) :
    ∀ st ∈ ownStatements code, st.isShared = true := by
  intro st hst
  simp [Stmt.isShared, h st (ownStatements_subset code hst)]

theorem ownStatements_append (code code' : Code) :
    ownStatements (code ++ code') = ownStatements code ++ ownStatements code' := by
  induction code with
  | nil => rfl
  | cons st rest ih => simp [ownStatements, ih]

end Ir

/-- The policy under which private computations are statements of their own and whatever is calm may
be paid. -/
def Policy.separating : Policy where
  enforced := true
  fixed := fun _ => none
  pays := Surface.Expr.calm
  separate := true
  reserved := fun _ _ => rfl
  calm := fun _ _ h => h

theorem Ir.Transition.Pays.isShared {t : Transition} {e : Surface.Expr} {before next : Code}
    {operand : Arg} (h : t.Pays .separating e before next operand) :
    ∀ st ∈ ownStatements t.body, st.isShared = true := by
  have hcalm : e.calm = true := Policy.calm_of_paid rfl (h.paid rfl)
  obtain ⟨_, _, _, _, hbody⟩ := h.body
  obtain ⟨_, hnext⟩ := h.consensus
  rw [hbody]
  intro st hst
  simp only [ownStatements_append, List.mem_append] at hst
  rcases hst with (hbefore | hcheck) | hafter
  · exact (h.calm hcalm).isShared st hbefore
  · exact checkCode_local.isShared st hcheck
  · exact (Code.During.own hnext st hafter).isShared

/-- In the program of a bundle that keeps private computations separate and pays what is calm,
private code is local at every depth, and rounds run nothing but the code of consensus until they
commit. -/
theorem compileBundle_separates_code
    (hcompile : (compileBundle fuel options session bundle top).1 = .ok p)
    (hobeys : ∀ m ∈ bundle, m.tree.obeys .separating = true) :
    ∀ st ∈ statements p.body, st.privatelyLocal = true ∧ st.publiclyShared = true := by
  intro st hst
  have hst := compileBundle_obeys hcompile (fun m hm _ => hobeys m hm) st hst
  cases st with
  | only => exact ⟨List.all_eq_true.2 (hst rfl rfl), rfl⟩
  | toConsensus =>
    obtain ⟨_, _, _, _, hpays⟩ := hst
    exact ⟨rfl, List.all_eq_true.2 hpays.isShared⟩
  | _ => exact ⟨rfl, rfl⟩

theorem countingApp_separates_code :
    (∀ m ∈ Surface.countingApp, m.tree.obeys .separating = true) ∧
      ∃ p, (compileBundle 30 {} {} Surface.countingApp "main").1 = .ok p ∧
        (∃ loc who body, Stmt.only loc who body ∈ statements p.body ∧ Code.Local body) ∧
        ∃ loc t, Stmt.toConsensus loc t ∈ statements p.body ∧
          ∀ st ∈ ownStatements t.body, st.isShared = true := by
  have hobeys : ∀ m ∈ Surface.countingApp, m.tree.obeys .separating = true := by decide +kernel
  obtain ⟨p, hp, hboth⟩ := exists_ok_of_any
    (f := fun p : Program => (statements p.body).any (· matches .only ..) &&
      (statements p.body).any (· matches .toConsensus ..))
    (x := (compileBundle 30 {} {} Surface.countingApp "main").1) (by decide +kernel)
  have hseparates := compileBundle_separates_code hp hobeys
  obtain ⟨honly, hround⟩ := Bool.and_eq_true_iff.1 hboth
  refine ⟨hobeys, p, hp, ?_, ?_⟩
  · obtain ⟨st, hst, hkind⟩ := List.any_eq_true.1 honly
    cases st with
    | only loc who body => exact ⟨loc, who, body, hst, List.all_eq_true.1 (hseparates _ hst).1⟩
    | _ => cases hkind
  · obtain ⟨st, hst, hkind⟩ := List.any_eq_true.1 hround
    cases st with
    | toConsensus loc t => exact ⟨loc, t, hst, List.all_eq_true.1 (hseparates _ hst).2⟩
    | _ => cases hkind

namespace Surface

/-- To know what it pays, the sender has another participant compute. -/
def delegatingApp : Bundle :=
  appOf ["A", "B"] [
    .expr here (method (name "A") "pay" [.call here (thunk [
      .expr here (method (name "B") "only" [thunk []]), .ret here (some (number "5"))]) []]),
    .expr here (apply "commit" [])]

/-- What is paid is computed next to an exit. -/
def exitingPayApp : Bundle :=
  appOf ["A"] [
    .expr here (method (name "A") "pay"
      [.index here (.array here [number "5", apply "exit" []]) (number "0")]),
    .expr here (apply "commit" [])]

/-- A private computation is asked for next to an exit. -/
def exitingOnlyApp : Bundle :=
  appOf ["A"] [
    .expr here (.index here
      (.array here [apply "exit" [], method (name "A") "only" [thunk []]]) (number "1"))]

end Surface

/-- A participant may act or stop inside the private code of another, and inside a round. -/
theorem code_is_mixed :
    (Breaks Stmt.privatelyLocal Surface.delegatingApp ∧
      Breaks Stmt.publiclyShared Surface.delegatingApp) ∧
    (Breaks Stmt.privatelyLocal Surface.exitingPayApp ∧
      Breaks Stmt.publiclyShared Surface.exitingPayApp) ∧
    Breaks Stmt.privatelyLocal Surface.exitingOnlyApp :=
  ⟨⟨breaks_of_any (by decide +kernel), breaks_of_any (by decide +kernel)⟩,
    ⟨breaks_of_any (by decide +kernel), breaks_of_any (by decide +kernel)⟩,
    breaks_of_any (by decide +kernel)⟩

end Choreography
