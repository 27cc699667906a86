import Choreography.Proofs.Compilation
import Choreography.Proofs.Phases

/-!
Statements emit only what the phase of their mode allows, and so does evaluation of every depth.
Read off for the statements that run in the mode itself: private code and the top level of modules
only compute, claim and return; between rounds nothing needs consensus; and in consensus no one acts
alone and no frontend is asked.
-/

namespace Choreography

open Eval Ir

variable {φ : Phase} {s s' : Supply} {loc : Loc} {ctx : Ctx} {env : Bindings} {ev : Evaluator}
  {scope : Scope} {rest : List Surface.Stmt}

namespace Evaluator.Phased

variable (hev : ev.Phased)
include hev

theorem operand {e : Surface.Expr} : Gives (·.code.During ctx.mode.phase) (ev.expr ctx env e) :=
  .of_yields hev.expr

theorem body {stmts : List Surface.Stmt} :
    Gives (·.code.During ctx.mode.phase) (ev.stmts ctx loc scope stmts) :=
  .of_yields hev.stmts

theorem extend {code : Code} (hcode : code.During ctx.mode.phase) :
    Gives (·.code.During ctx.mode.phase) (ev.extend ctx loc scope code env rest) :=
  hev.body.bind fun _ hnext => .pure (Code.during_append.2 ⟨hcode, hnext⟩)

theorem continueWith {first : Lifted Outcome} (hfirst : first.code.During ctx.mode.phase) :
    Gives (·.code.During ctx.mode.phase) (ev.continueWith ctx loc scope first rest) := by
  unfold Evaluator.continueWith
  split
  · exact .pure hfirst
  · exact hev.body.bind fun _ hnext => .pure (Code.during_append.2 ⟨hfirst, hnext⟩)

theorem branch {cond : Surface.Expr} {onTrue : Surface.Stmt} {onFalse : Option Surface.Stmt} :
    Gives (·.code.During ctx.mode.phase) (ev.branch ctx loc scope cond onTrue onFalse rest) := by
  refine hev.operand.bind fun c hc => ?_
  split
  · split
    · exact Meets.bind hev.body fun _ htaken =>
        hev.continueWith (Code.during_append.2 ⟨hc, htaken⟩)
    · exact Meets.bind hev.body fun _ htaken =>
        hev.continueWith (Code.during_append.2 ⟨hc, htaken⟩)
  · exact Meets.bind hev.body fun _ ht => Meets.bind hev.body fun _ hf =>
      hev.continueWith (Code.during_append.2 ⟨hc, .single (.branch ht hf)⟩)
  · exact .fail trivial

theorem continueLoop {assignLoc : Loc} {lhs rhs : Surface.Expr} :
    Gives (·.code.During ctx.mode.phase)
      (ev.continueLoop ctx loc scope assignLoc lhs rhs rest) := by
  refine Gives.ensure.bind fun _ hconsensus => (Meets.of_yields hev.composes.decl.result).bind
    fun updates hcode => .skip fun _ => .skip fun _ => .skip
      fun _ => .pure (Code.during_append.2 ⟨hcode, .single ?_⟩)
  obtain ⟨J, hJ⟩ := Mode.phase_of_isConsensus hconsensus
  rw [hJ]
  exact .cont

theorem loop {decls : List Surface.Decl} {invariantLoc loopLoc : Loc}
    {invariant : List Surface.Expr} {cond : Surface.Expr} {body : Surface.Stmt} :
    Gives (·.code.During ctx.mode.phase)
      (ev.loop ctx loc scope decls invariantLoc invariant loopLoc cond body rest) := by
  refine Gives.ensure.bind fun _ hconsensus => (Meets.of_yields hev.composes.decls.result).bind
    fun init hinit => .skip fun vars => .skip fun env => ?_
  obtain ⟨J, hJ⟩ := Mode.phase_of_isConsensus hconsensus
  split
  · refine (Meets.of_yields hev.composes.boolBlock.result).bind fun _ hinvariant =>
      (Meets.of_yields hev.composes.boolBlock.result).bind fun _ hcond =>
        hev.body.bind fun turn hturn => hev.body.bind fun _ hafter => .pure ?_
    rw [hJ] at hinit hinvariant hcond hturn hafter ⊢
    simp only [Code.during_append, Code.during_cons]
    exact ⟨hinit, .loop hinvariant hcond hturn, hafter⟩
  · exact .fail trivial

theorem deadline {timeout : Option Timeout} :
    Gives (fun r => r.code.During ctx.mode.phase ∧
        ∀ d, r.value.1 = some d → Code.During ctx.mode.phase d.body)
      (ev.deadline ctx scope timeout) := by
  cases timeout with
  | none => exact .pure ⟨Code.during_nil, by simp [Lifted.plain]⟩
  | some t =>
    refine hev.operand.bind fun _ hdelay => .skip fun _ => .skip fun _ =>
      hev.body.bind fun _ hhandler => .pure ⟨hdelay, ?_⟩
    rintro d ⟨⟩
    exact hhandler

omit hev in
/-- Whoever is not on the ledger joins it with the round. -/
theorem addressOf {joined : NameMap Var} {who : String} :
    Gives (fun r => (r.1 = true → joined.get? who = none) ∧
        (r.1 = false → joined.get? who = some r.2)) (ctx.addressOf loc joined who) := by
  unfold Ctx.addressOf
  split
  · rename_i hget
    exact .pure ⟨by simp, fun _ => hget⟩
  · rename_i hget
    exact .skip fun _ => .pure ⟨fun _ => hget, by simp⟩

theorem takeRound {parties : Parties} {before : Code} {roundLoc : Loc} {round : Round}
    (hstep : ctx.mode = .step parties) (hbefore : before.During ctx.mode.phase) :
    Gives (·.code.During ctx.mode.phase)
      (ev.takeRound ctx parties loc scope before roundLoc round rest) := by
  have hphase : ctx.mode.phase = .step parties.joined := by rw [hstep]; rfl
  refine .skip fun _ => .skip fun messages => addressOf.bind
    fun address haddress => .skip fun _ => .skip fun _ =>
      .skip fun _ => (Meets.of_yields hev.composes.payment.result).bind fun amount hamount =>
        hev.operand.bind fun check hcheck => hev.deadline.bind fun late hlate => ?_
  refine Meets.bind hev.body fun next hnext => .pure ?_
  have hnext : next.code.During (.consensus (parties.joined.insertNew round.who address.2)) := hnext
  rw [hphase] at hbefore hamount hcheck hlate ⊢
  have hround : Stmt.During (.step parties.joined) (.toConsensus roundLoc
      { who := round.who, join := address.1, whoVar := address.2, messages := messages.1,
        amount := amount.value, timeout := late.value.1, body := check.code ++ next.code }) :=
    .toConsensus haddress.1 haddress.2 hlate.2 rfl hcheck hnext
  have honly : Code.During (.step parties.joined)
      (if amount.code.isEmpty then [] else [.only loc round.who amount.code]) := by
    split
    · exact Code.during_nil
    · exact .single (.only hamount)
  simp only [Code.during_append]
  exact ⟨⟨⟨hbefore, hlate.1⟩, honly⟩, .single hround⟩

theorem commitRound {opened : Bindings} {parties : Parties} {before : Code}
    (hmode : ctx.mode = .consensus opened parties) (hbefore : before.During ctx.mode.phase) :
    Gives (·.code.During ctx.mode.phase)
      (ev.commitRound ctx opened parties loc scope before rest) := by
  refine .skip fun views => Meets.bind hev.body fun next hnext => .pure ?_
  have hnext : next.code.During (.step parties.joined) := hnext
  rw [hmode] at hbefore ⊢
  exact Code.during_append.2 ⟨hbefore, .single (.fromConsensus hnext)⟩

theorem exprStmt {e : Surface.Expr} :
    Gives (·.code.During ctx.mode.phase) (ev.exprStmt ctx loc scope e rest) := by
  refine hev.operand.bind fun v hcode => ?_
  split
  · exact .skip fun _ => .pure hcode
  · rename_i parties _ _ _ _ _ hstep _
    refine .skip fun _ => Meets.bind hev.body fun next hnext => .pure ?_
    have hnext : next.code.During (.step parties.joined) := hnext
    rw [hstep] at hcode ⊢
    exact Code.during_append.2 ⟨.single (.only hcode), hnext⟩
  · rename_i hstep _
    split
    · exact hev.takeRound hstep hcode
    · exact .fail trivial
  · rename_i hconsensus _
    exact hev.commitRound hconsensus hcode
  · exact .skip fun _ => hev.extend hcode

theorem ret {value : Option Surface.Expr} :
    Gives (·.code.During ctx.mode.phase) (ev.ret ctx loc scope value rest) :=
  Evaluator.ret_meets (fun _ _ => trivial) (fun _ _ => hev.operand) Code.during_nil
    fun _ _ hcode => Code.during_append.2 ⟨hcode, .single .ret⟩

theorem evalStmts {stmts : List Surface.Stmt} :
    Gives (·.code.During ctx.mode.phase) (ev.evalStmts ctx loc scope stmts) := by
  unfold Evaluator.evalStmts
  split
  · exact .pure Code.during_nil
  · exact hev.body.bind fun _ hfirst => hev.continueWith hfirst
  · exact (Meets.of_yields hev.composes.decls.result).bind fun _ hbound => .skip fun _ =>
      hev.extend hbound
  · exact hev.continueLoop
  · exact .skip fun _ => .skip fun _ => .skip fun _ =>
      hev.extend Code.during_nil
  · exact hev.branch
  · exact hev.body
  · exact hev.exprStmt
  · exact hev.exprStmt
  · exact hev.continueLoop
  · exact .fail trivial
  · exact hev.ret
  · exact hev.loop
  all_goals exact .fail trivial

end Evaluator.Phased

/-- Evaluation of every depth emits only what the phase of its mode allows. -/
theorem evaluator_phased (fuel : Nat) : (evaluator fuel).Phased := by
  induction fuel with
  | zero =>
    exact ⟨fun hrun => absurd hrun yields_outOfFuel, fun hrun => absurd hrun yields_outOfFuel⟩
  | succ fuel ih => exact ⟨ih.composes.evalExpr.result, ih.evalStmts.result⟩

/-! ### The statements of a mode -/

namespace Ir

mutual

/-- The statements inside a statement that run in the same mode: those of prompts, branches, loops
and timeouts, and not those of private code, of a round or after its commit. -/
def Stmt.own : Stmt → List Stmt
  | .prompt _ _ _ body => ownStatements body
  | .branch _ _ onTrue onFalse => ownStatements onTrue ++ ownStatements onFalse
  | .loop _ _ ⟨_, _, invariant, _⟩ ⟨_, _, cond, _⟩ body =>
    ownStatements invariant ++ ownStatements cond ++ ownStatements body
  | .toConsensus _ ⟨_, _, _, _, _, some ⟨_, late⟩, _⟩ => ownStatements late
  | .toConsensus _ ⟨_, _, _, _, _, none, _⟩ | .letIn .. | .claim .. | .transfer .. | .stop ..
  | .ret .. | .only .. | .fromConsensus .. | .cont .. => []

/-- The statements of some code that run in one mode. -/
def ownStatements : List Stmt → List Stmt
  | [] => []
  | s :: rest => s :: (s.own ++ ownStatements rest)

end

theorem mem_ownStatements {s : Stmt} {code : Code} :
    s ∈ ownStatements code ↔ ∃ t ∈ code, s = t ∨ s ∈ t.own := by
  induction code with
  | nil => simp [ownStatements]
  | cons t rest ih => simp [ownStatements, ih, or_assoc]

mutual

theorem Stmt.own_subset_inner : ∀ s : Stmt, s.own ⊆ s.inner
  | .prompt _ _ _ body => by
    simpa only [Stmt.own, Stmt.inner] using ownStatements_subset body
  | .branch _ _ onTrue onFalse => by
    intro t ht
    simp only [Stmt.own, Stmt.inner, List.mem_append] at ht ⊢
    exact ht.imp (ownStatements_subset onTrue ·) (ownStatements_subset onFalse ·)
  | .loop _ _ ⟨_, _, invariant, _⟩ ⟨_, _, cond, _⟩ body => by
    intro t ht
    simp only [Stmt.own, Stmt.inner, List.mem_append] at ht ⊢
    exact ht.imp (Or.imp (ownStatements_subset invariant ·) (ownStatements_subset cond ·))
      (ownStatements_subset body ·)
  | .toConsensus _ ⟨_, _, _, _, _, some ⟨_, late⟩, _⟩ => by
    simpa only [Stmt.own, Stmt.inner] using
      List.subset_append_of_subset_left _ (ownStatements_subset late)
  | .toConsensus _ ⟨_, _, _, _, _, none, _⟩ | .letIn .. | .claim .. | .transfer .. | .stop ..
  | .ret .. | .only .. | .fromConsensus .. | .cont .. => by simp [Stmt.own]

theorem ownStatements_subset : ∀ code : List Stmt, ownStatements code ⊆ statements code
  | [] => by simp [ownStatements]
  | s :: rest => by
    intro t ht
    simp only [ownStatements, statements, List.mem_cons, List.mem_append] at ht ⊢
    exact ht.imp_right (Or.imp (s.own_subset_inner ·) (ownStatements_subset rest ·))

end

/-- The statements that compute, claim, return or join such code. -/
def Stmt.isLocal : Stmt → Bool
  | .letIn .. | .claim .. | .ret .. | .prompt .. | .branch .. => true
  | .transfer .. | .stop .. | .only .. | .toConsensus .. | .fromConsensus .. | .loop ..
  | .cont .. => false

/-- The statements that only consensus can run. -/
def Stmt.needsConsensus : Stmt → Bool
  | .transfer .. | .fromConsensus .. | .loop .. | .cont .. => true
  | .letIn .. | .claim .. | .ret .. | .prompt .. | .branch .. | .stop .. | .only ..
  | .toConsensus .. => false

/-- The statements by which a participant acts alone. -/
def Stmt.actsAlone : Stmt → Bool
  | .only .. | .toConsensus .. | .stop .. => true
  | .letIn _ _ e => e.asks
  | .claim .. | .ret .. | .prompt .. | .branch .. | .transfer .. | .fromConsensus .. | .loop ..
  | .cont .. => false

/-- The statements that a mode allows. -/
def Stmt.allowedIn (mode : Mode) (s : Stmt) : Bool :=
  match mode with
  | .module | .pureLocal | .localStep => s.isLocal
  | .step _ => !s.needsConsensus
  | .consensus .. => !s.actsAlone

variable {s : Stmt} {code : Code}

theorem Stmt.During.own (h : s.During φ) : ∀ t ∈ s.own, t.During φ := by
  have hcode : ∀ {φ : Phase} {code : Code}, (∀ s ∈ code, s.During φ) →
      (∀ s ∈ code, ∀ t ∈ s.own, t.During φ) → ∀ t ∈ ownStatements code, t.During φ := by
    intro φ code hall hown t ht
    obtain ⟨s, hs, rfl | hin⟩ := mem_ownStatements.1 ht
    · exact hall _ hs
    · exact hown s hs t hin
  induction h with
  | prompt hbody ih => simpa only [Stmt.own] using hcode hbody ih
  | branch ht hf iht ihf =>
    simp only [Stmt.own, List.mem_append, or_imp, forall_and]
    exact ⟨hcode ht iht, hcode hf ihf⟩
  | loop hinvariant hcond hbody ihi ihc ihb =>
    rename_i invariant cond _
    obtain ⟨_, _, invariant, _⟩ := invariant
    obtain ⟨_, _, cond, _⟩ := cond
    simp only [Stmt.own, List.mem_append, or_imp, forall_and]
    exact ⟨⟨hcode hinvariant ihi, hcode hcond ihc⟩, hcode hbody ihb⟩
  | @toConsensus J loc t check next _ _ hlate _ _ _ ihlate =>
    obtain ⟨who, join, whoVar, messages, amount, timeout, body⟩ := t
    cases timeout with
    | none => simp [Stmt.own]
    | some d =>
      obtain ⟨delay, late⟩ := d
      simpa only [Stmt.own] using hcode (hlate _ rfl) (ihlate _ rfl)
  | _ => simp [Stmt.own]

theorem Code.During.own (h : code.During φ) : ∀ s ∈ ownStatements code, s.During φ := by
  intro s hs
  obtain ⟨t, ht, rfl | hin⟩ := mem_ownStatements.1 hs
  · exact h _ ht
  · exact (h t ht).own s hin

theorem Stmt.During.allowedIn {mode : Mode} (h : s.During mode.phase) :
    s.allowedIn mode = true := by
  cases mode with
  | module | pureLocal | localStep =>
    simp only [Mode.phase] at h
    cases h <;> rfl
  | step parties =>
    simp only [Mode.phase] at h
    cases h <;> rfl
  | consensus opened parties =>
    simp only [Mode.phase] at h
    cases h with
    | letIn hask => simpa [Stmt.allowedIn, Stmt.actsAlone, Phase.isConsensus] using hask
    | _ => rfl

end Ir

/-- Code is emitted only in a mode that allows it, whatever the environment and the scope hold: by
the evaluation of expressions, by applications to values and by the evaluation of statements. -/
theorem evaluation_allowed_in_mode (fuel : Nat) (ctx : Ctx) :
    (∀ env e s r s', (Elaboration.evalExpr fuel ctx env e).Yields s r s' →
      ∀ st ∈ ownStatements r.code, st.allowedIn ctx.mode = true) ∧
    (∀ loc env rator args s r s',
      (Elaboration.applyValues fuel ctx loc env rator args).Yields s r s' →
      ∀ st ∈ ownStatements r.code, st.allowedIn ctx.mode = true) ∧
    (∀ loc scope stmts s r s', (Elaboration.evalStmts fuel ctx loc scope stmts).Yields s r s' →
      ∀ st ∈ ownStatements r.code, st.allowedIn ctx.mode = true) := by
  have hev := evaluator_phased fuel
  refine ⟨?_, ?_, ?_⟩
  · intro env e s r s' hrun st hst
    exact ((hev.expr hrun).own st hst).allowedIn
  · intro loc env rator args s r s' hrun st hst
    exact ((hev.composes.applyValues hrun).own st hst).allowedIn
  · intro loc scope stmts s r s' hrun st hst
    exact ((hev.stmts hrun).own st hst).allowedIn

theorem exists_yields_of_any {α : Type} {x : Eval α} {s : Supply} {f : α → Bool}
    (h : (x.runFrom s).1.toOption.any f = true) : ∃ a s', x.Yields s a s' ∧ f a = true := by
  obtain ⟨a, ha, hf⟩ := exists_ok_of_any h
  exact ⟨a, (x.runFrom s).2, Prod.ext ha rfl, hf⟩

namespace Surface

/-- Consensus checks its balance, the round is committed, and the protocol ends. -/
def settling : List Stmt :=
  [.expr here (apply "require" [.binary here .lt (apply "balance" []) (number "5")]),
    .expr here (apply "commit" []),
    .expr here (apply "exit" [])]

end Surface

theorem settling_allowed_in_mode :
    ∃ r s', (Elaboration.evalStmts 10 { mode := .consensus baseEnv {}, canLift := true }
        Surface.here { env := baseEnv } Surface.settling).Yields {} r s' ∧
      (ownStatements r.code).length = 4 ∧
      ∀ st ∈ ownStatements r.code, st.allowedIn (.consensus baseEnv {}) = true := by
  obtain ⟨r, s', hrun, hlength⟩ := exists_yields_of_any (s := {})
    (f := fun r => (ownStatements r.code).length == 4)
    (x := Elaboration.evalStmts 10 { mode := .consensus baseEnv {}, canLift := true } Surface.here
      { env := baseEnv } Surface.settling) (by decide +kernel)
  exact ⟨r, s', hrun, by simpa using hlength,
    (evaluation_allowed_in_mode 10 _).2.2 _ _ _ _ _ _ hrun⟩

end Choreography
