import Choreography.Proofs.Compilation
import Choreography.Proofs.Delimitation

/-!
Where every path returns. Code can end in four ways, and statements that return on every path leave
code that never reaches its end. Such statements can still be left by an implicit null: one that
returns on one side only and goes on, a block that something follows, and a round without a timeout
each record one. Statements that return at the end alone record what they return and nothing else, so
a function of such statements has the type of what it returns.
-/

namespace Choreography

open Eval Ir

namespace Ir

/-! ### Endings -/

/-- How a path through code ends. -/
inductive Ending
  | falls | returns | continues | stops
  deriving DecidableEq

mutual

/-- Some path through the statement ends in this way. What returns to a prompt goes on behind it, and
behind a loop too: its condition may fail before the first turn. -/
def Stmt.leads (ending : Ending) : Stmt → Bool
  | .letIn .. | .claim .. | .transfer .. => ending = .falls
  | .stop .. => ending = .stops
  | .ret .. => ending = .returns
  | .cont .. => ending = .continues
  | .prompt _ _ _ body =>
    if ending = .falls then codeLeads .falls body || codeLeads .returns body
    else ending ≠ .returns && codeLeads ending body
  | .branch _ _ onTrue onFalse => codeLeads ending onTrue || codeLeads ending onFalse
  | .only _ _ body | .fromConsensus _ body => codeLeads ending body
  | .toConsensus _ ⟨_, _, _, _, _, none, body⟩ => codeLeads ending body
  | .toConsensus _ ⟨_, _, _, _, _, some ⟨_, late⟩, body⟩ =>
    codeLeads ending late || codeLeads ending body
  | .loop _ _ _ _ body => ending = .falls || ending ≠ .continues && codeLeads ending body

/-- Some path through the code ends in this way. -/
def codeLeads (ending : Ending) : List Stmt → Bool
  | [] => ending = .falls
  | s :: rest => ending ≠ .falls && s.leads ending || s.leads .falls && codeLeads ending rest

end

mutual

/-- A round is taken in the statement, and not inside a prompt. -/
def Stmt.opensRound : Stmt → Bool
  | .toConsensus .. => true
  | .branch _ _ onTrue onFalse => codeOpensRound onTrue || codeOpensRound onFalse
  | .fromConsensus _ body | .loop _ _ _ _ body => codeOpensRound body
  | .letIn .. | .claim .. | .transfer .. | .stop .. | .ret .. | .prompt .. | .only ..
  | .cont .. => false

def codeOpensRound : List Stmt → Bool
  | [] => false
  | s :: rest => s.opensRound || codeOpensRound rest

end

theorem codeLeads_falls_append (code code' : Code) :
    codeLeads .falls (code ++ code') = (codeLeads .falls code && codeLeads .falls code') := by
  induction code with
  | nil => simp [codeLeads]
  | cons s rest ih => simp [codeLeads, ih, Bool.and_assoc]

theorem codeOpensRound_append (code code' : Code) :
    codeOpensRound (code ++ code') = (codeOpensRound code || codeOpensRound code') := by
  induction code with
  | nil => simp [codeOpensRound]
  | cons s rest ih => simp [codeOpensRound, ih, Bool.or_assoc]

end Ir

/-! ### Statements that return at their end -/

namespace Surface

mutual

/-- No return stands in the statement; those of functions are theirs. -/
def Stmt.quiet : Stmt → Bool
  | .ret .. => false
  | .block body => body.quiet
  | .branch _ _ onTrue (some onFalse) => onTrue.quiet && onFalse.quiet
  | .branch _ _ onTrue none => onTrue.quiet
  | .loop _ _ body => body.quiet
  | .constDecl .. | .varDecl .. | .function .. | .empty _ | .expr .. | .assign .. | .methodCall ..
  | .cont _ | .foreign .. => true

def Block.quiet : Block → Bool
  | ⟨_, stmts⟩ => stmtsQuiet stmts

def stmtsQuiet : List Stmt → Bool
  | [] => true
  | s :: rest => s.quiet && stmtsQuiet rest

end

/-- Nothing is recorded of the statement when others follow it. -/
def Stmt.passes : Stmt → Bool
  | .branch _ _ onTrue onFalse => onTrue.quiet && onFalse.all Stmt.quiet
  | .loop _ _ body => body.quiet
  | .constDecl .. | .varDecl .. | .function .. | .empty _ | .expr .. | .methodCall .. => true
  | .block _ | .assign .. | .ret .. | .cont _ | .foreign .. => false

mutual

/-- The statement, standing last, returns on every path. -/
def Stmt.returns : Stmt → Bool
  | .ret .. => true
  | .block body => body.returns
  | .branch _ _ onTrue (some onFalse) => onTrue.returns && onFalse.returns
  | .branch _ _ _ none | .loop .. | .constDecl .. | .varDecl .. | .function .. | .empty _ | .expr ..
  | .assign .. | .methodCall .. | .cont _ | .foreign .. => false

def Block.returns : Block → Bool
  | ⟨_, stmts⟩ => stmtsReturn stmts

/-- The statements return on every path, and only at their end. -/
def stmtsReturn : List Stmt → Bool
  | [] => false
  | s :: rest => if rest.isEmpty then s.returns else s.passes && stmtsReturn rest

end

theorem Block.quiet_eq (b : Block) : b.quiet = stmtsQuiet b.stmts := by
  cases b
  simp only [Block.quiet]

theorem Block.returns_eq (b : Block) : b.returns = stmtsReturn b.stmts := by
  cases b
  simp only [Block.returns]

theorem Stmt.quiet_branch (loc : Loc) (cond : Expr) (onTrue : Stmt) (onFalse : Option Stmt) :
    (Stmt.branch loc cond onTrue onFalse).quiet = (onTrue.quiet && onFalse.all Stmt.quiet) := by
  cases onFalse <;> simp [Stmt.quiet]

theorem stmtsQuiet_dropEmpty {stmts : List Stmt} (h : stmtsQuiet stmts = true) :
    stmtsQuiet (dropEmpty stmts) = true := by
  induction stmts with
  | nil => exact h
  | cons s rest ih =>
    simp only [stmtsQuiet, Bool.and_eq_true] at h
    unfold dropEmpty
    rw [List.filter_cons]
    split
    · simp only [stmtsQuiet, Bool.and_eq_true]
      exact ⟨h.1, ih h.2⟩
    · exact ih h.2

theorem stmtsReturn_singleton (s : Stmt) : stmtsReturn [s] = s.returns := by
  simp [stmtsReturn]

/-- Statements that return are followed by nothing, or pass on to others that return. -/
theorem stmtsReturn_cons {s : Stmt} {rest : List Stmt} (h : stmtsReturn (s :: rest) = true) :
    rest = [] ∧ s.returns = true ∨ s.passes = true ∧ stmtsReturn rest = true := by
  rw [stmtsReturn] at h
  split at h
  · rename_i hnone
    exact .inl ⟨List.isEmpty_iff.1 hnone, h⟩
  · exact .inr (by simpa using h)

theorem stmtsReturn_dropEmpty {stmts : List Stmt} (h : stmtsReturn stmts = true) :
    stmtsReturn (dropEmpty stmts) = true := by
  induction stmts with
  | nil => exact h
  | cons s rest ih =>
    unfold dropEmpty
    rw [List.filter_cons]
    rcases stmtsReturn_cons h with ⟨rfl, hreturns⟩ | ⟨hpasses, hrest⟩
    · cases s <;> simp_all [Stmt.isEmpty, Stmt.returns, stmtsReturn]
    · have hdropped := ih hrest
      split
      · have hne : dropEmpty rest ≠ [] := by
          intro hnil
          rw [hnil, stmtsReturn] at hdropped
          cases hdropped
        unfold dropEmpty at hne hdropped
        simp [stmtsReturn, hne, hpasses, hdropped]
      · exact hdropped

end Surface

/-! ### What they leave behind -/

/-- The code returns nothing, unless it takes a round. -/
def Ir.Code.Returnless (code : Code) : Prop :=
  codeOpensRound code = false → codeReturned code = []

namespace Ir.Code

variable {loc : Loc} {code code' : Code}

theorem Delimited.returnless (h : code.Delimited) : code.Returnless := fun _ => h.returned

theorem Returnless.append (h : code.Returnless) (h' : code'.Returnless) :
    Code.Returnless (code ++ code') := by
  intro hround
  rw [codeOpensRound_append, Bool.or_eq_false_iff] at hround
  rw [codeReturned_append, h hround.1, h' hround.2, List.nil_append]

theorem Returnless.branch {cond : Arg} (h : code.Returnless) (h' : code'.Returnless) :
    Code.Returnless [.branch loc cond code code'] := by
  intro hround
  simp only [codeOpensRound, Stmt.opensRound, Bool.or_false, Bool.or_eq_false_iff] at hround
  simp [Stmt.returned, h hround.1, h' hround.2]

theorem Returnless.loop {init : Assignment} {invariant cond : Block} (h : code.Returnless) :
    Code.Returnless [.loop loc init invariant cond code] := by
  intro hround
  simp only [codeOpensRound, Stmt.opensRound, Bool.or_false] at hround
  simp [Stmt.returned, h hround]

theorem Returnless.fromConsensus (h : code.Returnless) :
    Code.Returnless [.fromConsensus loc code] := by
  intro hround
  simp only [codeOpensRound, Stmt.opensRound, Bool.or_false] at hround
  simp [Stmt.returned, h hround]

end Ir.Code

/-- What is left behind by statements that return on every path: all that is recorded are returns,
and no path reaches the end. -/
structure Lifted.Returning (r : Lifted Outcome) : Prop where
  returned : codeReturned r.code ≠ []
  exits : r.value.exits.length = (codeReturned r.code).length
  ends : codeLeads .falls r.code = false

/-- The statements return on every path, unless a round is taken. -/
def Lifted.ReturnsLast (r : Lifted Outcome) : Prop := codeOpensRound r.code = false → r.Returning

namespace Lifted

variable {loc : Loc} {r : Lifted Outcome} {code : Code}

theorem Returning.exits_ne_nil (h : r.Returning) : r.value.exits ≠ [] := by
  rw [← List.length_pos_iff, h.exits, List.length_pos_iff]
  exact h.returned

/-- Statements that return, after others that leave in no way. -/
theorem ReturnsLast.behind {exits : List Exit} {env : Bindings} (h : r.ReturnsLast)
    (hcode : code.Returnless) (hexits : codeReturned code = [] → exits = []) :
    Lifted.ReturnsLast { code := code ++ r.code,
                         value := { env, exits := exits ++ r.value.exits } } := by
  intro hround
  rw [codeOpensRound_append, Bool.or_eq_false_iff] at hround
  have hnone := hcode hround.1
  have hreturns := h hround.2
  constructor
  · simpa [hnone] using hreturns.returned
  · simpa [hnone, hexits hnone] using hreturns.exits
  · simp [codeLeads_falls_append, hreturns.ends]

theorem ReturnsLast.after (h : r.ReturnsLast) (hcode : code.Delimited) :
    (r.after code).ReturnsLast :=
  h.behind hcode.returnless fun _ => rfl

theorem ReturnsLast.fromConsensus (h : r.ReturnsLast) :
    Lifted.ReturnsLast ⟨[.fromConsensus loc r.code], r.value⟩ := by
  intro hround
  simp only [codeOpensRound, Stmt.opensRound, Bool.or_false] at hround
  have hreturns := h hround
  constructor
  · simpa [Stmt.returned] using hreturns.returned
  · simpa [Stmt.returned] using hreturns.exits
  · simp [codeLeads, Stmt.leads, hreturns.ends]

end Lifted

/-- Statements without a return return nothing, and statements that return at their end do so on
every path and leave in no other way, as long as they take no round. -/
structure Evaluator.Returns (ev : Evaluator) : Prop where
  delimits : ev.Delimits
  quiet {ctx : Ctx} {loc : Loc} {scope : Scope} {stmts : List Surface.Stmt} {s s' : Supply}
    {r : Lifted Outcome} : (ev.stmts ctx loc scope stmts).Yields s r s' →
    Surface.stmtsQuiet stmts = true → codeOpensRound r.code = false → codeReturned r.code = []
  returns {ctx : Ctx} {loc : Loc} {scope : Scope} {stmts : List Surface.Stmt} {s s' : Supply}
    {r : Lifted Outcome} : (ev.stmts ctx loc scope stmts).Yields s r s' →
    Surface.stmtsReturn stmts = true → codeOpensRound r.code = false → r.Returning

/-- A statement that takes a round says so. -/
theorem Evaluator.takeRound_opens {ev : Evaluator} {ctx : Ctx} {parties : Parties} {loc roundLoc : Loc}
    {scope : Scope} {before : Code} {round : Round} {rest : List Surface.Stmt} :
    Gives (fun r => codeOpensRound r.code = true)
      (ev.takeRound ctx parties loc scope before roundLoc round rest) :=
  .skip fun _ => .skip fun _ => .skip fun _ =>
    .skip fun _ => .skip fun _ => .skip fun _ =>
      .skip fun _ => .skip fun _ => .skip fun _ =>
        .skip fun _ => .pure (by simp [codeOpensRound_append, codeOpensRound, Stmt.opensRound])

namespace Evaluator.Returns

variable {s s' : Supply} {loc : Loc} {ctx : Ctx} {env : Bindings} {ev : Evaluator} {scope : Scope}
  {r : Lifted Outcome} {rest stmts : List Surface.Stmt} {code : Code} {e : Surface.Expr}
  {decls : List Surface.Decl} {invariantLoc loopLoc : Loc} {invariant : List Surface.Expr}
  {cond : Surface.Expr} {body onTrue : Surface.Stmt} {onFalse : Option Surface.Stmt}

/-! ### Statements without a return -/

section

variable (hev : ev.Returns)

include hev

theorem quietBody (hquiet : Surface.stmtsQuiet stmts = true) :
    Gives (·.code.Returnless) (ev.stmts ctx loc scope stmts) :=
  .of_yields fun hrun => hev.quiet hrun hquiet

theorem extend_quiet (hcode : code.Delimited) (hquiet : Surface.stmtsQuiet rest = true) :
    Gives (·.code.Returnless) (ev.extend ctx loc scope code env rest) :=
  Meets.bind (hev.quietBody hquiet) fun _ h => .pure (hcode.returnless.append h)

theorem continueWith_quiet {first : Lifted Outcome} (hfirst : first.code.Returnless)
    (hquiet : Surface.stmtsQuiet rest = true) :
    Gives (·.code.Returnless) (ev.continueWith ctx loc scope first rest) := by
  unfold Evaluator.continueWith
  split
  · exact .pure hfirst
  · exact Meets.bind (hev.quietBody (Surface.stmtsQuiet_dropEmpty hquiet)) fun _ h =>
      .pure (hfirst.append h)

theorem branchBody_quiet {body : Option Surface.Stmt}
    (hquiet : body.all Surface.Stmt.quiet = true) :
    Gives (·.code.Returnless) (ev.branchBody ctx loc scope body) := by
  refine hev.quietBody ?_
  cases body with
  | none => rfl
  | some body => simpa [Surface.stmtsQuiet] using hquiet

/-- A conditional whose sides return nothing returns nothing. -/
theorem branches_quiet {c : Lifted SecValue} (hcode : c.code.Delimited)
    (h : ev.Branches ctx loc scope onTrue onFalse c s r s') (htrue : onTrue.quiet = true)
    (hfalse : onFalse.all Surface.Stmt.quiet = true) : r.code.Returnless := by
  have hcode := hcode.returnless
  have htrue : (some onTrue).all Surface.Stmt.quiet = true := htrue
  cases h with
  | onlyTrue htaken => exact hcode.append ((hev.branchBody_quiet htrue).result htaken)
  | onlyFalse htaken => exact hcode.append ((hev.branchBody_quiet hfalse).result htaken)
  | both ht hf =>
    exact hcode.append (.branch ((hev.branchBody_quiet htrue).result ht)
      ((hev.branchBody_quiet hfalse).result hf))

theorem branch_quiet (htrue : onTrue.quiet = true) (hfalse : onFalse.all Surface.Stmt.quiet = true)
    (hquiet : Surface.stmtsQuiet rest = true) :
    Gives (·.code.Returnless) (ev.branch ctx loc scope cond onTrue onFalse rest) := by
  refine .of_yields fun hrun => ?_
  obtain ⟨c, first, _, _, hc, hfirst, hcontinue⟩ := Evaluator.branch_yields hrun
  have hnone := hev.branches_quiet (hev.delimits.expr hc) hfirst htrue hfalse
  exact (hev.continueWith_quiet hnone (Surface.stmtsQuiet_dropEmpty hquiet)).result hcontinue

theorem continueLoop_quiet {assignLoc : Loc} {lhs rhs : Surface.Expr} :
    Gives (·.code.Returnless) (ev.continueLoop ctx loc scope assignLoc lhs rhs rest) :=
  .skip fun _ => (Meets.of_yields hev.delimits.composes.decl.result).bind fun _ hupdates =>
    .skip fun _ => .skip fun _ => .skip fun _ =>
      .pure (hupdates.returnless.append fun _ => by simp [Stmt.returned])

theorem loop_quiet (hbody : body.quiet = true) (hquiet : Surface.stmtsQuiet rest = true) :
    Gives (·.code.Returnless)
      (ev.loop ctx loc scope decls invariantLoc invariant loopLoc cond body rest) := by
  refine .skip fun _ => (Meets.of_yields hev.delimits.composes.decls.result).bind
    fun _ hinit => .skip fun _ => .skip fun _ => ?_
  split
  · exact .skip fun _ => .skip fun _ =>
      Meets.bind (hev.quietBody (by simpa [Surface.stmtsQuiet] using hbody)) fun _ hturn =>
        Meets.bind (hev.quietBody hquiet) fun _ hafter =>
          .pure (hinit.returnless.append (hturn.loop.append hafter))
  · exact .fail trivial

theorem exprStmt_quiet (hquiet : Surface.stmtsQuiet rest = true) :
    Gives (·.code.Returnless) (ev.exprStmt ctx loc scope e rest) := by
  refine hev.delimits.operand.bind fun _ hcode => ?_
  split
  · exact .skip fun _ => .pure hcode.returnless
  · exact .skip fun _ => Meets.bind (hev.quietBody hquiet) fun _ hnext =>
      .pure (.append (Code.Delimited.returnless (.single (.only hcode))) hnext)
  · split
    · exact Evaluator.takeRound_opens.imp fun _ hopens hround => by simp [hopens] at hround
    · exact .fail trivial
  · exact .skip fun _ => Meets.bind (hev.quietBody hquiet) fun _ hnext =>
      .pure (hcode.returnless.append hnext.fromConsensus)
  · exact .skip fun _ => hev.extend_quiet hcode hquiet

theorem evalStmts_quiet (hquiet : Surface.stmtsQuiet stmts = true) :
    Gives (·.code.Returnless) (ev.evalStmts ctx loc scope stmts) := by
  unfold Evaluator.evalStmts
  split
  · exact .pure fun _ => codeReturned_nil
  all_goals
    simp only [Surface.stmtsQuiet, Surface.Stmt.quiet, Bool.and_eq_true, Bool.true_and] at hquiet
  · rw [Surface.Block.quiet_eq] at hquiet
    exact (hev.quietBody hquiet.1).bind fun _ hfirst => hev.continueWith_quiet hfirst hquiet.2
  · exact (Meets.of_yields hev.delimits.composes.decls.result).bind fun _ hbound =>
      .skip fun _ => hev.extend_quiet hbound hquiet
  · exact hev.continueLoop_quiet
  · exact .skip fun _ => .skip fun _ => .skip fun _ =>
      hev.extend_quiet Code.jumps_nil hquiet
  · rw [Surface.Stmt.quiet_branch, Bool.and_eq_true] at hquiet
    exact hev.branch_quiet hquiet.1.1 hquiet.1.2 hquiet.2
  · exact hev.quietBody hquiet
  · exact hev.exprStmt_quiet hquiet
  · exact hev.exprStmt_quiet hquiet
  · exact hev.continueLoop_quiet
  · exact .fail trivial
  · simp at hquiet
  · exact hev.loop_quiet hquiet.1 hquiet.2
  all_goals exact .fail trivial

/-! ### Statements that return -/

theorem returningBody (hreturn : Surface.stmtsReturn stmts = true) :
    Gives Lifted.ReturnsLast (ev.stmts ctx loc scope stmts) :=
  .of_yields fun hrun => hev.returns hrun hreturn

theorem extend_returns (hcode : code.Delimited) (hreturn : Surface.stmtsReturn rest = true) :
    Gives Lifted.ReturnsLast (ev.extend ctx loc scope code env rest) :=
  Meets.bind (hev.returningBody hreturn) fun _ h => .pure (h.after hcode)

/-- A conditional both sides of which return. -/
theorem branches_return {onFalse : Surface.Stmt} {c : Lifted SecValue} (hcode : c.code.Delimited)
    (h : ev.Branches ctx loc scope onTrue (some onFalse) c s r s') (htrue : onTrue.returns = true)
    (hfalse : onFalse.returns = true) : r.ReturnsLast := by
  have hbody : ∀ {loc : Loc} {body : Surface.Stmt}, body.returns = true →
      Gives Lifted.ReturnsLast (ev.branchBody ctx loc scope (some body)) := fun hreturn =>
    hev.returningBody (by rw [Option.toList_some, Surface.stmtsReturn_singleton, hreturn])
  cases h with
  | onlyTrue htaken => exact ((hbody htrue).result htaken).after hcode
  | onlyFalse htaken => exact ((hbody hfalse).result htaken).after hcode
  | @both _ _ v t f _ _ ht hf =>
    intro hround
    simp only [codeOpensRound_append, codeOpensRound, Stmt.opensRound, Bool.or_false,
      Bool.or_eq_false_iff] at hround
    have htReturns := (hbody htrue).result ht hround.2.1
    have hfReturns := (hbody hfalse).result hf hround.2.2
    have hreturned : codeReturned (c.code ++ [.branch loc (.var v) t.code f.code]) =
        codeReturned t.code ++ codeReturned f.code := by
      simp [hcode.returned, Stmt.returned]
    constructor
    · simp [hreturned, htReturns.returned]
    · rw [hreturned]
      simp [Exit.combine, htReturns.exits_ne_nil, hfReturns.exits_ne_nil, htReturns.exits,
        hfReturns.exits]
    · simp [codeLeads_falls_append, codeLeads, Stmt.leads, htReturns.ends, hfReturns.ends]

/-- A conditional whose sides return nothing, before statements that return. -/
theorem branch_returns (htrue : onTrue.quiet = true)
    (hfalse : onFalse.all Surface.Stmt.quiet = true) (hreturn : Surface.stmtsReturn rest = true) :
    Gives Lifted.ReturnsLast (ev.branch ctx loc scope cond onTrue onFalse rest) := by
  refine .of_yields fun hrun => ?_
  obtain ⟨c, first, _, _, hc, hfirst, hcontinue⟩ := Evaluator.branch_yields hrun
  have hcode := hev.delimits.expr hc
  have hdropped := Surface.stmtsReturn_dropEmpty hreturn
  have hne : Surface.dropEmpty rest ≠ [] := by
    intro hnil
    rw [hnil, Surface.stmtsReturn] at hdropped
    cases hdropped
  have hagain : Surface.dropEmpty (Surface.dropEmpty rest) = Surface.dropEmpty rest :=
    by simp [Surface.dropEmpty, List.filter_filter]
  rw [if_neg (by simpa using hne)] at hfirst
  have hnone := hev.branches_quiet hcode hfirst htrue hfalse
  have hexits := (hev.delimits.branchFirst hcode hfirst).silent (by simp)
  unfold Evaluator.continueWith at hcontinue
  rw [hagain] at hcontinue
  split at hcontinue
  · contradiction
  · refine Meets.result (F := fun _ => True) (Q := Lifted.ReturnsLast) ?_ hcontinue
    exact Meets.bind (hev.returningBody hdropped) fun _ h => .pure (h.behind hnone hexits)

theorem loop_returns (hbody : body.quiet = true) (hreturn : Surface.stmtsReturn rest = true) :
    Gives Lifted.ReturnsLast
      (ev.loop ctx loc scope decls invariantLoc invariant loopLoc cond body rest) := by
  refine .skip fun _ => (Meets.of_yields hev.delimits.composes.decls.result).bind
    fun _ hinit => .skip fun _ => .skip fun _ => ?_
  split
  · refine .skip fun _ => .skip fun _ =>
      (hev.delimits.body.and (hev.quietBody (by simpa [Surface.stmtsQuiet] using hbody))).bind
        fun turn hturn => Meets.bind (hev.returningBody hreturn) fun after hafter => .pure ?_
    have hsilent := hturn.1.silent (by simp)
    exact (hafter.behind hturn.2.loop (by simpa [Stmt.returned] using hsilent)).after hinit
  · exact .fail trivial

theorem exprStmt_returns (hreturn : Surface.stmtsReturn rest = true) :
    Gives Lifted.ReturnsLast (ev.exprStmt ctx loc scope e rest) := by
  refine hev.delimits.operand.bind fun _ hcode => ?_
  split
  · cases rest with
    | nil => simp [Surface.stmtsReturn] at hreturn
    | cons => exact .fail_bind trivial
  · exact .skip fun _ => Meets.bind (hev.returningBody hreturn) fun _ hnext =>
      .pure (hnext.after (.single (.only hcode)))
  · split
    · exact Evaluator.takeRound_opens.imp fun _ hopens hround => by simp [hopens] at hround
    · exact .fail trivial
  · exact .skip fun _ => Meets.bind (hev.returningBody hreturn) fun _ hnext =>
      .pure (hnext.fromConsensus.after hcode)
  · exact .skip fun _ => hev.extend_returns hcode hreturn

theorem ret_returns {value : Option Surface.Expr} :
    Gives Lifted.ReturnsLast (ev.ret ctx loc scope value rest) := by
  refine Evaluator.ret_meets (P := fun v => v.code.Delimited) (fun _ _ => trivial)
    (fun _ _ => hev.delimits.operand) Code.jumps_nil fun v slot hcode _ => ⟨?_, ?_, ?_⟩
  · simp [Stmt.returned]
  · simp [hcode.returned, Stmt.returned]
  · simp [codeLeads_falls_append, codeLeads, Stmt.leads]

theorem evalStmts_returns (hreturn : Surface.stmtsReturn stmts = true) :
    Gives Lifted.ReturnsLast (ev.evalStmts ctx loc scope stmts) := by
  cases stmts with
  | nil => simp [Surface.stmtsReturn] at hreturn
  | cons stmt rest =>
    rcases Surface.stmtsReturn_cons hreturn with ⟨rfl, hlast⟩ | ⟨hpasses, hrest⟩
    · -- the last statement
      cases stmt with
      | ret => exact hev.ret_returns
      | block body =>
        rw [Surface.Stmt.returns, Surface.Block.returns_eq] at hlast
        exact (hev.returningBody hlast).bind fun _ hfirst => .pure hfirst
      | branch _ _ onTrue onFalse =>
        obtain _ | onFalse := onFalse
        · simp [Surface.Stmt.returns] at hlast
        · simp only [Surface.Stmt.returns, Bool.and_eq_true] at hlast
          refine .of_yields fun hrun => ?_
          obtain ⟨c, first, _, _, hc, hfirst, hcontinue⟩ := Evaluator.branch_yields hrun
          obtain ⟨rfl, _⟩ := yields_pure.1 hcontinue
          exact hev.branches_return (hev.delimits.expr hc) hfirst hlast.1 hlast.2
      | _ => simp [Surface.Stmt.returns] at hlast
    · -- a statement before those that return
      cases stmt with
      | constDecl =>
        exact (Meets.of_yields hev.delimits.composes.decls.result).bind fun _ hbound =>
          .skip fun _ => hev.extend_returns hbound hrest
      | function =>
        exact .skip fun _ => .skip fun _ => .skip fun _ =>
          hev.extend_returns Code.jumps_nil hrest
      | branch =>
        simp only [Surface.Stmt.passes, Bool.and_eq_true] at hpasses
        exact hev.branch_returns hpasses.1 hpasses.2 hrest
      | empty => exact hev.returningBody hrest
      | expr | methodCall => exact hev.exprStmt_returns hrest
      | varDecl =>
        unfold Evaluator.evalStmts
        split <;> rename_i heq <;> cases heq
        · -- the invariant and the loop pass on to what stands behind the loop
          obtain ⟨hnone, _⟩ | ⟨_, hloop⟩ := Surface.stmtsReturn_cons hrest
          · simp at hnone
          · obtain ⟨_, hlast⟩ | ⟨hbody, hafter⟩ := Surface.stmtsReturn_cons hloop
            · simp [Surface.Stmt.returns] at hlast
            · exact hev.loop_returns hbody hafter
        · exact .fail trivial
      | loop => exact .fail trivial
      | _ => simp [Surface.Stmt.passes] at hpasses

end

end Evaluator.Returns

theorem evaluator_returns (fuel : Nat) : (evaluator fuel).Returns := by
  induction fuel with
  | zero =>
    exact ⟨evaluator_delimits 0, fun hrun => absurd hrun yields_outOfFuel,
      fun hrun => absurd hrun yields_outOfFuel⟩
  | succ fuel ih =>
    exact ⟨evaluator_delimits _, fun hrun hquiet => (ih.evalStmts_quiet hquiet).result hrun,
      fun hrun hreturn => (ih.evalStmts_returns hreturn).result hrun⟩

/-! ### Joining the ways out -/

theorem Exit.types_of_typed {exits : List Exit} {t : Ty} (s : Supply)
    (h : ∀ exit ∈ exits, ∃ a, exit.value.value.typed? = some (t, a)) :
    ∃ types, (Exit.types exits).Yields s types s ∧ types.length = exits.length ∧
      ∀ p ∈ types, p.2 = t := by
  induction exits with
  | nil => exact ⟨[], by simp [Exit.types], rfl, by simp⟩
  | cons exit exits ih =>
    obtain ⟨⟨a, ha⟩, hrest⟩ := List.forall_mem_cons.1 h
    obtain ⟨types, htypes, hlength, hsame⟩ := ih hrest
    refine ⟨(exit.loc, t) :: types, ?_, by simp [hlength], List.forall_mem_cons.2 ⟨rfl, hsame⟩⟩
    simp only [Exit.types, yields_bind, Value.typeOf_yields, yields_pure]
    exact ⟨(t, a), s, ⟨ha, rfl⟩, types, s, htypes, rfl, rfl⟩

theorem Ty.joinRest_of_same {loc : Loc} {t : Ty} {s : Supply} {rest : List (Loc × Ty)} :
    ∀ {first : Loc × Ty}, first.2 = t → (∀ p ∈ rest, p.2 = t) →
      (Ty.joinRest loc first rest).Yields s t s := by
  induction rest with
  | nil => simp [Ty.joinRest, eq_comm]
  | cons next rest ih =>
    intro first hfirst hrest
    obtain ⟨hnext, hmore⟩ := List.forall_mem_cons.1 hrest
    simp only [Ty.joinRest, yields_bind, Ty.join_yields]
    exact ⟨t, s, ⟨hfirst.symm, hnext.trans hfirst.symm, rfl⟩, ih rfl hmore⟩

/-- Ways out that all have one type join to a value of that type. -/
theorem Ctx.joinExits_of_typed {ctx : Ctx} {loc : Loc} {slot : Nat} {body : Lifted Outcome} {t : Ty}
    (s : Supply) (hne : body.value.exits ≠ [])
    (h : ∀ exit ∈ body.value.exits, ∃ a, exit.value.value.typed? = some (t, a)) :
    ∃ out, (ctx.joinExits loc slot body).Yields s out s ∧
      ∃ a, out.value.value.value.typed? = some (t, a) := by
  unfold Ctx.joinExits
  split
  · contradiction
  · rename_i exit hone
    exact ⟨_, yields_pure.2 ⟨rfl, rfl⟩, h exit (by simp [hone])⟩
  · obtain ⟨types, htypes, hlength, hsame⟩ := Exit.types_of_typed s h
    have hjoin : (Ty.joinAll loc types).Yields s t s := by
      cases types with
      | nil =>
        rw [List.length_nil] at hlength
        exact absurd (List.length_eq_zero_iff.1 hlength.symm) hne
      | cons first rest =>
        obtain ⟨hfirst, hrest⟩ := List.forall_mem_cons.1 hsame
        exact Ty.joinRest_of_same hfirst hrest
    simp only [yields_bind, yields_pure]
    refine ⟨_, ⟨types, s, htypes, t, s, hjoin, rfl, rfl⟩, ?_⟩
    simp only [Value.typed?]
    exact ⟨_, rfl⟩

/-! ### Functions and their results -/

/-- The ways out that are recorded for statements account for their returns. All that is returned goes
to the slot of the scope and is recorded, in the same order; all else that is recorded is an implicit
null, and where falling off the end does not return, none is recorded without a return. Statements
that return at their end on every path, and take no round, record just what they return, and no path
through their code reaches its end; when all that they return has one type, so has the result. -/
theorem exits_account_for_returns {fuel slot : Nat} {ctx : Ctx} {loc : Loc} {scope : Scope}
    {stmts : List Surface.Stmt} {s s' : Supply} {r : Lifted Outcome} (hslot : scope.slot = some slot)
    (hrun : (Elaboration.evalStmts fuel ctx loc scope stmts).Yields s r s') :
    r.code.Jumps (some slot) scope.Assigns ∧
    Exit.Records (codeReturned r.code) r.value.exits ∧
    (scope.style ≠ .implicitNull → codeReturned r.code = [] → r.value.exits = []) ∧
    (Surface.stmtsReturn stmts = true → codeOpensRound r.code = false →
      r.value.exits.map (·.value.value) = codeReturned r.code ∧
      codeLeads .falls r.code = false ∧
      ∀ t, (∀ v ∈ codeReturned r.code, ∃ a, v.typed? = some (t, a)) →
        ∀ (ctx' : Ctx) (loc' : Loc) (s₁ : Supply),
          ∃ out, (ctx'.joinExits loc' slot r).Yields s₁ out s₁ ∧
            ∃ a, out.value.value.value.typed? = some (t, a)) := by
  have hreturns := evaluator_returns fuel
  have hjumps := hreturns.delimits.stmts hrun
  refine ⟨?_, hjumps.records, hjumps.silent, fun hreturn hround => ?_⟩
  · rw [← hslot]
    exact (hreturns.delimits.stmts hrun).code
  · have hreturning := hreturns.returns hrun hreturn hround
    have hvalues := hjumps.records.values_eq (Nat.le_of_eq hreturning.exits)
    refine ⟨hvalues, hreturning.ends, fun t htyped ctx' loc' s₁ => ?_⟩
    refine Ctx.joinExits_of_typed s₁ ?_ fun exit hexit => htyped _ ?_
    · intro hnone
      rw [hnone, List.map_nil] at hvalues
      exact hreturning.returned hvalues.symm
    · rw [← hvalues]
      exact List.mem_map_of_mem hexit

namespace Surface

/-- Between rounds, where everyone may know a boolean `b` and there is one participant. -/
def tested : Ctx × Scope :=
  let b : SecValue := .pub (.var { loc := here, name := "b", type := .bool, id := 7 })
  let a : Participant :=
    { loc := here, who := "A", interfaceLoc := here, interface := [], displayName := none,
      address := none }
  let env := (baseEnv.push "b" b).push "A" (.pub (.participant 9 a))
  let parties : Parties := { views := OrderedMap.insert {} "A" env }
  ({ mode := .step parties, canLift := true }, { slot := some 3, style := .implicitNull, env })

/-- Returns one of two numbers, after a declaration and a conditional without returns. -/
def lateReturn : List Stmt :=
  [define "x" (number "1"),
   .branch here (name "b") (.block ⟨here, []⟩) none,
   .branch here (name "b") (.ret here (some (name "x"))) (some (.ret here (some (number "2"))))]

/-- Returns one number at once if a condition holds, and another at the end. -/
def earlyReturn : List Stmt :=
  [.branch here (name "b") (.ret here (some (number "1"))) none, .ret here (some (number "2"))]

/-- Returns a number behind a round that waits for its sender. -/
def returnBehindRound : List Stmt :=
  [.expr here (method (name "A") "publish" []), .expr here (apply "commit" []),
   .ret here (some (number "5"))]

end Surface

theorem lateReturn_exits_account_for_returns :
    ∃ r s', (Elaboration.evalStmts 10 Surface.tested.1 Surface.here Surface.tested.2
        Surface.lateReturn).Yields { nextId := 8 } r s' ∧
      codeReturned r.code = [.int Surface.here 1, .int Surface.here 2] ∧
      r.value.exits.map (·.value.value) = codeReturned r.code ∧
      ∃ out, (Surface.tested.1.joinExits Surface.here 3 r).Yields s' out s' ∧
        ∃ a, out.value.value.value.typed? = some (.uint256, a) := by
  obtain ⟨r, s', hrun, hreturned, hround⟩ : ∃ r s',
      (Elaboration.evalStmts 10 Surface.tested.1 Surface.here Surface.tested.2
        Surface.lateReturn).Yields { nextId := 8 } r s' ∧
      codeReturned r.code = [.int Surface.here 1, .int Surface.here 2] ∧
      codeOpensRound r.code = false := ⟨_, _, rfl, rfl, rfl⟩
  have hslot : Surface.tested.2.slot = some 3 := rfl
  obtain ⟨_, _, _, hexact⟩ := exits_account_for_returns hslot hrun
  obtain ⟨hvalues, _, hjoins⟩ := hexact rfl hround
  refine ⟨r, s', hrun, hreturned, hvalues, hjoins .uint256 ?_ _ _ _⟩
  rw [hreturned]
  simp [Value.typed?]

/-- The types of data. -/
def typesOf (vs : List Value) : List (Option Ty) := vs.map fun v => v.typed?.map (·.1)

/-- Statements that return numbers on every path are left by null as well: where one side of a
conditional returns and the other goes on, and where a round has no timeout. Then what they return
does not join. -/
theorem null_exits_without_falling :
    (∃ r s', (Elaboration.evalStmts 10 Surface.tested.1 Surface.here Surface.tested.2
        Surface.earlyReturn).Yields { nextId := 8 } r s' ∧
      codeLeads .falls r.code = false ∧
      typesOf (codeReturned r.code) = [some .uint256, some .uint256] ∧
      typesOf (r.value.exits.map (·.value.value)) =
        [some .uint256, some .null, some .uint256] ∧
      ∀ out s₁, ¬ (Surface.tested.1.joinExits Surface.here 3 r).Yields s' out s₁) ∧
    ∃ r s', (Elaboration.evalStmts 10 Surface.tested.1 Surface.here Surface.tested.2
        Surface.returnBehindRound).Yields { nextId := 8 } r s' ∧
      codeLeads .falls r.code = false ∧
      typesOf (codeReturned r.code) = [some .uint256] ∧
      typesOf (r.value.exits.map (·.value.value)) = [some .null, some .uint256] ∧
      ∀ out s₁, ¬ (Surface.tested.1.joinExits Surface.here 3 r).Yields s' out s₁ := by
  have hcheck : ∀ {stmts : List Surface.Stmt} {returned exits : List (Option Ty)},
      let run := (Elaboration.evalStmts 10 Surface.tested.1 Surface.here Surface.tested.2
        stmts).runFrom { nextId := 8 }
      (run.1.toOption.any fun r =>
        codeLeads .falls r.code == false && typesOf (codeReturned r.code) == returned &&
        typesOf (r.value.exits.map (·.value.value)) == exits &&
        ((Surface.tested.1.joinExits Surface.here 3 r).runFrom run.2).1.toOption.isNone) = true →
      ∃ r s', (Elaboration.evalStmts 10 Surface.tested.1 Surface.here Surface.tested.2
          stmts).Yields { nextId := 8 } r s' ∧
        codeLeads .falls r.code = false ∧ typesOf (codeReturned r.code) = returned ∧
        typesOf (r.value.exits.map (·.value.value)) = exits ∧
        ∀ out s₁, ¬ (Surface.tested.1.joinExits Surface.here 3 r).Yields s' out s₁ := by
    intro stmts returned exits run h
    obtain ⟨r, hr, h⟩ := exists_ok_of_any h
    simp only [Bool.and_eq_true, beq_iff_eq] at h
    obtain ⟨⟨⟨hfalls, hreturned⟩, hexits⟩, hnone⟩ := h
    refine ⟨r, run.2, Prod.ext hr rfl, hfalls, hreturned, hexits, fun out s₁ hyields => ?_⟩
    rw [show _ = _ from hyields] at hnone
    simp [Except.toOption] at hnone
  exact ⟨hcheck (by decide +kernel), hcheck (by decide +kernel)⟩

end Choreography
