import Choreography.Proofs.Jumps
import Choreography.Proofs.Lookup
import Choreography.Proofs.Numbering

/-!
Statements keep their jumps in the bounds of their scope: they return to its slot, and continue only
with assignments to the variables of its loop. The ways out that are recorded for them are the returns
of their code and falling off an end. So evaluation of every depth delimits all other jumps.
-/

namespace Choreography

open Eval Ir

variable {s s' : Supply} {loc : Loc} {ctx : Ctx} {env : Bindings} {ev : Evaluator} {scope : Scope}
  {rest : List Surface.Stmt}

/-! ### What statements leave behind -/

namespace Lifted.Jumps

variable {r r' : Lifted Outcome}

/-- What is left in a scope can be left in another with the same slot and loop, which records
implicit nulls at least where the first does. -/
theorem of_scope {inner : Scope} (h : r.Jumps inner) (hslot : inner.slot = scope.slot)
    (hloop : inner.loopVars = scope.loopVars)
    (hstyle : scope.style ≠ .implicitNull → inner.style ≠ .implicitNull) : r.Jumps scope where
  code := by
    have hassigns : inner.Assigns = scope.Assigns := by
      funext a
      unfold Scope.Assigns
      rw [hloop]
    rw [← hslot, ← hassigns]
    exact h.code
  records := h.records
  silent := fun hscope => h.silent (hstyle hscope)

theorem after {code : Code} (h : r.Jumps scope) (hcode : code.Delimited) :
    (r.after code).Jumps scope where
  code := Code.jumps_append.2 ⟨hcode.jumps, h.code⟩
  records := by
    simpa only [Lifted.after, codeReturned_append, hcode.returned, List.nil_append] using h.records
  silent := by
    simpa only [Lifted.after, codeReturned_append, hcode.returned, List.nil_append] using h.silent

theorem ret {v : Lifted SecValue} {slot : Nat} {env : Bindings} (hcode : v.code.Delimited)
    (hslot : scope.slot = some slot) :
    Lifted.Jumps scope
      { code := v.code ++ [.ret loc slot (some v.value.value)],
        value := { env, exits := [{ loc, value := v.value }] } } where
  code := by
    rw [hslot]
    exact Code.jumps_append.2 ⟨hcode.jumps, .single .ret⟩
  records := by simpa [hcode.returned, Stmt.returned] using .returned rfl .nil
  silent := by simp [Stmt.returned]

end Lifted.Jumps

/-! ### Loop variables -/

/-- Loop variables are numbered in turn. -/
theorem Ctx.loopVars_ids {bindings : List (String × SecValue)} :
    ∀ {vars : List (String × Var × Arg)} {s s' : Supply},
      (ctx.loopVars loc bindings).Yields s vars s' →
      vars.map (·.2.1.id) = List.range' s.nextId bindings.length := by
  induction bindings with
  | nil =>
    intro vars s s' hrun
    simp only [Ctx.loopVars, yields_pure] at hrun
    simp [hrun.1]
  | cons b bindings ih =>
    intro vars s s' hrun
    simp only [Ctx.loopVars, yields_bind, Ctx.alloc_yields, Value.typeOf_yields,
      yields_pure] at hrun
    obtain ⟨_, _, ⟨_, rfl, rfl⟩, _, _, ⟨_, rfl⟩, more, _, hmore, rfl, rfl⟩ := hrun
    simp [ih hmore, List.range'_succ]

/-- A continue assigns the loop variables that its names stand for. -/
theorem assignLoopVars_targets {vars : NameMap Var} {bindings : List (String × SecValue)} :
    ∀ {a : Assignment} {s s' : Supply}, (assignLoopVars loc vars bindings).Yields s a s' →
      (bindings.map (·.1)).map vars.get? = a.map fun i => some i.1 := by
  induction bindings with
  | nil =>
    intro a s s' hrun
    simp only [assignLoopVars, yields_pure] at hrun
    simp [hrun.1]
  | cons b bindings ih =>
    intro a s s' hrun
    simp only [assignLoopVars, yields_bind, yields_orFail, yields_pure] at hrun
    obtain ⟨v, _, ⟨hget, _⟩, _, _, _, _, _, _, more, _, hmore, rfl, _⟩ := hrun
    simp [hget, ih hmore]

/-- In a loop, an assignment to the variables of distinct names updates variables of the loop. -/
theorem Scope.Assigns.updates {slots : NameMap Var} {vars : List (String × Var × Arg)}
    {a : Assignment} (h : scope.Assigns a) (hloop : scope.loopVars = some slots)
    (hslots : ∀ e ∈ slots.entries, ∃ i ∈ vars, e = (i.1, i.2.1))
    (hids : (vars.map (·.2.1.id)).Nodup) : a.Updates (vars.map (·.2.1)) := by
  obtain ⟨vars', names, hvars, hnames, htargets⟩ := h
  obtain rfl : vars' = slots := Option.some.inj (hvars.symm.trans hloop)
  have hfrom : ∀ i ∈ a, ∃ name, vars'.get? name = some i.1 := by
    intro i hi
    have hmem : some i.1 ∈ names.map vars'.get? := by
      rw [htargets]
      exact List.mem_map_of_mem hi
    obtain ⟨name, _, hget⟩ := List.mem_map.1 hmem
    exact ⟨name, hget⟩
  -- numbers tell variables apart, and variables tell names apart
  have hinj : ∀ x ∈ names, ∀ y ∈ names,
      (vars'.get? x).map (·.id) = (vars'.get? y).map (·.id) → x = y := by
    have hsome : ∀ x ∈ names, ∃ i ∈ vars, vars'.get? x = some i.2.1 ∧ x = i.1 := by
      intro x hx
      have hmem : vars'.get? x ∈ a.map fun i => some i.1 := by
        rw [← htargets]
        exact List.mem_map_of_mem hx
      obtain ⟨j, _, hget⟩ := List.mem_map.1 hmem
      obtain ⟨i, hi, heq⟩ := hslots _ (OrderedMap.mem_of_get? hget.symm)
      obtain ⟨rfl, hvar⟩ := Prod.mk.inj heq
      exact ⟨i, hi, by rw [← hget, hvar], rfl⟩
    intro x hx y hy heq
    obtain ⟨i, hi, hgetx, rfl⟩ := hsome x hx
    obtain ⟨j, hj, hgety, rfl⟩ := hsome y hy
    rw [hgetx, hgety] at heq
    rw [List.inj_on_of_nodup_map hids hi hj (by simpa using heq)]
  constructor
  · have hmapped : (a.map fun i => some i.1.id) = names.map fun x => (vars'.get? x).map (·.id) := by
      have := congrArg (List.map (Option.map Var.id)) htargets
      simpa [Function.comp_def] using this.symm
    have hnodup : (a.map fun i => some i.1.id).Nodup := by
      rw [hmapped]
      exact hnames.map_on hinj
    have hsplit : (a.map fun i => some i.1.id) = (a.map (·.1.id)).map some := by simp
    rw [hsplit] at hnodup
    exact hnodup.of_map some
  · intro i hi
    obtain ⟨name, hget⟩ := hfrom i hi
    obtain ⟨j, hj, heq⟩ := hslots _ (OrderedMap.mem_of_get? hget)
    rw [(Prod.mk.inj heq).2]
    exact List.mem_map_of_mem hj

/-- A declaration binds distinct names. -/
theorem Evaluator.decl_distinct {bound : Bindings} {d : Surface.Decl} (hbound : bound.Distinct) :
    Gives (fun r => Env.Distinct r.value) (ev.decl ctx bound env d) := by
  refine .skip fun _ => .skip fun target => .skip fun rhs => ?_
  split
  · exact (Meets.of_yields (Bindings.bind_distinct hbound)).map fun _ h => h
  · exact .skip fun _ => .skip fun _ =>
      (Meets.of_yields (Bindings.bindAll_distinct hbound)).map fun _ h => h

/-! ### Statements -/

namespace Evaluator.Delimits

variable (hev : ev.Delimits)
include hev

theorem operand {e : Surface.Expr} : Gives (·.code.Delimited) (ev.expr ctx env e) :=
  .of_yields hev.expr

theorem body {stmts : List Surface.Stmt} :
    Gives (Lifted.Jumps scope) (ev.stmts ctx loc scope stmts) :=
  .of_yields hev.stmts

theorem extend {code : Code} (hcode : code.Delimited) :
    Gives (Lifted.Jumps scope) (ev.extend ctx loc scope code env rest) :=
  Meets.bind hev.body fun _ h => .pure ((h.after hcode).of_scope rfl rfl id)

theorem continueWith {first : Lifted Outcome} (hfirst : first.Jumps scope) :
    Gives (Lifted.Jumps scope) (ev.continueWith ctx loc scope first rest) := by
  unfold Evaluator.continueWith
  split
  · exact .pure hfirst
  · refine Meets.bind hev.body fun next hjumps => .pure ⟨?_, ?_, fun hstyle hnone => ?_⟩
    · exact Code.jumps_append.2 ⟨hfirst.code, hjumps.code⟩
    · rw [codeReturned_append]
      exact hfirst.records.append hjumps.records
    · rw [codeReturned_append, List.append_eq_nil_iff] at hnone
      have hexits := hfirst.silent hstyle hnone.1
      have hnextExits := hjumps.silent (by simpa [hexits] using hstyle) hnone.2
      rw [hexits, hnextExits, List.append_nil]

theorem branchFirst {onTrue : Surface.Stmt} {onFalse : Option Surface.Stmt} {c : Lifted SecValue}
    {first : Lifted Outcome} (hcode : c.code.Delimited)
    (h : ev.Branches ctx loc scope onTrue onFalse c s first s') : first.Jumps scope := by
  cases h with
  | onlyTrue htaken | onlyFalse htaken => exact (hev.stmts htaken).after hcode
  | both ht hf =>
    have htJumps := hev.stmts ht
    have hfJumps := hev.stmts hf
    constructor
    · exact Code.jumps_append.2 ⟨hcode.jumps, .single (.branch htJumps.code hfJumps.code)⟩
    · simp only [codeReturned_append, hcode.returned, codeReturned_cons, codeReturned_nil,
        Stmt.returned, List.nil_append, List.append_nil]
      exact (htJumps.records.taint _).combine (hfJumps.records.taint _) _ _
    · intro hstyle hnone
      simp only [codeReturned_append, hcode.returned, codeReturned_cons, codeReturned_nil,
        Stmt.returned, List.nil_append, List.append_nil, List.append_eq_nil_iff] at hnone
      have htExits := htJumps.silent hstyle hnone.1
      have hfExits := hfJumps.silent hstyle hnone.2
      simp only [htExits, hfExits, List.map_nil, Exit.combine_nil]

theorem branch {cond : Surface.Expr} {onTrue : Surface.Stmt} {onFalse : Option Surface.Stmt} :
    Gives (Lifted.Jumps scope) (ev.branch ctx loc scope cond onTrue onFalse rest) := by
  refine .of_yields fun hrun => ?_
  obtain ⟨c, first, _, _, hc, hfirst, hcontinue⟩ := Evaluator.branch_yields hrun
  have hjumps := hev.branchFirst (hev.expr hc) hfirst
  split at hjumps
  · exact (hev.continueWith hjumps).result hcontinue
  · have hfirst : first.Jumps scope := hjumps.of_scope rfl rfl (by simp)
    exact (hev.continueWith hfirst).result hcontinue

theorem continueLoop {assignLoc : Loc} {lhs rhs : Surface.Expr} :
    Gives (Lifted.Jumps scope) (ev.continueLoop ctx loc scope assignLoc lhs rhs rest) := by
  refine .skip fun _ =>
    ((decl_distinct Env.distinct_empty).and (.of_yields hev.composes.decl.result)).bind
      fun updates hupdates => Gives.orFail.bind fun vars hvars =>
        (Meets.of_yields assignLoopVars_targets).bind fun a htargets =>
          .skip fun _ => .pure ?_
  have hcode : updates.code.Delimited := hupdates.2
  constructor
  · exact Code.jumps_append.2 ⟨hcode.jumps, .single (.cont ⟨vars, _, hvars, hupdates.1, htargets⟩)⟩
  · simpa [hcode.returned, Stmt.returned] using .nil
  · intro _ _
    rfl

theorem loop {decls : List Surface.Decl} {invariantLoc loopLoc : Loc}
    {invariant : List Surface.Expr} {cond : Surface.Expr} {body : Surface.Stmt} :
    Gives (Lifted.Jumps scope)
      (ev.loop ctx loc scope decls invariantLoc invariant loopLoc cond body rest) := by
  refine .skip fun _ => (Meets.of_yields hev.composes.decls.result).bind fun init hinit =>
    Meets.bind (P := fun vars => (vars.map (·.2.1.id)).Nodup) (.of_yields fun hvars => ?_)
      fun vars hids => .skip fun env => ?_
  · rw [Ctx.loopVars_ids hvars]
    exact List.nodup_range'
  have hinitCode : init.code.Delimited := hinit
  split
  · refine (Meets.of_yields hev.composes.boolBlock.result).bind fun _ hinvariant =>
      (Meets.of_yields hev.composes.boolBlock.result).bind fun _ hcond =>
        Meets.bind hev.body fun turn hturn => Meets.bind hev.body fun after hafter => .pure ?_
    have hbody : turn.code.Jumps scope.slot
        (Assignment.Updates · ((vars.map fun i => (i.2.1, i.2.2)).map (·.1))) := by
      refine hturn.code.mono fun a ha => ?_
      rw [List.map_map]
      refine ha.updates rfl (fun e he => ?_) hids
      rcases OrderedMap.mem_foldl_insertNew _ _ he with hnone | hvar
      · simp at hnone
      · exact hvar
    constructor
    · simp only [Code.jumps_append, Code.jumps_cons]
      exact ⟨hinitCode.jumps, .loop hinvariant hcond hbody, hafter.code⟩
    · simp only [codeReturned_append, hinitCode.returned, codeReturned_cons, Stmt.returned,
        List.nil_append]
      exact hturn.records.append hafter.records
    · intro hstyle hnone
      simp only [codeReturned_append, hinitCode.returned, codeReturned_cons, Stmt.returned,
        List.nil_append, List.append_eq_nil_iff] at hnone
      have hturnExits := hturn.silent (by simp) hnone.1
      have hafterExits := hafter.silent hstyle hnone.2
      rw [hturnExits, hafterExits, List.append_nil]
  · exact .fail trivial

theorem deadline {timeout : Option Timeout} :
    Gives (fun r => r.code.Delimited ∧
      (∀ d, r.value.1 = some d → Code.Jumps scope.slot scope.Assigns d.body) ∧
      Exit.Records (r.value.1.toList.flatMap fun d => codeReturned d.body) r.value.2 ∧
      (scope.style ≠ .implicitNull →
        (r.value.1.toList.flatMap fun d => codeReturned d.body) = [] → r.value.2 = []))
      (ev.deadline ctx scope timeout) := by
  cases timeout with
  | none => exact .pure ⟨Code.jumps_nil, by simp [Lifted.plain], .nil, fun _ _ => rfl⟩
  | some t =>
    refine hev.operand.bind fun _ hdelay => .skip fun _ => .skip fun _ =>
      hev.body.bind fun _ hjumps => .pure ?_
    simp only [Option.toList_some, List.flatMap_cons, List.flatMap_nil, List.append_nil]
    refine ⟨hdelay, ?_, hjumps.records, hjumps.silent⟩
    rintro d ⟨⟩
    exact hjumps.code

theorem takeRound {parties : Parties} {before : Code} {roundLoc : Loc} {round : Round}
    (hbefore : before.Delimited) :
    Gives (Lifted.Jumps scope)
      (ev.takeRound ctx parties loc scope before roundLoc round rest) := by
  refine .skip fun _ => .skip fun _ => .skip fun _ =>
    .skip fun _ => .skip fun _ => .skip fun _ =>
      (Meets.of_yields hev.composes.payment.result).bind fun amount hamount =>
        hev.operand.bind fun check hcheck => hev.deadline.bind fun late hlate =>
          Meets.bind hev.body fun next hnext => .pure ?_
  obtain ⟨hlateCode, hhandler, hlateRecords, hlateSilent⟩ := hlate
  have hpay : Code.Delimited
      (if amount.code.isEmpty then [] else [.only loc round.who amount.code]) := by
    split
    · exact Code.jumps_nil
    · exact .single (.only hamount)
  constructor
  · simp only [Code.jumps_append]
    refine ⟨⟨⟨hbefore.jumps, hlateCode.jumps⟩, hpay.jumps⟩, .single (.toConsensus hhandler ?_)⟩
    exact Code.jumps_append.2 ⟨hcheck.jumps, hnext.code⟩
  · simp only [codeReturned_append, hbefore.returned, hlateCode.returned, hpay.returned,
      codeReturned_cons, codeReturned_nil, Stmt.returned_toConsensus, hcheck.returned,
      List.nil_append, List.append_nil]
    exact hlateRecords.combine hnext.records _ _
  · intro hstyle hnone
    simp only [codeReturned_append, hbefore.returned, hlateCode.returned, hpay.returned,
      codeReturned_cons, codeReturned_nil, Stmt.returned_toConsensus, hcheck.returned,
      List.nil_append, List.append_nil] at hnone
    obtain ⟨hlateNone, hnextNone⟩ := List.append_eq_nil_iff.1 hnone
    rw [hlateSilent hstyle hlateNone, hnext.silent hstyle hnextNone, Exit.combine_nil]

theorem exprStmt {e : Surface.Expr} :
    Gives (Lifted.Jumps scope) (ev.exprStmt ctx loc scope e rest) := by
  refine hev.operand.bind fun v hcode => ?_
  split
  · refine .skip fun _ => .pure ⟨hcode.jumps, ?_, fun _ _ => rfl⟩
    rw [hcode.returned]
    exact .nil
  · exact .skip fun _ => Meets.bind hev.body fun _ hnext =>
      .pure (hnext.after (.single (.only hcode)))
  · split
    · exact hev.takeRound hcode
    · exact .fail trivial
  · refine .skip fun _ => Meets.bind hev.body fun next hjumps => .pure ?_
    have hreturned : codeReturned (v.code ++ [.fromConsensus loc next.code]) =
        codeReturned next.code := by
      simp [hcode.returned, Stmt.returned]
    constructor
    · exact Code.jumps_append.2 ⟨hcode.jumps, .single (.fromConsensus hjumps.code)⟩
    · rw [hreturned]
      exact hjumps.records
    · rw [hreturned]
      exact hjumps.silent
  · exact .skip fun _ => hev.extend hcode

theorem ret {value : Option Surface.Expr} :
    Gives (Lifted.Jumps scope) (ev.ret ctx loc scope value rest) := by
  cases value with
  | some e =>
    exact hev.operand.bind fun _ hv => Gives.orFail.bind fun _ hslot => .skip fun _ =>
      .skip fun _ => .pure (.ret hv hslot)
  | none =>
    exact Gives.orFail.bind fun _ hslot => .skip fun _ => .skip fun _ =>
      .pure (.ret (v := .plain (.pub (.null loc))) Code.jumps_nil hslot)

theorem evalStmts {stmts : List Surface.Stmt} :
    Gives (Lifted.Jumps scope) (ev.evalStmts ctx loc scope stmts) := by
  unfold Evaluator.evalStmts
  split
  · refine .pure ⟨Code.jumps_nil, ?_, fun hstyle _ => by simp [Lifted.plain, hstyle]⟩
    simp only [Lifted.plain, codeReturned_nil]
    split
    · exact .implicit .nil
    · exact .nil
  · exact hev.body.bind fun _ hfirst => hev.continueWith hfirst
  · exact (Meets.of_yields hev.composes.decls.result).bind fun _ hbound => .skip fun _ =>
      hev.extend hbound
  · exact hev.continueLoop
  · exact .skip fun _ => .skip fun _ => .skip fun _ =>
      hev.extend Code.jumps_nil
  · exact hev.branch
  · exact hev.body
  · exact hev.exprStmt
  · exact hev.exprStmt
  · exact hev.continueLoop
  · exact .fail trivial
  · exact hev.ret
  · exact hev.loop
  all_goals exact .fail trivial

end Evaluator.Delimits

/-- Evaluation of every depth delimits its jumps. -/
theorem evaluator_delimits (fuel : Nat) : (evaluator fuel).Delimits := by
  induction fuel with
  | zero =>
    exact ⟨fun hrun => absurd hrun yields_outOfFuel, fun hrun => absurd hrun yields_outOfFuel⟩
  | succ fuel ih => exact ⟨ih.composes.evalExpr.result, ih.evalStmts.result⟩

end Choreography
