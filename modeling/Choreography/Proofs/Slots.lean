import Choreography.Proofs.Composition
import Choreography.Proofs.Emission
import Mathlib.Data.List.Nodup

/-!
Slots of prompts. Whatever the environment and the scope hold, evaluation draws the slot of each
prompt that it emits from the supply, and no two prompts share one.
-/

namespace Choreography

open Eval Ir

/-! ### Numbers of a run -/

/-- A run from `s` to `s'` draws all of the numbers, each at most once. -/
structure Draws (s s' : Supply) (ids : List Nat) : Prop where
  le : s.nextId ≤ s'.nextId
  once : ∀ i, ids.count i ≤ drawn s s' i

namespace Draws

variable {s s₁ s₂ s' : Supply} {ids ids' : List Nat} {i : Nat} {rest : List Surface.Stmt}
  {code : Code}

theorem nil (h : s.nextId ≤ s'.nextId) : Draws s s' [] := ⟨h, by simp⟩

theorem append (h : Draws s s₁ ids) (h' : Draws s₁ s' ids') : Draws s s' (ids ++ ids') := by
  refine ⟨Nat.le_trans h.le h'.le, fun i => ?_⟩
  have honce := h.once i
  have honce' := h'.once i
  have hadd := drawn_add h.le h'.le i
  rw [List.count_append]
  omega

theorem earlier (h : Draws s₁ s' ids) (hbefore : s.nextId ≤ s₁.nextId) : Draws s s' ids :=
  (Draws.nil hbefore).append h

theorem later (h : Draws s s₁ ids) (hafter : s₁.nextId ≤ s'.nextId) : Draws s s' ids := by
  simpa using h.append (.nil hafter)

/-- The order of the numbers does not matter, and some may be left out. -/
theorem of_count (h : Draws s s' ids) (hcount : ∀ i, ids'.count i ≤ ids.count i) :
    Draws s s' ids' :=
  ⟨h.le, fun i => Nat.le_trans (hcount i) (h.once i)⟩

theorem sublist (h : Draws s s' ids) (hsub : ids'.Sublist ids) : Draws s s' ids' :=
  h.of_count hsub.count_le

theorem single (hle : s.nextId ≤ i) (hlt : i < s'.nextId) : Draws s s' [i] := by
  refine ⟨by omega, fun j => ?_⟩
  simp only [List.count_singleton, beq_iff_eq]
  grind [drawn]

theorem nodup (h : Draws s s' ids) : ids.Nodup := by
  rw [List.nodup_iff_count_le_one]
  intro i
  have honce := h.once i
  grind [drawn]

end Draws

/-! ### Slots of code -/

namespace Ir

/-- The slot that a prompt owns. -/
def Stmt.slot? : Stmt → Option Nat
  | .prompt _ slot _ _ => some slot
  | .letIn .. | .claim .. | .transfer .. | .stop .. | .ret .. | .branch .. | .only ..
  | .toConsensus .. | .fromConsensus .. | .loop .. | .cont .. => none

/-- The slots of all prompts in some code, at every depth. -/
def slots (code : Code) : List Nat := (statements code).filterMap Stmt.slot?

@[simp] theorem slots_nil : slots [] = [] := by simp [slots]

@[simp] theorem slots_append (code code' : Code) :
    slots (code ++ code') = slots code ++ slots code' := by
  simp [slots]

theorem slots_cons (s : Stmt) (rest : Code) : slots (s :: rest) = slots [s] ++ slots rest :=
  slots_append [s] rest

@[simp] theorem slots_prompt (loc : Loc) (slot : Nat) (result : Option Var) (body : Code) :
    slots [.prompt loc slot result body] = slot :: slots body := by
  simp [slots, Stmt.slot?, Stmt.inner]

@[simp] theorem slots_branch (loc : Loc) (cond : Arg) (onTrue onFalse : Code) :
    slots [.branch loc cond onTrue onFalse] = slots onTrue ++ slots onFalse := by
  simp [slots, List.filterMap_cons, Stmt.slot?, Stmt.inner]

@[simp] theorem slots_only (loc : Loc) (who : String) (body : Code) :
    slots [.only loc who body] = slots body := by
  simp [slots, List.filterMap_cons, Stmt.slot?, Stmt.inner]

@[simp] theorem slots_fromConsensus (loc : Loc) (body : Code) :
    slots [.fromConsensus loc body] = slots body := by
  simp [slots, List.filterMap_cons, Stmt.slot?, Stmt.inner]

@[simp] theorem slots_toConsensus (loc : Loc) (t : Transition) :
    slots [.toConsensus loc t] =
      (t.timeout.toList.flatMap fun d => slots d.body) ++ slots t.body := by
  obtain ⟨who, join, whoVar, messages, amount, _ | ⟨delay, late⟩, body⟩ := t <;>
    simp [slots, List.filterMap_cons, Stmt.slot?, Stmt.inner]

@[simp] theorem slots_loop (loc : Loc) (init : Assignment) (invariant cond : Block) (body : Code) :
    slots [.loop loc init invariant cond body] =
      slots invariant.code ++ slots cond.code ++ slots body := by
  obtain ⟨_, _, invariant, _⟩ := invariant
  obtain ⟨_, _, cond, _⟩ := cond
  simp [slots, List.filterMap_cons, Stmt.slot?, Stmt.inner]

/-- Statements without parts hold no prompt. -/
theorem slots_leaf {s : Stmt} (hslot : s.slot? = none) (hinner : s.inner = []) : slots [s] = [] := by
  simp [slots, hslot, hinner]

theorem slots_of_forall (h : ∀ s ∈ code, slots [s] = []) : slots code = [] := by
  induction code with
  | nil => exact slots_nil
  | cons s rest ih =>
    obtain ⟨hfirst, hrest⟩ := List.forall_mem_cons.1 h
    rw [slots_cons, hfirst, ih hrest, List.nil_append]

theorem Stmt.ByPrim.slots_eq_nil {mode : Mode} {p : Prim} {s : Stmt} (h : s.ByPrim mode p) :
    slots [s] = [] := by
  cases h <;> exact slots_leaf rfl (by simp only [Stmt.inner])

@[simp] theorem slots_ret (loc : Loc) (slot : Nat) (value : Option Value) :
    slots [.ret loc slot value] = [] :=
  slots_leaf rfl (by simp only [Stmt.inner])

@[simp] theorem slots_cont (loc : Loc) (a : Assignment) : slots [.cont loc a] = [] :=
  slots_leaf rfl (by simp only [Stmt.inner])

theorem slots_dropLast (code : Code) : (slots code.dropLast).Sublist (slots code) := by
  rcases List.eq_nil_or_concat code with rfl | ⟨rest, last, rfl⟩
  · simp
  · simp

end Ir

variable {s s₁ s' : Supply} {loc : Loc} {ctx : Ctx} {env : Bindings} {ev : Evaluator} {scope : Scope}

theorem Draws.unprompted {slot : Nat} (h : Draws s₁ s' (slots code)) (hle : s.nextId ≤ slot)
    (hlt : slot < s₁.nextId) (result : Value) :
    Draws s s' (slots (Code.unprompted code loc slot result)) := by
  have hprompt : Draws s s' (slots [.prompt loc slot none code]) := by
    rw [slots_prompt]
    exact (Draws.single hle hlt).append h
  have hcode : Draws s s' (slots code) := h.earlier (by omega)
  unfold Code.unprompted
  split
  · exact hcode.sublist (by simp)
  · split
    · exact hcode.sublist (slots_dropLast code)
    · exact hprompt
  · exact hprompt

theorem Draws.after {α : Type} {r : Lifted α} (hcode : Draws s s₁ (slots code))
    (h : Draws s₁ s' (slots r.code)) : Draws s s' (slots (r.after code).code) := by
  rw [Lifted.after, slots_append]
  exact hcode.append h

/-- Runs from `s₁` draw the slots of the prompts that they emit, as do those that `s` has led to. -/
abbrev Eval.Drawing {α : Type} (s s₁ : Supply) (x : Eval (Lifted α)) : Prop :=
  From s₁ (fun r s' => Draws s s' (slots r.code)) x

/-- Evaluation draws the slots of the prompts that it emits. -/
structure Evaluator.Owns (ev : Evaluator) : Prop where
  expr {ctx : Ctx} {env : Bindings} {e : Surface.Expr} {s s' : Supply} {r : Lifted SecValue} :
    (ev.expr ctx env e).Yields s r s' → Draws s s' (slots r.code)
  stmts {ctx : Ctx} {loc : Loc} {scope : Scope} {stmts : List Surface.Stmt} {s s' : Supply}
    {r : Lifted Outcome} : (ev.stmts ctx loc scope stmts).Yields s r s' → Draws s s' (slots r.code)

namespace Evaluator.Owns

theorem joinExits {slot : Nat} {body : Lifted Outcome} {s₂ : Supply}
    (hbody : Draws s₁ s₂ (slots body.code)) (hle : s.nextId ≤ slot) (hlt : slot < s₁.nextId) :
    Drawing s s₂ (ctx.joinExits loc slot body) := by
  unfold Ctx.joinExits
  simp only
  split
  · exact .pure (hbody.unprompted hle hlt _)
  · exact .pure (hbody.unprompted hle hlt _)
  · refine (Exit.types_routine _).steps.bind fun _ _ htypes =>
      (Ty.joinAll_routine _).steps.bind fun _ _ hjoined => .pure ?_
    rw [slots_prompt]
    exact (Draws.single hle hlt).append (hbody.later (Nat.le_trans htypes.2 hjoined.2))

variable (hev : ev.Owns)

include hev

theorem body {stmts : List Surface.Stmt} : Drawing s s (ev.stmts ctx loc scope stmts) := ⟨hev.stmts⟩

theorem applyClosure {c : Closure} {args : List SecValue} :
    Drawing s s (ev.applyClosure ctx loc c args) :=
  Ctx.alloc_from fun _ => .ensure fun _ => (Bindings.bindAll_routine ..).steps.bind
    fun _ _ hbound => .bind ⟨hev.stmts⟩ fun _ _ hbody =>
      joinExits (hbody.earlier hbound.2) (Nat.le_refl _) (Nat.lt_succ_self _)

theorem composes : ev.Composes fun _ s s' code => Draws s s' (slots code) where
  append := by
    intro _ s s₁ s' code code' h h'
    rw [slots_append]
    exact h.append h'
  prim := by
    intro _ p s s' code hprim hle
    rw [slots_of_forall fun st hst => (hprim st hst).slots_eq_nil]
    exact .nil hle
  drop := fun h => .nil h.le
  choice := by
    intro _ s s₁ s₂ s' onTrue onFalse loc trueLoc falseLoc slot result cond v w ht hf hle hlt
    refine ((ht.append hf).append (.single hle hlt)).of_count fun i => ?_
    simp [List.count_cons]
    omega
  privately := by
    intro _ s s₁ s' code code' h h'
    rw [slots_append]
    exact h.append h'
  expr := hev.expr
  closure := hev.applyClosure.result

/-! ### Statements -/

theorem extend (hcode : Draws s s₁ (slots code)) :
    Drawing s s₁ (ev.extend ctx loc scope code env rest) :=
  .bind ⟨hev.stmts⟩ fun _ _ hnext => .pure (hcode.after hnext)

theorem continueWith {first : Lifted Outcome} (hfirst : Draws s s₁ (slots first.code)) :
    Drawing s s₁ (ev.continueWith ctx loc scope first rest) := by
  unfold Evaluator.continueWith
  split
  · exact .pure hfirst
  · refine .bind ⟨hev.stmts⟩ fun _ _ hnext => .pure ?_
    rw [slots_append]
    exact hfirst.append hnext

theorem branch {cond : Surface.Expr} {onTrue : Surface.Stmt} {onFalse : Option Surface.Stmt} :
    Drawing s s (ev.branch ctx loc scope cond onTrue onFalse rest) := by
  refine .bind ⟨hev.expr⟩ fun c _ hc => ?_
  split
  · split
    · exact .bind ⟨hev.stmts⟩ fun _ _ htaken => hev.continueWith (hc.after htaken)
    · exact .bind ⟨hev.stmts⟩ fun _ _ htaken => hev.continueWith (hc.after htaken)
  · refine .bind ⟨hev.stmts⟩ fun _ _ ht => .bind ⟨hev.stmts⟩ fun _ _ hf => hev.continueWith ?_
    rw [slots_append, slots_branch]
    exact hc.append (ht.append hf)
  · exact .fail

theorem continueLoop {assignLoc : Loc} {lhs rhs : Surface.Expr} :
    Drawing s s (ev.continueLoop ctx loc scope assignLoc lhs rhs rest) := by
  refine .ensure fun _ => hev.composes.decl.bind fun _ _ hupdates => .orFail fun _ _ =>
    (assignLoopVars_routine ..).steps.bind fun _ _ hassigned =>
      (expectLast_routine _).steps.bind fun _ _ hlast => .pure ?_
  rw [slots_append, slots_cont, List.append_nil]
  exact hupdates.later (Nat.le_trans hassigned.2 hlast.2)

theorem loop {decls : List Surface.Decl} {invariantLoc loopLoc : Loc}
    {invariant : List Surface.Expr} {cond : Surface.Expr} {body : Surface.Stmt} :
    Drawing s s (ev.loop ctx loc scope decls invariantLoc invariant loopLoc cond body rest) := by
  refine .ensure fun _ => hev.composes.decls.bind fun _ _ hinit =>
    (Ctx.loopVars_routine _).steps.bind fun _ _ hvars =>
      (Bindings.bindAll_routine ..).steps.bind fun _ _ hmerged => ?_
  have hstart := hinit.later (Nat.le_trans hvars.2 hmerged.2)
  split
  · refine hev.composes.boolBlock.bind fun _ _ hinvariant => hev.composes.boolBlock.bind
      fun _ _ hcond => .bind ⟨hev.stmts⟩ fun _ _ hturn => .bind ⟨hev.stmts⟩ fun _ _ hafter =>
        .pure ?_
    rw [slots_append, slots_cons, slots_loop]
    exact hstart.append (((hinvariant.append hcond).append hturn).append hafter)
  · exact .fail

theorem deadline {timeout : Option Timeout} :
    From s (fun r s' => Draws s s' (slots r.code ++ r.value.1.toList.flatMap fun d => slots d.body))
      (ev.deadline ctx scope timeout) := by
  cases timeout with
  | none => exact .pure (.nil (Nat.le_refl _))
  | some t =>
    refine .bind ⟨hev.expr⟩ fun _ _ hdelay => .keep SecValue.requirePublic_yields.1 fun _ _ =>
      .keep Value.checkType_yields.1 fun _ _ => .bind ⟨hev.stmts⟩ fun _ _ hhandler => .pure ?_
    simpa using hdelay.append hhandler

omit hev in
theorem joinedSender_proceeds {displayName : Option String} {address : Var} :
    Proceeds (fun _ => True) (fun _ => True) (joinedSender loc env displayName address) := by
  unfold joinedSender
  split
  · exact .pure trivial
  · refine ((env.lookup_routine _).mono (fun _ _ => trivial) fun _ h => h).bind fun _ _ => ?_
    split
    · exact Proceeds.freshTag.bind fun _ _ => .pure trivial
    · exact .fail trivial

omit hev in
theorem traverse_routine {f : String → Bindings → Eval Bindings} {views : NameMap Bindings}
    (hf : ∀ who view, Routine (f who view)) : Routine (views.traverse f) := by
  refine .bind ?_ fun _ => .pure _
  induction views.entries with
  | nil => exact .pure _
  | cons e entries ih =>
    rw [List.mapM_cons]
    exact .bind (.bind (hf ..) fun _ => .pure _) fun _ => .bind ih fun _ => .pure _

theorem takeRound {parties : Parties} {before : Code} {roundLoc : Loc} {round : Round}
    (hbefore : Draws s s₁ (slots before)) :
    Drawing s s₁ (ev.takeRound ctx parties loc scope before roundLoc round rest) := by
  refine .orFail fun _ _ => (Ctx.messages_routine ..).steps.bind fun _ _ hmessages =>
    (Ctx.addressOf_routine ..).steps.bind fun _ _ haddress => joinedSender_proceeds.steps.bind
      fun _ _ hsender => (Bindings.bindAll_routine ..).steps.bind fun _ _ hmerged =>
        (traverse_routine fun who old => ?_).steps.bind fun _ s₂ hviews => ?_
  · split
    · exact .pure _
    · exact .bind (Bindings.bindAll_routine ..) fun _ => .pure _
  refine hev.composes.payment.bind fun amount _ hamount => .bind ⟨hev.expr⟩ fun _ _ hcheck =>
    hev.deadline.bind fun _ _ hlate => .bind ⟨hev.stmts⟩ fun _ _ hnext => .pure ?_
  have hpaid : slots (if amount.code.isEmpty then [] else [.only loc round.who amount.code]) =
      slots amount.code := by
    split
    · rename_i hempty
      simp [List.isEmpty_iff.1 hempty]
    · exact slots_only ..
  have hopened : Draws s s₂ (slots before) := hbefore.later (by omega)
  -- the payment and the check are evaluated before the timeout, and emitted after its delay
  refine ((((hopened.append hamount).append hcheck).append hlate).append hnext).of_count fun i => ?_
  simp only [slots_append, hpaid, slots_toConsensus, List.count_append]
  omega

theorem commitRound {opened : Bindings} {parties : Parties} {before : Code}
    (hbefore : Draws s s₁ (slots before)) :
    Drawing s s₁ (ev.commitRound ctx opened parties loc scope before rest) := by
  refine (traverse_routine fun _ _ => Bindings.bindAll_routine ..).steps.bind fun _ _ hviews =>
    .bind ⟨hev.stmts⟩ fun _ _ hnext => .pure ?_
  rw [slots_append, slots_fromConsensus]
  exact (hbefore.later hviews.2).append hnext

theorem exprStmt {e : Surface.Expr} : Drawing s s (ev.exprStmt ctx loc scope e rest) := by
  refine .bind ⟨hev.expr⟩ fun _ _ hv => ?_
  split
  · exact (expectLast_routine _).steps.bind fun _ _ hlast => .pure (hv.later hlast.2)
  · refine (Value.expectNull_routine _).steps.bind fun _ _ hnull => .bind ⟨hev.stmts⟩
      fun _ _ hnext => .pure (Draws.after ?_ hnext)
    rw [slots_only]
    exact hv.later hnull.2
  · split
    · exact hev.takeRound hv
    · exact .fail
  · exact hev.commitRound hv
  · exact (Value.expectNull_routine _).steps.bind fun _ _ hnull => hev.extend (hv.later hnull.2)

theorem ret {value : Option Surface.Expr} : Drawing s s (ev.ret ctx loc scope value rest) := by
  have hreturn : ∀ {v : Lifted SecValue} {s₁ : Supply}, Draws s s₁ (slots v.code) →
      Drawing s s₁ (do
        let slot ← Eval.orFail scope.slot (.noReturn loc)
        Eval.ensure (scope.style != .cannotReturn) (.cannotReturn loc)
        expectLast loc rest
        return ({ code := v.code ++ [.ret loc slot (some v.value.value)],
                  value := { env := scope.env, exits := [{ loc, value := v.value }] } } :
          Lifted Outcome)) := by
    refine fun hv => .orFail fun _ _ => .ensure fun _ => (expectLast_routine _).steps.bind
      fun _ _ hlast => .pure ?_
    rw [slots_append, slots_ret, List.append_nil]
    exact hv.later hlast.2
  cases value with
  | some e => exact .bind ⟨hev.expr⟩ fun _ _ hv => hreturn hv
  | none => exact hreturn (v := .plain (.pub (.null loc))) (.nil (Nat.le_refl _))

theorem evalStmts {stmts : List Surface.Stmt} :
    Drawing s s (ev.evalStmts ctx loc scope stmts) := by
  unfold Evaluator.evalStmts
  split
  · exact .pure (.nil (Nat.le_refl _))
  · exact .bind ⟨hev.stmts⟩ fun _ _ hfirst => hev.continueWith hfirst
  · exact hev.composes.decls.bind fun _ _ hbound => (Bindings.bindAll_routine ..).steps.bind
      fun _ _ hmerged => hev.extend (hbound.later hmerged.2)
  · exact hev.continueLoop
  · refine .orFail fun _ _ => .freshTag ((Bindings.bind_routine ..).steps.bind fun _ _ hbound =>
      hev.extend ?_)
    exact slots_nil ▸ .nil hbound.2
  · exact hev.branch
  · exact hev.body
  · exact hev.exprStmt
  · exact hev.exprStmt
  · exact hev.continueLoop
  · exact .fail
  · exact hev.ret
  · exact hev.loop
  all_goals exact .fail

end Evaluator.Owns

/-- Evaluation of every depth draws the slots of the prompts that it emits. -/
theorem evaluator_owns (fuel : Nat) : (evaluator fuel).Owns := by
  induction fuel with
  | zero =>
    exact ⟨fun hrun => absurd hrun yields_outOfFuel, fun hrun => absurd hrun yields_outOfFuel⟩
  | succ fuel ih => exact ⟨ih.composes.evalExpr.result, ih.evalStmts.result⟩

end Choreography
