import Choreography.Proofs.Composition
import Choreography.Proofs.Exits

/-!
Jumps. A return leaves the code around it for the prompt that owns its slot, and a continue leaves
it for the next turn of a loop. Code is judged by where jumps may go from it: to one slot, and into
one loop, with the assignments that are allowed there. Prompts and turns delimit the jumps inside
them, so that nothing leaves the code of an expression.

Whatever the environment and the scope hold, statements return only to the slot of their scope, and
the ways out that are recorded for them account for the values that they return.
-/

namespace Choreography

open Eval Ir

namespace Ir

/-- The assignment is to pairwise different variables among `vars`. -/
structure Assignment.Updates (a : Assignment) (vars : List Var) : Prop where
  distinct : (a.map (·.1.id)).Nodup
  mem : ∀ i ∈ a, i.1 ∈ vars

/-- No assignment at all: where this is allowed, nothing may continue. -/
def Assignment.never (_ : Assignment) : Prop := False

/-- A statement from which jumps go to the given slot only, and into the loop around it only with
an assignment that is allowed. A prompt that nothing returns to has no result but null. -/
inductive Stmt.Jumps : Option Nat → (Assignment → Prop) → Stmt → Prop
  | letIn {slot : Option Nat} {allowed : Assignment → Prop} {loc : Loc} {v : Var} {e : Expr} :
    Jumps slot allowed (.letIn loc v e)
  | claim {slot : Option Nat} {allowed : Assignment → Prop} {loc : Loc} {frames : List Frame}
    {c : Claim} {a : Arg} : Jumps slot allowed (.claim loc frames c a)
  | transfer {slot : Option Nat} {allowed : Assignment → Prop} {loc : Loc} {frames : List Frame}
    {recipient amount : Arg} : Jumps slot allowed (.transfer loc frames recipient amount)
  | stop {slot : Option Nat} {allowed : Assignment → Prop} {loc : Loc} {frames : List Frame} :
    Jumps slot allowed (.stop loc frames)
  | ret {slot : Nat} {allowed : Assignment → Prop} {loc : Loc} {v : Value} :
    Jumps (some slot) allowed (.ret loc slot (some v))
  | prompt {outer : Option Nat} {allowed : Assignment → Prop} {loc : Loc} {slot : Nat}
    {result : Option Var} {body : Code}
    (h : ∀ s ∈ body, Jumps (some slot) Assignment.never s)
    (hnull : ∀ v, result = some v → codeReturned body = [] → v.type = .null) :
    Jumps outer allowed (.prompt loc slot result body)
  | branch {slot : Option Nat} {allowed : Assignment → Prop} {loc : Loc} {cond : Arg}
    {onTrue onFalse : Code} (ht : ∀ s ∈ onTrue, Jumps slot allowed s)
    (hf : ∀ s ∈ onFalse, Jumps slot allowed s) : Jumps slot allowed (.branch loc cond onTrue onFalse)
  | only {slot : Option Nat} {allowed : Assignment → Prop} {loc : Loc} {who : String} {body : Code}
    (h : ∀ s ∈ body, Jumps none Assignment.never s) : Jumps slot allowed (.only loc who body)
  | toConsensus {slot : Option Nat} {allowed : Assignment → Prop} {loc : Loc} {t : Transition}
    (hlate : ∀ d, t.timeout = some d → ∀ s ∈ d.body, Jumps slot allowed s)
    (hbody : ∀ s ∈ t.body, Jumps slot allowed s) : Jumps slot allowed (.toConsensus loc t)
  | fromConsensus {slot : Option Nat} {allowed : Assignment → Prop} {loc : Loc} {body : Code}
    (h : ∀ s ∈ body, Jumps slot allowed s) : Jumps slot allowed (.fromConsensus loc body)
  | loop {slot : Option Nat} {allowed : Assignment → Prop} {loc : Loc} {init : Assignment}
    {invariant cond : Block} {body : Code}
    (hinvariant : ∀ s ∈ invariant.code, Jumps none Assignment.never s)
    (hcond : ∀ s ∈ cond.code, Jumps none Assignment.never s)
    (hbody : ∀ s ∈ body, Jumps slot (Assignment.Updates · (init.map (·.1))) s) :
    Jumps slot allowed (.loop loc init invariant cond body)
  | cont {slot : Option Nat} {allowed : Assignment → Prop} {loc : Loc} {a : Assignment}
    (h : allowed a) : Jumps slot allowed (.cont loc a)

/-- Code from which jumps go to the given slot only, and into the loop around it only with an
assignment that is allowed. -/
def Code.Jumps (slot : Option Nat) (allowed : Assignment → Prop) (code : Code) : Prop :=
  ∀ s ∈ code, s.Jumps slot allowed

/-- Code that no jump leaves. -/
abbrev Code.Delimited (code : Code) : Prop := code.Jumps none Assignment.never

variable {slot slot' : Option Nat} {allowed allowed' : Assignment → Prop} {s : Stmt}
  {code code' : Code}

@[simp] theorem Code.jumps_nil : Code.Jumps slot allowed [] := by simp [Code.Jumps]

@[simp] theorem Code.jumps_cons :
    Code.Jumps slot allowed (s :: code) ↔ s.Jumps slot allowed ∧ code.Jumps slot allowed := by
  simp [Code.Jumps]

@[simp] theorem Code.jumps_append :
    Code.Jumps slot allowed (code ++ code') ↔
      code.Jumps slot allowed ∧ code'.Jumps slot allowed := by
  simp [Code.Jumps, or_imp, forall_and]

theorem Code.Jumps.single (h : s.Jumps slot allowed) : Code.Jumps slot allowed [s] := by
  simpa using h

/-- Jumps may also go where nothing jumps to. -/
theorem Stmt.Jumps.mono (h : s.Jumps slot allowed) (hslot : ∀ i, slot = some i → slot' = some i)
    (hallowed : ∀ a, allowed a → allowed' a) : s.Jumps slot' allowed' := by
  induction h generalizing slot' allowed' with
  | letIn => exact .letIn
  | claim => exact .claim
  | transfer => exact .transfer
  | stop => exact .stop
  | ret =>
    rw [hslot _ rfl]
    exact .ret
  | prompt hbody hnull => exact .prompt hbody hnull
  | branch _ _ iht ihf =>
    exact .branch (fun s hs => iht s hs hslot hallowed) fun s hs => ihf s hs hslot hallowed
  | only hbody => exact .only hbody
  | toConsensus _ _ ihlate ih =>
    exact .toConsensus (fun d hd s hs => ihlate d hd s hs hslot hallowed)
      fun s hs => ih s hs hslot hallowed
  | fromConsensus _ ih => exact .fromConsensus fun s hs => ih s hs hslot hallowed
  | loop hinvariant hcond _ _ _ ih =>
    exact .loop hinvariant hcond fun s hs => ih s hs hslot fun _ ha => ha
  | cont ha => exact .cont (hallowed _ ha)

theorem Code.Jumps.mono (h : code.Jumps slot allowed) (hallowed : ∀ a, allowed a → allowed' a) :
    code.Jumps slot allowed' :=
  fun s hs => (h s hs).mono (fun _ hi => hi) hallowed

/-- Code that no jump leaves may stand anywhere. -/
theorem Code.Delimited.jumps (h : code.Delimited) : code.Jumps slot allowed :=
  fun s hs => (h s hs).mono (by simp) (fun _ ha => ha.elim)

/-! ### Jumps and returned values -/

/-- Nothing returns from code without a slot. -/
theorem Stmt.Jumps.returned_eq_nil (h : s.Jumps none allowed) : s.returned = [] := by
  generalize hnone : (none : Option Nat) = slot at h
  induction h with
  | ret => cases hnone
  | branch _ _ iht ihf =>
    simp only [Stmt.returned, List.append_eq_nil_iff, codeReturned_eq_nil]
    exact ⟨fun s hs => iht s hs hnone, fun s hs => ihf s hs hnone⟩
  | toConsensus _ _ ihlate ih =>
    simp only [Stmt.returned_toConsensus, List.append_eq_nil_iff, List.flatMap_eq_nil_iff,
      Option.mem_toList, codeReturned_eq_nil]
    exact ⟨fun d hd s hs => ihlate d hd s hs hnone, fun s hs => ih s hs hnone⟩
  | fromConsensus _ ih | loop _ _ _ _ _ ih =>
    simp only [Stmt.returned, codeReturned_eq_nil]
    exact fun s hs => ih s hs hnone
  | letIn | claim | transfer | stop | prompt | only | cont => simp only [Stmt.returned]

theorem Code.Delimited.returned (h : code.Delimited) : codeReturned code = [] :=
  codeReturned_eq_nil.2 fun s hs => (h s hs).returned_eq_nil

/-- Where nothing is returned, no slot is needed. -/
theorem Stmt.Jumps.without_slot (h : s.Jumps slot allowed) (hnone : s.returned = []) :
    s.Jumps none allowed := by
  induction h with
  | letIn => exact .letIn
  | claim => exact .claim
  | transfer => exact .transfer
  | stop => exact .stop
  | ret => simp [Stmt.returned] at hnone
  | prompt hbody hnull => exact .prompt hbody hnull
  | branch _ _ iht ihf =>
    simp only [Stmt.returned, List.append_eq_nil_iff, codeReturned_eq_nil] at hnone
    exact .branch (fun s hs => iht s hs (hnone.1 s hs)) fun s hs => ihf s hs (hnone.2 s hs)
  | only hbody => exact .only hbody
  | toConsensus _ _ ihlate ih =>
    simp only [Stmt.returned_toConsensus, List.append_eq_nil_iff, List.flatMap_eq_nil_iff,
      Option.mem_toList, codeReturned_eq_nil] at hnone
    exact .toConsensus (fun d hd s hs => ihlate d hd s hs (hnone.1 d hd s hs))
      fun s hs => ih s hs (hnone.2 s hs)
  | fromConsensus _ ih =>
    simp only [Stmt.returned, codeReturned_eq_nil] at hnone
    exact .fromConsensus fun s hs => ih s hs (hnone s hs)
  | loop hinvariant hcond _ _ _ ih =>
    simp only [Stmt.returned, codeReturned_eq_nil] at hnone
    exact .loop hinvariant hcond fun s hs => ih s hs (hnone s hs)
  | cont ha => exact .cont ha

theorem Code.Jumps.without_slot (h : code.Jumps slot allowed) (hnone : codeReturned code = []) :
    code.Jumps none allowed :=
  fun s hs => (h s hs).without_slot (codeReturned_eq_nil.1 hnone s hs)

end Ir

/-! ### Scopes -/

/-- The assignments that a continue may make in a scope: to the loop variables of distinct names. -/
def Scope.Assigns (scope : Scope) (a : Assignment) : Prop :=
  ∃ vars names, scope.loopVars = some vars ∧ List.Nodup names ∧
    names.map vars.get? = a.map fun i => some i.1

/-- What statements leave behind in a scope: jumps that stay in its bounds, and a record of all that
they return. Nothing is recorded where nothing is returned, unless falling off the end returns. -/
structure Lifted.Jumps (scope : Scope) (r : Lifted Outcome) : Prop where
  code : r.code.Jumps scope.slot scope.Assigns
  records : Exit.Records (codeReturned r.code) r.value.exits
  silent : scope.style ≠ .implicitNull → codeReturned r.code = [] → r.value.exits = []

/-- All that is returned is recorded, in the same order. -/
theorem Lifted.Jumps.returned {scope : Scope} {r : Lifted Outcome} (h : r.Jumps scope) :
    (codeReturned r.code).Sublist (r.value.exits.map (·.value.value)) :=
  h.records.sublist

/-- No jump leaves an expression, and no jump leaves statements but for the slot and the loop of
their scope. -/
structure Evaluator.Delimits (ev : Evaluator) : Prop where
  expr {ctx : Ctx} {env : Bindings} {e : Surface.Expr} {s s' : Supply} {r : Lifted SecValue} :
    (ev.expr ctx env e).Yields s r s' → r.code.Delimited
  stmts {ctx : Ctx} {loc : Loc} {scope : Scope} {stmts : List Surface.Stmt} {s s' : Supply}
    {r : Lifted Outcome} : (ev.stmts ctx loc scope stmts).Yields s r s' → r.Jumps scope

variable {s s' : Supply} {loc : Loc} {ctx : Ctx} {env : Bindings} {ev : Evaluator} {scope : Scope}

theorem Ir.Stmt.ByPrim.jumps {mode : Mode} {p : Prim} {st : Stmt} {slot : Option Nat}
    {allowed : Assignment → Prop} (h : st.ByPrim mode p) : st.Jumps slot allowed := by
  cases h with
  | compute | ask => exact .letIn
  | claim => exact .claim
  | transfer => exact .transfer
  | stop => exact .stop

/-- A way out that is recorded alone is that of the return which ends the code, if one does. -/
theorem Lifted.Jumps.last_returned {slot slot' : Nat} {retLoc : Loc} {r : Lifted Outcome}
    {exit : Exit} {v : Value} (h : r.Jumps scope) (hscope : scope.slot = some slot)
    (hone : r.value.exits = [exit]) (hlast : r.code.getLast? = some (.ret retLoc slot' (some v))) :
    slot' = slot ∧ v = exit.value.value ∧ codeReturned r.code.dropLast = [] := by
  have hne : r.code ≠ [] := by
    intro hnil
    simp [hnil] at hlast
  have hsplit : r.code.dropLast ++ [.ret retLoc slot' (some v)] = r.code := by
    rw [List.getLast?_eq_some_getLast hne, Option.some.injEq] at hlast
    rw [← hlast]
    exact List.dropLast_append_getLast hne
  have hslot : slot' = slot := by
    have hret := h.code _ (List.mem_of_getLast? hlast)
    rw [hscope] at hret
    cases hret
    rfl
  have hsub : (codeReturned r.code.dropLast ++ [v]).Sublist [exit.value.value] := by
    have hreturned := h.returned
    rw [hone, ← hsplit] at hreturned
    simpa [Stmt.returned] using hreturned
  have hlength := hsub.length_le
  have hnone : codeReturned r.code.dropLast = [] := by
    rw [← List.length_eq_zero_iff]
    simp only [List.length_append, List.length_singleton] at hlength
    omega
  rw [hnone, List.nil_append, List.singleton_sublist, List.mem_singleton] at hsub
  exact ⟨hslot, hsub, hnone⟩

/-- Code whose returns to a slot are delimited, or left out where the last of them is the only one. -/
theorem unprompted_delimited {slot : Nat} {code : Code} {result : Value}
    (hcode : code.Jumps (some slot) Assignment.never)
    (hlast : ∀ retLoc slot' v, code.getLast? = some (.ret retLoc slot' (some v)) →
      codeReturned code.dropLast = []) : (Code.unprompted code loc slot result).Delimited := by
  have hprompt : Code.Delimited [.prompt loc slot none code] := .single (.prompt hcode (by simp))
  unfold Code.unprompted
  split
  · exact Code.jumps_nil
  · rename_i retLoc slot' v hend
    split
    · have hdropped : Code.Jumps (some slot) Assignment.never code.dropLast :=
        fun st hst => hcode st (List.dropLast_subset _ hst)
      exact hdropped.without_slot (hlast _ _ _ hend)
    · exact hprompt
  · exact hprompt

namespace Evaluator.Delimits

theorem joinExits {slot : Nat} {body : Lifted Outcome} {r : Lifted Applied}
    (hbody : body.Jumps scope) (hslot : scope.slot = some slot) (hloop : scope.loopVars = none)
    (hrun : (ctx.joinExits loc slot body).Yields s r s') : r.code.Delimited := by
  have hcode : body.code.Jumps (some slot) Assignment.never := by
    rw [← hslot]
    refine hbody.code.mono ?_
    rintro a ⟨vars, names, hvars, _⟩
    rw [hloop] at hvars
    cases hvars
  unfold Ctx.joinExits at hrun
  split at hrun
  · rename_i hnone
    simp only [yields_pure] at hrun
    rw [hrun.1]
    have hreturned := hbody.returned
    rw [hnone, List.map_nil, List.sublist_nil, codeReturned_eq_nil] at hreturned
    refine unprompted_delimited hcode fun _ _ _ _ => codeReturned_eq_nil.2 fun st hst => ?_
    exact hreturned st (List.dropLast_subset _ hst)
  · rename_i exit hone
    simp only [yields_pure] at hrun
    rw [hrun.1]
    exact unprompted_delimited hcode fun _ _ _ hend => (hbody.last_returned hslot hone hend).2.2
  · rename_i hsome _
    simp only [yields_bind, yields_pure] at hrun
    obtain ⟨types, _, htypes, type, _, hjoin, rfl, _⟩ := hrun
    refine .single (.prompt hcode ?_)
    rintro v ⟨⟩ hnone
    -- without a return, every way out is an implicit null, and so is what they join to
    have hrecords := hbody.records
    rw [hnone] at hrecords
    obtain ⟨exit, hexit⟩ := List.exists_mem_of_ne_nil _ hsome
    obtain ⟨t, _, htyped, hmem⟩ := (Exit.types_yields htypes).1 exit hexit
    rw [hrecords.all_null exit hexit, Value.typed?, Option.some.injEq, Prod.mk.injEq] at htyped
    rw [htyped.1]
    exact ((Ty.joinAll_yields hjoin).1 _ hmem).symm

theorem applyClosure (hev : ev.Delimits) {c : Closure} {args : List SecValue} {r : Lifted Applied}
    (hrun : (ev.applyClosure ctx loc c args).Yields s r s') : r.code.Delimited := by
  simp only [Evaluator.applyClosure, yields_bind] at hrun
  obtain ⟨slot, _, _, _, _, _, env, _, _, body, _, hbody, hjoin⟩ := hrun
  exact joinExits (hev.stmts hbody) rfl rfl hjoin

theorem composes (hev : ev.Delimits) : ev.Composes fun _ _ _ code => code.Delimited where
  append := fun h h' => Code.jumps_append.2 ⟨h, h'⟩
  prim := fun _ _ _ _ h _ st hst => (h st hst).jumps
  drop := fun _ => Code.jumps_nil
  choice := by
    intro _ _ _ _ _ onTrue onFalse loc trueLoc falseLoc slot result cond v w ht hf _ _
    have hreturn : ∀ {code : Code} {retLoc : Loc} {v : Value}, code.Delimited →
        Code.Jumps (some slot) Assignment.never (code ++ [.ret retLoc slot (some v)]) :=
      fun h => Code.jumps_append.2 ⟨h.jumps, .single .ret⟩
    exact .single (.prompt (Code.Jumps.single (.branch (hreturn ht) (hreturn hf)))
      (by simp [Stmt.returned]))
  privately := fun h h' => Code.jumps_append.2 ⟨h, h'⟩
  expr := hev.expr
  closure := hev.applyClosure

end Evaluator.Delimits

end Choreography
