import Choreography.Proofs.Faults
import Choreography.Proofs.Rounds
import Choreography.Proofs.Statements

/-!
What the operations of the language emit and come to, whatever they are applied to. Operations,
fields, elements and components emit computations that ask no frontend; each primitive adds at most
the statement that it is for, in the mode that it checks. What they come to is a value with nothing
inside, a part of what they are applied to, or one of a few constructs. They stop with faults of the
program only, unless what a frontend offers is applied and is no function.
-/

namespace Choreography

open Eval Ir

namespace Ir

/-- Code that only computes, and asks no frontend. -/
def Code.Silent (code : Code) : Prop :=
  ∀ s ∈ code, ∃ loc v e, s = .letIn loc v e ∧ e.asks = false

@[simp] theorem Code.silent_nil : Code.Silent [] := by simp [Code.Silent]

theorem Code.Silent.append {code code' : Code} (h : code.Silent) (h' : code'.Silent) :
    Code.Silent (code ++ code') := by
  intro s hs
  rcases List.mem_append.1 hs with hs | hs
  · exact h s hs
  · exact h' s hs

/-- What a primitive may emit in a mode. -/
inductive Stmt.ByPrim (mode : Mode) : Prim → Stmt → Prop
  | compute {p : Prim} {loc : Loc} {v : Var} {e : Expr} (h : e.asks = false) :
    ByPrim mode p (.letIn loc v e)
  | ask {who method : String} {type rng : Ty} {loc : Loc} {v : Var} {args : List Arg}
    (hmode : mode.isLocalStep = true) :
    ByPrim mode (.interact who method type) (.letIn loc v (.interact who method rng args))
  | claim {c : Claim} {loc : Loc} {frames : List Frame} {a : Arg} :
    ByPrim mode (.claim c) (.claim loc frames c a)
  | transfer {tag : Tag} {loc : Loc} {frames : List Frame} {recipient amount : Arg}
    (hmode : mode.isConsensus = true) :
    ByPrim mode (.transferTo tag amount) (.transfer loc frames recipient amount)
  | stop {loc : Loc} {frames : List Frame} (hmode : mode.isStep = true) :
    ByPrim mode .exit (.stop loc frames)

theorem Code.Silent.byPrim {code : Code} (h : code.Silent) {mode : Mode} {p : Prim} :
    ∀ s ∈ code, s.ByPrim mode p := by
  intro s hs
  obtain ⟨loc, v, e, rfl, hask⟩ := h s hs
  exact .compute hask

end Ir

variable {s s' : Supply} {loc : Loc} {ctx : Ctx} {env : Bindings} {args : List SecValue}
  {field : String}

/-- A value with nothing inside. -/
inductive Value.Atomic : Value → Prop
  | null {loc : Loc} : Atomic (.null loc)
  | bool {loc : Loc} {b : Bool} : Atomic (.bool loc b)
  | int {loc : Loc} {n : Int} : Atomic (.int loc n)
  | type {loc : Loc} {t : Ty} : Atomic (.type loc t)
  | var {v : Var} : Atomic (.var v)

/-- A value with nothing inside, and code that only computes it. -/
structure Lifted.Simple (r : Lifted SecValue) : Prop where
  code : r.code.Silent
  value : r.value.value.Atomic

/-- Operations are functions. -/
theorem Ir.Op.type_function (op : Op) : ∃ dom rng, op.type.stripForAll = .func dom rng := by
  cases op <;> exact ⟨_, _, rfl⟩

theorem Ctx.lift_code {label : String} {type : Ty} {e : Expr} :
    Proceeds (·.isOrdinary = true) (fun r => r.code = [.letIn loc r.value e])
      (ctx.lift loc label type e) :=
  Ctx.alloc_routine.andThen fun _ => .pure rfl

theorem Ctx.lift_silent {label : String} {type : Ty} {e : Expr} (hask : e.asks = false) :
    Proceeds (·.isOrdinary = true) (·.code.Silent) (ctx.lift loc label type e) :=
  Ctx.lift_code.imp fun r hr st hst => ⟨loc, r.value, e, by simpa [hr] using hst, hask⟩

theorem Ctx.liftValue_simple {label : String} {type : Ty} {e : Expr} {level : Level}
    (hask : e.asks = false) :
    Proceeds (·.isOrdinary = true) Lifted.Simple (ctx.liftValue loc label type e level) :=
  (Ctx.lift_silent hask).bind fun _ hcode => .pure ⟨hcode, .var⟩

theorem Ctx.applyOp_simple {op : Op} :
    Proceeds (·.isOrdinary = true) Lifted.Simple (ctx.applyOp loc op args) := by
  unfold Ctx.applyOp
  split
  · rename_i hconstant
    obtain ⟨n, rfl⟩ | ⟨b, rfl⟩ := Op.constant?_cases hconstant
    · exact .pure ⟨Code.silent_nil, .int⟩
    · exact .pure ⟨Code.silent_nil, .bool⟩
  · obtain ⟨dom, rng, hfunction⟩ := op.type_function
    exact (Ty.convert_routine hfunction _).andThen fun _ => Ctx.liftValue_simple rfl

/-! ### Primitives -/

/-- What a primitive may come to. -/
inductive Prim.ComesTo (ctx : Ctx) (loc : Loc) (env : Bindings) (args : List SecValue) :
    Prim → Value → Prop
  | atomic {p : Prim} {v : Value} (h : v.Atomic) : ComesTo ctx loc env args p v
  | enumeration {enumLoc : Loc} {tag : Tag} {n : Nat} :
    ComesTo ctx loc env args .makeEnum (.tuple enumLoc (.closure tag
        { loc := enumLoc, name := some (ctx.localName "makeEnum"), formals := ["x"],
          body := enumBody enumLoc n, env } ::
      (List.range n).map fun (i : Nat) => .int enumLoc i))
  | declassified {sv : SecValue} (h : sv ∈ args) : ComesTo ctx loc env args .declassify sv.value
  | committed : ComesTo ctx loc env args .commit (.prim loc .committed)
  | payment {tag : Tag} {amount : Arg} : ComesTo ctx loc env args .transfer
      (.object loc (.ofList [("to", .pub (.prim loc (.transferTo tag amount)))]))
  | exited : ComesTo ctx loc env args .exit (.prim loc .exited)

/-- How a primitive may stop. -/
inductive Prim.Stops (loc : Loc) : Prim → Stop → Prop
  | ordinary {p : Prim} {stop : Stop} (h : stop.isOrdinary = true) : Stops loc p stop
  | notAFunction {who method : String} {t : Ty} (h : ∀ dom rng, t.stripForAll ≠ .func dom rng) :
    Stops loc (.interact who method t) (.fault (.notAFunctionType loc t.full))

/-- Each primitive emits computations and what it is for, in the mode that it checks. -/
structure Lifted.ByPrim (ctx : Ctx) (loc : Loc) (env : Bindings) (args : List SecValue) (p : Prim)
    (r : Lifted SecValue) : Prop where
  code : ∀ st ∈ r.code, st.ByPrim ctx.mode p
  value : p.ComesTo ctx loc env args r.value.value

theorem Ctx.applyPrim_meets {p : Prim} :
    Proceeds (p.Stops loc) (Lifted.ByPrim ctx loc env args p) (ctx.applyPrim loc env p args) := by
  have hordinary : ∀ {p : Prim} {α : Type} {Q : α → Prop} {x : Eval α},
      Proceeds (·.isOrdinary = true) Q x → Proceeds (p.Stops loc) Q x :=
    fun h => h.mono (fun _ => .ordinary) fun _ h => h
  have hplain : ∀ {args : List SecValue} {p : Prim} {sv : SecValue},
      p.ComesTo ctx loc env args sv.value →
      Proceeds (·.isOrdinary = true) (Lifted.ByPrim ctx loc env args p) (pure (.plain sv)) :=
    fun h => .pure ⟨Code.silent_nil.byPrim, h⟩
  unfold Ctx.applyPrim
  cases p with
  | op o =>
    exact hordinary (Ctx.applyOp_simple.imp fun _ h => ⟨h.code.byPrim, .atomic h.value⟩)
  | funType | arrayType | tupleType | objectType =>
    exact hordinary ((Routine.orFail rfl).andThen fun _ => hplain (.atomic .type))
  | makeEnum =>
    simp only
    split
    · exact hordinary ((Routine.orFail rfl).andThen fun _ => Proceeds.bind
        (P := Prim.ComesTo ctx loc env _ .makeEnum)
        (Proceeds.freshTag.bind fun _ _ => .pure .enumeration) fun _ h => hplain h)
    · exact .fail (.ordinary rfl)
  | app | committed | exited => exact .fail (.ordinary rfl)
  | interact who method t =>
    refine (Proceeds.ensure fun _ => .ordinary rfl).bind fun _ hlocal => Proceeds.bind
      ((t.convert_meets _).mono (fun stop hstop => ?_) fun _ h => h) fun _ _ =>
        (hordinary Ctx.lift_code).bind fun r hr => .pure ⟨?_, .atomic .var⟩
    · obtain h | ⟨hnot, rfl⟩ := hstop
      · exact .ordinary h
      · exact .notAFunction hnot
    · rw [hr]
      exact List.forall_mem_singleton.2 (.ask hlocal)
  | declassify =>
    simp only
    split
    · rename_i arg
      refine hordinary (Proceeds.bind (P := fun sv => Prim.declassify.ComesTo ctx loc env [arg] sv.value)
        (arg.declassify_routine.proceeds fun hrun => ?_) fun _ h => hplain h)
      obtain ⟨_, rfl, _⟩ := SecValue.declassify_yields.1 hrun
      change Prim.declassify.ComesTo ctx loc env [arg] arg.value
      exact .declassified List.mem_cons_self
    · exact .fail (.ordinary rfl)
  | commit =>
    exact hordinary ((Routine.ensure rfl).andThen fun _ =>
      (Ctx.expectMode_routine ..).andThen fun _ => hplain .committed)
  | digest =>
    exact hordinary ((Value.typeOfAll_routine _).andThen fun _ =>
      (Ctx.liftValue_simple rfl).imp fun _ h => ⟨h.code.byPrim, .atomic h.value⟩)
  | claim c =>
    refine hordinary ((Ty.convert_routine (t := .func [.bool] .null) rfl _).andThen fun _ =>
      .pure ⟨fun st hst => ?_, .atomic .null⟩)
    obtain ⟨a, _, rfl⟩ := List.mem_map.1 hst
    exact .claim
  | transfer =>
    refine hordinary ((Ctx.expectMode_routine ..).andThen fun _ => ?_)
    split
    · refine (SecValue.requirePublic_routine _).andThen fun _ => ?_
      split
      · exact Proceeds.freshTag.bind fun _ _ => hplain .payment
      · exact .fail rfl
    · exact .fail rfl
  | transferTo tag amount =>
    refine hordinary (Proceeds.bind (Proceeds.ensure fun _ => rfl) fun _ hconsensus =>
      (Ty.convert_routine (t := .func [.address] .null) rfl _).andThen fun _ =>
        .pure ⟨fun st hst => ?_, .atomic .null⟩)
    obtain ⟨a, _, rfl⟩ := List.mem_map.1 hst
    exact .transfer hconsensus
  | exit =>
    exact hordinary (Proceeds.bind (Proceeds.ensure fun _ => rfl) fun _ hstep =>
      (Routine.ensure rfl).andThen fun _ =>
        .pure ⟨List.forall_mem_singleton.2 (.stop hstep), .exited⟩)

theorem Ctx.applyPrim_emits {p : Prim} {r : Lifted SecValue}
    (hrun : (ctx.applyPrim loc env p args).Yields s r s') :
    ∀ st ∈ r.code, st.ByPrim ctx.mode p :=
  (Ctx.applyPrim_meets.result hrun).code

/-! ### Access -/

/-- What a value offers by the name of a field. -/
inductive Value.Offers (loc : Loc) (field : String) : Value → Value → Prop
  | part {objectLoc : Loc} {fields : Bindings} {sv : SecValue} (h : fields.find? field = some sv) :
    Offers loc field (.object objectLoc fields) sv.value
  | only {tag newTag : Tag} {p : Participant} (hname : field = "only") :
    Offers loc field (.participant tag p) (.form loc newTag (.only p.who))
  | start {tag newTag : Tag} {p : Participant} {stage : Stage} (hname : stage.name = field)
    (hstage : stage ∈ [Stage.publish, .pay]) : Offers loc field (.participant tag p)
      (.form loc newTag (.round { who := p.who, displayName := p.displayName, stage := some stage }))
  | next {roundLoc : Loc} {tag newTag : Tag} {r : Round} {stage : Stage}
    (hname : stage.name = field) : Offers loc field (.form roundLoc tag (.round r))
      (.form roundLoc newTag (.round { r with stage := some stage }))

theorem Ctx.fieldRef_simple {type : Ty} {object : Arg} {level : Level} :
    Proceeds (·.isOrdinary = true) Lifted.Simple (ctx.fieldRef loc type object field level) := by
  unfold Ctx.fieldRef
  split
  · exact Ctx.liftValue_simple rfl
  · exact .fail rfl

theorem Participant.field_offers {p : Participant} {tag : Tag} :
    Proceeds (·.isOrdinary = true) ((Value.participant tag p).Offers loc field) (p.field loc field) := by
  unfold Participant.field
  split
  · rename_i honly
    exact Proceeds.freshTag.bind fun _ _ => .pure (.only honly)
  · split
    · rename_i stage hstage
      have hname : stage.name = field := by simpa using List.find?_some hstage
      exact Proceeds.freshTag.bind fun _ _ => .pure (.start hname (List.mem_of_find?_eq_some hstage))
    · exact .fail rfl

theorem Round.field_offers {r : Round} {roundLoc : Loc} {tag : Tag} :
    Proceeds (·.isOrdinary = true) ((Value.form roundLoc tag (.round r)).Offers loc field)
      (r.field loc roundLoc field) := by
  unfold Round.field
  split
  · rename_i stage hstage
    have hname : stage.name = field := by simpa using List.find?_some hstage
    exact Proceeds.freshTag.bind fun _ _ => .pure (.next hname)
  · exact .fail rfl

theorem Ctx.field_meets {v : Value} :
    Proceeds (·.isOrdinary = true)
      (fun r => r.code.Silent ∧ (r.value.value.Atomic ∨ v.Offers loc field r.value.value))
      (ctx.field loc v field) := by
  unfold Ctx.field
  split
  · split
    · rename_i hfind
      exact .pure ⟨Code.silent_nil, .inr (.part hfind)⟩
    · exact .fail rfl
  · split
    · exact Ctx.fieldRef_simple.imp fun _ h => ⟨h.code, .inl h.value⟩
    · exact .fail rfl
  · split
    · exact Ctx.fieldRef_simple.imp fun _ h => ⟨h.code, .inl h.value⟩
    · exact .fail rfl
  · exact Participant.field_offers.bind fun _ h => .pure ⟨Code.silent_nil, .inr h⟩
  · split
    · exact .fail rfl
    · exact Round.field_offers.bind fun _ h => .pure ⟨Code.silent_nil, .inr h⟩
  · exact .fail rfl

/-- The value has nothing inside, or it is an element of the tuple `v`. -/
def Value.PartOf (v part : Value) : Prop :=
  part.Atomic ∨ ∃ tupleLoc elems, v = .tuple tupleLoc elems ∧ part ∈ elems

theorem checkIndex_routine (size : Nat) (index : Int) : Routine (checkIndex loc size index) := by
  unfold checkIndex
  split
  · split
    · exact .pure _
    · exact .fail rfl
  · exact .fail rfl

theorem Ctx.element_meets {v index : Value} {level : Level} :
    Proceeds (·.isOrdinary = true) (fun r => r.code.Silent ∧ v.PartOf r.value.value)
      (ctx.element loc v index level) := by
  have hsimple : ∀ {label : String} {type : Ty} {e : Expr}, e.asks = false →
      Proceeds (·.isOrdinary = true) (fun r => r.code.Silent ∧ v.PartOf r.value.value)
        (ctx.liftValue loc label type e level) :=
    fun hask => (Ctx.liftValue_simple hask).imp fun _ h => ⟨h.code, .inl h.value⟩
  unfold Ctx.element
  split
  · split
    · exact (checkIndex_routine ..).andThen fun _ => Proceeds.bind (Proceeds.orFail fun _ => rfl)
        fun elem helem => .pure ⟨Code.silent_nil, .inr ⟨_, _, rfl, List.mem_of_getElem? helem⟩⟩
    · split
      · exact (checkIndex_routine ..).andThen fun _ =>
          (Routine.orFail rfl).andThen fun _ => hsimple rfl
      · exact (checkIndex_routine ..).andThen fun _ => hsimple rfl
      · exact .fail rfl
    · exact .fail rfl
  · split
    · split
      · split
        · exact hsimple rfl
        · exact .fail rfl
      · exact .fail rfl
    · exact .fail rfl
  · exact .fail rfl

/-- Variables, and the code that computes them. -/
structure Lifted.Vars (r : Lifted (List Value)) : Prop where
  code : r.code.Silent
  value : ∀ part ∈ r.value, ∃ x, part = .var x

theorem Ctx.tupleParts_vars {v : Var} (types : List Ty) :
    ∀ i : Nat, Proceeds (·.isOrdinary = true) Lifted.Vars (ctx.tupleParts loc v i types) := by
  induction types with
  | nil => exact fun _ => .pure ⟨Code.silent_nil, by simp [Lifted.plain]⟩
  | cons t types ih =>
    exact fun i => (Ctx.lift_silent rfl).bind fun _ hcode => (ih (i + 1)).bind fun _ hrest =>
      .pure ⟨hcode.append hrest.code, List.forall_mem_cons.2 ⟨⟨_, rfl⟩, hrest.value⟩⟩

theorem Ctx.arrayParts_vars {v : Var} {elem : Ty} {size : Nat} (positions : List Nat) :
    Proceeds (·.isOrdinary = true) Lifted.Vars (ctx.arrayParts loc v elem size positions) := by
  induction positions with
  | nil => exact .pure ⟨Code.silent_nil, by simp [Lifted.plain]⟩
  | cons i positions ih =>
    exact (Ctx.lift_silent rfl).bind fun _ hcode => ih.bind fun _ hrest =>
      .pure ⟨hcode.append hrest.code, List.forall_mem_cons.2 ⟨⟨_, rfl⟩, hrest.value⟩⟩

/-- The components of a value are variables, or the elements of a tuple. -/
theorem Ctx.components_meets {v : Value} :
    Proceeds (·.isOrdinary = true) (fun r => r.code.Silent ∧ ∀ part ∈ r.value, v.PartOf part)
      (ctx.components loc v) := by
  have hvars : ∀ {r : Lifted (List Value)}, r.Vars → r.code.Silent ∧ ∀ part ∈ r.value, v.PartOf part
      := fun h => ⟨h.code, fun part hpart => by
    obtain ⟨x, rfl⟩ := h.value part hpart
    exact .inl .var⟩
  unfold Ctx.components
  split
  · exact .pure ⟨Code.silent_nil, fun part hpart => .inr ⟨_, _, rfl, hpart⟩⟩
  · split
    · exact (Ctx.tupleParts_vars _ 0).imp fun _ => hvars
    · exact (Ctx.arrayParts_vars _).imp fun _ => hvars
    · exact .fail rfl
  · exact .fail rfl

/-! ### Forms and statements -/

theorem interfaceOf_routine (fields : List (String × SecValue)) :
    Routine (interfaceOf loc fields) := by
  induction fields with
  | nil => exact .pure _
  | cons b fields ih =>
    obtain ⟨method, sv⟩ := b
    unfold interfaceOf
    split
    · exact .bind ih fun _ => .pure _
    · exact .fail rfl

theorem participantsOf_routine (specs : List Value) : Routine (participantsOf loc specs) := by
  induction specs with
  | nil => exact .pure _
  | cons spec specs ih =>
    refine .bind ?_ fun _ => .bind Proceeds.freshTag fun _ => .bind ih fun _ => .pure _
    unfold participantOf
    split
    · exact .bind (interfaceOf_routine _) fun _ => .pure _
    · exact .fail rfl

theorem publishedNames_routine (args : List Surface.Expr) : Routine (publishedNames args) := by
  induction args with
  | nil => exact .pure _
  | cons e args ih =>
    cases e with
    | ident => exact .bind ih fun _ => .pure _
    | _ => exact .fail rfl

theorem Round.fill_routine (r : Round) (stage : Stage) (args : List Surface.Expr) :
    Routine (r.fill loc stage args) := by
  unfold Round.fill
  cases stage with
  | publish => exact .bind (.ensure rfl) fun _ => .bind (publishedNames_routine args) fun _ => .pure _
  | pay | timeout =>
    refine .bind (.ensure rfl) fun _ => ?_
    split
    · exact .pure _
    · exact .fail rfl

theorem Evaluator.sharedArgs_routine (formals : List String) :
    Routine (sharedArgs loc env formals) := by
  induction formals with
  | nil => exact .pure _
  | cons formal formals ih =>
    exact .bind (env.identify_routine formal) fun _ => .bind ih fun _ => .pure _

theorem Surface.BinaryOp.rator_routine (op : Surface.BinaryOp) : Routine (op.rator loc env) := by
  cases op with
  | and | or | neq | strictNeq => exact .bind (env.lookup_routine _) fun _ => .pure _
  | shiftRightUnsigned | inside | instanceOf => exact .fail rfl
  | _ => exact .pure _

theorem Surface.UnaryOp.rator_routine (op : Surface.UnaryOp) : Routine (op.rator loc env) := by
  cases op with
  | minus | not => exact .bind (env.lookup_routine _) fun _ => .pure _
  | _ => exact .fail rfl

theorem Exit.types_routine (exits : List Exit) : Routine (Exit.types exits) := by
  induction exits with
  | nil => exact .pure _
  | cons exit exits ih =>
    exact .bind (Value.typeOf_routine _) fun _ => .bind ih fun _ => .pure _

theorem Ctx.joinBranches_routine (cond : Var) (trueLoc falseLoc : Loc)
    (onTrue onFalse : Lifted SecValue) :
    Routine (ctx.joinBranches loc cond trueLoc falseLoc onTrue onFalse) :=
  .bind alloc_routine fun _ => .bind (Value.typeOf_routine _) fun _ =>
    .bind (Value.typeOf_routine _) fun _ => .bind (Ty.join_routine ..) fun _ => .pure _

theorem assignLoopVars_routine (vars : NameMap Var) (updates : List (String × SecValue)) :
    Routine (assignLoopVars loc vars updates) := by
  induction updates with
  | nil => exact .pure _
  | cons b updates ih =>
    exact .bind (.orFail rfl) fun _ => .bind (SecValue.requirePublic_routine _) fun _ =>
      .bind (Value.checkType_routine ..) fun _ => .bind ih fun _ => .pure _

theorem Ctx.loopVars_routine (initial : List (String × SecValue)) :
    Routine (ctx.loopVars loc initial) := by
  induction initial with
  | nil => exact .pure _
  | cons b initial ih =>
    exact .bind alloc_routine fun _ => .bind (Value.typeOf_routine _) fun _ =>
      .bind ih fun _ => .pure _

theorem Ctx.messages_routine (roundLoc : Loc) (view : Bindings) (names : List String) :
    ∀ sent : Bindings, Routine (ctx.messages loc roundLoc view sent names) := by
  induction names with
  | nil => exact fun _ => .pure _
  | cons name names ih =>
    exact fun sent => .bind (view.lookup_routine name) fun _ =>
      .bind (SecValue.requirePublic_routine _) fun _ => .bind (Value.typeOf_routine _) fun _ =>
        .bind alloc_routine fun _ => .bind (sent.bind_routine ..) fun _ =>
          .bind (ih _) fun _ => .pure _

theorem Ctx.addressOf_routine (joined : NameMap Var) (who : String) :
    Routine (ctx.addressOf loc joined who) := by
  unfold Ctx.addressOf
  split
  · exact .pure _
  · exact .bind alloc_routine fun _ => .pure _

end Choreography
