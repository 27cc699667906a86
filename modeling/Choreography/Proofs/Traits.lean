import Choreography.Proofs.Effects
import Choreography.Proofs.Linking

/-!
Properties that go from parts to wholes. Arrays, object literals, elements, choices and applications
put the code and the values of their parts together. What holds of the parts holds of the whole, for
every property of code and of values that is kept when these are put together.
-/

namespace Choreography

open Eval Ir

/-- A property of code and one of values, with the ways in which evaluation may stop. Code has the
property if its parts do, and tuples and objects have it just if what they hold does. -/
structure Trait where
  stops : Stop → Prop
  code : Code → Prop
  value : Value → Prop
  /-- A value with the property, computed by code with it. -/
  has : Lifted SecValue → Prop
  ordinary {stop : Stop} : stop.isOrdinary = true → stops stop
  nil : code []
  append {before after : Code} : code before → code after → code (before ++ after)
  tuple {loc : Loc} {elems : List Value} : value (.tuple loc elems) ↔ ∀ v ∈ elems, value v
  object {loc : Loc} {fields : Bindings} :
    value (.object loc fields) ↔ fields.Satisfies (value ·.2.value)
  has_iff {r : Lifted SecValue} : has r ↔ code r.code ∧ value r.value.value

/-- Operations have the property, and so has a choice between code that has it. -/
structure Trait.Basic (T : Trait) : Prop where
  silent {code : Code} : code.Silent → T.code code
  atomic {v : Value} : v.Atomic → T.value v
  choice {loc trueLoc falseLoc : Loc} {slot : Nat} {result : Option Var} {cond : Arg}
    {onTrue onFalse : Code} {x y : Value} : T.code onTrue → T.code onFalse →
    T.code [.prompt loc slot result [.branch loc cond (onTrue ++ [.ret trueLoc slot (some x)])
      (onFalse ++ [.ret falseLoc slot (some y)])]]

namespace Trait

variable {T : Trait} {ev : Evaluator} {ctx : Ctx} {env : Bindings} {loc : Loc}

theorem meets {α : Type} {Q : α → Prop} {x : Eval α} (h : Proceeds (·.isOrdinary = true) Q x) :
    Meets T.stops Q x :=
  h.toMeets.mono (fun _ => T.ordinary) fun _ h => h

theorem fail {α : Type} {Q : α → Prop} {f : Fault} (h : f.isOrdinary = true) :
    Meets T.stops Q (Eval.fail f) :=
  .fail (T.ordinary h)

theorem exprs {es : List Surface.Expr} (h : ∀ e ∈ es, Meets T.stops T.has (ev.expr ctx env e)) :
    Meets T.stops (fun r => T.code r.code ∧ ∀ sv ∈ r.value, T.value sv.value)
      (ev.exprs ctx env es) := by
  induction es with
  | nil => exact .pure ⟨T.nil, by simp [Lifted.plain]⟩
  | cons e es ih =>
    obtain ⟨hfirst, hrest⟩ := List.forall_mem_cons.1 h
    refine hfirst.bind fun _ hr => (ih hrest).bind fun _ hrs => ?_
    obtain ⟨hcode, hvalue⟩ := T.has_iff.1 hr
    exact .pure ⟨T.append hcode hrs.1, List.forall_mem_cons.2 ⟨hvalue, hrs.2⟩⟩

theorem array {elems : List Surface.Expr}
    (h : ∀ e ∈ elems, Meets T.stops T.has (ev.expr ctx env e)) :
    Meets T.stops T.has (ev.evalExpr ctx env (.array loc elems)) :=
  (T.exprs h).bind fun _ hvs => .pure (T.has_iff.2 ⟨hvs.1, T.tuple.2 (by simpa using hvs.2)⟩)

theorem sharedArgs {formals : List String}
    (h : ∀ name ∈ formals, Meets T.stops (T.value ·.value) (env.identify loc name)) :
    Meets T.stops (fun svs => ∀ sv ∈ svs, T.value sv.value)
      (Evaluator.sharedArgs loc env formals) := by
  induction formals with
  | nil => exact .pure (by simp)
  | cons formal formals ih =>
    obtain ⟨hfirst, hrest⟩ := List.forall_mem_cons.1 h
    exact hfirst.bind fun _ hv => (ih hrest).bind fun _ hvs =>
      .pure (List.forall_mem_cons.2 ⟨hv, hvs⟩)

/-! ### Object literals -/

/-- What a property of an object literal evaluates has the property. -/
def Reads (T : Trait) (ev : Evaluator) (ctx : Ctx) (env : Bindings) : Surface.Property → Prop
  | .value _ name value =>
    (∀ key, name = .computed key → Meets T.stops T.has (ev.expr ctx env key)) ∧
      Meets T.stops T.has (ev.expr ctx env value)
  | .shorthand loc name => Meets T.stops (T.value ·.value) (env.identify loc name)
  | .spread _ base => Meets T.stops T.has (ev.expr ctx env base)
  | .method .. => True

/-- An object literal as far as it has been read. -/
def Holds (T : Trait) (object : PartialObject) : Prop :=
  T.code object.code ∧ object.fields.Satisfies (T.value ·.2.value)

theorem propertyName {name : Surface.PropertyName}
    (h : ∀ key, name = .computed key → Meets T.stops T.has (ev.expr ctx env key)) :
    Meets T.stops (T.code ·.code) (ev.propertyName ctx env loc name) := by
  cases name with
  | ident | string => exact .pure T.nil
  | number => exact T.fail rfl
  | computed key =>
    refine (h key rfl).bind fun _ hkey => ?_
    split
    · exact .pure (T.has_iff.1 hkey).1
    · exact T.fail rfl

theorem property {object : PartialObject} (hobject : T.Holds object) {p : Surface.Property}
    (hp : T.Reads ev ctx env p) : Meets T.stops T.Holds (ev.property ctx env object p) := by
  obtain ⟨hcode, hfields⟩ := hobject
  have hbind : ∀ {loc : Loc} {name : String} {sv : SecValue}, T.value sv.value →
      Meets T.stops (Bindings.Satisfies (T.value ·.2.value)) (object.fields.bind loc name sv) :=
    fun hsv => T.meets ((Bindings.bind_routine ..).proceeds (hfields.bind hsv).result)
  cases p with
  | value _ name value =>
    refine (T.propertyName hp.1).bind fun _ hname => hp.2.bind fun _ hr => ?_
    obtain ⟨hvalueCode, hvalue⟩ := T.has_iff.1 hr
    exact (hbind hvalue).bind fun _ hout =>
      .pure ⟨T.append (T.append hcode hname) hvalueCode, hout⟩
  | shorthand _ name =>
    exact Meets.bind hp fun _ hv => (hbind hv).bind fun _ hout => .pure ⟨hcode, hout⟩
  | spread _ base =>
    refine Meets.bind hp fun _ hr => ?_
    obtain ⟨hbaseCode, hbase⟩ := T.has_iff.1 hr
    split
    · rename_i level objectLoc more hvalue
      have hmore : Bindings.Satisfies (T.value ·.2.value) more :=
        T.object.1 (by simpa [hvalue] using hbase)
      exact (T.meets ((Bindings.bindAll_routine ..).proceeds (hfields.bindAll hmore).result)).bind
        fun _ hout => .pure ⟨T.append hcode hbaseCode, hout⟩
    · exact T.fail rfl
  | method => exact T.fail rfl

theorem properties {props : List Surface.Property} (h : ∀ p ∈ props, T.Reads ev ctx env p) :
    ∀ {object : PartialObject}, T.Holds object →
      Meets T.stops T.Holds (ev.properties ctx env object props) := by
  induction props with
  | nil => exact fun hobject => .pure hobject
  | cons p ps ih =>
    obtain ⟨hfirst, hrest⟩ := List.forall_mem_cons.1 h
    exact fun hobject => (T.property hobject hfirst).bind fun _ hout => ih hrest hout

theorem objectLiteral {props : List Surface.Property} (h : ∀ p ∈ props, T.Reads ev ctx env p) :
    Meets T.stops T.has (ev.evalExpr ctx env (.object loc props)) :=
  (T.properties h ⟨T.nil, .empty⟩).bind fun _ hobject =>
    .pure (T.has_iff.2 ⟨hobject.1, T.object.2 hobject.2⟩)

/-! ### Applications -/

/-- Operands are evaluated first, except those of forms. -/
theorem apply {rator : Value} {rands : List Surface.Expr}
    (hrands : ∀ e ∈ rands, Meets T.stops T.has (ev.expr ctx env e))
    (hvalues : ∀ {args : List SecValue}, (∀ sv ∈ args, T.value sv.value) →
      Meets T.stops (fun r => T.code r.code ∧ T.value r.value.value.value)
        (ev.applyValues ctx loc env rator args))
    (hform : ∀ {formLoc : Loc} {tag : Tag} {f : Form}, rator = .form formLoc tag f →
      Meets T.stops T.has (ev.applyForm ctx loc env formLoc f rands)) :
    Meets T.stops T.has (ev.apply ctx loc env rator rands) := by
  have hplain : Meets T.stops T.has (do
      let args ← ev.exprs ctx env rands
      let result ← ev.applyValues ctx loc env rator args.value
      return { code := args.code ++ result.code, value := result.value.value }
        : Eval (Lifted SecValue)) :=
    (T.exprs hrands).bind fun _ hargs => (hvalues hargs.2).bind fun _ hresult =>
      .pure (T.has_iff.2 ⟨T.append hargs.1 hresult.1, hresult.2⟩)
  unfold Evaluator.apply
  split
  · exact hplain
  · exact hplain
  · exact hform rfl
  · exact T.fail rfl

/-! ### Elements and choices -/

namespace Basic

variable (hT : T.Basic)
include hT

theorem part {v part : Value} (h : v.PartOf part) (hv : T.value v) : T.value part := by
  rcases h with hatomic | ⟨_, _, rfl, hmem⟩
  · exact hT.atomic hatomic
  · exact T.tuple.1 hv part hmem

theorem index {base position : Surface.Expr} (hbase : Meets T.stops T.has (ev.expr ctx env base))
    (hposition : Meets T.stops T.has (ev.expr ctx env position)) :
    Meets T.stops T.has (ev.evalExpr ctx env (.index loc base position)) := by
  refine hbase.bind fun _ hv => hposition.bind fun _ hi =>
    (T.meets Ctx.element_meets).bind fun _ helement => .pure (T.has_iff.2 ?_)
  obtain ⟨hcode, hvalue⟩ := T.has_iff.1 hv
  exact ⟨T.append (T.append hcode (T.has_iff.1 hi).1) (hT.silent helement.1),
    hT.part helement.2 hvalue⟩

theorem ternary {cond onTrue onFalse : Surface.Expr}
    (hcond : Meets T.stops T.has (ev.expr ctx env cond))
    (hTrue : Meets T.stops T.has (ev.expr ctx env onTrue))
    (hFalse : Meets T.stops T.has (ev.expr ctx env onFalse)) :
    Meets T.stops T.has (ev.evalExpr ctx env (.ternary loc cond onTrue onFalse)) := by
  refine hcond.bind fun c hc => hTrue.bind fun t ht => hFalse.bind fun f hf => ?_
  rw [T.has_iff] at hc ht hf
  split
  · rename_i b _
    refine .pure (T.has_iff.2 ?_)
    cases b with
    | true => exact ⟨T.append hc.1 ht.1, ht.2⟩
    | false => exact ⟨T.append hc.1 hf.1, hf.2⟩
  · split
    · exact (T.meets Ctx.applyOp_simple).bind fun _ hselected => .pure (T.has_iff.2
        ⟨T.append (T.append (T.append hc.1 ht.1) hf.1) (hT.silent hselected.code),
          hT.atomic hselected.value⟩)
    · refine Meets.bind (P := fun r => T.code [r.1]) (T.meets
        ((Ctx.joinBranches_routine ..).proceeds fun hrun => ?_)) fun _ hprompt =>
          .pure (T.has_iff.2 ⟨T.append hc.1 hprompt, hT.atomic .var⟩)
      simp only [Ctx.joinBranches, yields_bind, yields_pure] at hrun
      obtain ⟨_, _, _, _, _, _, _, _, _, _, _, _, rfl, _⟩ := hrun
      exact hT.choice ht.1 hf.1
  · exact T.fail rfl

end Basic

end Trait

/-! ### Operators -/

namespace Surface

/-- The function that a binary operator applies, if it applies no operation. -/
def BinaryOp.function? : BinaryOp → Option String
  | .and => some "and"
  | .or => some "or"
  | .neq => some "neq"
  | .strictNeq => some "bytes_neq"
  | _ => none

/-- The function that a unary operator applies. -/
def UnaryOp.function? : UnaryOp → Option String
  | .minus => some "minus"
  | .not => some "not"
  | _ => none

variable {F : Stop → Prop} {Q : Value → Prop} {env : Bindings} {loc : Loc}

/-- An operator applies an operation, or what its name is bound to. -/
theorem BinaryOp.rator_meets {op : BinaryOp}
    (hordinary : ∀ {stop : Stop}, stop.isOrdinary = true → F stop)
    (hlookup : ∀ name, op.function? = some name → Meets F (Q ·.value) (env.lookup loc name))
    (hoperation : ∀ o, Q (.prim .synthetic (.op o))) : Meets F Q (op.rator loc env) := by
  cases op <;> first
    | exact (hlookup _ rfl).map fun _ h => h
    | exact .pure (hoperation _)
    | exact .fail (hordinary rfl)

theorem UnaryOp.rator_meets {op : UnaryOp}
    (hordinary : ∀ {stop : Stop}, stop.isOrdinary = true → F stop)
    (hlookup : ∀ name, op.function? = some name → Meets F (Q ·.value) (env.lookup loc name)) :
    Meets F Q (op.rator loc env) := by
  cases op <;> first
    | exact (hlookup _ rfl).map fun _ h => h
    | exact .fail (hordinary rfl)

end Surface

end Choreography
