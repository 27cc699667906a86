import Choreography.Proofs.Casts
import Choreography.Proofs.Primitives

/-!
What values are made of. A material says which integers may occur in the values of an elaboration,
and whether the protocol is live, so that what is known only at run time may occur too. Operations,
primitives and access to parts give values that are made of what they were given; an integer that has
just been computed is the one exception, and it is always the whole of the value.
-/

namespace Choreography

open Eval Ir

/-- The integers that may occur, and whether what is known only at run time may. Whatever is counted
from zero may occur. -/
structure Material where
  integer : Int → Prop
  live : Prop
  counts {n : Int} {size : Nat} : Integer.count? n = some size → ∀ i < size, integer i

theorem Material.zero (M : Material) : M.integer 0 :=
  M.counts (show Integer.count? 1 = some 1 by decide) 0 (by decide)

variable {M : Material} {loc : Loc} {ctx : Ctx} {env : Bindings} {vs : List Value}
  {args : List SecValue}

/-- A type that programs can write. The positions in its arrays may occur. -/
inductive Ty.MadeOf (M : Material) : Ty → Prop
  | null : MadeOf M .null
  | bool : MadeOf M .bool
  | uint256 : MadeOf M .uint256
  | bytes : MadeOf M .bytes
  | address : MadeOf M .address
  | func {dom : List Ty} {rng : Ty} (hdom : ∀ t ∈ dom, MadeOf M t) (hrng : MadeOf M rng) :
    MadeOf M (.func dom rng)
  | array {elem : Ty} {size : Nat} (helem : MadeOf M elem) (hsize : ∀ i < size, M.integer i) :
    MadeOf M (.array elem size)
  | tuple {elems : List Ty} (helems : ∀ t ∈ elems, MadeOf M t) : MadeOf M (.tuple elems)
  | object {fields : List (String × Ty)} (hfields : ∀ f ∈ fields, MadeOf M f.2) :
    MadeOf M (.object fields)

theorem Ty.MadeOf.ground {t : Ty} (h : t.MadeOf M) : t.Ground := by
  induction h with
  | null => exact .null
  | bool => exact .bool
  | uint256 => exact .uint256
  | bytes => exact .bytes
  | address => exact .address
  | func _ _ ihdom ihrng => exact .func ihdom ihrng
  | array _ _ ih => exact .array ih
  | tuple _ ih => exact .tuple ih
  | object _ ih => exact .object ih

theorem Ty.MadeOf.field? {t fieldType : Ty} (h : t.MadeOf M) {name : String}
    (hfield : t.field? name = some fieldType) : fieldType.MadeOf M := by
  cases h with
  | object hfields =>
    obtain ⟨before, after, hentries, _⟩ := List.lookup_eq_some_iff.1 hfield
    exact hfields (name, fieldType) (by simp [hentries])
  | _ => simp [Ty.field?] at hfield

/-- The integers that the operand mentions may occur. -/
def Ir.Arg.MadeOf (M : Material) (a : Arg) : Prop := ∀ n, Arg.int n ∈ a.atoms true → M.integer n

/-- Built-in functions that hold nothing. -/
def Prim.isFixed : Prim → Bool
  | .interact .. | .transferTo .. | .app .. => false
  | _ => true

/-- The value is made of the material, at every depth. The participants of an app that waits to be
compiled are there before the protocol is live; they are not on the ledger then. -/
inductive Value.MadeOf (M : Material) : Value → Prop
  | null {loc : Loc} : MadeOf M (.null loc)
  | bool {loc : Loc} {b : Bool} : MadeOf M (.bool loc b)
  | int {loc : Loc} {n : Int} (h : M.integer n) : MadeOf M (.int loc n)
  | bytes {loc : Loc} {text : String} : MadeOf M (.bytes loc text)
  | type {loc : Loc} {t : Ty} (h : t.MadeOf M) : MadeOf M (.type loc t)
  | tuple {loc : Loc} {elems : List Value} (h : ∀ v ∈ elems, MadeOf M v) : MadeOf M (.tuple loc elems)
  | object {loc : Loc} {fields : Bindings} (h : ∀ b ∈ fields.entries, MadeOf M b.2.value) :
    MadeOf M (.object loc fields)
  | closure {tag : Tag} {c : Closure} (h : ∀ b ∈ c.env.entries, MadeOf M b.2.value) :
    MadeOf M (.closure tag c)
  | prim {loc : Loc} {p : Prim} (h : p.isFixed = true) : MadeOf M (.prim loc p)
  | app {loc : Loc} {tag : Tag} {a : App} (hoptions : ∀ b ∈ a.options.entries, MadeOf M b.2.value)
    (hparts : ∀ p ∈ a.parts, p.address = none ∧ ∀ f ∈ p.interface, f.2.MadeOf M)
    (hcast : ¬ M.live → ∀ b ∈ a.env.entries, ∀ tag p, b.2.value = .participant tag p →
      p.address = none)
    (henv : ∀ b ∈ a.env.entries, (∀ tag p, b.2.value ≠ .participant tag p) → MadeOf M b.2.value) :
    MadeOf M (.prim loc (.app tag a))
  | appForm {loc : Loc} {tag : Tag} : MadeOf M (.form loc tag .app)
  | interact {loc : Loc} {who method : String} {t : Ty} (hlive : M.live) (h : t.MadeOf M) :
    MadeOf M (.prim loc (.interact who method t))
  | transferTo {loc : Loc} {tag : Tag} {amount : Arg} (hlive : M.live) (h : amount.MadeOf M) :
    MadeOf M (.prim loc (.transferTo tag amount))
  | participant {tag : Tag} {p : Participant} (hlive : M.live) : MadeOf M (.participant tag p)
  | var {v : Var} (hlive : M.live) (h : v.type.MadeOf M) : MadeOf M (.var v)
  | only {loc : Loc} {tag : Tag} {who : String} (hlive : M.live) : MadeOf M (.form loc tag (.only who))
  | round {loc : Loc} {tag : Tag} {r : Round} (hlive : M.live) : MadeOf M (.form loc tag (.round r))
  | onlyDone {loc : Loc} {tag : Tag} {who : String} {view : Bindings} {result : SecValue}
    (hlive : M.live) (hview : ∀ b ∈ view.entries, MadeOf M b.2.value) :
    MadeOf M (.form loc tag (.onlyDone who view result))

/-- Data is mentioned by operands, and has a type, of the same material. -/
theorem Value.MadeOf.typed? {v : Value} (h : v.MadeOf M) :
    ∀ {t : Ty} {a : Arg}, v.typed? = some (t, a) → t.MadeOf M ∧ a.MadeOf M := by
  induction h with
  | null | bool | bytes =>
    intro t a htyped
    cases htyped
    exact ⟨by constructor, by simp [Arg.MadeOf, Arg.atoms, Arg.int]⟩
  | int h =>
    intro t a htyped
    cases htyped
    refine ⟨.uint256, fun n hn => ?_⟩
    simp only [Arg.int, Arg.atoms, List.mem_singleton, Arg.const.injEq, Const.int.injEq] at hn
    exact hn ▸ h
  | var _ h =>
    intro t a htyped
    cases htyped
    exact ⟨h, by simp [Arg.MadeOf, Arg.atoms, Arg.int]⟩
  | tuple _ ih =>
    intro t a htyped
    simp only [Value.typed?, Option.map_eq_some_iff, Prod.mk.injEq] at htyped
    obtain ⟨ts, hts, rfl, rfl⟩ := htyped
    have hall : ∀ t ∈ ts, t.1.MadeOf M ∧ t.2.MadeOf M := fun t ht => by
      obtain ⟨v, hv, hsome⟩ := Value.mem_typedList? hts t ht
      exact ih v hv hsome
    refine ⟨.tuple fun t ht => ?_, fun n hn => ?_⟩
    · obtain ⟨t, hmem, rfl⟩ := List.mem_map.1 ht
      exact (hall t hmem).1
    · simp only [Arg.atoms, Arg.allAtoms_eq_flatMap, List.mem_flatMap, List.mem_map] at hn
      obtain ⟨_, ⟨t, hmem, rfl⟩, hatom⟩ := hn
      exact (hall t hmem).2 n hatom
  | object _ ih =>
    intro t a htyped
    simp only [Value.typed?, Option.map_eq_some_iff, Prod.mk.injEq] at htyped
    obtain ⟨ts, hts, rfl, rfl⟩ := htyped
    have hall : ∀ t ∈ Ty.sortFields ts, t.2.1.MadeOf M ∧ t.2.2.MadeOf M := fun t ht => by
      obtain ⟨b, hb, hsome⟩ := Value.mem_typedFields? hts t (List.mem_mergeSort.1 ht)
      exact ih b hb hsome
    refine ⟨.object fun f hf => ?_, fun n hn => ?_⟩
    · obtain ⟨t, hmem, rfl⟩ := List.mem_map.1 hf
      exact (hall t hmem).1
    · simp only [Arg.atoms, ↓reduceIte, Arg.fieldAtoms_eq_flatMap, List.mem_flatMap,
        List.mem_map] at hn
      obtain ⟨_, ⟨t, hmem, rfl⟩, hatom⟩ := hn
      exact (hall t hmem).2 n hatom
  | participant =>
    intro t a htyped
    simp only [Value.typed?, Option.map_eq_some_iff, Prod.mk.injEq] at htyped
    obtain ⟨_, _, rfl, rfl⟩ := htyped
    exact ⟨.address, by simp [Arg.MadeOf, Arg.atoms, Arg.int]⟩
  | interact _ h =>
    intro t a htyped
    simp only [Value.typed?, Prim.typed?] at htyped
    split at htyped
    · cases htyped
    · cases htyped
    · cases htyped
      exact ⟨h, by simp [Arg.MadeOf, Arg.atoms, Arg.int]⟩
  | prim hfixed =>
    intro t a htyped
    rename_i p
    cases p with
    | interact => cases hfixed
    | _ => cases htyped
  | _ =>
    intro t a htyped
    cases htyped

/-- The types and operands of several values are made of what the values are. -/
theorem typed_madeOf (hvs : ∀ v ∈ vs, v.MadeOf M) {ts : List (Ty × Arg)}
    (htyped : ∀ t ∈ ts, ∃ v ∈ vs, v.typed? = some t) :
    (∀ t ∈ ts.map (·.1), t.MadeOf M) ∧ ∀ a ∈ ts.map (·.2), a.MadeOf M := by
  have hall : ∀ t ∈ ts, t.1.MadeOf M ∧ t.2.MadeOf M := fun t ht => by
    obtain ⟨v, hv, hsome⟩ := htyped t ht
    exact (hvs v hv).typed? hsome
  simpa using ⟨fun t a h => (hall (t, a) h).1, fun a t h => (hall (t, a) h).2⟩

/-- A function type is applied at its own domain. -/
theorem Ty.MadeOf.convert {funType : Ty} (h : funType.MadeOf M) (hvs : ∀ v ∈ vs, v.MadeOf M) :
    Gives (fun r => r.1.MadeOf M ∧ ∀ a ∈ r.2, a.MadeOf M) (funType.convert loc vs) := by
  refine .of_yields fun hrun => ?_
  obtain ⟨ts, htyped, hoperands, rfl, _⟩ := h.ground.convert hrun
  cases h with
  | func _ hrng => exact ⟨hrng, hoperands ▸ (typed_madeOf hvs htyped).2⟩

theorem Ir.Op.type_madeOf {op : Op} (h : op ≠ .ifThenElse) : op.type.MadeOf M := by
  have huint : ∀ t ∈ [Ty.uint256, Ty.uint256], t.MadeOf M := by simp [Ty.MadeOf.uint256]
  have hbytes : ∀ t ∈ [Ty.bytes, Ty.bytes], t.MadeOf M := by simp [Ty.MadeOf.bytes]
  cases op with
  | ifThenElse => exact absurd rfl h
  | add | sub | mul | div | mod | shiftLeft | shiftRight | bitAnd | bitOr | bitXor =>
    exact .func huint .uint256
  | lt | le | eq | ge | gt => exact .func huint .bool
  | bytesEq => exact .func hbytes .bool
  | balance | txnValue => exact .func (by simp) .uint256

/-- An operation has a result of a type of its own, or selects one of its operands. -/
theorem Ir.Op.convert_madeOf (op : Op) (hvs : ∀ v ∈ vs, v.MadeOf M) :
    Gives (fun r => r.1.MadeOf M ∧ ∀ a ∈ r.2, a.MadeOf M) (op.type.convert loc vs) := by
  by_cases hselect : op = .ifThenElse
  · subst hselect
    refine .of_yields fun hrun => ?_
    obtain ⟨dom, rng, ts, solved, hstrip, hlen, htyped, hoperands, hsolve, hrng, _⟩ :=
      Ty.convert_yields hrun
    obtain ⟨htypes, hargs⟩ := typed_madeOf hvs htyped
    refine ⟨?_, hoperands ▸ hargs⟩
    simp only [Op.type, Ty.stripForAll, Ty.func.injEq] at hstrip
    obtain ⟨rfl, rfl⟩ := hstrip
    obtain ⟨_, ⟨t, a⟩, _, rfl⟩ := List.length_eq_three.1 hlen.symm
    obtain ⟨_, _, hentries⟩ := solve_select hsolve
    have hselected : (Ty.var "b").substAll solved.entries = t := by
      simp [hentries, Ty.substAll, Ty.subst]
    rw [hrng, hselected]
    exact htypes t (by simp)
  · exact (Op.type_madeOf hselect).convert hvs

/-! ### Environments -/

def Bindings.MadeOf (M : Material) (env : Bindings) : Prop := ∀ b ∈ env.entries, b.2.value.MadeOf M

namespace Bindings.MadeOf

variable {out : Bindings} {name : String} {sv : SecValue}

variable (h : env.MadeOf M)
include h

omit h in
theorem empty : Bindings.MadeOf M {} := by simp [Bindings.MadeOf]

theorem of_append {more : List (String × SecValue)} (hmore : ∀ b ∈ more, b.2.value.MadeOf M)
    (hentries : out.entries = env.entries ++ more) : out.MadeOf M := by
  intro b hb
  rw [hentries] at hb
  exact (List.mem_append.1 hb).elim (h b) (hmore b)

theorem without (names : List String) : Bindings.MadeOf M (env.without names) :=
  fun b hb => h b (List.mem_filter.1 hb).1

theorem difference (other : Bindings) : Bindings.MadeOf M (env.difference other) :=
  fun b hb => h b (List.mem_filter.1 hb).1

theorem set (hsv : sv.value.MadeOf M) : Bindings.MadeOf M (env.set name sv) := by
  intro b hb
  rcases Env.mem_set hb with hold | rfl
  · exact h b hold
  · exact hsv

theorem find? (hfind : env.find? name = some sv) : sv.value.MadeOf M :=
  h _ (Bindings.mem_of_find? hfind)

theorem bind (hsv : sv.value.MadeOf M) : Gives (Bindings.MadeOf M) (env.bind loc name sv) := by
  refine .of_yields fun hrun => ?_
  obtain ⟨_, rfl, _⟩ := Bindings.bind_yields.1 hrun
  exact h.of_append (by simpa using hsv) rfl

theorem bindAll {bindings : List (String × SecValue)} (hall : ∀ b ∈ bindings, b.2.value.MadeOf M) :
    Gives (Bindings.MadeOf M) (env.bindAll loc bindings) :=
  .of_yields fun hrun => h.of_append hall (Bindings.bindAll_yields hrun).1

theorem merge {overlay : Bindings} (hoverlay : overlay.MadeOf M) :
    Gives (Bindings.MadeOf M) (env.merge loc overlay) :=
  h.bindAll hoverlay

theorem lookup (name : String) : Gives (fun sv => sv.value.MadeOf M) (env.lookup loc name) :=
  .of_yields fun hrun => h.find? (Bindings.lookup_yields.1 hrun).1

/-- A participant that takes a name is still one of the same protocol. -/
theorem identify (name : String) :
    Gives (fun sv => sv.value.MadeOf M) (env.identify loc name) := by
  refine .of_yields fun hrun => ?_
  obtain ⟨bound, hfind, _, rfl | ⟨_, _, _, hvalue, rfl⟩⟩ := Bindings.identify_yields hrun
  · exact h.find? hfind
  · have hbound := h.find? hfind
    rw [hvalue] at hbound
    cases hbound with
    | participant hlive => exact .participant hlive

end Bindings.MadeOf

theorem baseEnv_madeOf : baseEnv.MadeOf M := by
  intro b hb
  have hmem := Env.mem_ofList hb
  simp only [List.mem_cons, List.not_mem_nil, or_false] at hmem
  rcases hmem with rfl | rfl | rfl | rfl | rfl | rfl | rfl | rfl | rfl | rfl | rfl | rfl | rfl |
    rfl | rfl | rfl | rfl | rfl | rfl | rfl | rfl | rfl
  any_goals exact .prim rfl
  any_goals exact .type (by constructor)
  refine .object fun b hb => ?_
  obtain rfl := List.mem_singleton.1 (Env.mem_ofList hb)
  exact .appForm

/-! ### Code -/

namespace Ir

/-- The operands of all statements are made of the material, at every depth. -/
def Code.MadeOf (M : Material) (code : Code) : Prop :=
  ∀ st ∈ statements code, ∀ a ∈ st.operands, a.MadeOf M

namespace Code

variable {code code' : Code} {st : Stmt}

@[simp] theorem madeOf_nil : Code.MadeOf M [] := by simp [Code.MadeOf]

@[simp] theorem madeOf_append : Code.MadeOf M (code ++ code') ↔ code.MadeOf M ∧ code'.MadeOf M := by
  simp [Code.MadeOf, or_imp, forall_and]

theorem MadeOf.append (h : code.MadeOf M) (h' : code'.MadeOf M) : Code.MadeOf M (code ++ code') :=
  madeOf_append.2 ⟨h, h'⟩

theorem MadeOf.cons (h : Code.MadeOf M [st]) (h' : code.MadeOf M) : Code.MadeOf M (st :: code) :=
  h.append h'

theorem MadeOf.single (h : ∀ a ∈ st.operands, a.MadeOf M)
    (hparts : ∀ code ∈ st.parts, Code.MadeOf M code) : Code.MadeOf M [st] :=
  Everywhere.single h hparts

theorem MadeOf.atom (h : ∀ a ∈ st.operands, a.MadeOf M) (hparts : st.parts = []) :
    Code.MadeOf M [st] :=
  .single h (by simp [hparts])

/-- One statement for each of several operands. -/
theorem MadeOf.each {operands : List Arg} {f : Arg → Stmt}
    (h : ∀ a ∈ operands, Code.MadeOf M [f a]) : Code.MadeOf M (operands.map f) := by
  induction operands with
  | nil => exact madeOf_nil
  | cons a operands ih =>
    obtain ⟨hfirst, hrest⟩ := List.forall_mem_cons.1 h
    exact hfirst.cons (ih hrest)

theorem MadeOf.prompt {slot : Nat} {result : Option Var} (h : code.MadeOf M) :
    Code.MadeOf M [.prompt loc slot result code] :=
  .single (by simp [Stmt.operands]) (by simpa [Stmt.parts] using h)

theorem MadeOf.branch {v : Var} (h : code.MadeOf M) (h' : code'.MadeOf M) :
    Code.MadeOf M [.branch loc (.var v) code code'] :=
  .single (by simp [Stmt.operands, Arg.MadeOf, Arg.atoms, Arg.int])
    (by simpa [Stmt.parts] using ⟨h, h'⟩)

/-- What is returned is mentioned in the form that it has at run time. -/
theorem MadeOf.ret {slot : Nat} {v : Value} (h : v.MadeOf M) :
    Code.MadeOf M [.ret loc slot (some v)] := by
  refine .atom (fun a ha => ?_) rfl
  simp only [Stmt.operands, Option.bind_some, List.mem_map, Option.mem_toList] at ha
  obtain ⟨t, ht, rfl⟩ := ha
  exact (h.typed? ht).2

theorem MadeOf.unprompted (h : code.MadeOf M) (loc : Loc) (slot : Nat) (result : Value) :
    (Code.unprompted code loc slot result).MadeOf M :=
  Everywhere.unprompted (P := fun st => ∀ a ∈ st.operands, a.MadeOf M) h (by simp [Stmt.operands]) result

end Code

end Ir

/-! ### Operations -/

/-- The views of participants are made of the material. -/
def Mode.MadeOf (M : Material) : Mode → Prop
  | .step parties | .consensus _ parties => ∀ e ∈ parties.views.entries, Bindings.MadeOf M e.2
  | .module | .pureLocal | .localStep => True

/-- Where code may be emitted the protocol is live, and so it is everywhere but at the top level of
modules. -/
structure Ctx.MadeOf (M : Material) (ctx : Ctx) : Prop where
  live : ctx.canLift = true ∨ ctx.mode.isModule = false → M.live
  views : ctx.mode.MadeOf M

/-- A result that satisfies `P`, with code that is made of the material. -/
structure Lifted.Carries {α : Type} (M : Material) (P : α → Prop) (r : Lifted α) : Prop where
  code : r.code.MadeOf M
  value : P r.value

theorem Lifted.Carries.after {α : Type} {P : α → Prop} {r : Lifted α} (h : r.Carries M P) {code : Code}
    (hcode : code.MadeOf M) : Lifted.Carries M P (r.after code) :=
  ⟨hcode.append h.code, h.value⟩

/-- The result of an evaluated expression, with its code. -/
abbrev Lifted.MadeOf (M : Material) (r : Lifted SecValue) : Prop :=
  r.Carries M fun sv => sv.value.MadeOf M

/-- As above, but an integer may have just been computed. -/
abbrev Lifted.Computed (M : Material) (r : Lifted SecValue) : Prop :=
  r.Carries M fun sv => (∀ loc n, sv.value ≠ .int loc n) → sv.value.MadeOf M

theorem Lifted.MadeOf.computed {r : Lifted SecValue} (h : r.MadeOf M) : r.Computed M :=
  ⟨h.code, fun _ => h.value⟩

theorem Lifted.Carries.madeOf {r : Lifted SecValue} (h : r.Computed M)
    (hint : ∀ loc n, r.value.value = .int loc n → M.integer n) : r.MadeOf M := by
  refine ⟨h.code, ?_⟩
  by_cases hvalue : ∃ loc n, r.value.value = .int loc n
  · obtain ⟨loc, n, heq⟩ := hvalue
    rw [heq]
    exact .int (hint loc n heq)
  · exact h.value fun loc n heq => hvalue ⟨loc, n, heq⟩

theorem Lifted.MadeOf.plain {sv : SecValue} (h : sv.value.MadeOf M) :
    Lifted.MadeOf M (.plain sv) :=
  ⟨Code.madeOf_nil, h⟩

namespace Ctx.MadeOf

theorem lift (hctx : ctx.MadeOf M) {t : Ty} (ht : t.MadeOf M) {e : Expr}
    (he : ∀ a ∈ e.operands, a.MadeOf M) (label : String) :
    Gives (fun r => r.code.MadeOf M ∧ (Value.var r.value).MadeOf M) (ctx.lift loc label t e) := by
  refine .of_yields fun hrun => ?_
  simp only [Ctx.lift, yields_bind, Ctx.alloc_yields, yields_pure] at hrun
  obtain ⟨_, _, ⟨hlift, rfl, rfl⟩, rfl, rfl⟩ := hrun
  exact ⟨.atom he rfl, .var (hctx.live (.inl hlift)) ht⟩

theorem liftValue (hctx : ctx.MadeOf M) {t : Ty} (ht : t.MadeOf M) {e : Expr}
    (he : ∀ a ∈ e.operands, a.MadeOf M) (label : String) (level : Level) :
    Gives (Lifted.MadeOf M) (ctx.liftValue loc label t e level) :=
  (hctx.lift ht he label).bind fun _ hr => .pure ⟨hr.1, hr.2⟩

theorem applyOp (hctx : ctx.MadeOf M) (op : Op) (hargs : ∀ v ∈ args.map (·.value), v.MadeOf M) :
    Gives (Lifted.Computed M) (ctx.applyOp loc op args) := by
  unfold Ctx.applyOp
  split
  · rename_i v hconstant
    refine .pure ⟨Code.madeOf_nil, fun hnot => ?_⟩
    rcases Op.constant?_cases hconstant with ⟨n, rfl⟩ | ⟨b, rfl⟩
    · exact absurd rfl (hnot _ _)
    · exact .bool
  · exact (op.convert_madeOf hargs).bind fun _ hr =>
      (hctx.liftValue hr.1 (by exact hr.2) "prim" _).imp fun _ h => h.computed

end Ctx.MadeOf

/-! ### Primitives -/

/-- Types that are built of types are made of what those are. -/
theorem Prim.makeType?_madeOf {p : Prim} {t : Ty} (hvs : ∀ v ∈ vs, v.MadeOf M)
    (h : p.makeType? vs = some t) : t.MadeOf M := by
  have htypes : ∀ {vs : List Value} {ts : List Ty}, (∀ v ∈ vs, v.MadeOf M) →
      Value.types? vs = some ts → ∀ t ∈ ts, t.MadeOf M := by
    intro vs ts hvs hts t ht
    obtain ⟨_, hin⟩ := Value.mem_types? hts t ht
    cases hvs _ hin
    assumption
  unfold Prim.makeType? at h
  split at h
  · obtain ⟨types, hmap, rfl⟩ := Option.map_eq_some_iff.1 h
    obtain ⟨hdom, hrng, _⟩ := List.forall_mem_cons.1 hvs |>.imp_right List.forall_mem_cons.1
    cases hdom with
    | tuple hdom =>
      cases hrng with
      | type hrng => exact .func (htypes hdom hmap) hrng
  · obtain ⟨size, hcount, rfl⟩ := Option.map_eq_some_iff.1 h
    cases hvs _ List.mem_cons_self with
    | type helem => exact .array helem (M.counts hcount)
  · obtain ⟨types, hmap, rfl⟩ := Option.map_eq_some_iff.1 h
    exact .tuple (htypes hvs hmap)
  · obtain ⟨types, hmap, rfl⟩ := Option.map_eq_some_iff.1 h
    cases hvs _ List.mem_cons_self with
    | object hfields =>
      refine .object fun f hf => ?_
      obtain ⟨b, hb, _, hvalue⟩ := Value.mem_fieldTypes? hmap f (List.mem_mergeSort.1 hf)
      have hmade := hfields b hb
      rw [hvalue] at hmade
      cases hmade
      assumption
  · cases h

/-- The members of an enumeration are counted from zero. -/
theorem Ctx.makeEnum_madeOf (henv : env.MadeOf M) {n : Int} {size : Nat}
    (hcount : Integer.count? n = some size) :
    Gives (Value.MadeOf M) (ctx.makeEnum loc env size) := by
  refine Meets.freshTag.bind fun _ _ => .pure (.tuple (List.forall_mem_cons.2 ⟨.closure henv, ?_⟩))
  intro v hv
  obtain ⟨i, hi, rfl⟩ := List.mem_map.1 hv
  exact .int (M.counts hcount i (List.mem_range.1 hi))

namespace Ctx.MadeOf

/-- Where a mode other than that of modules is asked for, the protocol is live. -/
theorem expectMode (hctx : ctx.MadeOf M) {allowed : Mode → Bool} {operation : String}
    (h : allowed .module = false) :
    Gives (fun _ => M.live) (ctx.expectMode loc operation allowed) := by
  refine Gives.ensure.imp fun _ hallowed => hctx.live (.inr ?_)
  cases hmode : ctx.mode with
  | module => simp [hmode, h] at hallowed
  | _ => rfl

theorem beginTransfer (hctx : ctx.MadeOf M) (hargs : ∀ v ∈ args.map (·.value), v.MadeOf M)
    (invalid : Fault) : Gives (Lifted.MadeOf M) (ctx.beginTransfer loc args invalid) := by
  refine (hctx.expectMode rfl).bind fun _ hlive => ?_
  split
  · refine .of_yields fun hrun => ?_
    simp only [yields_bind, SecValue.requirePublic_yields] at hrun
    obtain ⟨amount, _, ⟨rfl, rfl⟩, hrun⟩ := hrun
    split at hrun
    · rename_i operand htyped
      simp only [yields_bind, yields_pure] at hrun
      obtain ⟨tag, _, _, rfl, _⟩ := hrun
      refine .plain (.object fun b hb => ?_)
      obtain rfl := List.mem_singleton.1 (Env.mem_ofList hb)
      exact .transferTo hlive ((hargs amount List.mem_cons_self).typed? htyped).2
    · simp at hrun
  · exact .fail trivial

theorem applyPrim (hctx : ctx.MadeOf M) (henv : env.MadeOf M) {p : Prim} {primLoc : Loc}
    (hp : (Value.prim primLoc p).MadeOf M) (hargs : ∀ v ∈ args.map (·.value), v.MadeOf M) :
    Gives (Lifted.Computed M) (ctx.applyPrim loc env p args) := by
  have hbool : (Ty.func [.bool] .null).MadeOf M := .func (by simp [Ty.MadeOf.bool]) .null
  have haddress : (Ty.func [.address] .null).MadeOf M := .func (by simp [Ty.MadeOf.address]) .null
  have hplain : ∀ {sv : SecValue}, sv.value.MadeOf M → Lifted.Computed M (.plain sv) :=
    fun h => (Lifted.MadeOf.plain h).computed
  unfold Ctx.applyPrim
  cases p with
  | op o => exact hctx.applyOp o hargs
  | funType | arrayType | tupleType | objectType =>
    exact Gives.orFail.bind fun _ ht => .pure (hplain (.type (Prim.makeType?_madeOf hargs ht)))
  | makeEnum =>
    simp only
    split
    · exact Gives.orFail.bind fun _ hcount =>
        (Ctx.makeEnum_madeOf henv hcount).bind fun _ henum => .pure (hplain henum)
    · exact .fail trivial
  | app | committed | exited => exact .fail trivial
  | interact who method t =>
    cases hp with
    | prim hfixed => cases hfixed
    | interact _ ht =>
      exact .skip fun _ => (ht.convert hargs).bind fun _ hr =>
        (hctx.liftValue hr.1 (by exact hr.2) "interact" _).imp fun _ h => h.computed
  | declassify =>
    simp only
    split
    · rename_i arg
      refine Meets.bind (P := fun sv => sv.value.MadeOf M) (.of_yields fun hrun => ?_)
        fun _ hknown => .pure (hplain hknown)
      obtain ⟨_, rfl, _⟩ := SecValue.declassify_yields.1 hrun
      exact hargs arg.value List.mem_cons_self
    · exact .fail trivial
  | commit => exact .skip fun _ => .skip fun _ => .pure (hplain (.prim rfl))
  | digest =>
    refine Meets.bind (P := fun ts => ∀ a ∈ ts.map (·.2), a.MadeOf M)
      (.of_yields fun hrun => (typed_madeOf hargs (Value.typeOfAll_yields hrun).1).2) fun ts hts => ?_
    exact (hctx.liftValue .uint256 (by exact hts) "digest" _).imp fun _ h => h.computed
  | claim c =>
    refine (hbool.convert hargs).bind fun r hr => .pure ⟨.each fun a ha => ?_, fun _ => .null⟩
    exact .atom (List.forall_mem_singleton.2 (hr.2 a ha)) rfl
  | transfer => exact (hctx.beginTransfer hargs _).imp fun _ h => h.computed
  | transferTo tag amount =>
    cases hp with
    | prim hfixed => cases hfixed
    | transferTo _ hamount =>
      refine .skip fun _ => (haddress.convert hargs).bind fun r hr =>
        .pure ⟨.each fun a ha => ?_, fun _ => .null⟩
      exact .atom (by simpa [Stmt.operands] using ⟨hr.2 a ha, hamount⟩) rfl
  | exit =>
    exact .skip fun _ => .skip fun _ =>
      .pure ⟨.atom (by simp [Stmt.operands]) rfl, fun _ => .prim rfl⟩

/-! ### Parts of values -/

theorem fieldRef (hctx : ctx.MadeOf M) {t : Ty} (ht : t.MadeOf M) {object : Arg}
    (hobject : object.MadeOf M) (field : String) (level : Level) :
    Gives (Lifted.MadeOf M) (ctx.fieldRef loc t object field level) := by
  unfold Ctx.fieldRef
  split
  · rename_i hfield
    exact hctx.liftValue (ht.field? hfield) (by simpa [Expr.operands] using hobject) _ level
  · exact .fail trivial

theorem participantField {p : Participant} (hlive : M.live) (field : String) :
    Gives (Value.MadeOf M) (p.field loc field) := by
  unfold Participant.field
  split
  · exact Meets.freshTag.bind fun _ _ => .pure (.only hlive)
  · split
    · exact Meets.freshTag.bind fun _ _ => .pure (.round hlive)
    · exact .fail trivial

theorem field (hctx : ctx.MadeOf M) {v : Value} (hv : v.MadeOf M) (field : String) :
    Gives (Lifted.MadeOf M) (ctx.field loc v field) := by
  unfold Ctx.field
  cases hv with
  | object h =>
    simp only
    split
    · rename_i sv hfind
      exact .pure (.plain (h _ (Bindings.mem_of_find? hfind)))
    · exact .fail trivial
  | var hlive h =>
    simp only
    split
    · exact hctx.fieldRef h (by simp [Arg.MadeOf, Arg.atoms, Arg.int]) field _
    · exact .fail trivial
  | interact hlive h =>
    simp only
    split
    · exact hctx.fieldRef h (by simp [Arg.MadeOf, Arg.atoms, Arg.int]) field _
    · exact .fail trivial
  | participant hlive =>
    exact (participantField hlive field).bind fun _ hv => .pure (.plain hv)
  | round hlive =>
    simp only
    split
    · exact .fail trivial
    · refine Meets.bind (P := Value.MadeOf M) ?_ fun _ hv => .pure (.plain hv)
      unfold Round.field
      split
      · exact Meets.freshTag.bind fun _ _ => .pure (.round hlive)
      · exact .fail trivial
  | prim hfixed =>
    rename_i p
    cases p with
    | interact => cases hfixed
    | _ => exact .fail trivial
  | _ => exact .fail trivial

theorem element (hctx : ctx.MadeOf M) {v index : Value} (hv : v.MadeOf M) (hindex : index.MadeOf M)
    (level : Level) : Gives (Lifted.MadeOf M) (ctx.element loc v index level) := by
  have hvar : ∀ x : Var, (Arg.var x).MadeOf M := by simp [Arg.MadeOf, Arg.atoms, Arg.int]
  unfold Ctx.element
  split
  · split
    · cases hv with
      | tuple h =>
        exact .skip fun i => Gives.orFail.bind fun elem helem =>
          .pure (.plain (h elem (List.mem_of_getElem? helem)))
    · rename_i x
      cases hv with
      | var _ htype =>
        split
        · rename_i elems heq
          rw [heq] at htype
          cases htype with
          | tuple helems =>
            exact .skip fun i => Gives.orFail.bind fun elem helem =>
              hctx.liftValue (helems elem (List.mem_of_getElem? helem))
                (by simpa [Expr.operands] using hvar x) _ level
        · rename_i elem size heq
          rw [heq] at htype
          cases htype with
          | array helem _ =>
            refine .skip fun _ => hctx.liftValue helem ?_ "ref" level
            simpa [Expr.operands] using ⟨hvar x, (hindex.typed? rfl).2⟩
        · exact .fail trivial
    · exact .fail trivial
  · split
    · split
      · rename_i x
        cases hv with
        | var _ htype =>
          split
          · rename_i elem size heq
            rw [heq] at htype
            cases htype with
            | array helem _ =>
              exact hctx.liftValue helem (by simpa [Expr.operands] using ⟨hvar x, hvar _⟩) "ref" level
          · exact .fail trivial
      · exact .fail trivial
    · exact .fail trivial
  · exact .fail trivial

end Ctx.MadeOf

end Choreography
