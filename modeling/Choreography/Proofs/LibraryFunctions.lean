import Choreography.Proofs.Compilation
import Choreography.Proofs.ConstantExpressions

/-!
The functions of the standard library. Each is a closure over the base environment and the functions
before it, so what a program binds never changes what the operators that stand for them compute.
-/

namespace Choreography

open Eval

variable {loc : Loc} {ctx : Ctx} {env : Bindings} {options : Options} {sources : SourceTable}
  {libs : Libraries} {s s' : Supply}

/-- The environments that bind names one after the other on top of the base environment and the
standard library. -/
inductive Bindings.Grown (options : Options) : Bindings → Prop
  | initial {fuel : Nat} {sources : SourceTable} {libs : Libraries} {library : Bindings}
    {s s' : Supply} (hlink : (link fuel options sources []).Yields s libs s')
    (hlibrary : libs.get? SourceTable.libraryId = some library) :
    Grown options (baseEnv.setAll library.entries)
  | insert {env out : Bindings} {name : String} {sv : SecValue} (h : Grown options env)
    (hinsert : env.insert? name sv = some out) : Grown options out

/-- A function whose body is one expression, written at `loc` where `env` is bound. -/
def oneLiner (loc : Loc) (name : String) (formals : List String) (result : Surface.Expr)
    (env : Bindings) (tag : Tag) : SecValue :=
  .pub (.closure tag { loc, name := some name, formals, body := .returning loc result, env })

/-! ### What the functions compute -/

section Functions

variable {inner : Bindings} {e : Surface.Expr} {name : String} {tag : Tag}

/-- The value of a formal, where the name was free. -/
theorem Settles.formal {formal : String} {bound : List (String × SecValue)} {sv : SecValue}
    {k : Constant} (hfree : inner.find? formal = none) (hbound : bound.lookup formal = some sv)
    (hsv : SecValue.Known k sv) (loc : Loc) :
    Settles ctx ⟨inner.entries ++ bound⟩ (.ident loc formal) k :=
  .ident (by rw [Env.find?_of_append rfl, hfree, Option.none_or, hbound]) hsv

namespace Bindings.Computes

theorem of_unary {op : Surface.UnaryOp}
    (hfind : env.find? name = some (oneLiner loc name ["x"] e inner tag))
    (hx : inner.find? "x" = none) (h : ∀ {ctx : Ctx} {env : Bindings} {k₁ k : Constant},
      (∀ loc, Settles ctx env (.ident loc "x") k₁) → op.reading? k₁ = some k → Settles ctx env e k) :
    env.Computes name op.Makes := by
  refine .of_returning hfind rfl (by simp) (by simpa using hx) fun {ctx _ args k} _ hargs hk => ?_
  obtain ⟨k₁, rfl, hk⟩ := hk
  obtain _ | ⟨hsv, _ | _⟩ := hargs
  exact ⟨rfl, h (.formal hx rfl hsv) hk⟩

theorem of_binary {op : Surface.BinaryOp}
    (hfind : env.find? name = some (oneLiner loc name ["x", "y"] e inner tag))
    (hx : inner.find? "x" = none) (hy : inner.find? "y" = none)
    (h : ∀ {ctx : Ctx} {env : Bindings} {k₁ k₂ k : Constant}, ctx.canLift = true →
      inner.entries <+: env.entries → (∀ loc, Settles ctx env (.ident loc "x") k₁) →
      (∀ loc, Settles ctx env (.ident loc "y") k₂) → op.reading? k₁ k₂ = some k → Settles ctx env e k) :
    env.Computes name op.Makes := by
  refine .of_returning hfind rfl (by simp) (by simpa using ⟨hx, hy⟩)
    fun {ctx _ args k} hctx hargs hk => ?_
  obtain ⟨k₁, k₂, rfl, hk⟩ := hk
  obtain _ | ⟨hsv, _ | ⟨hsv', _ | _⟩⟩ := hargs
  exact ⟨rfl, h hctx (List.prefix_append _ _) (.formal hx rfl hsv) (.formal hy rfl hsv') hk⟩

theorem not (hfind : env.find? name = some (oneLiner loc name ["x"]
      (.ternary loc (.ident loc "x") (.bool loc false) (.bool loc true)) inner tag))
    (hx : inner.find? "x" = none) : env.Computes name Surface.UnaryOp.not.Makes := by
  refine of_unary hfind hx fun {_ _ k₁ k} hx hk => ?_
  obtain _ | b := k₁ <;> cases hk
  have hcond := (hx loc).ternary (.bool false loc) (.bool true loc) loc
  cases b <;> exact hcond

theorem neq (hnot : inner.Computes "not" Surface.UnaryOp.not.Makes)
    (hfind : env.find? name = some (oneLiner loc name ["x", "y"]
      (.call loc (.ident loc "not") [.binary loc .eq (.ident loc "x") (.ident loc "y")]) inner tag))
    (hx : inner.find? "x" = none) (hy : inner.find? "y" = none) :
    env.Computes name Surface.BinaryOp.neq.Makes := by
  refine of_binary hfind hx hy fun {_ _ k₁ k₂ k} hctx henv hx hy hk => ?_
  obtain a | _ := k₁ <;> obtain b | _ := k₂ <;> cases hk
  have heq : Settles _ _ (.binary loc .eq (.ident loc "x") (.ident loc "y")) (.bool (a = b)) :=
    .operation rfl rfl (hx loc) (hy loc)
  exact (hnot.of_older henv).call hctx (.cons heq .nil) ⟨_, rfl, by simp [Surface.UnaryOp.reading?]⟩ loc

theorem minus (hfind : env.find? name = some (oneLiner loc name ["x"]
      (.binary loc .minus (.int loc "0" 10) (.ident loc "x")) inner tag))
    (hx : inner.find? "x" = none) : env.Computes name Surface.UnaryOp.minus.Makes := by
  refine of_unary hfind hx fun {_ _ k₁ k} hx hk => ?_
  obtain n | _ := k₁ <;> cases hk
  exact .operation rfl (by simp [Surface.BinaryOp.reading?]) (.int (Integer.literal_decimal 0)) (hx loc)

theorem and (hfind : env.find? name = some (oneLiner loc name ["x", "y"]
      (.ternary loc (.ident loc "x") (.ident loc "y") (.bool loc false)) inner tag))
    (hx : inner.find? "x" = none) (hy : inner.find? "y" = none) :
    env.Computes name Surface.BinaryOp.and.Makes := by
  refine of_binary hfind hx hy fun {_ _ k₁ k₂ k} _ _ hx hy hk => ?_
  obtain _ | a := k₁ <;> obtain _ | b := k₂ <;> cases hk
  have hcond := (hx loc).ternary (hy loc) (.bool false loc) loc
  cases a <;> exact hcond

theorem or (hfind : env.find? name = some (oneLiner loc name ["x", "y"]
      (.ternary loc (.ident loc "x") (.bool loc true) (.ident loc "y")) inner tag))
    (hx : inner.find? "x" = none) (hy : inner.find? "y" = none) :
    env.Computes name Surface.BinaryOp.or.Makes := by
  refine of_binary hfind hx hy fun {_ _ k₁ k₂ k} _ _ hx hy hk => ?_
  obtain _ | a := k₁ <;> obtain _ | b := k₂ <;> cases hk
  have hcond := (hx loc).ternary (.bool true loc) (hy loc) loc
  cases a <;> exact hcond

end Bindings.Computes

end Functions

/-! ### Linking the library -/

/-- A function that a module exports is closed over what was bound before it. -/
theorem Link.item_oneLiner {fuel : Nat} {m m' : ModuleState} {name : String} {formals : List String}
    {e : Surface.Expr} (hrun : (Link.item (evaluator fuel) sources libs m
      (.exported loc (.function loc (some name) formals (.returning loc e)))).Yields s m' s') :
    ∃ tag, m'.env = m.env.push name (oneLiner loc name formals e m.env tag) ∧
      m'.exports.entries = m.exports.entries ++ [(name, oneLiner loc name formals e m.env tag)] := by
  simp only [Link.item, Link.topLevel, yields_bind, yields_ensure, yields_pure] at hrun
  obtain ⟨out, _, ⟨r, _, hstmts, _, _, _, rfl, rfl⟩, exports, _, hmerge, rfl, _⟩ := hrun
  obtain ⟨hexports, _⟩ := Bindings.merge_yields hmerge
  cases fuel with
  | zero => exact absurd hstmts yields_outOfFuel
  | succ fuel =>
    rw [evaluator_succ_stmts] at hstmts
    simp only [Evaluator.evalStmts, Evaluator.extend, yields_bind, yields_orFail, yields_freshTag,
      Bindings.bind_yields, yields_pure] at hstmts
    obtain ⟨_, _, ⟨hname, rfl⟩, tag, _, _, bound, _, ⟨hnew, rfl, rfl⟩, next, _, hnext, rfl, _⟩ := hstmts
    cases hname
    cases fuel with
    | zero => exact absurd hnext yields_outOfFuel
    | succ fuel =>
      rw [evaluator_succ_stmts] at hnext
      simp only [Evaluator.evalStmts, yields_pure] at hnext
      obtain ⟨rfl, _⟩ := hnext
      refine ⟨tag, rfl, ?_⟩
      rw [hexports]
      exact congrArg _ (Env.difference_entries rfl (by simpa using Env.contains_eq_false.1 hnew))

theorem Bindings.Provides.library {fuel : Nat} {library : Bindings}
    (hlink : (link fuel options sources []).Yields s libs s')
    (hlibrary : libs.get? SourceTable.libraryId = some library) :
    Bindings.Provides (baseEnv.setAll library.entries) ∧
      library.entries.map (·.1) = ["not", "neq", "bytes_neq", "minus", "and", "or"] := by
  simp only [link, Link.withLibrary, List.any_nil, Bool.false_eq_true, ↓reduceIte, Link.modules,
    yields_bind, yields_pure, Link.moduleExports, standardLibrary, Surface.Module.afterHeader,
    Link.initialEnv, yields_ensure] at hlink
  obtain ⟨exports, _, ⟨_, _, ⟨_, _, _, rfl, _⟩, _, _, ⟨rfl, _⟩, m₆, _, hitems, rfl, _⟩, rfl, _⟩ := hlink
  obtain rfl : m₆.exports = library := by
    simpa [OrderedMap.insert, OrderedMap.place, OrderedMap.get?] using hlibrary
  simp only [Link.items, yields_bind, yields_pure] at hitems
  obtain ⟨m₁, _, h₁, m₂, _, h₂, m₃, _, h₃, m₄, _, h₄, m₅, _, h₅, _, _, h₆, rfl, _⟩ := hitems
  obtain ⟨t₁, henv₁, hexports₁⟩ := Link.item_oneLiner h₁
  obtain ⟨t₂, henv₂, hexports₂⟩ := Link.item_oneLiner h₂
  obtain ⟨t₃, henv₃, hexports₃⟩ := Link.item_oneLiner h₃
  obtain ⟨t₄, henv₄, hexports₄⟩ := Link.item_oneLiner h₄
  obtain ⟨t₅, henv₅, hexports₅⟩ := Link.item_oneLiner h₅
  obtain ⟨t₆, henv₆, hexports₆⟩ := Link.item_oneLiner h₆
  rw [hexports₆, hexports₅, hexports₄, hexports₃, hexports₂, hexports₁]
  have hnot : m₁.env.Computes "not" Surface.UnaryOp.not.Makes :=
    .not (by rw [henv₁]; exact Env.find?_push_self rfl) rfl
  refine ⟨⟨?_, ?_⟩, rfl⟩
  · intro op name hop
    cases op <;> cases hop
    · exact .minus (by rw [Env.find?_setAll]; rfl) (by rw [henv₃, henv₂, henv₁]; rfl)
    · exact .not (by rw [Env.find?_setAll]; rfl) rfl
  · intro op name hop
    cases op <;> cases hop
    · exact .and (by rw [Env.find?_setAll]; rfl) (by rw [henv₄, henv₃, henv₂, henv₁]; rfl)
        (by rw [henv₄, henv₃, henv₂, henv₁]; rfl)
    · exact .or (by rw [Env.find?_setAll]; rfl) (by rw [henv₅, henv₄, henv₃, henv₂, henv₁]; rfl)
        (by rw [henv₅, henv₄, henv₃, henv₂, henv₁]; rfl)
    · exact .neq hnot (by rw [Env.find?_setAll]; rfl) (by rw [henv₁]; rfl) (by rw [henv₁]; rfl)
    · -- an operator on addresses, which no constant is
      refine .of_binary (by rw [Env.find?_setAll]; rfl) (by rw [henv₂, henv₁]; rfl)
        (by rw [henv₂, henv₁]; rfl) fun {_ _ k₁ k₂ _} _ _ _ _ hk => ?_
      cases k₁ <;> cases k₂ <;> cases hk

namespace Bindings.Grown

theorem older {out : Bindings} {name : String} {sv : SecValue}
    (hinsert : env.insert? name sv = some out) : env.entries <+: out.entries := by
  unfold Env.insert? at hinsert
  split at hinsert
  · cases hinsert
  · exact Option.some.inj hinsert ▸ List.prefix_append _ _

theorem provides (h : env.Grown options) : env.Provides := by
  induction h with
  | initial hlink hlibrary => exact (Provides.library hlink hlibrary).1
  | insert _ hinsert ih =>
    exact ⟨fun hop => (ih.unary hop).of_older (older hinsert),
      fun hop => (ih.binary hop).of_older (older hinsert)⟩

/-- The names of the base environment that the library leaves as they are. -/
theorem find?_base (h : env.Grown options) {name : String} {sv : SecValue}
    (hname : name ∉ ["not", "neq", "bytes_neq", "minus", "and", "or"])
    (hfind : baseEnv.find? name = some sv) : env.find? name = some sv := by
  induction h with
  | initial hlink hlibrary =>
    rw [← (Provides.library hlink hlibrary).2, ← List.mem_reverse, ← List.map_reverse] at hname
    rw [Env.find?_setAll, List.lookup_eq_none_iff.2, Option.none_or, hfind]
    intro b hb
    simpa using fun heq => hname (List.mem_map.2 ⟨b, hb, heq.symm⟩)
  | insert _ hinsert ih => exact Env.find?_of_older (older hinsert) ih

end Bindings.Grown

/-! ### Constant expressions -/

/-- Constant expressions evaluate to what they are read as and leave no code, whatever a program has
bound. -/
theorem constant_evaluates (henv : env.Grown options) (hctx : ctx.canLift = true)
    {e : Surface.Expr} {k : Constant} (h : e.Reads k) :
    Arrives (fun fuel => Elaboration.evalExpr fuel ctx env e)
      fun r => ∃ loc, r = ⟨[], .pub (k.value loc)⟩ := by
  refine (Settles.of_reads henv.provides hctx h).imp fun r hr => ?_
  obtain ⟨code, value⟩ := r
  obtain ⟨rfl, loc, rfl⟩ := hr
  exact ⟨loc, rfl⟩

/-- The text `!(-(1 << 3) != -8) && -7 >> 1 < -3`. -/
def Surface.shifts : Surface.Expr :=
  let negated (e : Expr) : Expr := .unary here .minus e
  .binary here .and
    (.unary here .not (.paren here (.binary here .neq
      (negated (.paren here (.binary here .shiftLeft (number "1") (number "3"))))
      (negated (number "8")))))
    (.binary here .lt (.binary here .shiftRight (negated (number "7")) (number "1"))
      (negated (number "3")))

theorem exists_grown : ∃ env : Bindings, env.Grown {} ∧ env.contains "x" = false := by
  obtain ⟨libs, hlink, hlibrary⟩ := exists_ok_of_any
    (f := fun libs : Libraries => (libs.get? SourceTable.libraryId).any fun library =>
      !(Env.contains (baseEnv.setAll library.entries) "x"))
    (x := (Eval.runFrom (link 10 {} {} []) {}).1) (by decide +kernel)
  obtain ⟨library, hlibrary, hx⟩ := (Option.any_eq_true _ _).1 hlibrary
  exact ⟨_, .initial (Prod.ext hlink rfl) hlibrary, by simpa using hx⟩

theorem shifts_evaluates : ∃ env : Bindings, env.Grown {} ∧ env.contains "x" = true ∧
    Arrives (fun fuel => Elaboration.evalExpr fuel { mode := .step {}, canLift := true } env
      Surface.shifts) fun r => ∃ loc, r = ⟨[], .pub (.bool loc true)⟩ := by
  obtain ⟨env, henv, hfree⟩ := exists_grown
  have hbound : Bindings.Grown {} (env.push "x" (.pub (.null Surface.here))) :=
    henv.insert (if_neg (by simp [hfree]))
  have hleft : Surface.BinaryOp.shiftLeft.reading? (.int 1) (.int 3) = some (.int 8) := by
    norm_num [Surface.BinaryOp.reading?]
  have hright : Surface.BinaryOp.shiftRight.reading? (.int (-7)) (.int 1) = some (.int (-4)) := by
    norm_num [Surface.BinaryOp.reading?]
  have hint (n : Int) : (Surface.number (Integer.decimal n)).Reads (.int n) :=
    .int (Integer.literal_decimal n)
  have hreads : Surface.shifts.Reads (.bool true) :=
    .binary (.unary (.paren (.binary (.unary (.paren (.binary (hint 1) (hint 3) hleft)) rfl)
      (.unary (hint 8) rfl) rfl)) rfl)
      (.binary (.binary (.unary (hint 7) rfl) (hint 1) hright) (.unary (hint 3) rfl) rfl) rfl
  refine ⟨_, hbound, ?_, constant_evaluates hbound rfl hreads⟩
  rw [Env.contains, Env.find?_push_self hfree]
  rfl

end Choreography
