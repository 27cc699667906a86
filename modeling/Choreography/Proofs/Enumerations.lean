import Choreography.Proofs.Blame
import Choreography.Proofs.LibraryFunctions

/-!
Enumerations. The function that tells the members is closed over what its maker has bound, and its
formal is a name like any other: it decides membership where `x` was free, and nowhere else.
-/

namespace Choreography

open Eval

variable {loc nameLoc litLoc : Loc} {ctx : Ctx} {env : Bindings} {options : Options}

/-- The function that tells the members, made where `env` is bound. -/
def Ctx.member (ctx : Ctx) (loc : Loc) (env : Bindings) (n : Nat) : Closure :=
  { loc, name := some (ctx.localName "makeEnum"), formals := ["x"], body := enumBody loc n, env }

theorem Integer.count?_natCast {n : Nat} (hn : n < 2 ^ 63) : Integer.count? n = some n := by
  have hlow : -Int.pow 2 63 ≤ (n : Int) :=
    (Int.neg_nonpos_of_nonneg (Int.pow_nonneg (by decide))).trans (Int.natCast_nonneg n)
  have hhigh : (n : Int) < Int.pow 2 63 := (Int.ofNat_lt.2 hn).trans_eq (Int.natCast_pow 2 63)
  rw [Integer.count?, Integer.word?, if_pos ⟨hlow, hhigh⟩]

/-- The function that tells the members, then the members. -/
def Ctx.enumeration (ctx : Ctx) (loc : Loc) (env : Bindings) (tag : Tag) (n : Nat) : Value :=
  .tuple loc (.closure tag (ctx.member loc env n) :: (List.range n).map fun (i : Nat) => .int loc i)

theorem Ctx.applyPrim_makeEnum {n : Nat} (hn : n < 2 ^ 63) (s : Supply) :
    (ctx.applyPrim loc env .makeEnum [.pub (.int litLoc n)]).Yields s
      (.plain (.pub (ctx.enumeration litLoc env s.nextTag n))) { s with nextTag := s.nextTag + 1 } := by
  simp only [applyPrim, Labelled.pub, Integer.count?_natCast hn, yields_bind, yields_orFail,
    makeEnum, yields_freshTag, yields_pure]
  exact ⟨n, s, ⟨rfl, rfl⟩, _, _, ⟨_, _, ⟨rfl, rfl⟩, rfl, rfl⟩, rfl, rfl⟩

theorem makeEnum_arrives (henv : env.Grown options) {text : String} {radix n : Nat}
    (htext : Integer.Literal text radix n) (hn : n < 2 ^ 63) (nameLoc : Loc) :
    Arrives (fun fuel => (evaluator fuel).expr ctx env
      (.call loc (.ident nameLoc "makeEnum") [.int litLoc text radix]))
      fun r => ∃ tag loc, r = .plain (.pub (ctx.enumeration loc env tag n)) := by
  have hfind : env.find? "makeEnum" = some (.pub (.prim .synthetic .makeEnum)) :=
    henv.find?_base (by decide) rfl
  refine call_arrives hfind (by simp) ?_ nameLoc
  refine (Settles.exprs (.cons (.int htext) .nil)).bind fun args hargs => ?_
  obtain ⟨code, values⟩ := args
  obtain ⟨rfl, _ | ⟨⟨enumLoc, rfl⟩, _ | _⟩⟩ := hargs
  intro s
  have hprim : (ctx.applyPrim loc env .makeEnum [.pub (.int enumLoc n)]).Yields s _ _ :=
    Ctx.applyPrim_makeEnum hn s
  exact ⟨0, _, _, fun _ _ => yields_bind.2 ⟨_, _, yields_bind.2 ⟨_, _, hprim, rfl⟩, rfl⟩,
    s.nextTag, enumLoc, rfl⟩

section Member

variable {maker : Ctx} {n : Nat} {k : Int} {kLoc : Loc}

theorem Ctx.member_arrives (henv : env.Provides) (hx : env.find? "x" = none)
    (hctx : ctx.canLift = true) :
    Arrives (fun fuel => (evaluator fuel).applyClosure ctx loc (maker.member litLoc env n)
      [.pub (.int kLoc k)]) fun r =>
      r.code = [] ∧ SecValue.Known (.bool (0 ≤ k ∧ k < n)) r.value.value := by
  have hbind : ∀ s, (env.bindAll litLoc [("x", .pub (.int kLoc k))]).Yields s
      ⟨env.entries ++ [("x", .pub (.int kLoc k))]⟩ s :=
    Bindings.bindAll_free (by simp) (by simpa using hx)
  refine applyClosure_arrives rfl rfl hbind (fun {ctx} hctx => ?_) hctx
  have harg (loc : Loc) : Settles ctx ⟨env.entries ++ [("x", .pub (.int kLoc k))]⟩
      (.ident loc "x") (.int k) := .formal hx rfl ⟨kLoc, rfl⟩ loc
  have hlow : Settles ctx _ (.binary litLoc .le (.int litLoc "0" 10) (.ident litLoc "x"))
    (.bool (0 ≤ k)) := .operation rfl rfl (.int (Integer.literal_decimal 0)) (harg litLoc)
  have hhigh : Settles ctx _ (.binary litLoc .lt (.ident litLoc "x")
    (.int litLoc (Integer.decimal n) 10)) (.bool (k < n)) :=
    .operation rfl rfl (harg litLoc) (.int (Integer.literal_decimal n))
  have hand : env.Computes "and" Surface.BinaryOp.and.Makes := henv.binary rfl
  refine .of_succ ((hand.of_older (List.prefix_append _ _)).operator hctx
    (.cons hlow (.cons hhigh .nil)) ⟨_, _, rfl, ?_⟩ rfl)
  simp [Surface.BinaryOp.reading?]

/-- The formal is bound before anything is evaluated, so a name that it hides stops the application. -/
theorem Ctx.member_shadowed (hx : env.contains "x" = true) (hctx : ctx.canLift = true) (ev : Evaluator)
    (s : Supply) : ((ev.applyClosure ctx loc (maker.member litLoc env n)
      [.pub (.int kLoc k)]).runFrom s).1 = .error (.fault (.shadowed litLoc "x")) := by
  have hinsert : env.insert? "x" (.pub (.int kLoc k)) = none := if_pos hx
  simp only [Evaluator.applyClosure, Ctx.alloc, hctx, ↓reduceIte, Ctx.member, List.zip_cons_cons,
    Bindings.bindAll, Bindings.bind, hinsert]
  rfl

end Member

/-- An enumeration is the function that tells its members and the members. The function decides
membership wherever it is applied, unless its maker had bound `x`: then no application succeeds. -/
theorem makeEnum_tells (henv : env.Grown options) {text : String} {radix n : Nat}
    (htext : Integer.Literal text radix n) (hn : n < 2 ^ 63) :
    Arrives (fun fuel => Elaboration.evalExpr fuel ctx env
      (.call loc (.ident nameLoc "makeEnum") [.int litLoc text radix])) fun r =>
      ∃ p made, r = .plain (.pub (.tuple made (p :: (List.range n).map fun (i : Nat) => .int made i))) ∧
        ∀ (ctx : Ctx) (loc kLoc : Loc) (env' : Bindings) (k : Int), ctx.canLift = true →
          if env.contains "x" then
            ∀ fuel s, ((Elaboration.applyValues fuel ctx loc env' p [.pub (.int kLoc k)]).runFrom s).1 =
              .error (.fault (.shadowed made "x"))
          else Arrives (fun fuel => Elaboration.applyValues fuel ctx loc env' p [.pub (.int kLoc k)])
            fun r => r.code = [] ∧ ∃ told, r.value.value = .pub (.bool told (0 ≤ k ∧ k < n)) := by
  refine (makeEnum_arrives henv htext hn nameLoc).imp fun r hr => ?_
  obtain ⟨tag, made, rfl⟩ := hr
  refine ⟨_, made, rfl, fun ctx loc kLoc env' k hctx => ?_⟩
  split
  · rename_i hx
    exact fun fuel s => Ctx.member_shadowed hx hctx _ s
  · rename_i hx
    exact Ctx.member_arrives henv.provides (Env.contains_eq_false.1 (by simpa using hx)) hctx

theorem makeEnum_tells_three : ∃ env : Bindings, env.Grown {} ∧
    Arrives (fun fuel => Elaboration.evalExpr fuel { mode := .step {}, canLift := true } env
      (Surface.apply "makeEnum" [Surface.number "3"])) fun r =>
      ∃ p made, r = .plain (.pub (.tuple made [p, .int made 0, .int made 1, .int made 2])) ∧
        Arrives (fun fuel => Elaboration.applyValues fuel { mode := .module, canLift := true }
          Surface.here {} p [.pub (.int Surface.here 3)])
          fun r => r.code = [] ∧ ∃ told, r.value.value = .pub (.bool told false) := by
  obtain ⟨env, henv, hfree⟩ := exists_grown
  refine ⟨env, henv, (makeEnum_tells henv (Integer.literal_decimal 3) (by decide)).imp fun r hr => ?_⟩
  obtain ⟨p, made, rfl, htells⟩ := hr
  refine ⟨p, made, rfl, ?_⟩
  have hfalse := htells { mode := .module, canLift := true } Surface.here Surface.here {} 3 rfl
  rw [hfree] at hfalse
  exact hfalse

/-- An app that binds a name before it makes an enumeration and asks whether one is a member. -/
def Surface.enumApp (bound : String) : Bundle :=
  appOf ["A"] [
    define bound (number "5"),
    define "E" (apply "makeEnum" [number "3"]),
    .expr here (apply "assert" [.call here (.index here (name "E") (number "0")) [number "1"]]),
    .expr here (apply "exit" [])]

/-- Binding another name does not matter, and binding `x` stops the program. -/
theorem enumeration_shadowed :
    (∃ p, (compileBundle 40 {} {} (Surface.enumApp "y") "main").1 = .ok p) ∧
    ∃ f, (compileBundle 40 {} {} (Surface.enumApp "x") "main").1 = .error (.fault f) ∧
      f.kind = .shadowed :=
  exists_ok_and_fault (by decide +kernel) (by decide +kernel)

end Choreography
