import Choreography.Proofs.Compilation
import Choreography.Proofs.StagedStatements

/-!
Staged bundles compile to tidy programs. So the statements that end their lists are the last ones of
them, if the bundle is strict; and each question to a frontend is asked in private code of its
participant. Bundles that are not staged compile to programs in which both fail.
-/

namespace Choreography

open Eval Ir

variable {strict : Bool} {S : List String} {s s' : Supply} {loc : Loc} {env : Bindings}
  {ev : Evaluator} {fuel : Nat} {options : Options} {session : Session} {bundle : Bundle}
  {top : String} {p : Program}

/-! ### Modules and apps -/

theorem baseEnv_plain : baseEnv.Plain strict [] := by
  intro b hb hacts
  have hmem := Env.mem_ofList hb
  simp only [List.mem_cons, List.not_mem_nil, or_false] at hmem
  have hends : ∀ {name : String} {prim : Prim}, prim = .commit ∨ prim = .exit →
      name ∈ Surface.actingNames true → ¬ Acts strict (name, .pub (.prim .synthetic prim)) →
      (Value.prim .synthetic prim).Plain strict [] := by
    intro name prim hprim hname hacts
    cases strict with
    | false => rcases hprim with rfl | rfl <;> exact .prim rfl
    | true =>
      refine absurd ⟨hname, ?_⟩ hacts
      rcases hprim with rfl | rfl
      · exact .inl rfl
      · exact .inr rfl
  rcases hmem with rfl | rfl | rfl | rfl | rfl | rfl | rfl | rfl | rfl | rfl | rfl | rfl | rfl |
    rfl | rfl | rfl | rfl | rfl | rfl | rfl | rfl | rfl
  on_goal 3 => exact hends (.inl rfl) (by decide) hacts
  on_goal 20 => exact hends (.inr rfl) (by decide) hacts
  any_goals exact .prim trivial
  any_goals exact .type
  · refine .object fun b hb => ?_
    obtain rfl := List.mem_singleton.1 (Env.mem_ofList hb)
    exact .appForm

theorem standardLibrary_staged (file : Nat) (header : String) :
    ∀ item ∈ (standardLibrary file header).items, item.Satisfies (·.staged strict = true) := by
  intro item hitem
  simp only [standardLibrary, List.mem_cons, List.not_mem_nil, or_false] at hitem
  rcases hitem with rfl | rfl | rfl | rfl | rfl | rfl | rfl <;> cases strict <;>
    simp [Surface.Item.Satisfies, Surface.Stmt.staged, Surface.Block.returning,
      Surface.Block.staged, Surface.stmtsStaged, Surface.Expr.staged, Surface.exprsStaged,
      Surface.actingNames, Surface.Stmt.followable, Surface.Stmt.isCompound]

/-- Staged modules bind only what is plain. -/
theorem Link.keeps_plain (hev : ev.Staged strict) :
    Link.Keeps ev (fun b => ¬ Acts strict b → b.2.value.Plain strict [])
      (·.staged strict = true) := by
  refine ⟨baseEnv_plain, fun hrun henv hstaged => ?_⟩
  simp only [Link.topLevel, yields_bind, yields_pure] at hrun
  obtain ⟨r, _, hr, _, _, _, rfl, _⟩ := hrun
  have hmode : Link.moduleCtx.mode.Plain strict [] := trivial
  exact (hev.stmts hr hmode henv (Evaluator.Staged.stmtsStaged_single hstaged)).env

theorem Surface.Module.satisfies_staged {m : Surface.Module} (h : m.staged strict = true) :
    ∀ item ∈ m.items, item.Satisfies (·.staged strict = true) := by
  intro item hitem
  have hstaged := List.all_eq_true.1 h item hitem
  cases item with
  | exported | plain => exact hstaged
  | importFrom | foreign => exact trivial

/-- At first, a participant reaches its own frontend and no other. -/
theorem Participant.interactValue_plain (p : Participant) :
    p.interactValue.Plain strict (p.who :: S) := by
  refine .object fun b hb => ?_
  obtain ⟨m, _, rfl⟩ := List.mem_map.1 hb
  exact .prim List.mem_cons_self

theorem compileBundle_tidy (hcompile : (compileBundle fuel options session bundle top).1 = .ok p)
    (hstaged : ∀ m ∈ bundle, m.tree.staged strict = true) : p.body.Tidy strict [] := by
  have hev : (evaluator fuel).Staged strict := evaluator_staged strict fuel
  obtain ⟨_, hrun⟩ := Elaboration.perform_yields hcompile
  obtain ⟨appLoc, tag, a, _, hexported, hrun⟩ := compile_yields (Link.keeps_plain hev)
    standardLibrary_staged (fun m hm => m.tree.satisfies_staged (hstaged m hm)) hrun
  have happ : (Value.prim appLoc (.app tag a)).Plain strict [] := by
    refine hexported ?_
    rintro ⟨_, hprim | hprim⟩ <;> cases hprim
  cases happ with
  | prim h => exact h.elim
  | app hbody henv =>
    rw [Surface.Block.staged_eq] at hbody
    simp only [App.compile, yields_bind, yields_pure] at hrun
    obtain ⟨views, _, hviews, _, _, _, r, _, hr, rfl, _⟩ := hrun
    have hmode : Mode.Plain strict [] (.step { views }) :=
      ((App.views_meets (V := fun e => Bindings.Plain strict [e.1] e.2) (fun p _ =>
        (Bindings.Plain.mono henv (List.nil_subset [p.who])).bind p.interactValue_plain)
          (by simp)).result hviews).1
    exact (hev.stmts hr hmode henv hbody).code

/-! ### The ends of lists -/

namespace Ir

/-- All lists of statements in some code, at any depth. -/
def codeLists (code : Code) : List Code := code :: (statements code).flatMap Stmt.parts

theorem Code.Tidy.orderly_lists {code : Code} (h : code.Tidy true S) :
    ∀ list ∈ codeLists code, Code.Orderly list := by
  refine List.forall_mem_cons.2 ⟨h.orderly rfl, fun list hlist => ?_⟩
  obtain ⟨st, hst, hpart⟩ := List.mem_flatMap.1 hlist
  have hkept : ∃ T, st.Kept true T := by
    obtain ⟨t, ht, rfl | hinner⟩ := mem_statements.1 hst
    · exact ⟨S, h.kept _ ht⟩
    · exact (h.kept t ht).inner st hinner
  obtain ⟨_, _, horderly, _⟩ := hkept
  exact horderly rfl list hpart

end Ir

/-- In the program of a strict bundle, rounds, commits, stops and continues are the last statements
of their lists. -/
theorem compileBundle_ends_lists
    (hcompile : (compileBundle fuel options session bundle top).1 = .ok p)
    (hstaged : ∀ m ∈ bundle, m.tree.staged true = true) :
    ∀ list ∈ codeLists p.body, ∀ st ∈ list.dropLast, st.endsList = false :=
  (compileBundle_tidy hcompile hstaged).orderly_lists

theorem countingApp_ends_lists :
    (∀ m ∈ Surface.countingApp, m.tree.staged true = true) ∧
      ∃ p, (compileBundle 30 {} {} Surface.countingApp "main").1 = .ok p ∧
        (codeLists p.body).countP (·.any Stmt.endsList) = 6 ∧
        ∀ list ∈ codeLists p.body, ∀ st ∈ list.dropLast, st.endsList = false := by
  have hstaged : ∀ m ∈ Surface.countingApp, m.tree.staged true = true := by decide +kernel
  obtain ⟨p, hp, hcount⟩ := exists_ok_of_any
    (f := fun p : Program => (codeLists p.body).countP (·.any Stmt.endsList) == 6)
    (x := (compileBundle 30 {} {} Surface.countingApp "main").1) (by decide +kernel)
  exact ⟨hstaged, p, hp, by simpa using hcount, compileBundle_ends_lists hp hstaged⟩

namespace Surface

/-- The value of an exit is bound to a name, and a round follows. -/
def boundExitApp : Bundle :=
  appOf ["A"] [define "x" (apply "exit" []), .expr here (method (name "A") "publish" [])]

/-- A block takes a round and commits it, and another round follows the block. -/
def blockRoundApp : Bundle :=
  appOf ["A", "B"] [
    .block ⟨here, [.expr here (method (name "A") "publish" []), .expr here (apply "commit" [])]⟩,
    .expr here (method (name "B") "publish" [])]

/-- A branch that is always taken continues the loop, and another continue follows it. -/
def constantBranchApp : Bundle :=
  let next : List Stmt := [.assign here .assign (name "i") (number "1"), .cont here]
  appOf ["A"] [
    .expr here (method (name "A") "publish" []),
    .varDecl here [⟨here, name "i", some (number "0")⟩],
    .methodCall here (name "invariant") [.bool here true],
    .loop here (.binary here .lt (name "i") (number "10")) (.block ⟨here,
      .branch here (.bool here true) (.block ⟨here, next⟩) none :: next⟩),
    .expr here (apply "commit" [])]

end Surface

/-- The program compiles, and in one of its lists something follows a statement that ends it. -/
def GoesOnAfterEnd (bundle : Bundle) : Prop :=
  ∃ p, (compileBundle 30 {} {} bundle "main").1 = .ok p ∧
    ∃ list ∈ codeLists p.body, ∃ st ∈ list.dropLast, st.endsList = true

theorem goesOnAfterEnd_of_any {bundle : Bundle}
    (h : (compileBundle 30 {} {} bundle "main").1.toOption.any
      (fun p => (codeLists p.body).any fun list => list.dropLast.any Stmt.endsList) = true) :
    GoesOnAfterEnd bundle := by
  obtain ⟨p, hp, hany⟩ := exists_ok_of_any h
  obtain ⟨list, hlist, hany⟩ := List.any_eq_true.1 hany
  obtain ⟨st, hst, hends⟩ := List.any_eq_true.1 hany
  exact ⟨p, hp, list, hlist, st, hst, hends⟩

/-- Something follows an exit whose value is bound, a round in a block, and a continue in a branch
that is always taken. -/
theorem lists_go_on_after_end :
    GoesOnAfterEnd Surface.boundExitApp ∧ GoesOnAfterEnd Surface.blockRoundApp ∧
      GoesOnAfterEnd Surface.constantBranchApp := by
  refine ⟨goesOnAfterEnd_of_any ?_, goesOnAfterEnd_of_any ?_, goesOnAfterEnd_of_any ?_⟩
  all_goals decide +kernel

/-! ### Questions to frontends -/

namespace Ir

mutual

/-- The questions that a statement asks of frontends, at any depth: for each, the participants in
whose private code it stands, from the inside out, and the participant that is asked. `owners` are
those in whose private code the statement stands. -/
def Stmt.questions (owners : List String) : Stmt → List (List String × String)
  | .letIn _ _ (.interact who _ _ _) => [(owners, who)]
  | .only _ who body => codeQuestions (who :: owners) body
  | .prompt _ _ _ body | .fromConsensus _ body => codeQuestions owners body
  | .branch _ _ onTrue onFalse => codeQuestions owners onTrue ++ codeQuestions owners onFalse
  | .toConsensus _ ⟨_, _, _, _, _, some ⟨_, late⟩, body⟩ =>
    codeQuestions owners late ++ codeQuestions owners body
  | .toConsensus _ ⟨_, _, _, _, _, none, body⟩ => codeQuestions owners body
  | .loop _ _ ⟨_, _, invariant, _⟩ ⟨_, _, cond, _⟩ body =>
    codeQuestions owners invariant ++ codeQuestions owners cond ++ codeQuestions owners body
  | .letIn .. | .claim .. | .transfer .. | .stop .. | .ret .. | .cont .. => []

def codeQuestions (owners : List String) : List Stmt → List (List String × String)
  | [] => []
  | s :: rest => s.questions owners ++ codeQuestions owners rest

end

theorem mem_codeQuestions {code : Code} {q : List String × String} :
    q ∈ codeQuestions S code ↔ ∃ st ∈ code, q ∈ st.questions S := by
  induction code with
  | nil => simp [codeQuestions]
  | cons st rest ih => simp [codeQuestions, ih]

theorem Stmt.questions_eq (st : Stmt) :
    st.questions S = st.asked.toList.map (S, ·) ++
      st.parts.flatMap (codeQuestions (st.owners S)) := by
  cases st with
  | letIn loc v e => cases e <;> simp [Stmt.questions, Stmt.asked, Stmt.parts]
  | toConsensus loc t =>
    obtain ⟨who, join, whoVar, messages, amount, timeout, body⟩ := t
    cases timeout with
    | none => simp [Stmt.questions, Stmt.asked, Stmt.parts, Stmt.owners]
    | some d =>
      obtain ⟨delay, late⟩ := d
      simp [Stmt.questions, Stmt.asked, Stmt.parts, Stmt.owners]
  | loop loc init invariant cond body =>
    obtain ⟨_, _, invariant, _⟩ := invariant
    obtain ⟨_, _, cond, _⟩ := cond
    simp [Stmt.questions, Stmt.asked, Stmt.parts, Stmt.owners]
  | _ => simp [Stmt.questions, Stmt.asked, Stmt.parts, Stmt.owners]

/-- Questions inside a statement that is kept are asked in private code of their participants. -/
theorem Stmt.Kept.owns_questions {st : Stmt} (h : st.Kept strict S) :
    ∀ q ∈ st.questions S, q.2 ∈ q.1 := by
  induction h with
  | @intro S st hasked _ _ ih =>
    intro q hq
    rw [Stmt.questions_eq] at hq
    rcases List.mem_append.1 hq with hown | hin
    · obtain ⟨who, hwho, rfl⟩ := List.mem_map.1 hown
      exact hasked who (Option.mem_toList.1 hwho)
    · obtain ⟨code, hcode, hq⟩ := List.mem_flatMap.1 hin
      obtain ⟨t, ht, hq⟩ := mem_codeQuestions.1 hq
      exact ih code hcode t ht q hq

end Ir

/-- In the program of a staged bundle, each question to a frontend is asked in private code of the
participant that is asked. -/
theorem compileBundle_owns_questions
    (hcompile : (compileBundle fuel options session bundle top).1 = .ok p)
    (hstaged : ∀ m ∈ bundle, m.tree.staged false = true) :
    ∀ q ∈ codeQuestions [] p.body, q.2 ∈ q.1 := by
  intro q hq
  obtain ⟨st, hst, hq⟩ := mem_codeQuestions.1 hq
  exact ((compileBundle_tidy hcompile hstaged).kept st hst).owns_questions q hq

theorem countingApp_owns_questions :
    (∀ m ∈ Surface.countingApp, m.tree.staged false = true) ∧
      ∃ p, (compileBundle 30 {} {} Surface.countingApp "main").1 = .ok p ∧
        codeQuestions [] p.body = [(["A"], "A")] ∧ ∀ q ∈ codeQuestions [] p.body, q.2 ∈ q.1 := by
  have hstaged : ∀ m ∈ Surface.countingApp, m.tree.staged false = true := by decide +kernel
  obtain ⟨p, hp, hquestions⟩ := exists_ok_of_any
    (f := fun p : Program => codeQuestions [] p.body == [(["A"], "A")])
    (x := (compileBundle 30 {} {} Surface.countingApp "main").1) (by decide +kernel)
  exact ⟨hstaged, p, hp, by simpa using hquestions, compileBundle_owns_questions hp hstaged⟩

/-- The answer of a private computation is bound to a name. -/
def Surface.boundOnlyApp : Bundle :=
  appOf ["A"] [define "o" (method (name "A") "only"
    [thunk [define "x" (method (name "interact") "getX" [])]])]

/-- A frontend is asked outside of all private code. -/
theorem boundOnlyApp_asks_in_public :
    ∃ p, (compileBundle 30 {} {} Surface.boundOnlyApp "main").1 = .ok p ∧
      codeQuestions [] p.body = [([], "A")] := by
  obtain ⟨p, hp, hquestions⟩ := exists_ok_of_any
    (f := fun p : Program => codeQuestions [] p.body == [([], "A")])
    (x := (compileBundle 30 {} {} Surface.boundOnlyApp "main").1) (by decide +kernel)
  exact ⟨p, hp, by simpa using hquestions⟩

end Choreography
