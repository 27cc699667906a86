import Choreography.Proofs.Blame
import Choreography.Proofs.LikeStatements
import Choreography.Proofs.Modes

/-!
Empty statements. Main statement: a list that has a result keeps it when empty statements are taken out
of it, and when new ones are put at places that admit them. The results are the same, but for the text
of functions and the places of nulls and of ways out.
-/

namespace Choreography

open Eval Ir

/-! ### Values are like themselves -/

mutual

theorem Value.Like.refl : ∀ v : Value, v.Like .padding v
  | .null _ => .null fun _ => rfl
  | .bool .. => .bool
  | .int .. => .int
  | .bytes .. => .bytes
  | .type .. => .type
  | .participant .. => .participant
  | .var _ => .var
  | .prim _ (.app _ ⟨⟨options⟩, _, body, ⟨env⟩⟩) =>
    .app (.mk (entries_like_refl options)) (.refl body) (.mk (entries_like_refl env))
  | .prim _ (.op _) | .prim _ (.claim _) | .prim _ (.interact ..) | .prim _ .declassify
  | .prim _ .commit | .prim _ .committed | .prim _ .digest | .prim _ .transfer
  | .prim _ (.transferTo ..) | .prim _ .exit | .prim _ .exited | .prim _ .arrayType
  | .prim _ .tupleType | .prim _ .objectType | .prim _ .funType | .prim _ .makeEnum => .prim rfl
  | .form _ _ .app => .appForm
  | .form _ _ (.only _) => .only
  | .form _ _ (.round r) => .round (.refl r)
  | .form _ _ (.onlyDone _ ⟨view⟩ ⟨_, result⟩) =>
    .onlyDone (.mk (entries_like_refl view)) (.mk rfl (Value.Like.refl result))
  | .tuple _ elems => .tuple (values_like_refl elems)
  | .object _ ⟨fields⟩ => .object (fun h => by cases h) (.mk (entries_like_refl fields))
  | .closure _ ⟨_, _, _, body, ⟨env⟩⟩ => .closure (.refl body) (.mk (entries_like_refl env))

theorem values_like_refl : ∀ vs : List Value, List.Forall₂ (Value.Like .padding) vs vs
  | [] => .nil
  | v :: vs => .cons (Value.Like.refl v) (values_like_refl vs)

theorem entries_like_refl : ∀ bs : List (String × Labelled Value),
    List.Forall₂ (Binding.Like .padding) bs bs
  | [] => .nil
  | (_, ⟨_, v⟩) :: bs => .cons (.mk (.mk rfl (Value.Like.refl v))) (entries_like_refl bs)

end

theorem Bindings.Like.refl (env : Bindings) : env.Like .padding env :=
  .mk (entries_like_refl env.entries)

theorem Views.Like.refl (views : NameMap Bindings) : Views.Like .padding views views :=
  List.forall₂_same.2 fun e _ => ⟨rfl, .refl e.2⟩

theorem Ctx.Like.refl (ctx : Ctx) : ctx.Like .padding ctx := by
  refine .mk ?_
  cases ctx.mode with
  | module => exact .module
  | step parties => exact .step (.refl parties.views)
  | pureLocal => exact .pureLocal
  | localStep => exact .localStep
  | consensus opened parties => exact .consensus (.refl opened) (.refl parties.views)

theorem Scope.Like.refl (scope : Scope) : scope.Like .padding scope := .mk (.refl scope.env)

/-! ### Results without empty statements -/

/-- Empty statements have no effect of their own. Take a list of statements, and take empty ones out of
it, anywhere, also in the text of functions, blocks, branches and loops. If there was a result, there is
one without them. If all that was taken out stood at places that admit it, the converse holds as well.
Results of both lists from one supply leave one supply, and they are the same, but for the text of
functions and the places of nulls and of ways out. -/
theorem evaluation_without_empty_statements (ctx : Ctx) (loc : Loc) (scope : Scope) (s : Supply)
    {full bare : List Surface.Stmt} (h : Surface.Stmts.Like .padding full bare) :
    ((∃ fuel r s', (Elaboration.evalStmts fuel ctx loc scope full).Yields s r s') →
      ∃ fuel r s', (Elaboration.evalStmts fuel ctx loc scope bare).Yields s r s') ∧
    (Surface.Stmts.Like .padding bare full →
      (∃ fuel r s', (Elaboration.evalStmts fuel ctx loc scope bare).Yields s r s') →
      ∃ fuel r s', (Elaboration.evalStmts fuel ctx loc scope full).Yields s r s') ∧
    ∀ fuel fuel' r r' s₁ s₂, (Elaboration.evalStmts fuel ctx loc scope full).Yields s r s₁ →
      (Elaboration.evalStmts fuel' ctx loc scope bare).Yields s r' s₂ →
      s₁ = s₂ ∧ r.Like .padding (Outcome.Like .padding) r' := by
  have htracks : ∀ {L R : List Surface.Stmt}, Surface.Stmts.Like .padding L R → ∀ fuel,
      Tracks .padding (Lifted.Like .padding (Outcome.Like .padding))
        (Elaboration.evalStmts fuel ctx loc scope L)
        (fun fuel' => Elaboration.evalStmts fuel' ctx loc scope R) :=
    fun h fuel => (evaluator_tracked fuel).stmts (.refl ctx) (fun _ => rfl) (.refl scope) h
  refine ⟨?_, ?_, ?_⟩
  · rintro ⟨fuel, r, s', hrun⟩
    obtain ⟨r', depth, hruns⟩ := (htracks h fuel).follows rfl hrun
    exact ⟨depth, r', s', hruns depth (Nat.le_refl depth)⟩
  · rintro hback ⟨fuel, r, s', hrun⟩
    obtain ⟨r', depth, hruns⟩ := (htracks hback fuel).follows rfl hrun
    exact ⟨depth, r', s', hruns depth (Nat.le_refl depth)⟩
  · intro fuel fuel' r r' s₁ s₂ hrun hrun'
    obtain ⟨hr, hs⟩ := (htracks h fuel).agree hrun hrun'
    exact ⟨hs, hr⟩

namespace Surface

/-- An empty statement. -/
def nothing : Stmt := .empty here

/-- A function is applied in a conditional, and what it returns is returned. The parameters stand in the
function, in a branch, and after the conditional. -/
def answering (inFunction inBranch after : List Stmt) : List Stmt :=
  [.function here (some "f") [] ⟨here, inFunction ++ [.ret here (some (number "1"))]⟩,
    .branch here (.bool here true) (.block ⟨here, inBranch ++ [define "x" (apply "f" [])]⟩) none] ++
    after ++ [.ret here (some (apply "f" []))]

/-- One is returned. -/
def returning (after : List Stmt) : List Stmt := .ret here (some (number "1")) :: after

/-- A loop variable becomes one, and the loop goes on. -/
def assigning (between : List Stmt) : List Stmt :=
  .assign here .assign (name "i") (number "1") :: between ++ [.cont here]

/-- A loop that is not entered. -/
def looping (between : List Stmt) : List Stmt :=
  .varDecl here [⟨here, name "j", some (number "0")⟩] :: between ++
    [.methodCall here (name "invariant") [.bool here true], .loop here (.bool here false) (.cont here)]

end Surface

/-- The evaluation of statements in a loop over `i`, in a function that may return. -/
def runIn (mode : Mode) (stmts : List Surface.Stmt) : Eval (Lifted Outcome) :=
  let i : Var := { loc := Surface.here, name := "i", type := .uint256, id := 0 }
  Elaboration.evalStmts 20 { mode, canLift := true } Surface.here
    { slot := some 0, style := .implicitNull, env := {},
      loopVars := some (OrderedMap.insertNew {} "i" i) } stmts

theorem answering_without_empty_statements :
    ∃ full r r' s₁ s₂, full = Surface.answering [Surface.nothing] [Surface.nothing] [Surface.nothing] ∧
      Surface.Stmts.Like .padding full (Surface.answering [] [] []) ∧
      Surface.Stmts.Like .padding (Surface.answering [] [] []) full ∧
      (runIn (.step {}) full).Yields {} r s₁ ∧
      (runIn (.step {}) (Surface.answering [] [] [])).Yields {} r' s₂ ∧
      r.value.exits.length = 1 ∧ s₁ = s₂ ∧ r.Like .padding (Outcome.Like .padding) r' := by
  obtain ⟨r, s₁, hrun, hexits⟩ := exists_yields_of_any (s := {})
    (f := fun r => r.value.exits.length == 1)
    (x := runIn (.step {}) (Surface.answering [Surface.nothing] [Surface.nothing] [Surface.nothing]))
    (by decide +kernel)
  obtain ⟨r', s₂, hrun', _⟩ := exists_yields_of_any (s := {}) (f := fun _ => true)
    (x := runIn (.step {}) (Surface.answering [] [] [])) (by decide +kernel)
  have hlike : Surface.Stmts.Like .padding
      (Surface.answering [Surface.nothing] [Surface.nothing] [Surface.nothing])
      (Surface.answering [] [] []) := by
    refine .cons (.function (.mk (.drop rfl (Surface.stmts_like_refl _ _)))) ?_
    refine .cons (.branch (.refl _) (.block (.mk (.drop rfl (Surface.stmts_like_refl _ _)))) .none) ?_
    exact .drop rfl (Surface.stmts_like_refl _ _)
  have hback : Surface.Stmts.Like .padding (Surface.answering [] [] [])
      (Surface.answering [Surface.nothing] [Surface.nothing] [Surface.nothing]) := by
    refine .cons (.function (.mk (.insert rfl rfl (Surface.stmts_like_refl _ _)))) ?_
    refine .cons (.branch (.refl _)
      (.block (.mk (.insert rfl rfl (Surface.stmts_like_refl _ _)))) .none) ?_
    exact .insert rfl rfl (Surface.stmts_like_refl _ _)
  exact ⟨_, r, r', s₁, s₂, rfl, hlike, hback, hrun, hrun', by simpa using hexits,
    (evaluation_without_empty_statements _ _ _ _ hlike).2.2 _ _ _ _ _ _ hrun hrun'⟩

/-- Empty statements that are not neutral: after a return, between an assignment and the continue that
it belongs to, and between the variables of a loop and its invariant. With them there is a fault, and
without them a result. -/
theorem empty_statements_fault :
    ((∃ r s', (runIn (.step {}) (Surface.returning [])).Yields {} r s') ∧
      ∃ f, ((runIn (.step {}) (Surface.returning [Surface.nothing])).runFrom {}).1 =
        .error (.fault f)) ∧
    ((∃ r s', (runIn (.consensus {} {}) (Surface.assigning [])).Yields {} r s') ∧
      ∃ f, ((runIn (.consensus {} {}) (Surface.assigning [Surface.nothing])).runFrom {}).1 =
        .error (.fault f)) ∧
    (∃ r s', (runIn (.consensus {} {}) (Surface.looping [])).Yields {} r s') ∧
      ∃ f, ((runIn (.consensus {} {}) (Surface.looping [Surface.nothing])).runFrom {}).1 =
        .error (.fault f) := by
  have hcheck : ∀ {x y : Eval (Lifted Outcome)}, (x.runFrom {}).1.toOption.any (fun _ => true) = true →
      (faultOf (y.runFrom {}).1).any (fun _ => true) = true →
      (∃ r s', x.Yields {} r s') ∧ ∃ f, (y.runFrom {}).1 = .error (.fault f) := by
    intro x y hx hy
    obtain ⟨r, s', hrun, _⟩ := exists_yields_of_any hx
    obtain ⟨f, hf, _⟩ := exists_fault_of_any hy
    exact ⟨⟨r, s', hrun⟩, f, hf⟩
  exact ⟨hcheck (by decide +kernel) (by decide +kernel), hcheck (by decide +kernel) (by decide +kernel),
    hcheck (by decide +kernel) (by decide +kernel)⟩

end Choreography
