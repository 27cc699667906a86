import Choreography.Elaborate.Evaluator
import Choreography.Elaborate.Primitive
import Choreography.Proofs.Emission

/-!
Soundness of an evaluator: in formed surroundings it computes formed values, and the code it emits
is formed. Statements also return; each return stands for one of the ways out that they report.
-/

namespace Choreography

open Ir

/-- The participants on the ledger have addresses in scope, and all views are formed. -/
structure Parties.Formed (R : Regime) (J : List (String × Var)) (X : List Known)
    (parties : Parties) : Prop where
  joined : ∀ e ∈ parties.joined.entries, e ∈ J ∧ R.Sees X .pub e.2 ∧ e.2.type = .address
  views : ∀ e ∈ parties.views.entries, Bindings.Formed R X e.2

namespace Mode

def Formed (R : Regime) (J : List (String × Var)) (X : List Known) : Mode → Prop
  | .step parties | .consensus _ parties => parties.Formed R J X
  | .module | .pureLocal | .localStep => True

/-- Nothing outside a single computation happens: no round begins or ends. -/
def Private : Mode → Prop
  | .step _ | .consensus .. => False
  | .module | .pureLocal | .localStep => True

end Mode

structure Scope.Formed (R : Regime) (X : List Known) (scope : Scope) : Prop where
  env : scope.env.Formed R X
  loopVars : ∀ vars, scope.loopVars = some vars → ∀ e ∈ vars.entries, R.Sees X .pub e.2

/-- Every return goes to the slot and delivers the value of a way out, which is held as at least as
secret. There are no more returns than ways out. -/
structure Returned (R : Regime) (slot : Option Nat) (E : List Return) (exits : List Exit) :
    Prop where
  length_le : E.length ≤ exits.length
  exit : ∀ r ∈ E, slot = some r.1 ∧
    ∃ e ∈ exits, e.value.value = r.2.value ∧ R.Allows r.2.level e.value.level

/-- What a run of statements computes. The value of a sole way out may mention whatever is bound on
the way to it. The bindings at the end count only where no round intervenes. -/
def Lifted.Ends (R : Regime) (J : List (String × Var)) (X : List Known) (s s' : Supply)
    (mode : Mode) (slot : Option Nat) (r : Lifted Outcome) : Prop :=
  ∃ E O B, Emits R J X s s' r.code E O B ∧ Returned R slot E r.value.exits ∧
    (∀ e, r.value.exits = [e] → e.value.Formed R (X ++ escaping r.code B)) ∧
    (mode.Private → r.value.env.Formed R (X ++ O))

/-- What an application computes. -/
def Lifted.Applies (R : Regime) (J : List (String × Var)) (X : List Known) (s s' : Supply)
    (mode : Mode) (r : Lifted Applied) : Prop :=
  ∃ O B, Emits R J X s s' r.code [] O B ∧ r.value.value.Formed R (X ++ O) ∧
    (mode.Private → r.value.env.Formed R (X ++ O))

structure Evaluator.Sound (R : Regime) (ev : Evaluator) : Prop where
  expr : ∀ {J : List (String × Var)} {X : List Known} {ctx : Ctx} {env : Bindings}
    {e : Surface.Expr} {s s' : Supply} {r : Lifted SecValue},
    (ev.expr ctx env e).Yields s r s' → ctx.mode.Formed R J X → env.Formed R X →
    R.Admits e.idents → r.Sound R J X s s' (SecValue.Formed R)
  stmts : ∀ {J : List (String × Var)} {X : List Known} {ctx : Ctx} {loc : Loc} {scope : Scope}
    {stmts : List Surface.Stmt} {s s' : Supply} {r : Lifted Outcome},
    (ev.stmts ctx loc scope stmts).Yields s r s' → ctx.mode.Formed R J X → scope.Formed R X →
    R.Admits (Surface.stmtsIdents stmts) → r.Ends R J X s s' ctx.mode scope.slot

variable {R : Regime} {J J' : List (String × Var)} {X Y : List Known} {s s₁ s₂ s' : Supply}
  {code code' : Code} {E E' : List Return} {K O O' B B' : List Known}

namespace Eval

/-- Statements whose run, from a supply, is sound. -/
abbrev Concludes (R : Regime) (J : List (String × Var)) (X : List Known) (s : Supply) (mode : Mode)
    (slot : Option Nat) (x : Eval (Lifted Outcome)) : Prop :=
  From s (fun r s' => r.Ends R J X s s' mode slot) x

/-- An application whose run, from a supply, is sound. -/
abbrev Performs (R : Regime) (J : List (String × Var)) (X : List Known) (s : Supply) (mode : Mode)
    (x : Eval (Lifted Applied)) : Prop :=
  From s (fun r s' => r.Applies R J X s s' mode) x

end Eval

namespace Evaluator.Sound

variable {ev : Evaluator} {ctx : Ctx}

theorem computes {env : Bindings} {e : Surface.Expr} (hev : ev.Sound R)
    (hmode : ctx.mode.Formed R J X) (henv : env.Formed R X) (hnames : R.Admits e.idents) :
    Eval.Computes R J X s (SecValue.Formed R) (ev.expr ctx env e) :=
  ⟨fun hrun => hev.expr hrun hmode henv hnames⟩

theorem concludes {loc : Loc} {scope : Scope} {stmts : List Surface.Stmt} (hev : ev.Sound R)
    (hmode : ctx.mode.Formed R J X) (hscope : scope.Formed R X)
    (hnames : R.Admits (Surface.stmtsIdents stmts)) :
    Eval.Concludes R J X s ctx.mode scope.slot (ev.stmts ctx loc scope stmts) :=
  ⟨fun hrun => hev.stmts hrun hmode hscope hnames⟩

end Evaluator.Sound

theorem Parties.Formed.mono {parties : Parties} (h : parties.Formed R J X) (hX : X ⊆ Y) :
    parties.Formed R J Y := by
  refine ⟨fun e he => ?_, fun e he => (h.views e he).mono hX⟩
  obtain ⟨hmem, hsees, htype⟩ := h.joined e he
  exact ⟨hmem, hsees.mono hX .refl, htype⟩

theorem Mode.Formed.mono {mode : Mode} (h : mode.Formed R J X) (hX : X ⊆ Y) :
    mode.Formed R J Y := by
  cases mode with
  | step | consensus => exact Parties.Formed.mono h hX
  | module | pureLocal | localStep => trivial

theorem Scope.Formed.mono {scope : Scope} (h : scope.Formed R X) (hX : X ⊆ Y) :
    scope.Formed R Y :=
  ⟨h.env.mono hX, fun vars hvars e he => (h.loopVars vars hvars e he).mono hX .refl⟩

/-! ### Returns -/

namespace Returned

variable {slot : Option Nat} {exits exits' : List Exit}

theorem nil : Returned R slot [] exits := ⟨Nat.zero_le _, by simp⟩

theorem append (h : Returned R slot E exits) (h' : Returned R slot E' exits') :
    Returned R slot (E ++ E') (exits ++ exits') := by
  constructor
  · simpa using Nat.add_le_add h.length_le h'.length_le
  · intro r hr
    rcases List.mem_append.1 hr with hr | hr
    · obtain ⟨hslot, e, he, hvalue⟩ := h.exit r hr
      exact ⟨hslot, e, List.mem_append_left _ he, hvalue⟩
    · obtain ⟨hslot, e, he, hvalue⟩ := h'.exit r hr
      exact ⟨hslot, e, List.mem_append_right _ he, hvalue⟩

theorem taint {level : Level} (h : Returned R slot E exits) :
    Returned R slot E (exits.map (Exit.taint level)) := by
  constructor
  · simpa using h.length_le
  · intro r hr
    obtain ⟨hslot, e, he, hvalue, hlevel⟩ := h.exit r hr
    exact ⟨hslot, _, List.mem_map_of_mem he, hvalue, hlevel.trans .meet_right⟩

end Returned

/-! ### Statements with parts -/

namespace Emits

variable {loc : Loc} {slot : Nat}

theorem ret {sv : SecValue} (h : sv.Formed R X) :
    Emits R J X s s [.ret loc slot (some sv.value)] [(slot, sv)] [] [] :=
  single (.ret h) (by simp) (Nat.le_refl _) (by simp [Stmt.defines, Stmt.inner])

/-- A prompt whose slot was drawn outside the run of its body. -/
theorem prompt {result : Option Var} (h : Emits R J X s₁ s₂ code E O B)
    (hbefore : s.nextId ≤ s₁.nextId) (hafter : s₂.nextId ≤ s'.nextId)
    (hdrawn : s.nextId ≤ slot ∧ slot < s'.nextId) (hfresh : slot < s₁.nextId ∨ s₂.nextId ≤ slot)
    (hslot : ∀ r ∈ E, r.1 = slot) (hid : ∀ v, result = some v → v.id = slot)
    (htype : ∀ v, result = some v → ∀ r ∈ E, ∃ a, r.2.value.typed? = some (v.type, a)) :
    Emits R J X s s' [.prompt loc slot result code] []
      (result.toList.map .pub ++ if result.isSome then O else escaping code B)
      (result.toList.map .pub ++ B) := by
  let body : Part := ⟨J, X, code, E, O, B⟩
  have hle := h.le
  have hstmt : Stmt.Formed R J X none (.prompt loc slot result body.code) [body] []
      (result.toList.map .pub ++ if result.isSome then body.exports
        else escaping body.code body.binders) (result.toList.map .pub ++ body.binders) :=
    .prompt ⟨List.Subset.refl J, List.Subset.refl X⟩ hslot hid htype
  refine single hstmt (by simpa [body] using h.formed) (by omega) fun i => ?_
  have honce := h.once i
  have hdefs : (definitions [.prompt loc slot result code]).count i
      = (if slot = i then 1 else 0) + (definitions code).count i := by
    simp [Stmt.defines, Stmt.inner, definitions, List.count_cons, Nat.add_comm]
  rw [hdefs]
  grind [drawn]

theorem branch {cond : Arg} {Bt Bf Ot Of : List Known} {onTrue onFalse : Code}
    (hcond : cond.Formed R X .secret) (hcondType : cond.type = .bool)
    (ht : Emits R J X s s₁ onTrue E Ot Bt) (hf : Emits R J X s₁ s' onFalse E' Of Bf) :
    Emits R J X s s' [.branch loc cond onTrue onFalse] (E ++ E') [] (Bt ++ Bf) := by
  let t : Part := ⟨J, X, onTrue, E, Ot, Bt⟩
  let f : Part := ⟨J, X, onFalse, E', Of, Bf⟩
  have hle := ht.le
  have hle' := hf.le
  have hstmt : Stmt.Formed R J X none (.branch loc cond t.code f.code) [t, f]
      (t.returns ++ f.returns) [] (t.binders ++ f.binders) :=
    .branch hcond hcondType ⟨List.Subset.refl J, List.Subset.refl X⟩
      ⟨List.Subset.refl J, List.Subset.refl X⟩
  refine single hstmt (by simpa [t, f] using ⟨ht.formed, hf.formed⟩) (by omega) fun i => ?_
  have honce := ht.once i
  have honce' := hf.once i
  have hdefs : (definitions [.branch loc cond onTrue onFalse]).count i
      = (definitions onTrue).count i + (definitions onFalse).count i := by
    simp [Stmt.defines, Stmt.inner, definitions]
  rw [hdefs]
  grind [drawn]

end Emits

end Choreography
