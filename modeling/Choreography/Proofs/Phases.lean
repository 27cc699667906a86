import Choreography.Proofs.Composition

/-!
The phases of a protocol, and the code that may be emitted in each: privately, between rounds, and
in consensus. A round carries code of two phases, because the check of its amount is computed before
the round is taken. Between rounds and in consensus a phase also knows the addresses of those on the
ledger, so that it says which rounds join a participant.

Whatever the environment holds, evaluation emits only what the phase of its mode allows.
-/

namespace Choreography

open Eval Ir

/-- Where in the protocol code is emitted, and who is on the ledger there. -/
inductive Phase
  | privately
  | step (joined : NameMap Var)
  | consensus (joined : NameMap Var)

namespace Phase

def isConsensus : Phase → Bool
  | .consensus _ => true
  | .privately | .step _ => false

end Phase

def Mode.phase : Mode → Phase
  | .module | .pureLocal | .localStep => .privately
  | .step parties => .step parties.joined
  | .consensus _ parties => .consensus parties.joined

theorem Mode.phase_of_isStep {mode : Mode} (h : mode.isStep = true) :
    ∃ J, mode.phase = .step J := by
  cases mode with
  | step parties => exact ⟨_, rfl⟩
  | _ => simp [Mode.isStep] at h

theorem Mode.phase_of_isConsensus {mode : Mode} (h : mode.isConsensus = true) :
    ∃ J, mode.phase = .consensus J := by
  cases mode with
  | consensus opened parties => exact ⟨_, rfl⟩
  | _ => simp [Mode.isConsensus] at h

theorem Mode.phase_of_isLocalStep {mode : Mode} (h : mode.isLocalStep = true) :
    mode.phase = .privately := by
  cases mode with
  | localStep => rfl
  | _ => simp [Mode.isLocalStep] at h

namespace Ir

/-- A statement that may be emitted during a phase, with the code inside it. -/
inductive Stmt.During : Phase → Stmt → Prop
  | letIn {φ : Phase} {loc : Loc} {v : Var} {e : Expr}
    (h : e.asks = true → φ.isConsensus = false) : During φ (.letIn loc v e)
  | claim {φ : Phase} {loc : Loc} {frames : List Frame} {c : Claim} {a : Arg} :
    During φ (.claim loc frames c a)
  | ret {φ : Phase} {loc : Loc} {slot : Nat} {value : Option Value} : During φ (.ret loc slot value)
  | prompt {φ : Phase} {loc : Loc} {slot : Nat} {result : Option Var} {body : Code}
    (h : ∀ s ∈ body, During φ s) : During φ (.prompt loc slot result body)
  | branch {φ : Phase} {loc : Loc} {cond : Arg} {onTrue onFalse : Code}
    (ht : ∀ s ∈ onTrue, During φ s) (hf : ∀ s ∈ onFalse, During φ s) :
    During φ (.branch loc cond onTrue onFalse)
  | stop {J : NameMap Var} {loc : Loc} {frames : List Frame} : During (.step J) (.stop loc frames)
  | only {J : NameMap Var} {loc : Loc} {who : String} {body : Code}
    (h : ∀ s ∈ body, During (.step J) s) : During (.step J) (.only loc who body)
  -- who joins is not on the ledger yet; the rest of the program sees the sender there
  | toConsensus {J : NameMap Var} {loc : Loc} {t : Transition} {check next : Code}
    (hjoin : t.join = true → J.get? t.who = none)
    (hagain : t.join = false → J.get? t.who = some t.whoVar)
    (hlate : ∀ d, t.timeout = some d → ∀ s ∈ d.body, During (.step J) s)
    (hbody : t.body = check ++ next) (hcheck : ∀ s ∈ check, During (.step J) s)
    (hnext : ∀ s ∈ next, During (.consensus (J.insertNew t.who t.whoVar)) s) :
    During (.step J) (.toConsensus loc t)
  | transfer {J : NameMap Var} {loc : Loc} {frames : List Frame} {recipient amount : Arg} :
    During (.consensus J) (.transfer loc frames recipient amount)
  | fromConsensus {J : NameMap Var} {loc : Loc} {body : Code}
    (h : ∀ s ∈ body, During (.step J) s) : During (.consensus J) (.fromConsensus loc body)
  | loop {J : NameMap Var} {loc : Loc} {init : Assignment} {invariant cond : Block} {body : Code}
    (hinvariant : ∀ s ∈ invariant.code, During (.consensus J) s)
    (hcond : ∀ s ∈ cond.code, During (.consensus J) s)
    (hbody : ∀ s ∈ body, During (.consensus J) s) :
    During (.consensus J) (.loop loc init invariant cond body)
  | cont {J : NameMap Var} {loc : Loc} {assignment : Assignment} :
    During (.consensus J) (.cont loc assignment)

/-- Code that may be emitted during a phase. -/
def Code.During (φ : Phase) (code : Code) : Prop := ∀ s ∈ code, s.During φ

variable {φ : Phase} {s : Stmt} {code code' : Code}

@[simp] theorem Code.during_nil : Code.During φ [] := by simp [Code.During]

@[simp] theorem Code.during_cons : Code.During φ (s :: code) ↔ s.During φ ∧ code.During φ := by
  simp [Code.During]

@[simp] theorem Code.during_append :
    Code.During φ (code ++ code') ↔ code.During φ ∧ code'.During φ := by
  simp [Code.During, or_imp, forall_and]

theorem Code.During.single (h : s.During φ) : Code.During φ [s] := by simpa using h

/-- Private code is allowed wherever participants act on their own. -/
theorem Stmt.During.of_privately (h : s.During .privately) (hφ : φ.isConsensus = false) :
    s.During φ := by
  generalize hprivate : Phase.privately = ψ at h
  induction h with
  | letIn => exact .letIn fun _ => hφ
  | claim => exact .claim
  | ret => exact .ret
  | prompt _ ih => exact .prompt fun s hs => ih s hs hprivate
  | branch _ _ iht ihf =>
    exact .branch (fun s hs => iht s hs hprivate) fun s hs => ihf s hs hprivate
  | _ => cases hprivate

theorem Code.During.of_privately (h : code.During .privately) (hφ : φ.isConsensus = false) :
    code.During φ :=
  fun s hs => (h s hs).of_privately hφ

end Ir

variable {φ : Phase} {s s' : Supply} {loc : Loc} {ctx : Ctx} {env : Bindings} {ev : Evaluator}

/-! ### Expressions -/

theorem Ir.Stmt.ByPrim.during {mode : Mode} {p : Prim} {st : Stmt} (h : st.ByPrim mode p) :
    st.During mode.phase := by
  cases h with
  | compute hask => exact .letIn (by simp [hask])
  | ask hlocal =>
    rw [Mode.phase_of_isLocalStep hlocal]
    exact .letIn fun _ => rfl
  | claim => exact .claim
  | transfer hconsensus =>
    obtain ⟨J, hJ⟩ := Mode.phase_of_isConsensus hconsensus
    rw [hJ]
    exact .transfer
  | stop hstep =>
    obtain ⟨J, hJ⟩ := Mode.phase_of_isStep hstep
    rw [hJ]
    exact .stop

theorem Ir.Code.During.unprompted {code : Code} (h : code.During φ) (loc : Loc) (slot : Nat)
    (result : Value) : (Code.unprompted code loc slot result).During φ := by
  have hprompt : Code.During φ [.prompt loc slot none code] := .single (.prompt h)
  unfold Code.unprompted
  split
  · exact Code.during_nil
  · split
    · exact fun st hst => h st (List.dropLast_subset _ hst)
    · exact hprompt
  · exact hprompt

/-- Everything that is evaluated emits only what the phase of its mode allows. -/
structure Evaluator.Phased (ev : Evaluator) : Prop where
  expr {ctx : Ctx} {env : Bindings} {e : Surface.Expr} {s s' : Supply} {r : Lifted SecValue} :
    (ev.expr ctx env e).Yields s r s' → r.code.During ctx.mode.phase
  stmts {ctx : Ctx} {loc : Loc} {scope : Scope} {stmts : List Surface.Stmt} {s s' : Supply}
    {r : Lifted Outcome} :
    (ev.stmts ctx loc scope stmts).Yields s r s' → r.code.During ctx.mode.phase

namespace Evaluator.Phased

theorem joinExits {slot : Nat} {body : Lifted Outcome} {r : Lifted Applied}
    (hbody : body.code.During φ) (hrun : (ctx.joinExits loc slot body).Yields s r s') :
    r.code.During φ := by
  unfold Ctx.joinExits at hrun
  split at hrun
  · simp only [yields_pure] at hrun
    rw [hrun.1]
    exact hbody.unprompted _ _ _
  · simp only [yields_pure] at hrun
    rw [hrun.1]
    exact hbody.unprompted _ _ _
  · simp only [yields_bind, yields_pure] at hrun
    obtain ⟨_, _, _, _, _, _, rfl, _⟩ := hrun
    exact .single (.prompt hbody)

theorem applyClosure (hev : ev.Phased) {c : Closure} {args : List SecValue} {r : Lifted Applied}
    (hrun : (ev.applyClosure ctx loc c args).Yields s r s') : r.code.During ctx.mode.phase := by
  simp only [Evaluator.applyClosure, yields_bind] at hrun
  obtain ⟨_, _, _, _, _, _, _, _, _, body, _, hbody, hjoin⟩ := hrun
  have hcode := hev.stmts hbody
  exact joinExits hcode hjoin

theorem composes (hev : ev.Phased) :
    ev.Composes fun mode _ _ code => code.During mode.phase where
  append := fun h h' => Code.during_append.2 ⟨h, h'⟩
  prim := fun _ _ _ _ h _ st hst => (h st hst).during
  drop := fun _ => Code.during_nil
  choice := by
    intro mode _ _ _ _ onTrue onFalse loc trueLoc falseLoc slot result cond v w ht hf _ _
    have hreturn : ∀ {code : Code} {retLoc : Loc} {v : Value}, code.During mode.phase →
        Code.During mode.phase (code ++ [.ret retLoc slot (some v)]) :=
      fun h => Code.during_append.2 ⟨h, .single .ret⟩
    exact .single (.prompt (Code.During.single (.branch (hreturn ht) (hreturn hf))))
  privately := by
    intro parties _ _ _ code code' h h'
    have hprivate : Code.During .privately (code ++ code') := Code.during_append.2 ⟨h, h'⟩
    exact hprivate.of_privately rfl
  expr := hev.expr
  closure := hev.applyClosure

end Evaluator.Phased

end Choreography
