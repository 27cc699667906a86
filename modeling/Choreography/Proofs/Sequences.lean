import Choreography.Elaborate.Branch
import Choreography.Elaborate.Loop
import Choreography.Proofs.Access
import Choreography.Proofs.Applications
import Choreography.Proofs.Faults

/-!
Declarations, branches and loops are sound. What they bind inside branches and turns ends there;
the ways out of the parts are put together.
-/

namespace Choreography

open Eval Ir

variable {R : Regime} {J : List (String × Var)} {X : List Known} {s s₁ s₂ s' : Supply} {loc : Loc}
  {ctx : Ctx} {env : Bindings} {ev : Evaluator} {scope : Scope} {bound : Bindings}
  {rest : List Surface.Stmt} {left right : List Exit}

/-! ### Declarations -/

/-- Bindings that a declaration makes. -/
def Bindings.Declared (R : Regime) (X : List Known) (bound : Bindings) : Prop :=
  ∀ b ∈ bound.entries, SecValue.Formed R X b.2

theorem Bindings.Declared.formed (h : bound.Declared R X) : bound.Formed R X :=
  fun b hb _ => h b hb

theorem Bindings.Declared.mono {Y : List Known} (h : bound.Declared R X) (hX : X ⊆ Y) :
    bound.Declared R Y :=
  fun b hb => (h b hb).mono hX

/-! ### Sequences -/

/-- Whatever comes first, the rest of the statements is evaluated where it has left its
variables. -/
theorem Lifted.Ends.then {mode : Mode} {slot : Option Nat} {next : Lifted Outcome} {code : Code}
    {exits : List Exit} {E : List Return} {O B : List Known}
    (hnext : next.Ends R J (X ++ O) s₁ s' mode slot) (hcode : Emits R J X s s₁ code E O B)
    (hreturned : Returned R slot E exits)
    (hexits : ∀ e, exits = [e] → e.value.Formed R (X ++ escaping code B)) :
    Lifted.Ends R J X s s' mode slot
      { code := code ++ next.code,
        value := { env := next.value.env, exits := exits ++ next.value.exits } } := by
  obtain ⟨E', O', B', hcode', hreturned', hexits', henv⟩ := hnext
  refine ⟨_, _, _, hcode.append hcode', hreturned.append hreturned', ?_, ?_⟩
  · intro e hone
    rcases List.append_eq_singleton_iff.1 hone with ⟨_, hlast⟩ | ⟨hfirst, _⟩
    · refine (hexits' e hlast).mono ?_
      rw [List.append_assoc]
      refine subset_append_left (List.append_subset_of_subset_of_subset ?_ ?_)
      · exact List.Subset.trans hcode.formed.exports_subset escaping_append_left
      · exact escaping_append_right
    · exact (hexits e hfirst).mono (subset_append_left escaping_append_left)
  · intro hprivate
    simpa using henv hprivate

/-- Statements after code that returns nothing. -/
theorem Lifted.Ends.after {mode : Mode} {slot : Option Nat} {code : Code} {r : Lifted Outcome}
    {O B : List Known} (hnext : r.Ends R J (X ++ O) s₁ s' mode slot)
    (hcode : Emits R J X s s₁ code [] O B) : (r.after code).Ends R J X s s' mode slot := by
  have hnone : Returned R slot [] [] := .nil
  exact hnext.then hcode hnone (by simp)

/-! ### Branches -/

theorem Returned.combine {slot : Option Nat} {E E' : List Return} {level : Level}
    (h : Returned R slot E left) (h' : Returned R slot E' right) :
    Returned R slot (E ++ E') (Exit.combine loc level left right) := by
  unfold Exit.combine
  split
  · rename_i hempty
    simp only [Bool.and_eq_true, List.isEmpty_iff] at hempty
    obtain ⟨rfl, rfl⟩ := hempty
    simpa using h.append h'
  · have hor : ∀ {E : List Return} {exits : List Exit}, Returned R slot E exits →
        Returned R slot E (if exits.isEmpty then [Exit.implicit loc level] else exits) := by
      intro E exits h
      split
      · rename_i hempty
        obtain rfl := List.isEmpty_iff.1 hempty
        have hnil : E = [] := List.length_eq_zero_iff.1 (Nat.le_zero.1 h.length_le)
        rw [hnil]
        exact .nil
      · exact h
    exact (hor h).append (hor h')

theorem Exit.taint_forall {P : Value → Prop} {level : Level} {exits : List Exit}
    (h : ∀ e ∈ exits, P e.value.value) : ∀ e ∈ exits.map (Exit.taint level), P e.value.value :=
  List.forall_mem_map.2 h

/-- Combining ways out adds none but falling off the end. -/
theorem Exit.combine_forall {P : Value → Prop} {level : Level} (hnull : P (.null loc))
    (hleft : ∀ e ∈ left, P e.value.value) (hright : ∀ e ∈ right, P e.value.value) :
    ∀ e ∈ Exit.combine loc level left right, P e.value.value := by
  have hor : ∀ {exits : List Exit}, (∀ e ∈ exits, P e.value.value) →
      ∀ e ∈ if exits.isEmpty then [Exit.implicit loc level] else exits, P e.value.value := by
    intro exits h
    split
    · exact List.forall_mem_singleton.2 hnull
    · exact h
  unfold Exit.combine
  split
  · simp
  · intro e he
    exact (List.mem_append.1 he).elim (hor hleft e) (hor hright e)

/-- Where ways out of two parts meet, there is none or more than one. -/
theorem Exit.combine_ne_singleton {level : Level} {e : Exit} :
    Exit.combine loc level left right ≠ [e] := by
  have hor : ∀ (exits : List Exit),
      (if exits.isEmpty then [Exit.implicit loc level] else exits) ≠ [] := by
    intro exits
    split
    · simp
    · rename_i hne
      simpa [List.isEmpty_iff] using hne
  unfold Exit.combine
  split
  · simp
  · intro hone
    rcases List.append_eq_singleton_iff.1 hone with ⟨hnil, _⟩ | ⟨_, hnil⟩
    · exact hor left hnil
    · exact hor right hnil

/-! ### Loops -/

theorem Ctx.loopVars_emits {bindings : List (String × SecValue)}
    (hall : ∀ b ∈ bindings, SecValue.Formed R X b.2) :
    From s (fun vars s' => (∀ i ∈ vars, i.2.2.Formed R X .secret ∧ i.2.2.type = i.2.1.type) ∧
      s.nextId ≤ s'.nextId ∧ ∀ i, (vars.map (·.2.1.id)).count i ≤ drawn s s' i)
      (ctx.loopVars loc bindings) := by
  induction bindings generalizing s with
  | nil => exact .pure (by simp)
  | cons b bindings ih =>
    obtain ⟨hfirst, hrest⟩ := List.forall_mem_cons.1 hall
    refine Ctx.alloc_from fun _ => .keep Value.typeOf_yields.1 fun typed ht => (ih hrest).bind
      fun more _ hmore => .pure ?_
    obtain ⟨hothers, hle, honce⟩ := hmore
    obtain ⟨hformed, htype⟩ := hfirst.typed? ht
    simp only at hle
    refine ⟨List.forall_mem_cons.2 ⟨⟨hformed.raise .to_secret, htype⟩, hothers⟩, by omega, ?_⟩
    intro i
    have hcount := honce i
    simp only [List.map_cons, List.count_cons, beq_iff_eq]
    grind [drawn]

theorem assignLoopVars_formed {vars : NameMap Var} {bindings : List (String × SecValue)}
    (hvars : ∀ e ∈ vars.entries, R.Sees X .pub e.2)
    (hall : ∀ b ∈ bindings, SecValue.Formed R X b.2) :
    From s (fun assignment s' =>
      (∀ i ∈ assignment, R.Sees X .pub i.1 ∧ i.2.Formed R X .pub ∧ i.2.type = i.1.type) ∧ s' = s)
      (assignLoopVars loc vars bindings) := by
  induction bindings with
  | nil => exact .pure (by simp)
  | cons b bindings ih =>
    obtain ⟨hfirst, hrest⟩ := List.forall_mem_cons.1 hall
    obtain ⟨name, sv⟩ := b
    refine .orFail fun v hget => .bind ⟨SecValue.requirePublic_yields.1⟩ ?_
    rintro value _ ⟨rfl, rfl⟩
    refine .keep Value.checkType_yields.1 fun a ha => .keep (ih hrest).result fun _ hothers =>
      .pure ⟨List.forall_mem_cons.2 ⟨⟨?_, ?_⟩, hothers⟩, rfl⟩
    · exact hvars _ (OrderedMap.mem_of_get? hget)
    · exact Value.Formed.typed? hfirst ha

/-- A loop from its parts, whose numbers are drawn one after the other. -/
theorem Emits.loop {init : Assignment} {invariant cond : Block} {body : Code} {s₃ s₄ : Supply}
    {E : List Return} {O Oi Oc B Bi Bc : List Known}
    (hinit : ∀ i ∈ init, i.2.Formed R X .secret ∧ i.2.type = i.1.type)
    (hle : s.nextId ≤ s₁.nextId) (hids : ∀ i, (init.map (·.1.id)).count i ≤ drawn s s₁ i)
    (hinvariant : Emits R J (X ++ init.map fun i => .pub i.1) s₁ s₂ invariant.code [] Oi Bi)
    (hinvariantResult : invariant.result.Formed R (X ++ (init.map fun i => .pub i.1) ++ Oi) .secret)
    (hinvariantType : invariant.result.type = .bool)
    (hcond : Emits R J (X ++ init.map fun i => .pub i.1) s₂ s₃ cond.code [] Oc Bc)
    (hcondResult : cond.result.Formed R (X ++ (init.map fun i => .pub i.1) ++ Oc) .secret)
    (hcondType : cond.result.type = .bool)
    (hbody : Emits R J (X ++ init.map fun i => .pub i.1) s₃ s₄ body E O B) :
    Emits R J X s s₄ [.loop loc init invariant cond body] E (init.map fun i => .pub i.1)
      ((init.map fun i => .pub i.1) ++ (Bi ++ Bc ++ B)) := by
  obtain ⟨invariantLoc, invariantFrames, invariantCode, invariantResult⟩ := invariant
  obtain ⟨condLoc, condFrames, condCode, condResult⟩ := cond
  let inside := X ++ init.map fun i => .pub i.1
  let invariantPart : Part := ⟨J, inside, invariantCode, [], Oi, Bi⟩
  let condPart : Part := ⟨J, inside, condCode, [], Oc, Bc⟩
  let bodyPart : Part := ⟨J, inside, body, E, O, B⟩
  have hfits : ∀ {p : Part}, p.joined = J → p.known = inside → p.Fits J inside := by
    rintro p rfl hknown
    exact ⟨List.Subset.refl _, by simp [hknown]⟩
  have hstmt : Stmt.Formed R J X none (.loop loc init
      ⟨invariantLoc, invariantFrames, invariantPart.code, invariantResult⟩
      ⟨condLoc, condFrames, condPart.code, condResult⟩ bodyPart.code)
      [invariantPart, condPart, bodyPart] bodyPart.returns (init.map fun i => .pub i.1)
      ((init.map fun i => .pub i.1) ++
        (invariantPart.binders ++ condPart.binders ++ bodyPart.binders)) :=
    .loop hinit (hfits rfl rfl) rfl hinvariantResult hinvariantType (hfits rfl rfl) rfl hcondResult
      hcondType (hfits rfl rfl)
  have hle₁ := hinvariant.le
  have hle₂ := hcond.le
  have hle₃ := hbody.le
  refine .single hstmt ?_ (by omega) fun i => ?_
  · simp only [List.mem_cons, List.not_mem_nil, or_false, forall_eq_or_imp, forall_eq]
    exact ⟨hinvariant.formed, hcond.formed, hbody.formed⟩
  · have hdefs : (definitions [.loop loc init ⟨invariantLoc, invariantFrames, invariantCode,
        invariantResult⟩ ⟨condLoc, condFrames, condCode, condResult⟩ body]).count i
        = (init.map (·.1.id)).count i + (definitions invariantCode).count i
          + (definitions condCode).count i + (definitions body).count i := by
      simp [Stmt.defines, Stmt.inner, definitions, Nat.add_assoc]
    have hinitOnce := hids i
    have hinvariantOnce := hinvariant.once i
    have hcondOnce := hcond.once i
    have hbodyOnce := hbody.once i
    have hadd₁ := drawn_add hle hle₁ i
    have hadd₂ := drawn_add (Nat.le_trans hle hle₁) hle₂ i
    have hadd₃ := drawn_add (Nat.le_trans (Nat.le_trans hle hle₁) hle₂) hle₃ i
    simp only at hinvariantOnce hcondOnce
    rw [hdefs]
    omega

/-- A return inside a loop takes along what is bound before the loop, by the loop and on the way. -/
theorem escaping_loop {before turn : Code} {init : Assignment} {invariant cond : Block}
    {O B Bi Bc Bt : List Known} (hbefore : O ⊆ escaping before B) :
    X ++ O ++ (init.map fun i => .pub i.1) ++ escaping turn Bt ⊆
      X ++ escaping (before ++ [.loop loc init invariant cond turn])
        (B ++ ((init.map fun i => .pub i.1) ++ (Bi ++ Bc ++ Bt))) := by
  intro k hk
  simp only [List.mem_append, mem_escaping, codeLeaves_append, codeLeaves_cons, codeLeaves_nil,
    Stmt.leaves, if_true] at hk ⊢
  rcases hk with ((hk | hk) | hk) | ⟨hB, hleft⟩
  · exact .inl hk
  · obtain ⟨hB, hleft⟩ := mem_escaping.1 (hbefore hk)
    exact .inr ⟨.inl hB, .inl hleft⟩
  · obtain ⟨i, hi, rfl⟩ := List.mem_map.1 hk
    exact .inr ⟨.inr (.inl hk), .inr (.inl (.inl (List.mem_map_of_mem hi)))⟩
  · exact .inr ⟨.inr (.inr (.inr hB)), .inr (.inl (.inr hleft))⟩

/-! ### Evaluation -/

namespace Evaluator.Sound

variable (hev : ev.Sound R) (hmode : ctx.mode.Formed R J X)
include hev hmode

section

variable (henv : env.Formed R X)
include henv

theorem decl {d : Surface.Decl} (hnames : R.Admits d.idents) (hbound : bound.Declared R X) :
    Computes R J X s (Bindings.Declared R) (ev.decl ctx bound env d) := by
  obtain ⟨declLoc, lhs, init⟩ := d
  refine .orFail fun e he => (Target.ofExpr_routine _).steps.bind fun target _ htarget => ?_
  subst he
  simp only [Surface.Decl.idents, Regime.admits_append] at hnames
  refine (hev.computes (by exact hmode) henv hnames.2).andThen fun _ _ O B hrhs hvalue => ?_
  have hcode := hrhs.widen htarget.2 (Nat.le_refl _)
  have hold := hbound.mono (List.subset_append_left X O)
  cases target with
  | single n =>
    refine .bind ⟨Bindings.bind_yields.1⟩ ?_
    rintro _ _ ⟨_, rfl, rfl⟩
    refine .pure ⟨O, B, hcode, fun b hb => ?_⟩
    rcases List.mem_append.1 hb with hb | hb
    · exact hold b hb
    · obtain rfl := List.mem_singleton.1 hb
      exact hvalue
  | several ns =>
    refine (Ctx.components_sound hvalue).andThen fun _ _ O' B' hcode' hvalues => .ensure fun _ =>
      .keep Bindings.bindAll_yields fun out hentries =>
        .pure ⟨O ++ O', B ++ B', hcode.append hcode', fun b hb => ?_⟩
    simp only [hentries, List.mem_append] at hb
    rcases hb with hb | hb
    · exact SecValue.Formed.mono (hold b hb) (by simp)
    · obtain ⟨v, hv, hsv⟩ := List.mem_map.1 (List.of_mem_zip hb).2
      rw [← hsv]
      simpa using hvalues v hv

theorem declsFrom {ds : List Surface.Decl} (hnames : R.Admits (Surface.declsIdents ds))
    (hbound : bound.Declared R X) :
    Computes R J X s (Bindings.Declared R) (ev.declsFrom ctx bound env ds) := by
  induction ds generalizing X bound s with
  | nil => exact .plain hbound
  | cons d ds ih =>
    simp only [Surface.declsIdents, Regime.admits_append] at hnames
    refine (hev.decl hmode henv hnames.1 hbound).andThen fun _ _ O _ hcode hdeclared => ?_
    have hsub : X ⊆ X ++ O := List.subset_append_left X O
    exact (ih (hmode.mono hsub) (henv.mono hsub) hnames.2 hdeclared).bind fun _ _ hrest =>
      .pure (.after hcode hrest)

theorem decls {ds : List Surface.Decl} (hnames : R.Admits (Surface.declsIdents ds)) :
    Computes R J X s (Bindings.Declared R) (ev.decls ctx env ds) :=
  hev.declsFrom hmode henv hnames (by simp [Bindings.Declared])

theorem boolBlock {e : Surface.Expr} (hnames : R.Admits e.idents) :
    From s (fun block s' => ∃ O B, Emits R J X s s' block.code [] O B ∧
      block.result.Formed R (X ++ O) .secret ∧ block.result.type = .bool)
      (ev.boolBlock ctx loc env e) := by
  refine (hev.computes hmode henv hnames).andThen fun _ _ O B hcode hvalue =>
    .keep Value.checkType_yields.1 fun _ hresult => .pure ?_
  obtain ⟨hformed, htype⟩ := hvalue.typed? hresult
  exact ⟨O, B, hcode, hformed.raise .to_secret, htype⟩

end

variable (hscope : scope.Formed R X)
include hscope

theorem continueWith {first : Lifted Outcome} (hfirst : first.Ends R J X s s₁ ctx.mode scope.slot)
    (hnames : R.Admits (Surface.stmtsIdents rest)) :
    From s₁ (fun r s' => r.Ends R J X s s' ctx.mode scope.slot)
      (ev.continueWith ctx loc scope first rest) := by
  unfold Evaluator.continueWith
  split
  · exact .pure hfirst
  · obtain ⟨E, O, B, hcode, hreturned, hexits, _⟩ := hfirst
    have hsub : X ⊆ X ++ O := List.subset_append_left X O
    have hscope' : Scope.Formed R (X ++ O)
        { scope with style := if first.value.exits.isEmpty then scope.style else .implicitNull } :=
      ⟨(hscope.mono hsub).env, (hscope.mono hsub).loopVars⟩
    have hrest : R.Admits (Surface.stmtsIdents (Surface.dropEmpty rest)) := by
      rwa [Surface.stmtsIdents_dropEmpty]
    exact (hev.concludes (hmode.mono hsub) hscope' hrest).bind fun _ _ hnext =>
      .pure (hnext.then hcode hreturned hexits)

theorem branch {cond : Surface.Expr} {onTrue : Surface.Stmt} {onFalse : Option Surface.Stmt}
    (hcond : R.Admits cond.idents) (hTrue : R.Admits (Surface.stmtsIdents [onTrue]))
    (hFalse : R.Admits (Surface.stmtsIdents onFalse.toList))
    (hrest : R.Admits (Surface.stmtsIdents rest)) :
    Concludes R J X s ctx.mode scope.slot (ev.branch ctx loc scope cond onTrue onFalse rest) := by
  refine (hev.computes hmode hscope.env hcond).andThen fun c s₁ O B hcode hvalue => ?_
  have hsub : X ⊆ X ++ O := List.subset_append_left X O
  have hrest' : R.Admits (Surface.stmtsIdents (Surface.dropEmpty rest)) := by
    rwa [Surface.stmtsIdents_dropEmpty]
  -- both branches are evaluated in the scope of the statement, up to what may end them
  have hbody : ∀ (body : Option Surface.Stmt) {bodyLoc : Loc} {s : Supply},
      R.Admits (Surface.stmtsIdents body.toList) →
      Concludes R J (X ++ O) s ctx.mode scope.slot (ev.branchBody ctx bodyLoc
        (if (Surface.dropEmpty rest).isEmpty then scope else { scope with style := .mayBeEmpty })
        body) := by
    intro body bodyLoc s hnames
    unfold Evaluator.branchBody
    split
    · exact hev.concludes (hmode.mono hsub) (hscope.mono hsub) hnames
    · have hinner : Scope.Formed R (X ++ O) { scope with style := .mayBeEmpty } :=
        ⟨(hscope.mono hsub).env, (hscope.mono hsub).loopVars⟩
      exact hev.concludes (hmode.mono hsub) hinner hnames
  split
  · split
    · exact (hbody (some onTrue) hTrue).bind fun _ _ hends =>
        hev.continueWith hmode hscope (hends.after hcode) hrest'
    · exact (hbody onFalse hFalse).bind fun _ _ hends =>
        hev.continueWith hmode hscope (hends.after hcode) hrest'
  · rename_i v hcondition
    obtain ⟨hcv, hvType⟩ := Value.condition?_runTime hcondition
    refine (hbody (some onTrue) hTrue).bind fun _ _ ht => (hbody onFalse hFalse).bind
      fun _ _ hf => ?_
    obtain ⟨Et, Ot, Bt, htCode, htReturned, _⟩ := ht
    obtain ⟨Ef, Of, Bf, hfCode, hfReturned, _⟩ := hf
    have hcond : (Arg.var v).Formed R (X ++ O) .secret := by
      have hvar : (Value.var v).Formed R (X ++ O) c.value.level := hcv ▸ hvalue
      cases hvar with
      | var hsees => exact .raise (.var hsees) .to_secret
    exact hev.continueWith hmode hscope
      ⟨_, _, _, hcode.append (.branch hcond hvType htCode hfCode),
        by simpa using htReturned.taint.combine hfReturned.taint,
        fun e hone => absurd hone Exit.combine_ne_singleton,
        fun _ => hscope.env.mono (List.subset_append_left _ _)⟩ hrest'
  · exact .fail

theorem continueLoop {assignLoc : Loc} {lhs rhs : Surface.Expr}
    (hnames : R.Admits (lhs.idents ++ rhs.idents)) :
    Concludes R J X s ctx.mode scope.slot
      (ev.continueLoop ctx loc scope assignLoc lhs rhs rest) := by
  refine .ensure fun _ => (hev.decl hmode hscope.env (by simpa [Surface.Decl.idents] using hnames)
    (by simp [Bindings.Declared])).andThen fun _ s₁ O _ hcode hdeclared => .orFail
      fun vars hvars => ?_
  have hsees : ∀ e ∈ vars.entries, R.Sees (X ++ O) .pub e.2 :=
    fun e he => (hscope.loopVars vars hvars e he).mono (List.subset_append_left X O) .refl
  refine .keep (assignLoopVars_formed hsees hdeclared).result fun assignment hassignment =>
    (expectLast_routine _).steps.bind fun _ s₂ hlast => .pure ?_
  have hcont : Emits R J (X ++ O) s₁ s₂ [.cont loc assignment] [] [] [] :=
    .single (.cont hassignment) (by simp) hlast.2 (by simp [Stmt.defines, Stmt.inner])
  exact ⟨_, _, _, hcode.append hcont, .nil, by simp,
    fun _ => hscope.env.mono (List.subset_append_left _ _)⟩

theorem loop {decls : List Surface.Decl} {invariantLoc loopLoc : Loc}
    {invariant : List Surface.Expr} {cond : Surface.Expr} {body : Surface.Stmt}
    (hdecls : R.Admits (Surface.declsIdents decls))
    (hinvariant : R.Admits (Surface.exprsIdents invariant)) (hcond : R.Admits cond.idents)
    (hbody : R.Admits (Surface.stmtsIdents [body])) (hrest : R.Admits (Surface.stmtsIdents rest)) :
    Concludes R J X s ctx.mode scope.slot
      (ev.loop ctx loc scope decls invariantLoc invariant loopLoc cond body rest) := by
  refine .ensure fun _ => (hev.decls hmode hscope.env hdecls).andThen
    fun init s₁ O B hcode hdeclared => (Ctx.loopVars_emits hdeclared).bind fun vars s₂ hvars =>
      .keep Bindings.merge_yields fun env hentries => ?_
  obtain ⟨hinitial, hle, hids⟩ := hvars
  split
  · -- inside the loop and after it, the loop variables are known to everyone
    let assigned : Assignment := vars.map fun i => (i.2.1, i.2.2)
    let inside := X ++ O ++ assigned.map fun i => .pub i.1
    have hsub : X ⊆ inside :=
      List.Subset.trans (List.subset_append_left X O) (List.subset_append_left _ _)
    have hknown : ∀ i ∈ vars, R.Sees inside .pub i.2.1 := by
      intro i hi
      refine ⟨.pub, List.mem_append_right _ ?_, .refl⟩
      simp only [assigned, List.map_map, List.mem_map]
      exact ⟨i, hi, rfl⟩
    have henv : env.Formed R inside := by
      refine (hscope.env.mono hsub).of_append ?_ hentries
      intro b hb _
      obtain ⟨i, hi, rfl⟩ := List.mem_map.1 (Env.mem_ofList hb)
      exact .var (hknown i hi)
    have hslots : ∀ e ∈ (vars.foldl (fun m i => m.insertNew i.1 i.2.1) ({} : NameMap Var)).entries,
        R.Sees inside .pub e.2 := by
      intro e he
      rcases OrderedMap.mem_foldl_insertNew (fun i : String × Var × Arg => i.1) (fun i => i.2.1) he
        with hempty | ⟨i, hi, rfl⟩
      · simp at hempty
      · exact hknown i hi
    have hassigned : ∀ i ∈ assigned, i.2.Formed R (X ++ O) .secret ∧ i.2.type = i.1.type := by
      intro i hi
      obtain ⟨j, hj, rfl⟩ := List.mem_map.1 hi
      exact hinitial j hj
    have hassignedIds : ∀ i, (assigned.map (·.1.id)).count i ≤ drawn s₁ s₂ i := by
      simpa [assigned, Function.comp_def] using hids
    have hrestScope : Scope.Formed R inside { scope with env } :=
      ⟨henv, (hscope.mono hsub).loopVars⟩
    simp only [Surface.exprsIdents, List.append_nil] at hinvariant
    refine (hev.boolBlock (hmode.mono hsub) henv hinvariant).bind fun invariantBlock _ hi =>
      (hev.boolBlock (hmode.mono hsub) henv hcond).bind fun condBlock _ hc =>
        (hev.concludes (hmode.mono hsub) ⟨henv, by rintro _ ⟨⟩; exact hslots⟩ hbody).bind
          fun turn s₃ ht => (hev.concludes (hmode.mono hsub) hrestScope hrest).bind
            fun after s' hends => .pure ?_
    obtain ⟨Oi, Bi, hiCode, hiResult, hiType⟩ := hi
    obtain ⟨Oc, Bc, hcCode, hcResult, hcType⟩ := hc
    obtain ⟨Et, Ot, Bt, htCode, htReturned, htExits, _⟩ := ht
    have hloop : Emits R J (X ++ O) s₁ s₃ [.loop loc assigned invariantBlock condBlock turn.code]
        _ _ _ :=
      .loop hassigned hle hassignedIds hiCode hiResult hiType hcCode hcResult hcType htCode
    have hafterEnds : after.Ends R J (X ++ (O ++ assigned.map fun i => .pub i.1)) s₃ s' ctx.mode
        scope.slot := by simpa [inside] using hends
    have hturnExits : ∀ e, turn.value.exits = [e] → e.value.Formed R (X ++ escaping
        (init.code ++ [.loop loc assigned invariantBlock condBlock turn.code])
        (B ++ ((assigned.map fun i => .pub i.1) ++ (Bi ++ Bc ++ Bt)))) :=
      fun e hone => (htExits e hone).mono (escaping_loop hcode.formed.exports_subset)
    simpa [assigned] using hafterEnds.then (hcode.append hloop) htReturned hturnExits
  · exact .fail

end Evaluator.Sound

end Choreography
