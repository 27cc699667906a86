import Choreography.Elaborate.Access
import Choreography.Elaborate.Declaration
import Choreography.Elaborate.Primitive
import Choreography.Proofs.Emission

/-!
Operations, primitives and projections are sound: from formed values they make formed values, and
what they emit is formed.
-/

namespace Choreography

open Eval Ir

variable {R : Regime} {J : List (String × Var)} {X : List Known} {s s' : Supply} {loc : Loc}
  {ctx : Ctx} {level : Level} {args : List SecValue}

/-! ### Operations -/

/-- The operands of formed values may be mentioned at the level of all of them together. -/
theorem operands_formed {ts : List (Ty × Arg)} (hargs : ∀ sv ∈ args, sv.Formed R X)
    (htyped : ∀ t ∈ ts, ∃ v ∈ args.map (·.value), v.typed? = some t) :
    (∀ a ∈ ts.map (·.2), a.Formed R X (Labelled.levelOf args)) ∧
      (ts.map (·.2)).map Arg.type = ts.map (·.1) := by
  have hall : ∀ t ∈ ts, t.2.Formed R X (Labelled.levelOf args) ∧ t.2.type = t.1 := by
    intro t ht
    obtain ⟨v, hv, hsome⟩ := htyped t ht
    obtain ⟨sv, hsv, rfl⟩ := List.mem_map.1 hv
    obtain ⟨hformed, htype⟩ := (hargs sv hsv).typed? hsome
    exact ⟨hformed.raise (.levelOf hsv), htype⟩
  constructor
  · intro a ha
    obtain ⟨t, ht, rfl⟩ := List.mem_map.1 ha
    exact (hall t ht).1
  · rw [List.map_map]
    exact List.map_congr_left fun t ht => (hall t ht).2

/-- All operations but selection have a type that programs could write. -/
theorem Ir.Op.type_ground {op : Op} (h : op ≠ .ifThenElse) : op.type.Ground := by
  have huint : ∀ t ∈ [Ty.uint256, Ty.uint256], t.Ground := by
    simp [Ty.Ground.uint256]
  have hbytes : ∀ t ∈ [Ty.bytes, Ty.bytes], t.Ground := by
    simp [Ty.Ground.bytes]
  cases op with
  | ifThenElse => exact absurd rfl h
  | add | sub | mul | div | mod | shiftLeft | shiftRight | bitAnd | bitOr | bitXor =>
    exact .func huint .uint256
  | lt | le | eq | ge | gt => exact .func huint .bool
  | bytesEq => exact .func hbytes .bool
  | balance | txnValue => exact .func (by simp) .uint256

/-- Selection takes a boolean and two operands of one type. -/
theorem solve_select {t₁ t₂ t₃ : Ty} {solved : NameMap Ty}
    (h : Ty.solveList [.bool, .var "b", .var "b"] [t₁, t₂, t₃] {} = (true, solved)) :
    t₁ = .bool ∧ t₃ = t₂ ∧ solved.entries = [("b", t₂)] := by
  have hempty : OrderedMap.get? ({} : NameMap Ty) "b" = none := rfl
  have hnew : (OrderedMap.insert ({} : NameMap Ty) "b" t₂).get? "b" = some t₂ := rfl
  by_cases hcond : Ty.bool = t₁
  · by_cases hsame : t₂ = t₃
    · subst hcond hsame
      simp only [Ty.solveList, Ty.solve, hempty, hnew, decide_true, Prod.mk.injEq, true_and] at h
      exact ⟨rfl, rfl, by rw [← h]; rfl⟩
    · simp [Ty.solveList, Ty.solve, hempty, hnew, hcond, hsame] at h
  · simp [Ty.solveList, Ty.solve, hcond] at h

/-- An operation is applied at types that solve its signature. -/
theorem Ir.Op.applies_of_convert {op : Op} {t : Ty} {vs : List Value} {operands : List Arg}
    (h : (op.type.convert loc vs).Yields s (t, operands) s') :
    ∃ ts : List (Ty × Arg), (∀ t ∈ ts, ∃ v ∈ vs, v.typed? = some t) ∧ operands = ts.map (·.2) ∧
      op.Applies (ts.map (·.1)) t ∧ s' = s := by
  by_cases hselect : op = .ifThenElse
  · subst hselect
    obtain ⟨dom, rng, ts, solved, hstrip, hlen, htyped, hoperands, hsolve, rfl, rfl⟩ :=
      Ty.convert_yields h
    refine ⟨ts, htyped, hoperands, ⟨dom, rng, solved.entries, hstrip, ?_, rfl⟩, rfl⟩
    simp only [Op.type, Ty.stripForAll, Ty.func.injEq] at hstrip
    obtain ⟨rfl, rfl⟩ := hstrip
    obtain ⟨⟨t₁, a₁⟩, ⟨t₂, a₂⟩, ⟨t₃, a₃⟩, rfl⟩ := List.length_eq_three.1 hlen.symm
    obtain ⟨rfl, rfl, hentries⟩ := solve_select hsolve
    simp [hentries, Ty.substAll, Ty.subst]
  · obtain ⟨ts, htyped, hoperands, hfunc, rfl⟩ := (Op.type_ground hselect).convert h
    refine ⟨ts, htyped, hoperands, ⟨ts.map (·.1), t, [], ?_, by simp [Ty.substAll], rfl⟩, rfl⟩
    rw [(Op.type_ground hselect).stripForAll, hfunc]

theorem Ctx.applyOp_sound {op : Op} (hargs : ∀ sv ∈ args, sv.Formed R X) :
    Computes R J X s (SecValue.Formed R) (ctx.applyOp loc op args) := by
  unfold Ctx.applyOp
  split
  · rename_i v hconstant
    refine .plain ?_
    obtain ⟨n, rfl⟩ | ⟨b, rfl⟩ := Op.constant?_cases hconstant
    · exact .int
    · exact .bool
  · refine .bind ⟨Op.applies_of_convert⟩ ?_
    rintro ⟨type, operands⟩ _ ⟨ts, htyped, rfl, happlies, rfl⟩
    obtain ⟨hformed, htypes⟩ := operands_formed hargs htyped
    exact Ctx.liftValue_sound (.silent rfl (.prim (htypes ▸ happlies)) hformed)

/-! ### Primitives -/

/-- Operands of the one type that a claim or a transfer takes. -/
theorem convert_unary {dom rng t : Ty} {operands : List Arg} (hargs : ∀ sv ∈ args, sv.Formed R X)
    (hdom : dom.Ground) (hrng : rng.Ground)
    (hrun : ((Ty.func [dom] rng).convert loc (args.map (·.value))).Yields s (t, operands) s') :
    (∀ a ∈ operands, a.Formed R X .secret ∧ a.type = dom) ∧ s' = s := by
  obtain ⟨ts, htyped, rfl, hfunc, rfl⟩ := (Ty.Ground.func (by simp [hdom]) hrng).convert hrun
  obtain ⟨hformed, htypes⟩ := operands_formed hargs htyped
  refine ⟨fun a ha => ⟨(hformed a ha).raise .to_secret, ?_⟩, rfl⟩
  have hmem : a.type ∈ [dom] := by
    rw [(Ty.func.inj hfunc).1, ← htypes]
    exact List.mem_map_of_mem ha
  simpa using hmem

theorem Ctx.claim_sound {c : Claim} (hargs : ∀ sv ∈ args, sv.Formed R X) :
    Computes R J X s (SecValue.Formed R) (ctx.claim loc c (args.map (·.value))) := by
  refine .keep (convert_unary hargs .bool .null) fun operands hoperands =>
    .pure ⟨[], [], .inert (fun st hst => ?_) (Nat.le_refl _), .null⟩
  obtain ⟨a, ha, rfl⟩ := List.mem_map.1 hst
  exact ⟨.claim (hoperands a ha).1 (hoperands a ha).2, rfl⟩

theorem Ctx.digest_sound (hargs : ∀ sv ∈ args, sv.Formed R X) :
    Computes R J X s (SecValue.Formed R) (ctx.digest loc args) :=
  .keep Value.typeOfAll_yields fun _ htyped =>
    Ctx.liftValue_sound (.silent rfl .digest (operands_formed hargs htyped).1)

theorem Ctx.askFrontend_sound {who method : String} {type : Ty}
    (hargs : ∀ sv ∈ args, sv.Formed R X) (hground : type.Ground)
    (hoffers : R.Offers who method type) :
    Computes R J X s (SecValue.Formed R)
      (ctx.askFrontend loc who method type (args.map (·.value))) := by
  refine .ensure fun _ => .bind ⟨hground.convert⟩ ?_
  rintro ⟨rng, operands⟩ _ ⟨ts, htyped, rfl, rfl, rfl⟩
  obtain ⟨hformed, htypes⟩ := operands_formed hargs htyped
  refine Ctx.liftValue_sound ⟨.interact (htypes ▸ hoffers), fun a ha => ?_, fun _ => .refl⟩
  exact (hformed a ha).raise .to_secret

theorem Ctx.beginTransfer_sound {invalid : Fault} (hargs : ∀ sv ∈ args, sv.Formed R X) :
    Computes R J X s (SecValue.Formed R) (ctx.beginTransfer loc args invalid) := by
  refine .ensure fun _ => ?_
  split
  · rename_i arg
    refine .bind ⟨SecValue.requirePublic_yields.1⟩ ?_
    rintro amount _ ⟨rfl, rfl⟩
    split
    · rename_i operand htyped
      have hamount : amount.Formed R X .pub := hargs _ List.mem_cons_self
      refine .freshTag (.pure (.plain (Nat.le_refl _) (.object ?_ ?_)))
      · simp [Env.ofList, Env.setAll, Env.set, Env.without, Env.push, Env.empty]
      · intro b hb
        obtain rfl : b = ("to", .pub (.prim loc (.transferTo _ operand))) :=
          List.mem_singleton.1 hb
        exact .prim (hamount.typed? htyped)
    · exact .fail
  · exact .fail

theorem Ctx.transferTo_sound {amount : Arg} (hargs : ∀ sv ∈ args, sv.Formed R X)
    (hamount : amount.Formed R X .pub) (hamountType : amount.type = .uint256) :
    Computes R J X s (SecValue.Formed R) (ctx.transferTo loc amount (args.map (·.value))) := by
  refine .ensure fun _ => .keep (convert_unary hargs .address .null) fun operands hoperands =>
    .pure ⟨[], [], .inert (fun st hst => ?_) (Nat.le_refl _), .null⟩
  obtain ⟨a, ha, rfl⟩ := List.mem_map.1 hst
  exact ⟨.transfer (hoperands a ha).1 (hoperands a ha).2 hamount hamountType, rfl⟩

theorem Ctx.exit_sound {invalid : Fault} :
    Computes R J X s (SecValue.Formed R) (ctx.exit loc args invalid) := by
  refine .ensure fun _ => .ensure fun _ => .pure ⟨[], [], .inert ?_ (Nat.le_refl _), .prim trivial⟩
  intro st hst
  obtain rfl := List.mem_singleton.1 hst
  exact ⟨.stop, rfl⟩

theorem Ctx.makeEnum_formed {env : Bindings} {n : Nat} (henv : env.Formed R X) :
    From s (fun v s' => v.Formed R X level ∧ s.nextId ≤ s'.nextId) (ctx.makeEnum loc env n) := by
  refine .freshTag (.pure ⟨.tuple ?_, Nat.le_refl _⟩)
  intro v hv
  rcases List.mem_cons.1 hv with rfl | hmember
  · refine .closure ?_ henv
    simp [enumBody, Surface.Block.returning, Surface.Block.idents, Surface.stmtsIdents,
      Surface.Stmt.idents, Surface.Expr.idents, Regime.Admits]
  · obtain ⟨i, _, rfl⟩ := List.mem_map.1 hmember
    exact .int

theorem Value.mem_types? {vs : List Value} :
    ∀ {ts : List Ty}, Value.types? vs = some ts → ∀ t ∈ ts, ∃ typeLoc, .type typeLoc t ∈ vs := by
  induction vs with
  | nil =>
    intro ts h
    simp only [Value.types?, List.mapM_nil, Option.pure_def, Option.some.injEq] at h
    simp [← h]
  | cons v vs ih =>
    intro ts h t ht
    simp only [Value.types?, List.mapM_cons, Option.bind_eq_bind, Option.bind_eq_some_iff,
      Option.pure_def, Option.some.injEq] at h
    obtain ⟨first, hfirst, rest, hmap, rfl⟩ := h
    rcases List.mem_cons.1 ht with rfl | hmem
    · split at hfirst
      · cases hfirst
        exact ⟨_, List.mem_cons_self⟩
      · cases hfirst
    · obtain ⟨typeLoc, hin⟩ := ih hmap t hmem
      exact ⟨typeLoc, List.mem_cons_of_mem _ hin⟩

theorem Value.mem_fieldTypes? {bindings : List (String × SecValue)} :
    ∀ {fs : List (String × Ty)}, Value.fieldTypes? ⟨bindings⟩ = some fs →
      ∀ f ∈ fs, ∃ b ∈ bindings, ∃ typeLoc, b.2.value = .type typeLoc f.2 := by
  induction bindings with
  | nil =>
    intro fs h
    simp only [Value.fieldTypes?, List.mapM_nil, Option.pure_def, Option.some.injEq] at h
    simp [← h]
  | cons b bindings ih =>
    intro fs h f hf
    simp only [Value.fieldTypes?, List.mapM_cons, Option.bind_eq_bind, Option.bind_eq_some_iff,
      Option.pure_def, Option.some.injEq] at h
    obtain ⟨first, hfirst, rest, hmap, rfl⟩ := h
    rcases List.mem_cons.1 hf with rfl | hmem
    · split at hfirst
      · cases hfirst
        exact ⟨_, List.mem_cons_self, _, rfl⟩
      · cases hfirst
    · obtain ⟨b, hb, hvalue⟩ := ih hmap f hmem
      exact ⟨b, List.mem_cons_of_mem _ hb, hvalue⟩

theorem Value.types?_ground {vs : List Value} (hvs : ∀ v ∈ vs, v.Formed R X level) {ts : List Ty}
    (h : Value.types? vs = some ts) : ∀ t ∈ ts, t.Ground := by
  intro t ht
  obtain ⟨_, hin⟩ := Value.mem_types? h t ht
  cases hvs _ hin
  assumption

theorem Value.fieldTypes?_ground {bindings : List (String × SecValue)}
    (hfields : ∀ b ∈ bindings, b.2.Formed R X) {fs : List (String × Ty)}
    (h : Value.fieldTypes? ⟨bindings⟩ = some fs) : ∀ f ∈ fs, f.2.Ground := by
  intro f hf
  obtain ⟨b, hb, _, hvalue⟩ := Value.mem_fieldTypes? h f hf
  have hformed := hfields b hb
  rw [SecValue.Formed, hvalue] at hformed
  cases hformed
  assumption

/-- Types that programs build from types are types that programs can write. -/
theorem Prim.makeType?_ground {p : Prim} {t : Ty} (hargs : ∀ sv ∈ args, sv.Formed R X)
    (h : p.makeType? (args.map (·.value)) = some t) : t.Ground := by
  have hvalues : ∀ v ∈ args.map (·.value), v.Formed R X .secret := by
    intro v hv
    obtain ⟨sv, hsv, rfl⟩ := List.mem_map.1 hv
    exact (hargs sv hsv).raise .to_secret
  unfold Prim.makeType? at h
  split at h
  · rename_i dom _ rng hlist
    rw [hlist] at hvalues
    simp only [Option.map_eq_some_iff] at h
    obtain ⟨types, htypes, rfl⟩ := h
    have hrng : rng.Ground := by
      cases hvalues _ (List.mem_cons_of_mem _ List.mem_cons_self)
      assumption
    cases hvalues _ List.mem_cons_self with
    | tuple hdom => exact .func (Value.types?_ground hdom htypes) hrng
  · rename_i elem _ n hlist
    rw [hlist] at hvalues
    simp only [Option.map_eq_some_iff] at h
    obtain ⟨size, _, rfl⟩ := h
    cases hvalues _ List.mem_cons_self with
    | type helem => exact .array helem
  · simp only [Option.map_eq_some_iff] at h
    obtain ⟨types, htypes, rfl⟩ := h
    exact .tuple (Value.types?_ground hvalues htypes)
  · rename_i fields hlist
    rw [hlist] at hvalues
    simp only [Option.map_eq_some_iff] at h
    obtain ⟨types, htypes, rfl⟩ := h
    cases hvalues _ List.mem_cons_self with
    | object _ hfields =>
      refine .object fun f hf => ?_
      exact Value.fieldTypes?_ground hfields htypes f (List.mem_mergeSort.1 hf)
  · cases h

/-- Whatever primitive is applied to formed values, the result is sound. -/
theorem Ctx.applyPrim_sound {primLoc : Loc} {p : Prim} {env : Bindings} (henv : env.Formed R X)
    (hp : (Value.prim primLoc p).Formed R X level) (hargs : ∀ sv ∈ args, sv.Formed R X) :
    Computes R J X s (SecValue.Formed R) (ctx.applyPrim loc env p args) := by
  unfold Ctx.applyPrim
  cases hp with
  | app => exact .fail
  | prim hp =>
    cases p with
    | op o => exact Ctx.applyOp_sound hargs
    | funType | arrayType | tupleType | objectType =>
      exact .orFail fun _ hmake => .plain (.type (Prim.makeType?_ground hargs hmake))
    | makeEnum =>
      simp only
      split
      · exact .orFail fun _ _ => (Ctx.makeEnum_formed henv).bind fun _ _ henum =>
          .pure (.plain henum.2 henum.1)
      · exact .fail
    | app => exact .fail
    | interact who method type =>
      obtain ⟨_, hoffers, hground⟩ := hp
      exact Ctx.askFrontend_sound hargs hground hoffers
    | declassify =>
      have hunguarded : R.guarded = false := hp
      simp only
      split
      · rename_i arg
        refine .bind ⟨SecValue.declassify_yields.1⟩ ?_
        rintro known _ ⟨_, rfl, rfl⟩
        exact .plain ((hargs arg List.mem_cons_self).raise (.of_unguarded hunguarded))
      · exact .fail
    | commit => exact .ensure fun _ => .ensure fun _ => .plain (.prim trivial)
    | digest => exact Ctx.digest_sound hargs
    | claim c => exact Ctx.claim_sound hargs
    | transfer => exact Ctx.beginTransfer_sound hargs
    | transferTo tag amount => exact Ctx.transferTo_sound hargs hp.1 hp.2
    | exit => exact Ctx.exit_sound
    | committed | exited => exact .fail

end Choreography
