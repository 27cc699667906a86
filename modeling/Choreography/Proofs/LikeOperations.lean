import Choreography.Proofs.Likeness

/-!
The operations of the language in two runs that are compared: bindings, types, primitives and access to
the parts of values. What looks neither at levels nor at text is the very same computation in both.
-/

namespace Choreography

open Eval Ir

variable {V : Variation} {loc : Loc} {ctx ctx' : Ctx} {env env' overlay overlay' : Bindings}
  {sv sv' : SecValue} {v v' : Value} {vs vs' : List Value} {args args' : List SecValue}
  {level level' : Level}

/-! ### Bindings -/

namespace Bindings.Like

theorem bind (h : env.Like V env') (hsv : sv.Like V sv') (loc : Loc) (name : String) :
    Tracks V (Bindings.Like V) (env.bind loc name sv) (fun _ => env'.bind loc name sv') := by
  refine .orFail ?_
  simp only [Env.insert?, h.contains_eq name]
  split
  · exact .none
  · exact .some (h.push hsv)

theorem bindAll {bindings bindings' : List (String × SecValue)} (loc : Loc)
    (hbindings : List.Forall₂ (Binding.Like V) bindings bindings') :
    ∀ {env env' : Bindings}, env.Like V env' →
      Tracks V (Bindings.Like V) (env.bindAll loc bindings) (fun _ => env'.bindAll loc bindings') := by
  induction hbindings with
  | nil => exact fun h => .pure h
  | cons hb _ ih =>
    intro env env' h
    cases hb with
    | mk hsv => exact .bind (h.bind hsv loc _) fun _ _ henv => ih henv

theorem merge (h : env.Like V env') (hoverlay : overlay.Like V overlay') (loc : Loc) :
    Tracks V (Bindings.Like V) (env.merge loc overlay) (fun _ => env'.merge loc overlay') :=
  bindAll loc hoverlay.entries h

theorem lookup (h : env.Like V env') (loc : Loc) (name : String) :
    Tracks V (SecValue.Like V) (env.lookup loc name) (fun _ => env'.lookup loc name) :=
  .orFail (h.find? name)

theorem identify (h : env.Like V env') (loc : Loc) (name : String) :
    Tracks V (SecValue.Like V) (env.identify loc name) (fun _ => env'.identify loc name) := by
  refine .bind (h.lookup loc name) fun sv sv' hsv => ?_
  have hkept := hsv
  obtain ⟨hlevel, hv⟩ := hsv
  cases hv with
  | @participant tag p =>
    cases hname : p.displayName with
    | some _ =>
      simp only [hname]
      exact .pure hkept
    | none =>
      simp only [hname]
      refine .bind (.same _) ?_
      rintro tag _ rfl
      exact .pure (.mk hlevel .participant)
  | _ => exact .pure hkept

/-- Functions of the standard library are found by name. -/
theorem lookupValue (h : env.Like V env') (loc : Loc) (name : String) :
    Tracks V (Value.Like V) (do let sv ← env.lookup loc name; return sv.value)
      (fun _ => do let sv ← env'.lookup loc name; return sv.value) :=
  .bind (h.lookup loc name) fun _ _ hsv => .pure hsv.value

end Bindings.Like

theorem zip_like {names : List String} {svs svs' : List SecValue}
    (h : List.Forall₂ (SecValue.Like V) svs svs') :
    List.Forall₂ (Binding.Like V) (names.zip svs) (names.zip svs') := by
  induction h generalizing names with
  | nil => simp
  | cons hsv _ ih =>
    cases names with
    | nil => exact .nil
    | cons name names => exact .cons (.mk hsv) ih

namespace SecValue.Like

theorem requirePublic (h : sv.Like V sv') (loc : Loc) :
    Tracks V (Value.Like V) (sv.requirePublic loc) (fun _ => sv'.requirePublic loc) := by
  obtain @⟨level, level', _, _, hlevel, hv⟩ := h
  cases level with
  | secret => exact .fail
  | pub =>
    cases level' with
    | pub => exact .pure hv
    | secret => exact .fail_right hlevel.levels

/-- What is declassified was secret in both runs. -/
theorem declassify (h : sv.Like V sv') (loc : Loc) :
    Tracks V (SecValue.Like V) (sv.declassify loc) (fun _ => sv'.declassify loc) := by
  obtain @⟨level, level', _, _, hlevel, hv⟩ := h
  cases level with
  | pub => exact .fail
  | secret =>
    cases hlevel.secret
    exact .pure (.pub hv)

end SecValue.Like

/-! ### Types -/

namespace Value.Like

theorem typeOf_eq (h : v.Like V v') (loc : Loc) : v.typeOf loc = v'.typeOf loc := by
  simp only [Value.typeOf, h.typed?_eq, h.kindName_eq]

theorem checkType_eq (h : v.Like V v') (loc : Loc) (t : Ty) :
    v.checkType loc t = v'.checkType loc t := by
  simp only [Value.checkType, h.typeOf_eq]

theorem expectNull_eq (h : v.Like V v') (loc : Loc) : v.expectNull loc = v'.expectNull loc := by
  simp only [Value.expectNull, h.typed?_eq, h.describe_eq]

end Value.Like

theorem Value.typeOfAll_like (h : List.Forall₂ (Value.Like V) vs vs') (loc : Loc) :
    Value.typeOfAll loc vs = Value.typeOfAll loc vs' := by
  induction h with
  | nil => rfl
  | cons hv _ ih => simp only [Value.typeOfAll, hv.typeOf_eq, ih]

theorem Ty.convertArgs_like (h : List.Forall₂ (Value.Like V) vs vs') (loc : Loc) :
    ∀ (dom : List Ty) (solved : NameMap Ty),
      Ty.convertArgs loc dom vs solved = Ty.convertArgs loc dom vs' solved := by
  induction h with
  | nil => exact fun _ _ => rfl
  | cons hv _ ih =>
    intro dom solved
    cases dom with
    | nil => rfl
    | cons expected dom => simp only [Ty.convertArgs, hv.typeOf_eq, ih]

theorem Ty.convert_like (h : List.Forall₂ (Value.Like V) vs vs') (loc : Loc) (funType : Ty) :
    funType.convert loc vs = funType.convert loc vs' := by
  simp only [Ty.convert, h.length_eq, Ty.convertArgs_like h]

/-! ### Operations -/

namespace Mode.Like

variable {mode mode' : Mode}

theorem name_eq (h : mode.Like V mode') : mode.name = mode'.name := by cases h <;> rfl

theorem isModule_eq (h : mode.Like V mode') : mode.isModule = mode'.isModule := by cases h <;> rfl

theorem isStep_eq (h : mode.Like V mode') : mode.isStep = mode'.isStep := by cases h <;> rfl

theorem isLocalStep_eq (h : mode.Like V mode') : mode.isLocalStep = mode'.isLocalStep := by
  cases h <;> rfl

theorem isConsensus_eq (h : mode.Like V mode') : mode.isConsensus = mode'.isConsensus := by
  cases h <;> rfl

end Mode.Like

namespace Ctx.Like

theorem mode (h : ctx.Like V ctx') : ctx.mode.Like V ctx'.mode := by
  cases h with
  | mk h => exact h

theorem frames_eq (h : ctx.Like V ctx') : ctx.frames = ctx'.frames := by
  cases h with
  | mk => rfl

theorem localName_eq (h : ctx.Like V ctx') : ctx.localName = ctx'.localName := by
  cases h with
  | mk => rfl

theorem expectMode_eq (h : ctx.Like V ctx') (loc : Loc) (operation : String) {allowed : Mode → Bool}
    (hallowed : allowed ctx.mode = allowed ctx'.mode) :
    ctx.expectMode loc operation allowed = ctx'.expectMode loc operation allowed := by
  simp only [Ctx.expectMode, hallowed, h.mode.name_eq]

theorem alloc_eq (h : ctx.Like V ctx') : ctx.alloc = ctx'.alloc := by
  funext loc
  cases h with
  | mk h => simp only [Ctx.alloc, h.name_eq]

theorem lift (h : ctx.Like V ctx') (loc : Loc) (label : String) (type : Ty) (e : Expr) :
    Tracks V (Lifted.Like V Eq) (ctx.lift loc label type e) (fun _ => ctx'.lift loc label type e) := by
  unfold Ctx.lift
  rw [h.alloc_eq, h.localName_eq]
  refine .bind (.same _) ?_
  rintro id _ rfl
  exact .pure ⟨.single .letIn, rfl⟩

theorem liftValue (h : ctx.Like V ctx') (loc : Loc) (label : String) (type : Ty) (e : Expr)
    (hlevel : V.Rises level level') :
    Tracks V (Lifted.Like V (SecValue.Like V)) (ctx.liftValue loc label type e level)
      (fun _ => ctx'.liftValue loc label type e level') := by
  refine .bind (h.lift loc label type e) ?_
  rintro ⟨code, v⟩ ⟨code', _⟩ ⟨hcode, rfl⟩
  exact .pure ⟨hcode, .mk hlevel .var⟩

end Ctx.Like

theorem Ir.Op.constant?_like (op : Op) (loc : Loc) (h : List.Forall₂ (SecValue.Like V) args args') :
    op.constant? loc args = op.constant? loc args' := by
  rcases h with _ | ⟨⟨_, ha⟩, _ | ⟨⟨_, hb⟩, _ | _⟩⟩
  · rfl
  · cases ha <;> rfl
  · cases ha with
    | int => cases hb <;> rfl
    | _ => rfl
  · cases ha with
    | int => cases hb <;> rfl
    | _ => rfl

theorem Ctx.Like.applyOp (h : ctx.Like V ctx') (loc : Loc) (op : Op)
    (hargs : List.Forall₂ (SecValue.Like V) args args') :
    Tracks V (Lifted.Like V (SecValue.Like V)) (ctx.applyOp loc op args)
      (fun _ => ctx'.applyOp loc op args') := by
  unfold Ctx.applyOp
  simp only [← op.constant?_like loc hargs, Ty.convert_like (values_like hargs)]
  split
  · rename_i hconstant
    obtain ⟨n, rfl⟩ | ⟨b, rfl⟩ := Op.constant?_cases hconstant
    · exact .pure (.plain (.mk (levelOf_like hargs) .int))
    · exact .pure (.plain (.mk (levelOf_like hargs) .bool))
  · refine .bind (.same _) ?_
    rintro ⟨type, operands⟩ _ rfl
    exact h.liftValue loc _ type _ (levelOf_like hargs)

theorem Surface.BinaryOp.rator_like (op : Surface.BinaryOp) (loc : Loc) (h : env.Like V env') :
    Tracks V (Value.Like V) (op.rator loc env) (fun _ => op.rator loc env') := by
  cases op with
  | and | or | neq | strictNeq => exact h.lookupValue loc _
  | shiftRightUnsigned | inside | instanceOf => exact .fail
  | _ => exact .pure (.prim rfl)

theorem Surface.UnaryOp.rator_like (op : Surface.UnaryOp) (loc : Loc) (h : env.Like V env') :
    Tracks V (Value.Like V) (op.rator loc env) (fun _ => op.rator loc env') := by
  cases op with
  | minus | not => exact h.lookupValue loc _
  | _ => exact .fail

/-! ### Primitives -/

theorem Value.types?_like (h : List.Forall₂ (Value.Like V) vs vs') :
    Value.types? vs = Value.types? vs' := by
  induction h with
  | nil => rfl
  | cons hv _ ih =>
    simp only [Value.types?, List.mapM_cons] at ih ⊢
    rw [ih]
    cases hv <;> rfl

theorem Value.fieldTypes?_like {fields fields' : Bindings} (h : fields.Like V fields') :
    Value.fieldTypes? fields = Value.fieldTypes? fields' := by
  obtain ⟨h⟩ := h
  induction h with
  | nil => rfl
  | cons hb _ ih =>
    simp only [Value.fieldTypes?, List.mapM_cons] at ih ⊢
    rw [ih]
    obtain ⟨_, hv⟩ := hb
    cases hv <;> rfl

theorem Prim.makeType?_like (p : Prim) (h : List.Forall₂ (Value.Like V) vs vs') :
    p.makeType? vs = p.makeType? vs' := by
  cases p with
  | tupleType => simp only [Prim.makeType?, Value.types?_like h]
  | funType =>
    rcases h with _ | ⟨hdom, _ | ⟨hrng, _ | _⟩⟩
    · rfl
    · cases hdom <;> rfl
    · cases hdom with
      | tuple hdom =>
        cases hrng with
        | type => simp only [Prim.makeType?, Value.types?_like hdom]
        | _ => rfl
      | _ => rfl
    · cases hdom <;> cases hrng <;> rfl
  | arrayType =>
    rcases h with _ | ⟨helem, _ | ⟨hsize, _ | _⟩⟩
    · rfl
    · cases helem <;> rfl
    · cases helem with
      | type => cases hsize <;> rfl
      | _ => rfl
    · cases helem <;> cases hsize <;> rfl
  | objectType =>
    rcases h with _ | ⟨hfields, _ | _⟩
    · rfl
    · cases hfields with
      | object _ hfields => simp only [Prim.makeType?, Value.fieldTypes?_like hfields]
      | _ => rfl
    · cases hfields <;> rfl
  | _ => rfl

namespace Ctx.Like

theorem makeEnum (h : ctx.Like V ctx') (henv : env.Like V env') (loc : Loc) (n : Nat) :
    Tracks V (Value.Like V) (ctx.makeEnum loc env n) (fun _ => ctx'.makeEnum loc env' n) := by
  unfold Ctx.makeEnum
  rw [h.localName_eq]
  refine .bind (.same _) ?_
  rintro tag _ rfl
  refine .pure (.tuple (.cons (.closure (.refl _) henv) (List.forall₂_same.2 fun v hv => ?_)))
  obtain ⟨i, _, rfl⟩ := List.mem_map.1 hv
  exact .int

/-- Code that operands determine. -/
theorem operandCode {operands : List Arg} {f : Arg → Stmt} (hf : ∀ a, (f a).Like V (f a)) :
    Code.Like V (operands.map f) (operands.map f) := by
  refine List.forall₂_same.2 fun st hst => ?_
  obtain ⟨a, _, rfl⟩ := List.mem_map.1 hst
  exact hf a

theorem beginTransfer (h : ctx.Like V ctx') (loc : Loc) {invalid invalid' : Fault}
    (hargs : List.Forall₂ (SecValue.Like V) args args') :
    Tracks V (Lifted.Like V (SecValue.Like V)) (ctx.beginTransfer loc args invalid)
      (fun _ => ctx'.beginTransfer loc args' invalid') := by
  unfold Ctx.beginTransfer
  rw [h.expectMode_eq loc _ h.mode.isConsensus_eq]
  refine .bind (.same _) fun _ _ _ => ?_
  rcases hargs with _ | ⟨harg, _ | _⟩
  · exact .fail
  · refine .bind (harg.requirePublic loc) fun v v' hv => ?_
    simp only [hv.typed?_eq]
    split
    · refine .bind (.same _) ?_
      rintro tag _ rfl
      refine .pure (.plain (.pub (.object (fun _ => ?_) ?_)))
      · exact Env.distinct_empty.push rfl
      · exact Bindings.Like.empty.set (.pub (.prim rfl))
    · exact .fail
  · exact .fail

theorem applyPrim (h : ctx.Like V ctx') (henv : env.Like V env') (loc : Loc) (p : Prim)
    (hargs : List.Forall₂ (SecValue.Like V) args args') :
    Tracks V (Lifted.Like V (SecValue.Like V)) (ctx.applyPrim loc env p args)
      (fun _ => ctx'.applyPrim loc env' p args') := by
  have hvs := values_like hargs
  have hempty : args.isEmpty = args'.isEmpty := by cases hargs <;> rfl
  have hconvert : ∀ t : Ty, t.convert loc (args.map (·.value)) = t.convert loc (args'.map (·.value)) :=
    Ty.convert_like hvs loc
  unfold Ctx.applyPrim
  cases p with
  | op o => exact h.applyOp loc o hargs
  | funType | arrayType | tupleType | objectType =>
    refine .bind (.orFail_eq (Prim.makeType?_like _ hvs)) ?_
    rintro t _ rfl
    exact .pure (.plain (.mk (levelOf_like hargs) .type))
  | makeEnum =>
    rcases hargs with _ | ⟨⟨hlevel, hv⟩, _ | _⟩
    · exact .fail
    · cases hv with
      | int =>
        refine .bind (.orFail_eq rfl) ?_
        rintro count _ rfl
        exact .bind (h.makeEnum henv _ count) fun _ _ hv => .pure (.plain (.mk hlevel hv))
      | _ => exact .fail
    · cases hv <;> exact .fail
  | app | committed | exited => exact .fail
  | interact who method type =>
    simp only [Ctx.askFrontend, h.expectMode_eq loc _ h.mode.isLocalStep_eq, hconvert]
    refine .bind (.same _) fun _ _ _ => .bind (.same _) ?_
    rintro ⟨rng, operands⟩ _ rfl
    exact h.liftValue loc _ _ _ (Variation.rises_refl _)
  | declassify =>
    rcases hargs with _ | ⟨harg, _ | _⟩
    · exact .fail
    · exact .bind (harg.declassify loc) fun _ _ hknown => .pure (.plain hknown)
    · exact .fail
  | commit =>
    simp only [Ctx.commit, h.expectMode_eq loc _ h.mode.isConsensus_eq]
    exact .bind (.ensure hempty) fun _ _ _ => .bind (.same _) fun _ _ _ =>
      .pure (.plain (.pub (.prim rfl)))
  | digest =>
    simp only [Ctx.digest, Value.typeOfAll_like hvs]
    refine .bind (.same _) ?_
    rintro typed _ rfl
    exact h.liftValue loc _ _ _ (levelOf_like hargs)
  | claim c =>
    simp only [Ctx.claim, hconvert, h.frames_eq]
    refine .bind (.same _) ?_
    rintro ⟨_, operands⟩ _ rfl
    exact .pure ⟨operandCode fun _ => .claim, .pub (.null fun _ => rfl)⟩
  | transfer => exact h.beginTransfer loc hargs
  | transferTo _ amount =>
    simp only [Ctx.transferTo, h.expectMode_eq loc _ h.mode.isConsensus_eq, hconvert, h.frames_eq]
    refine .bind (.same _) fun _ _ _ => .bind (.same _) ?_
    rintro ⟨_, operands⟩ _ rfl
    exact .pure ⟨operandCode fun _ => .transfer, .pub (.null fun _ => rfl)⟩
  | exit =>
    simp only [Ctx.exit, h.expectMode_eq loc _ h.mode.isStep_eq, h.frames_eq]
    exact .bind (.same _) fun _ _ _ => .bind (.ensure hempty) fun _ _ _ =>
      .pure ⟨.single .stop, .pub (.prim rfl)⟩

/-! ### Access -/

theorem fieldRef (h : ctx.Like V ctx') (loc : Loc) (type : Ty) (object : Arg) (field : String)
    (level : Level) :
    Tracks V (Lifted.Like V (SecValue.Like V)) (ctx.fieldRef loc type object field level)
      (fun _ => ctx'.fieldRef loc type object field level) := by
  unfold Ctx.fieldRef
  split
  · exact h.liftValue loc _ _ _ (Variation.rises_refl _)
  · exact .fail

theorem arrayRef (h : ctx.Like V ctx') (loc : Loc) (x : Var) (elem : Ty) (size : Nat) (index : Arg)
    (hlevel : V.Rises level level') :
    Tracks V (Lifted.Like V (SecValue.Like V)) (ctx.arrayRef loc x elem size index level)
      (fun _ => ctx'.arrayRef loc x elem size index level') := by
  unfold Ctx.arrayRef
  rw [h.frames_eq]
  exact h.liftValue loc _ _ _ hlevel

end Ctx.Like

theorem Participant.field_like (p : Participant) (loc : Loc) (field : String) :
    Tracks V (Value.Like V) (p.field loc field) (fun _ => p.field loc field) := by
  unfold Participant.field
  split
  · refine .bind (.same _) ?_
    rintro tag _ rfl
    exact .pure .only
  · split
    · refine .bind (.same _) ?_
      rintro tag _ rfl
      exact .pure (.round (.mk .none .none))
    · exact .fail

namespace Ctx.Like

theorem field (h : ctx.Like V ctx') (loc : Loc) (hv : v.Like V v') (field : String) :
    Tracks V (Lifted.Like V (SecValue.Like V)) (ctx.field loc v field)
      (fun _ => ctx'.field loc v' field) := by
  unfold Ctx.field
  cases hv with
  | @object _ fields fields' _ hfields =>
    have hfind := hfields.find? field
    simp only
    generalize fields.find? field = found at hfind ⊢
    generalize fields'.find? field = found' at hfind ⊢
    cases hfind with
    | some hsv => exact .pure (.plain hsv)
    | none => exact .fail
  | var =>
    simp only
    split
    · exact h.fieldRef ..
    · exact .fail
  | @prim _ p =>
    cases p with
    | interact who method type =>
      simp only
      split
      · exact h.fieldRef ..
      · exact .fail
    | _ => exact .fail
  | participant =>
    exact .bind (Participant.field_like ..) fun _ _ hv => .pure (.plain (.pub hv))
  | @round roundLoc _ r r' hround =>
    obtain @⟨_, _, stage, _, _, _, _, _, hpay, htimeout⟩ := hround
    cases stage with
    | some => exact .fail
    | none =>
      refine .bind (R := Value.Like V) ?_ fun _ _ hv => .pure (.plain (.pub hv))
      unfold Round.field
      split
      · refine .bind (.same _) ?_
        rintro tag _ rfl
        exact .pure (.round (.mk hpay htimeout))
      · exact .fail
  | _ => exact .fail

theorem element (h : ctx.Like V ctx') (loc : Loc) {index index' : Value} (hv : v.Like V v')
    (hindex : index.Like V index') (hlevel : V.Rises level level') :
    Tracks V (Lifted.Like V (SecValue.Like V)) (ctx.element loc v index level)
      (fun _ => ctx'.element loc v' index' level') := by
  unfold Ctx.element
  cases hindex with
  | int =>
    cases hv with
    | tuple helems =>
      simp only [helems.length_eq]
      refine .bind (.same _) ?_
      rintro i _ rfl
      exact .bind (.orFail (forall₂_getElem? helems i)) fun _ _ helem =>
        .pure (.plain (.mk hlevel helem))
    | var =>
      simp only
      split
      · refine .bind (.same _) ?_
        rintro i _ rfl
        refine .bind (.same _) ?_
        rintro elem _ rfl
        exact h.liftValue loc _ _ _ hlevel
      · exact .bind (.same _) fun _ _ _ => h.arrayRef loc _ _ _ _ hlevel
      · exact .fail
    | _ => exact .fail
  | var =>
    simp only
    split
    · cases hv with
      | var =>
        simp only
        split
        · exact h.arrayRef loc _ _ _ _ hlevel
        · exact .fail
      | _ => exact .fail
    · exact .fail
  | _ => exact .fail

/-! ### Components -/

theorem tupleParts (h : ctx.Like V ctx') (loc : Loc) (x : Var) (types : List Ty) :
    ∀ i, Tracks V (Lifted.Like V (List.Forall₂ (Value.Like V))) (ctx.tupleParts loc x i types)
      (fun _ => ctx'.tupleParts loc x i types) := by
  induction types with
  | nil => exact fun _ => .pure (.plain .nil)
  | cons t types ih =>
    intro i
    refine .bind (h.lift loc _ t _) ?_
    rintro ⟨code, v⟩ ⟨code', _⟩ ⟨hcode, rfl⟩
    refine .bind (ih (i + 1)) fun rest rest' hrest => ?_
    exact .pure ⟨hcode.append hrest.code, .cons .var hrest.value⟩

theorem arrayParts (h : ctx.Like V ctx') (loc : Loc) (x : Var) (elem : Ty) (size : Nat)
    (positions : List Nat) :
    Tracks V (Lifted.Like V (List.Forall₂ (Value.Like V)))
      (ctx.arrayParts loc x elem size positions)
      (fun _ => ctx'.arrayParts loc x elem size positions) := by
  induction positions with
  | nil => exact .pure (.plain .nil)
  | cons i positions ih =>
    unfold Ctx.arrayParts
    rw [h.frames_eq]
    refine .bind (h.lift loc _ elem _) ?_
    rintro ⟨code, v⟩ ⟨code', _⟩ ⟨hcode, rfl⟩
    refine .bind ih fun rest rest' hrest => ?_
    exact .pure ⟨hcode.append hrest.code, .cons .var hrest.value⟩

theorem components (h : ctx.Like V ctx') (loc : Loc) (hv : v.Like V v') :
    Tracks V (Lifted.Like V (List.Forall₂ (Value.Like V))) (ctx.components loc v)
      (fun _ => ctx'.components loc v') := by
  unfold Ctx.components
  cases hv with
  | tuple helems => exact .pure (.plain helems)
  | var =>
    simp only
    split
    · exact h.tupleParts ..
    · exact h.arrayParts ..
    · exact .fail
  | _ => exact .fail

end Ctx.Like

end Choreography
