import Choreography.Proofs.Identities

/-!
Evaluation at the top level of a module, under a renaming of identities. Nothing is emitted for the
run there and no function is applied, so that what is evaluated depends on tags only by holding them:
in a renamed environment evaluation gives the renamed result.
-/

namespace Choreography

open Eval Ir

variable {ρ : Tag → Tag} {ctx : Ctx} {loc : Loc} {env : Bindings} {scope : Scope} {ev : Evaluator}

/-- A context at the top level of a module, whatever is being declared there. -/
structure Ctx.AtTop (ctx : Ctx) : Prop where
  mode : ctx.mode = .module
  silent : ctx.canLift = false

def Lifted.map {α β : Type} (f : α → β) (x : Lifted α) : Lifted β := ⟨x.code, f x.value⟩

@[simp] theorem Lifted.map_code {α β : Type} (f : α → β) (x : Lifted α) : (x.map f).code = x.code := rfl

@[simp] theorem Lifted.map_value {α β : Type} (f : α → β) (x : Lifted α) :
    (x.map f).value = f x.value := rfl

@[simp] theorem SecValue.rename_level (sv : SecValue) : (sv.rename ρ).level = sv.level := rfl

@[simp] theorem SecValue.rename_value (sv : SecValue) : (sv.rename ρ).value = sv.value.rename ρ := rfl

def Exit.rename (ρ : Tag → Tag) (exit : Exit) : Exit := { exit with value := exit.value.rename ρ }

def Outcome.rename (ρ : Tag → Tag) (o : Outcome) : Outcome :=
  { env := o.env.rename ρ, exits := o.exits.map (Exit.rename ρ) }

def Scope.rename (ρ : Tag → Tag) (scope : Scope) : Scope := { scope with env := scope.env.rename ρ }

def PartialObject.rename (ρ : Tag → Tag) (object : PartialObject) : PartialObject :=
  { object with fields := object.fields.rename ρ }

/-! ### Bindings -/

namespace Bindings

theorem bind_mirrors (env : Bindings) (name : String) (sv : SecValue) :
    Mirrors ρ (rename ρ) (env.bind loc name sv) ((env.rename ρ).bind loc name (sv.rename ρ)) := by
  refine .orFail ?_
  unfold Env.insert? rename
  rw [Env.contains_map]
  split
  · rfl
  · rw [Option.map_some, Env.map_push]

theorem bindAll_mirrors (bindings : List (String × SecValue)) : ∀ env : Bindings,
    Mirrors ρ (rename ρ) (env.bindAll loc bindings)
      ((env.rename ρ).bindAll loc (bindings.map fun b => (b.1, b.2.rename ρ))) := by
  induction bindings with
  | nil => exact fun _ => .pure rfl
  | cons b rest ih => exact fun env => (bind_mirrors env b.1 b.2).bind ih

/-- Values under names that are given with them. -/
theorem bindZip_mirrors (env : Bindings) (names : List String) (svs : List SecValue) :
    Mirrors ρ (rename ρ) (env.bindAll loc (names.zip svs))
      ((env.rename ρ).bindAll loc (names.zip (svs.map (SecValue.rename ρ)))) := by
  have hzip : names.zip (svs.map (SecValue.rename ρ)) =
      (names.zip svs).map fun b => (b.1, b.2.rename ρ) := by
    simp [List.zip_map_right, Prod.map]
  rw [hzip]
  exact bindAll_mirrors _ env

theorem merge_mirrors (env overlay : Bindings) :
    Mirrors ρ (rename ρ) (env.merge loc overlay) ((env.rename ρ).merge loc (overlay.rename ρ)) :=
  bindAll_mirrors overlay.entries env

theorem lookup_mirrors (env : Bindings) (name : String) :
    Mirrors ρ (SecValue.rename ρ) (env.lookup loc name) ((env.rename ρ).lookup loc name) :=
  .orFail (Env.find?_map _ env name)

theorem identify_mirrors (env : Bindings) (name : String) :
    Mirrors ρ (SecValue.rename ρ) (env.identify loc name) ((env.rename ρ).identify loc name) := by
  refine (lookup_mirrors env name).bind fun sv => ?_
  obtain ⟨level, v⟩ := sv
  cases v with
  | participant tag p =>
    simp only [SecValue.rename, Value.rename]
    split
    · exact .pure rfl
    · exact Mirrors.freshTag.bind fun tag' => .pure rfl
  | _ => exact .pure rfl

end Bindings

/-! ### Checks of values -/

namespace Value

theorem typeOf_mirrors (v : Value) : Mirrors ρ id (v.typeOf loc) ((v.rename ρ).typeOf loc) :=
  .orFail (by rw [typed?_rename, Option.map_id_fun, id])

theorem condition?_rename (v : Value) : (v.rename ρ).condition? = v.condition? := by
  cases v <;> rfl

theorem types?_rename (vs : List Value) : types? (vs.map (·.rename ρ)) = types? vs := by
  unfold types?
  rw [List.mapM_map]
  congr 1
  funext v
  cases v <;> rfl

theorem fieldTypes?_rename (fields : Bindings) : fieldTypes? (fields.rename ρ) = fieldTypes? fields := by
  unfold fieldTypes? Bindings.rename Env.map
  rw [List.mapM_map]
  congr 1
  funext b
  obtain ⟨name, level, v⟩ := b
  cases v <;> rfl

end Value

theorem Prim.makeType?_rename (p : Prim) (values : List Value) :
    (p.rename ρ).makeType? (values.map (·.rename ρ)) = p.makeType? values := by
  cases p with
  | tupleType => simp only [Prim.rename, Prim.makeType?, Value.types?_rename]
  | funType =>
    rcases values with _ | ⟨v, _ | ⟨w, _ | _⟩⟩
    · rfl
    · cases v <;> rfl
    · cases v <;> cases w <;> try rfl
      simp [Prim.rename, Prim.makeType?, Value.rename, Value.renameAll_eq_map, Value.types?_rename]
    · cases v <;> cases w <;> rfl
  | arrayType =>
    rcases values with _ | ⟨v, _ | ⟨w, _ | _⟩⟩
    · rfl
    · cases v <;> rfl
    · cases v <;> cases w <;> rfl
    · cases v <;> cases w <;> rfl
  | objectType =>
    rcases values with _ | ⟨v, _ | _⟩
    · rfl
    · cases v <;> try rfl
      simp [Prim.rename, Prim.makeType?, Value.fieldTypes?_rename]
    · cases v <;> rfl
  | _ => rfl

theorem Ty.convertArgs_mirrors (vs : List Value) : ∀ (dom : List Ty) (solved : NameMap Ty),
    Mirrors ρ id (Ty.convertArgs loc dom vs solved)
      (Ty.convertArgs loc dom (vs.map (·.rename ρ)) solved) := by
  induction vs with
  | nil => exact fun dom solved => by cases dom <;> exact .pure rfl
  | cons v vs ih =>
    intro dom solved
    cases dom with
    | nil => exact .pure rfl
    | cons expected dom =>
      refine v.typeOf_mirrors.bind fun t => ?_
      simp only [id]
      split
      · exact (ih dom _).bind fun _ => .pure rfl
      · exact .fail

theorem Ty.convert_mirrors (t : Ty) (vs : List Value) :
    Mirrors ρ id (t.convert loc vs) (t.convert loc (vs.map (·.rename ρ))) := by
  unfold Ty.convert
  split
  · exact (Mirrors.ensure (by simp)).bind fun _ => (Ty.convertArgs_mirrors vs _ _).bind fun _ => .pure rfl
  · exact .fail

/-- Operations are computed on integers, which have no identity. -/
theorem Ir.Op.constant?_rename (op : Op) (args : List SecValue) :
    op.constant? loc (args.map (SecValue.rename ρ)) = op.constant? loc args := by
  rcases args with _ | ⟨⟨_, v⟩, _ | ⟨⟨_, w⟩, _ | _⟩⟩
  · rfl
  · cases v <;> rfl
  · cases v <;> cases w <;> rfl
  · cases v <;> cases w <;> rfl

theorem Ir.Op.rename_of_constant? {op : Op} {args : List SecValue} {v : Value}
    (h : op.constant? loc args = some v) : v.rename ρ = v := by
  obtain ⟨n, rfl⟩ | ⟨b, rfl⟩ := Op.constant?_cases h <;> rfl

theorem Labelled.levelOf_rename (args : List SecValue) :
    Labelled.levelOf (args.map (SecValue.rename ρ)) = Labelled.levelOf args := by
  simp [Labelled.levelOf, Function.comp_def, SecValue.rename]

theorem SecValue.map_value_rename (args : List SecValue) :
    (args.map (SecValue.rename ρ)).map (·.value) = (args.map (·.value)).map (·.rename ρ) := by
  simp [Function.comp_def, SecValue.rename]

/-! ### What does not happen at the top level -/

namespace Ctx.AtTop

theorem alloc_fails (h : ctx.AtTop) : (ctx.alloc loc).Fails := by
  unfold Ctx.alloc
  rw [h.silent]
  exact fails_fail

theorem lift_fails (h : ctx.AtTop) {label : String} {t : Ty} {e : Ir.Expr} :
    (ctx.lift loc label t e).Fails :=
  h.alloc_fails.bind

theorem liftValue_fails (h : ctx.AtTop) {label : String} {t : Ty} {e : Ir.Expr} {level : Level} :
    (ctx.liftValue loc label t e level).Fails :=
  h.lift_fails.bind

theorem expectMode_fails (h : ctx.AtTop) {operation : String} {allowed : Mode → Bool}
    (hmode : allowed .module = false) : (ctx.expectMode loc operation allowed).Fails := by
  unfold Ctx.expectMode
  rw [h.mode, hmode]
  exact fails_fail

/-! ### Primitives -/

theorem applyOp (h : ctx.AtTop) (op : Op) (args : List SecValue) :
    Mirrors ρ (Lifted.map (SecValue.rename ρ)) (ctx.applyOp loc op args)
      (ctx.applyOp loc op (args.map (SecValue.rename ρ))) := by
  unfold Ctx.applyOp
  rw [Op.constant?_rename]
  split
  · rename_i v hconstant
    refine .pure ?_
    simp [Lifted.map, Lifted.plain, SecValue.rename, Op.rename_of_constant? hconstant,
      Labelled.levelOf_rename]
  · exact .of_fails (.of_rest fun _ => h.liftValue_fails)

theorem makeEnum (env : Bindings) (n : Nat) :
    Mirrors ρ (Value.rename ρ) (ctx.makeEnum loc env n) (ctx.makeEnum loc (env.rename ρ) n) :=
  Mirrors.freshTag.bind fun tag => .pure (by simp [Function.comp_def])

theorem claim (c : Claim) (args : List SecValue) :
    Mirrors ρ (Lifted.map (SecValue.rename ρ)) (ctx.claim loc c (args.map (·.value)))
      (ctx.claim loc c ((args.map (SecValue.rename ρ)).map (·.value))) := by
  rw [SecValue.map_value_rename]
  exact (Ty.convert_mirrors _ _).bind fun _ => .pure rfl

theorem applyPrim (h : ctx.AtTop) (env : Bindings) (p : Prim) (args : List SecValue) :
    Mirrors ρ (Lifted.map (SecValue.rename ρ)) (ctx.applyPrim loc env p args)
      (ctx.applyPrim loc (env.rename ρ) (p.rename ρ) (args.map (SecValue.rename ρ))) := by
  cases p with
  | op o => exact h.applyOp o args
  | funType | arrayType | tupleType | objectType =>
    refine Mirrors.bind (f := id) (.orFail ?_) fun t => .pure ?_
    · rw [SecValue.map_value_rename, Prim.makeType?_rename, Option.map_id_fun, id]
    · simp [Lifted.map, Lifted.plain, SecValue.rename, Labelled.levelOf_rename]
  | makeEnum =>
    rcases args with _ | ⟨⟨level, v⟩, _ | _⟩
    · exact .fail
    · cases v with
      | int enumLoc n =>
        exact Mirrors.bind (f := id) (.orFail (by simp)) fun count =>
          (makeEnum env count).bind fun _ => .pure rfl
      | _ => exact .fail
    · cases v <;> exact .fail
  | app => exact .fail
  | interact => exact .of_fails (h.expectMode_fails rfl).bind
  | declassify =>
    rcases args with _ | ⟨⟨level, v⟩, _ | _⟩
    · exact .fail
    · cases level with
      | pub => exact .of_fails fails_fail.bind
      | secret => exact .pure rfl
    · exact .fail
  | commit => exact .of_fails (.of_rest fun _ => (h.expectMode_fails rfl).bind)
  | digest => exact .of_fails (.of_rest fun _ => h.liftValue_fails)
  | claim c => exact claim c args
  | transfer => exact .of_fails (h.expectMode_fails rfl).bind
  | transferTo => exact .of_fails (h.expectMode_fails rfl).bind
  | exit => exact .of_fails (h.expectMode_fails rfl).bind
  | committed | exited => exact .fail

/-! ### Parts of values -/

theorem participantField (p : Participant) (field : String) :
    Mirrors ρ (Value.rename ρ) (p.field loc field) (p.field loc field) := by
  unfold Participant.field
  split
  · exact Mirrors.freshTag.bind fun _ => .pure rfl
  · split
    · exact Mirrors.freshTag.bind fun _ => .pure rfl
    · exact .fail

theorem roundField (r : Round) (roundLoc : Loc) (field : String) :
    Mirrors ρ (Value.rename ρ) (r.field loc roundLoc field) (r.field loc roundLoc field) := by
  unfold Round.field
  split
  · exact Mirrors.freshTag.bind fun _ => .pure rfl
  · exact .fail

theorem fieldRef_fails (h : ctx.AtTop) {t : Ty} {object : Arg} {field : String} {level : Level} :
    (ctx.fieldRef loc t object field level).Fails := by
  unfold Ctx.fieldRef
  split
  · exact h.liftValue_fails
  · exact fails_fail

theorem field (h : ctx.AtTop) (v : Value) (field : String) :
    Mirrors ρ (Lifted.map (SecValue.rename ρ)) (ctx.field loc v field)
      (ctx.field loc (v.rename ρ) field) := by
  cases v with
  | object objectLoc fields =>
    rw [Value.rename_object]
    simp only [Ctx.field, Bindings.rename, Env.find?_map]
    split
    · rename_i sv hfind
      simp only [hfind, Option.map_some]
      exact .pure rfl
    · exact .fail
  | var x =>
    refine .of_fails ?_
    simp only [Ctx.field]
    split
    · exact h.fieldRef_fails
    · exact fails_fail
  | prim primLoc p =>
    refine .of_fails ?_
    cases p with
    | interact who method t =>
      simp only [Ctx.field]
      split
      · exact h.fieldRef_fails
      · exact fails_fail
    | _ => exact fails_fail
  | participant tag p => exact (participantField p field).bind fun _ => .pure rfl
  | form formLoc tag f =>
    cases f with
    | round r =>
      simp only [Ctx.field, Value.rename, Form.rename]
      split
      · exact .fail
      · exact (roundField r formLoc field).bind fun _ => .pure rfl
    | _ => exact .fail
  | _ => exact .fail

theorem checkIndex_mirrors (size : Nat) (n : Int) :
    Mirrors ρ id (checkIndex loc size n) (checkIndex loc size n) := by
  unfold checkIndex
  split
  · split
    · exact .pure rfl
    · exact .fail
  · exact .fail

theorem element (h : ctx.AtTop) (v index : Value) (level : Level) :
    Mirrors ρ (Lifted.map (SecValue.rename ρ)) (ctx.element loc v index level)
      (ctx.element loc (v.rename ρ) (index.rename ρ) level) := by
  cases index with
  | int indexLoc n =>
    cases v with
    | tuple tupleLoc elems =>
      rw [Value.rename_tuple]
      simp only [Ctx.element, List.length_map, List.getElem?_map]
      exact (checkIndex_mirrors _ n).bind fun i => Mirrors.bind (.orFail rfl) fun _ => .pure rfl
    | var x =>
      refine .of_fails ?_
      simp only [Ctx.element]
      split
      · exact .of_rest fun _ => .of_rest fun _ => h.liftValue_fails
      · exact .of_rest fun _ => h.liftValue_fails
      · exact fails_fail
    | _ => exact .fail
  | var i =>
    refine .of_fails ?_
    simp only [Ctx.element]
    split
    · split
      · split
        · exact h.liftValue_fails
        · exact fails_fail
      · exact fails_fail
    · exact fails_fail
  | _ => exact .fail

end Ctx.AtTop

/-! ### Expressions -/

/-- At the top level of a module the evaluator gives renamed results in renamed environments. There is
nothing to return from there. -/
structure Evaluator.Mirrored (ρ : Tag → Tag) (ev : Evaluator) : Prop where
  expr {ctx : Ctx} (h : ctx.AtTop) (env : Bindings) (e : Surface.Expr) :
    Mirrors ρ (Lifted.map (SecValue.rename ρ)) (ev.expr ctx env e) (ev.expr ctx (env.rename ρ) e)
  stmts {ctx : Ctx} (h : ctx.AtTop) (loc : Loc) {scope : Scope} (hslot : scope.slot = none)
    (stmts : List Surface.Stmt) :
    Mirrors ρ (Lifted.map (Outcome.rename ρ)) (ev.stmts ctx loc scope stmts)
      (ev.stmts ctx loc (scope.rename ρ) stmts)

theorem functionRator_mirrors (env : Bindings) (name : String) :
    Mirrors ρ (Value.rename ρ) (do let sv ← env.lookup loc name; return sv.value : Eval Value)
      (do let sv ← (env.rename ρ).lookup loc name; return sv.value) :=
  (Bindings.lookup_mirrors env name).bind fun _ => .pure rfl

theorem binaryRator_mirrors (env : Bindings) (op : Surface.BinaryOp) :
    Mirrors ρ (Value.rename ρ) (op.rator loc env) (op.rator loc (env.rename ρ)) := by
  cases op <;> first
    | exact functionRator_mirrors env _
    | exact .pure rfl
    | exact .fail

theorem unaryRator_mirrors (env : Bindings) (op : Surface.UnaryOp) :
    Mirrors ρ (Value.rename ρ) (op.rator loc env) (op.rator loc (env.rename ρ)) := by
  cases op <;> first
    | exact functionRator_mirrors env _
    | exact .fail

theorem interfaceOf_mirrors (fields : List (String × SecValue)) :
    Mirrors ρ id (interfaceOf loc fields)
      (interfaceOf loc (fields.map fun b => (b.1, b.2.rename ρ))) := by
  induction fields with
  | nil => exact .pure rfl
  | cons b fields ih =>
    obtain ⟨method, level, v⟩ := b
    cases level with
    | pub =>
      cases v with
      | type typeLoc t => exact ih.bind fun _ => .pure rfl
      | _ => exact .fail
    | secret => cases v <;> exact .fail

theorem participantOf_mirrors (spec : Value) :
    Mirrors ρ id (participantOf loc spec) (participantOf loc (spec.rename ρ)) := by
  unfold participantOf
  split
  · rename_i specLoc bytesLoc who interfaceLoc fields
    rw [Value.rename_tuple, List.map_cons, List.map_cons, List.map_nil, Value.rename_object]
    exact (interfaceOf_mirrors fields.entries).bind fun _ => .pure rfl
  · exact .fail

theorem participantsOf_mirrors (specs : List Value) :
    Mirrors ρ (List.map fun e => (ρ e.1, e.2)) (participantsOf loc specs)
      (participantsOf loc (specs.map (·.rename ρ))) := by
  induction specs with
  | nil => exact .pure rfl
  | cons spec specs ih =>
    exact (participantOf_mirrors spec).bind fun _ => Mirrors.freshTag.bind fun _ =>
      ih.bind fun _ => .pure rfl

namespace Evaluator.Mirrored

variable (hev : ev.Mirrored ρ) (h : ctx.AtTop)
include hev h

theorem exprs (env : Bindings) (es : List Surface.Expr) :
    Mirrors ρ (Lifted.map (List.map (SecValue.rename ρ))) (ev.exprs ctx env es)
      (ev.exprs ctx (env.rename ρ) es) := by
  induction es with
  | nil => exact .pure rfl
  | cons e es ih => exact (hev.expr h env e).bind fun _ => ih.bind fun _ => .pure rfl

theorem ternary (env : Bindings) (cond onTrue onFalse : Surface.Expr) :
    Mirrors ρ (Lifted.map (SecValue.rename ρ)) (ev.ternary ctx loc env cond onTrue onFalse)
      (ev.ternary ctx loc (env.rename ρ) cond onTrue onFalse) := by
  refine (hev.expr h env cond).bind fun c => (hev.expr h env onTrue).bind fun t =>
    (hev.expr h env onFalse).bind fun f => ?_
  simp only [Lifted.map_value, SecValue.rename_value, Value.condition?_rename]
  split
  · rename_i b _
    cases b <;> exact .pure rfl
  · exact .ite ((h.applyOp .ifThenElse [c.value, t.value, f.value]).bind fun _ => .pure rfl)
      (.of_fails h.alloc_fails.bind.bind)
  · exact .fail

omit hev in
/-- Of all functions, only primitives are applied at the top level. -/
theorem applyValues (env : Bindings) (rator : Value) (args : List SecValue) :
    Mirrors ρ (Lifted.map fun a => ⟨a.env.rename ρ, a.value.rename ρ⟩)
      (ev.applyValues ctx loc env rator args)
      (ev.applyValues ctx loc (env.rename ρ) (rator.rename ρ) (args.map (SecValue.rename ρ))) := by
  cases rator with
  | prim primLoc p => exact (h.applyPrim env p args).bind fun _ => .pure rfl
  | closure tag c => exact .of_fails h.alloc_fails.bind
  | _ => exact .fail

theorem appForm (env : Bindings) (args : List Surface.Expr) :
    Mirrors ρ (Lifted.map (SecValue.rename ρ)) (ev.appForm ctx loc env args)
      (ev.appForm ctx loc (env.rename ρ) args) := by
  refine (Mirrors.ensure id).bind fun _ => ?_
  split
  · rename_i options parts topLoc formals body
    refine (hev.exprs h env _).bind fun evaluated => ?_
    simp only [Lifted.map_value]
    split
    · rename_i hvalues
      rw [hvalues]
      simp only [List.map_cons, List.map_nil, SecValue.rename, Value.rename_object, Value.rename_tuple]
      refine (participantsOf_mirrors _).bind fun parts => (Mirrors.ensure (by simp)).bind fun _ => ?_
      have hparts : (parts.map fun e => (ρ e.1, e.2)).map (fun e => .secret (.participant e.1 e.2)) =
          (parts.map fun e => .secret (.participant e.1 e.2)).map (SecValue.rename ρ) := by
        simp [SecValue.rename, Labelled.secret]
      rw [hparts]
      refine (Bindings.bindZip_mirrors env formals _).bind fun _ =>
        Mirrors.freshTag.bind fun _ => .pure ?_
      simp [Lifted.map, SecValue.rename, Labelled.pub]
    · exact .fail
  · exact .fail

theorem applyForm (env : Bindings) (formLoc : Loc) (f : Form) (args : List Surface.Expr) :
    Mirrors ρ (Lifted.map (SecValue.rename ρ)) (ev.applyForm ctx loc env formLoc f args)
      (ev.applyForm ctx loc (env.rename ρ) formLoc (f.rename ρ) args) := by
  cases f with
  | app => exact hev.appForm h env args
  | only who =>
    refine .of_fails ?_
    simp only [Evaluator.applyForm, Evaluator.onlyForm, h.mode]
    exact fails_fail
  | round r => exact .of_fails (h.expectMode_fails rfl).bind
  | onlyDone => exact .fail

theorem apply (env : Bindings) (rator : Value) (rands : List Surface.Expr) :
    Mirrors ρ (Lifted.map (SecValue.rename ρ)) (ev.apply ctx loc env rator rands)
      (ev.apply ctx loc (env.rename ρ) (rator.rename ρ) rands) := by
  cases rator with
  | prim primLoc p =>
    exact (hev.exprs h env rands).bind fun args =>
      (applyValues h env (.prim primLoc p) args.value).bind fun _ => .pure rfl
  | closure tag c => exact .of_fails (.of_rest fun _ => h.alloc_fails.bind.bind)
  | form formLoc tag f => exact hev.applyForm h env formLoc f rands
  | _ => exact .fail

theorem propertyName (env : Bindings) (name : Surface.PropertyName) :
    Mirrors ρ id (ev.propertyName ctx env loc name) (ev.propertyName ctx (env.rename ρ) loc name) := by
  cases name with
  | ident | string => exact .pure rfl
  | number => exact .fail
  | computed key =>
    refine (hev.expr h env key).bind fun k => ?_
    obtain ⟨code, level, v⟩ := k
    cases v with
    | bytes => exact .pure rfl
    | _ => exact .fail

theorem property (env : Bindings) (object : PartialObject) (p : Surface.Property) :
    Mirrors ρ (PartialObject.rename ρ) (ev.property ctx env object p)
      (ev.property ctx (env.rename ρ) (object.rename ρ) p) := by
  cases p with
  | value propLoc name value =>
    exact (hev.propertyName h env name).bind fun n => (hev.expr h env value).bind fun v =>
      (Bindings.bind_mirrors object.fields n.value.2 v.value).bind fun _ => .pure rfl
  | shorthand propLoc name =>
    exact (Bindings.identify_mirrors env name).bind fun v =>
      (Bindings.bind_mirrors object.fields name v).bind fun _ => .pure rfl
  | spread propLoc base =>
    refine (hev.expr h env base).bind fun v => ?_
    obtain ⟨code, level, v⟩ := v
    cases v with
    | object objectLoc more =>
      simp only [Lifted.map, SecValue.rename, Value.rename_object]
      exact (Bindings.merge_mirrors object.fields more).bind fun _ => .pure rfl
    | _ => exact .fail
  | method => exact .fail

theorem properties (env : Bindings) (ps : List Surface.Property) : ∀ object : PartialObject,
      Mirrors ρ (PartialObject.rename ρ) (ev.properties ctx env object ps)
        (ev.properties ctx (env.rename ρ) (object.rename ρ) ps) := by
  induction ps with
  | nil => exact fun _ => .pure rfl
  | cons p ps ih => exact fun object => (hev.property h env object p).bind ih

omit hev h in
theorem makeClosure (env : Bindings) {label : String} (formals : List String) (body : Surface.Block) :
    Mirrors ρ (Lifted.map (SecValue.rename ρ)) (ctx.makeClosure loc env label formals body)
      (ctx.makeClosure loc (env.rename ρ) label formals body) :=
  Mirrors.freshTag.bind fun _ =>
    .pure (by simp [Lifted.map, Lifted.plain, SecValue.rename, Labelled.pub])

theorem evalExpr (env : Bindings) (e : Surface.Expr) :
    Mirrors ρ (Lifted.map (SecValue.rename ρ)) (ev.evalExpr ctx env e)
      (ev.evalExpr ctx (env.rename ρ) e) := by
  unfold Evaluator.evalExpr
  cases e with
  | ident loc name => exact (Bindings.identify_mirrors env name).bind fun _ => .pure rfl
  | int | string | bool | null => exact .pure rfl
  | array loc elems =>
    refine (hev.exprs h env elems).bind fun vs => .pure ?_
    simp [Lifted.map, SecValue.rename, Labelled.levelOf, Function.comp_def]
  | object loc props =>
    refine (hev.properties h env props {}).bind fun object => .pure ?_
    simp [Lifted.map, SecValue.rename, PartialObject.rename]
  | call loc callee args =>
    exact (hev.expr h env callee).bind fun rator =>
      (hev.apply h env rator.value.value args).bind fun _ => .pure rfl
  | dot loc base field =>
    exact (hev.expr h env base).bind fun object =>
      (h.field object.value.value field).bind fun _ => .pure rfl
  | index loc base position =>
    exact (hev.expr h env base).bind fun v => (hev.expr h env position).bind fun i =>
      (h.element v.value.value i.value.value _).bind fun _ => .pure rfl
  | binary loc op lhs rhs =>
    exact (binaryRator_mirrors env op).bind fun rator => hev.apply h env rator [lhs, rhs]
  | unary loc op operand =>
    exact (unaryRator_mirrors env op).bind fun rator => hev.apply h env rator [operand]
  | paren _ inner => exact hev.expr h env inner
  | ternary loc cond onTrue onFalse => exact hev.ternary h env cond onTrue onFalse
  | arrow loc formals body => exact makeClosure env formals body
  | function loc name formals body =>
    cases name with
    | none => exact makeClosure env formals body
    | some name => exact .fail
  | foreign => exact .fail

end Evaluator.Mirrored

end Choreography
