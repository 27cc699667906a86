import Choreography.Compile
import Mathlib.Data.List.Forall2

/-!
Successful runs of elaboration. Every statement about what elaboration does is about a run that
ends with a result: from a supply, to a result and the supply that is left. A run of a sequence is
a run of its parts, so what a rule can do is read off by taking its run apart.
-/

namespace Choreography

namespace Eval

variable {α β : Type}

/-- The computation ends with a result when it starts from `s`, and leaves `s'`. -/
def Yields (x : Eval α) (s : Supply) (a : α) (s' : Supply) : Prop := x.runFrom s = (.ok a, s')

theorem Yields.unique {x : Eval α} {s s₁ s₂ : Supply} {a b : α} (h : x.Yields s a s₁)
    (h' : x.Yields s b s₂) : a = b ∧ s₁ = s₂ := by
  cases h.symm.trans h'
  exact ⟨rfl, rfl⟩

@[simp] theorem yields_pure {a b : α} {s s' : Supply} :
    (pure a : Eval α).Yields s b s' ↔ b = a ∧ s' = s := by
  simp [Yields, eq_comm]

@[simp] theorem yields_bind {x : Eval α} {f : α → Eval β} {s s' : Supply} {b : β} :
    (x >>= f).Yields s b s' ↔ ∃ a middle, x.Yields s a middle ∧ (f a).Yields middle b s' :=
  runFrom_bind_eq_ok_iff

@[simp] theorem yields_fail {f : Fault} {a : α} {s s' : Supply} :
    ¬ (fail f : Eval α).Yields s a s' := by
  simp [Yields]

@[simp] theorem yields_outOfFuel {a : α} {s s' : Supply} :
    ¬ (throw Stop.outOfFuel : Eval α).Yields s a s' := by
  intro h
  cases h

@[simp] theorem yields_ensure {c : Bool} {f : Fault} {u : Unit} {s s' : Supply} :
    (ensure c f).Yields s u s' ↔ c = true ∧ s' = s := by
  unfold ensure
  split <;> simp_all

@[simp] theorem yields_orFail {o : Option α} {f : Fault} {a : α} {s s' : Supply} :
    (orFail o f).Yields s a s' ↔ o = some a ∧ s' = s := by
  unfold orFail
  split <;> simp [eq_comm]

@[simp] theorem yields_freshId {i : Nat} {s s' : Supply} :
    freshId.Yields s i s' ↔ i = s.nextId ∧ s' = { s with nextId := s.nextId + 1 } := by
  constructor
  · intro h
    cases h
    exact ⟨rfl, rfl⟩
  · rintro ⟨rfl, rfl⟩
    rfl

@[simp] theorem yields_freshTag {t : Tag} {s s' : Supply} :
    freshTag.Yields s t s' ↔ t = s.nextTag ∧ s' = { s with nextTag := s.nextTag + 1 } := by
  constructor
  · intro h
    cases h
    exact ⟨rfl, rfl⟩
  · rintro ⟨rfl, rfl⟩
    rfl

/-- Whatever a run from `s` comes to satisfies `Q`, with the supply that the run leaves. -/
structure From (s : Supply) (Q : α → Supply → Prop) (x : Eval α) : Prop where
  result {a : α} {s' : Supply} : x.Yields s a s' → Q a s'

namespace From

variable {s : Supply} {P Q : α → Supply → Prop} {R : β → Supply → Prop} {p : α → Prop} {x : Eval α}
  {f : α → Eval β}

theorem pure {a : α} (h : Q a s) : From s Q (Pure.pure a) := by
  refine ⟨fun hrun => ?_⟩
  obtain ⟨rfl, rfl⟩ := yields_pure.1 hrun
  exact h

theorem fail {fault : Fault} : From s Q (Eval.fail fault) := ⟨fun hrun => absurd hrun yields_fail⟩

theorem bind (hx : From s P x) (hf : ∀ a s₁, P a s₁ → From s₁ R (f a)) : From s R (x >>= f) := by
  refine ⟨fun hrun => ?_⟩
  obtain ⟨a, s₁, hfirst, hrest⟩ := yields_bind.1 hrun
  exact (hf a s₁ (hx.result hfirst)).result hrest

theorem imp (hx : From s P x) (himp : ∀ a s', P a s' → Q a s') : From s Q x :=
  ⟨fun hrun => himp _ _ (hx.result hrun)⟩

/-- A computation that keeps the supply goes first. -/
theorem keep (hx : ∀ {a s'}, x.Yields s a s' → p a ∧ s' = s) (hf : ∀ a, p a → From s R (f a)) :
    From s R (x >>= f) := by
  refine bind ⟨hx⟩ fun a s₁ ha => ?_
  obtain ⟨ha, rfl⟩ := ha
  exact hf a ha

theorem orFail {o : Option α} {fault : Fault} (hf : ∀ a, o = some a → From s R (f a)) :
    From s R (Eval.orFail o fault >>= f) :=
  keep yields_orFail.1 hf

theorem ensure {c : Bool} {fault : Fault} {f : Unit → Eval β} (hf : c = true → From s R (f ())) :
    From s R (Eval.ensure c fault >>= f) :=
  keep yields_ensure.1 fun _ => hf

theorem freshTag {f : Tag → Eval β}
    (hf : From { s with nextTag := s.nextTag + 1 } R (f s.nextTag)) :
    From s R (Eval.freshTag >>= f) := by
  refine bind ⟨yields_freshTag.1⟩ fun a s₁ ha => ?_
  obtain ⟨rfl, rfl⟩ := ha
  exact hf

end From

end Eval

open Eval

variable {s s' : Supply} {loc : Loc}

namespace Bindings

theorem bind_yields {env out : Bindings} {name : String} {v : SecValue} :
    (env.bind loc name v).Yields s out s' ↔
      env.contains name = false ∧ out = env.push name v ∧ s' = s := by
  unfold Bindings.bind Env.insert?
  cases env.contains name <;> simp [eq_comm]

theorem bindAll_yields {bindings : List (String × SecValue)} :
    ∀ {env out : Bindings} {s s' : Supply}, (env.bindAll loc bindings).Yields s out s' →
      out.entries = env.entries ++ bindings ∧ s' = s := by
  induction bindings with
  | nil =>
    intro env out s s' h
    simp only [Bindings.bindAll, yields_pure] at h
    simp [h]
  | cons b rest ih =>
    intro env out s s' h
    simp only [Bindings.bindAll, yields_bind, bind_yields] at h
    obtain ⟨_, _, ⟨_, rfl, rfl⟩, h⟩ := h
    obtain ⟨hentries, rfl⟩ := ih h
    simp [hentries, Env.push]

theorem merge_yields {env overlay out : Bindings} (h : (env.merge loc overlay).Yields s out s') :
    out.entries = env.entries ++ overlay.entries ∧ s' = s :=
  bindAll_yields h

theorem lookup_yields {env : Bindings} {name : String} {sv : SecValue} :
    (env.lookup loc name).Yields s sv s' ↔ env.find? name = some sv ∧ s' = s := by
  simp [lookup]

/-- The value of an identifier is the one it is bound to, except that a participant takes the
identifier as its display name when it has none. -/
theorem identify_yields {env : Bindings} {name : String} {out : SecValue}
    (h : (env.identify loc name).Yields s out s') :
    ∃ sv, env.find? name = some sv ∧ s'.nextId = s.nextId ∧
      (out = sv ∨ ∃ tag tag' p, sv.value = .participant tag p ∧
        out = { sv with value := .participant tag' { p with displayName := some name } }) := by
  simp only [identify, yields_bind, lookup_yields] at h
  obtain ⟨sv, _, ⟨hfind, rfl⟩, h⟩ := h
  refine ⟨sv, hfind, ?_⟩
  split at h
  · rename_i tag p hvalue
    split at h
    · simp_all
    · simp only [yields_bind, yields_freshTag, yields_pure] at h
      obtain ⟨_, _, ⟨rfl, rfl⟩, rfl, rfl⟩ := h
      exact ⟨rfl, .inr ⟨tag, _, p, hvalue, rfl⟩⟩
  · simp_all

end Bindings

namespace SecValue

theorem requirePublic_yields {sv : SecValue} {v : Value} :
    (sv.requirePublic loc).Yields s v s' ↔ sv = .pub v ∧ s' = s := by
  obtain ⟨level, value⟩ := sv
  cases level <;> simp [requirePublic, Labelled.pub, eq_comm]

theorem declassify_yields {sv out : SecValue} :
    (sv.declassify loc).Yields s out s' ↔
      sv.level = .secret ∧ out = .pub sv.value ∧ s' = s := by
  obtain ⟨level, value⟩ := sv
  cases level <;> simp [declassify]

end SecValue

namespace Value

theorem typeOf_yields {v : Value} {t : Ty × Ir.Arg} :
    (v.typeOf loc).Yields s t s' ↔ v.typed? = some t ∧ s' = s := by
  simp [typeOf]

theorem checkType_yields {v : Value} {expected : Ty} {a : Ir.Arg} :
    (v.checkType loc expected).Yields s a s' ↔ v.typed? = some (expected, a) ∧ s' = s := by
  simp only [checkType, yields_bind, typeOf_yields, yields_ensure, yields_pure, decide_eq_true_eq]
  constructor
  · rintro ⟨⟨t, b⟩, _, ⟨ht, rfl⟩, _, _, ⟨rfl, rfl⟩, rfl, rfl⟩
    exact ⟨ht, rfl⟩
  · rintro ⟨ht, rfl⟩
    exact ⟨_, _, ⟨ht, rfl⟩, (), _, ⟨rfl, rfl⟩, rfl, rfl⟩

theorem mem_typed_cons {v : Value} {vs : List Value} {t : Ty × Ir.Arg} {ts : List (Ty × Ir.Arg)}
    (ht : v.typed? = some t) (hts : ∀ t ∈ ts, ∃ v ∈ vs, v.typed? = some t) :
    ∀ t' ∈ t :: ts, ∃ v' ∈ v :: vs, v'.typed? = some t' := by
  intro t' ht'
  rcases List.mem_cons.1 ht' with rfl | hmem
  · exact ⟨v, List.mem_cons_self, ht⟩
  · obtain ⟨v', hv', htyped⟩ := hts t' hmem
    exact ⟨v', List.mem_cons_of_mem v hv', htyped⟩

theorem typed_of_forall₂ {vs : List Value} {ts : List (Ty × Ir.Arg)}
    (h : List.Forall₂ (fun v t => v.typed? = some t) vs ts) :
    ∀ t ∈ ts, ∃ v ∈ vs, v.typed? = some t := by
  induction h with
  | nil => simp
  | cons ht _ ih => exact mem_typed_cons ht ih

theorem typeOfAll_yields {vs : List Value} :
    ∀ {ts : List (Ty × Ir.Arg)} {s s' : Supply}, (typeOfAll loc vs).Yields s ts s' →
      (∀ t ∈ ts, ∃ v ∈ vs, v.typed? = some t) ∧ s' = s := by
  induction vs with
  | nil =>
    intro ts s s' h
    simp only [typeOfAll, yields_pure] at h
    obtain ⟨rfl, rfl⟩ := h
    simp
  | cons v vs ih =>
    intro ts s s' h
    simp only [typeOfAll, yields_bind, typeOf_yields, yields_pure] at h
    obtain ⟨t, _, ⟨ht, rfl⟩, rest, _, hrest, rfl, rfl⟩ := h
    obtain ⟨hall, rfl⟩ := ih hrest
    exact ⟨mem_typed_cons ht hall, rfl⟩

end Value

namespace Ty

theorem convertArgs_yields {dom : List Ty} :
    ∀ {vs : List Value} {solved solved' : NameMap Ty} {operands : List Ir.Arg} {s s' : Supply},
      dom.length = vs.length →
      (convertArgs loc dom vs solved).Yields s (operands, solved') s' →
      ∃ ts : List (Ty × Ir.Arg), List.Forall₂ (fun v t => v.typed? = some t) vs ts ∧
        operands = ts.map (·.2) ∧ solveList dom (ts.map (·.1)) solved = (true, solved') ∧
        s' = s := by
  induction dom with
  | nil =>
    intro vs solved solved' operands s s' hlen h
    obtain rfl : vs = [] := by simpa using hlen.symm
    simp only [convertArgs, yields_pure, Prod.mk.injEq] at h
    obtain ⟨⟨rfl, rfl⟩, rfl⟩ := h
    exact ⟨[], .nil, rfl, by simp [solveList], rfl⟩
  | cons expected dom ih =>
    intro vs solved solved' operands s s' hlen h
    cases vs with
    | nil => simp at hlen
    | cons v vs =>
      simp only [convertArgs, yields_bind, Value.typeOf_yields] at h
      obtain ⟨⟨t, arg⟩, _, ⟨ht, rfl⟩, h⟩ := h
      split at h
      · rename_i middle hsolve
        simp only [yields_bind, yields_pure] at h
        obtain ⟨⟨args, last⟩, _, hrest, heq, rfl⟩ := h
        obtain ⟨rfl, rfl⟩ := Prod.mk.inj heq
        obtain ⟨ts, hts, rfl, hsolved, rfl⟩ := ih (by simpa using hlen) hrest
        refine ⟨(t, arg) :: ts, .cons ht hts, rfl, ?_, rfl⟩
        simp [solveList, hsolve, hsolved]
      · simp at h

theorem convert_yields {funType t : Ty} {vs : List Value} {operands : List Ir.Arg}
    (h : (funType.convert loc vs).Yields s (t, operands) s') :
    ∃ (dom : List Ty) (rng : Ty) (ts : List (Ty × Ir.Arg)) (solved : NameMap Ty),
      funType.stripForAll = .func dom rng ∧ dom.length = ts.length ∧
      (∀ t ∈ ts, ∃ v ∈ vs, v.typed? = some t) ∧ operands = ts.map (·.2) ∧
      solveList dom (ts.map (·.1)) {} = (true, solved) ∧ t = rng.substAll solved.entries ∧
      s' = s := by
  unfold convert at h
  split at h
  · rename_i dom rng hstrip
    simp only [yields_bind, yields_ensure, yields_pure, decide_eq_true_eq] at h
    obtain ⟨_, _, ⟨hlen, rfl⟩, ⟨args, solved⟩, _, hargs, heq, rfl⟩ := h
    obtain ⟨rfl, rfl⟩ := Prod.mk.inj heq
    obtain ⟨ts, hts, rfl, hsolved, rfl⟩ := convertArgs_yields hlen hargs
    exact ⟨dom, rng, ts, solved, hstrip, hlen.trans hts.length_eq, Value.typed_of_forall₂ hts, rfl,
      hsolved, rfl, rfl⟩
  · simp at h

theorem join_yields {a b : Loc × Ty} {t : Ty} :
    (join loc a b).Yields s t s' ↔ t = a.2 ∧ b.2 = a.2 ∧ s' = s := by
  unfold join
  split
  · simp_all
  · simp only [yields_fail, false_iff]
    rintro ⟨_, heq, _⟩
    simp_all

theorem joinRest_yields {rest : List (Loc × Ty)} :
    ∀ {first : Loc × Ty} {t : Ty} {s s' : Supply}, (joinRest loc first rest).Yields s t s' →
      t = first.2 ∧ (∀ p ∈ rest, p.2 = first.2) ∧ s' = s := by
  induction rest with
  | nil => simp [joinRest]
  | cons next rest ih =>
    intro first t s s' h
    simp only [joinRest, yields_bind, join_yields] at h
    obtain ⟨_, _, ⟨rfl, hnext, rfl⟩, h⟩ := h
    obtain ⟨rfl, hrest, rfl⟩ := ih h
    exact ⟨rfl, List.forall_mem_cons.2 ⟨hnext, hrest⟩, rfl⟩

theorem joinAll_yields {types : List (Loc × Ty)} {t : Ty}
    (h : (joinAll loc types).Yields s t s') : (∀ p ∈ types, p.2 = t) ∧ s' = s := by
  cases types with
  | nil => simp [joinAll] at h
  | cons first rest =>
    obtain ⟨rfl, hrest, rfl⟩ := joinRest_yields h
    exact ⟨List.forall_mem_cons.2 ⟨rfl, hrest⟩, rfl⟩

end Ty

/-- An operation on constants comes out as an integer or a truth value. -/
theorem Ir.Op.constant?_cases {op : Op} {args : List SecValue} {v : Value}
    (h : op.constant? loc args = some v) : (∃ n, v = .int loc n) ∨ ∃ b, v = .bool loc b := by
  unfold Op.constant? at h
  split at h
  · cases op with
    | add | sub | mul | bitAnd | bitOr | bitXor =>
      simp only [Op.fold?, Option.some.injEq] at h
      exact .inl ⟨_, h.symm⟩
    | shiftLeft | shiftRight =>
      simp only [Op.fold?, Option.map_eq_some_iff] at h
      obtain ⟨n, _, rfl⟩ := h
      exact .inl ⟨n, rfl⟩
    | lt | le | eq | ge | gt =>
      simp only [Op.fold?, Option.some.injEq] at h
      exact .inr ⟨_, h.symm⟩
    | div | mod | ifThenElse | bytesEq | balance | txnValue => simp [Op.fold?] at h
  · cases h

namespace Ctx

variable {ctx : Ctx}

theorem alloc_yields {i : Nat} :
    (ctx.alloc loc).Yields s i s' ↔
      ctx.canLift = true ∧ i = s.nextId ∧ s' = { s with nextId := s.nextId + 1 } := by
  unfold alloc
  split <;> simp_all

theorem alloc_from {β : Type} {R : β → Supply → Prop} {f : Nat → Eval β}
    (hf : ctx.canLift = true → From { s with nextId := s.nextId + 1 } R (f s.nextId)) :
    From s R (ctx.alloc loc >>= f) := by
  refine .bind ⟨alloc_yields.1⟩ fun _ _ hdrawn => ?_
  obtain ⟨hlift, rfl, rfl⟩ := hdrawn
  exact hf hlift

theorem lift_yields {label : String} {type : Ty} {e : Ir.Expr} {r : Lifted Ir.Var}
    (h : (ctx.lift loc label type e).Yields s r s') :
    ∃ v : Ir.Var, v.type = type ∧ v.id = s.nextId ∧ r = ⟨[.letIn loc v e], v⟩ ∧
      s' = { s with nextId := s.nextId + 1 } := by
  simp only [lift, yields_bind, alloc_yields, yields_pure] at h
  obtain ⟨_, _, ⟨_, rfl, rfl⟩, rfl, rfl⟩ := h
  exact ⟨_, rfl, rfl, rfl, rfl⟩

theorem liftValue_yields {label : String} {type : Ty} {e : Ir.Expr} {level : Level}
    {r : Lifted SecValue} (h : (ctx.liftValue loc label type e level).Yields s r s') :
    ∃ v : Ir.Var, v.type = type ∧ v.id = s.nextId ∧ r = ⟨[.letIn loc v e], ⟨level, .var v⟩⟩ ∧
      s' = { s with nextId := s.nextId + 1 } := by
  simp only [liftValue, yields_bind, yields_pure] at h
  obtain ⟨_, _, hlift, rfl, rfl⟩ := h
  obtain ⟨v, htype, hid, rfl, rfl⟩ := lift_yields hlift
  exact ⟨v, htype, hid, rfl, rfl⟩

theorem expectMode_yields {operation : String} {allowed : Mode → Bool} {u : Unit} :
    (ctx.expectMode loc operation allowed).Yields s u s' ↔ allowed ctx.mode = true ∧ s' = s := by
  simp [expectMode]

end Ctx

end Choreography
