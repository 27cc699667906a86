import Choreography.Proofs.Lookup

/-!
How computations end. Besides the results that a computation can give, a statement here bounds the
ways in which it can stop. Checks of names, levels, types and modes stop with faults of the program
only; which computations can do worse is a matter of their own. Numbers are drawn in turn: the supply
that operations leave begins no lower than the one they started from.
-/

namespace Choreography

/-- A fault against the language, and not one that blames the compiler. -/
def Fault.isOrdinary (f : Fault) : Bool := f.kind.family ≠ .internal

def Stop.isOrdinary : Stop → Bool
  | .fault f => f.isOrdinary
  | .outOfFuel => false

namespace Eval

variable {α β : Type} {x : Eval α} {F F' : Stop → Prop} {P Q : α → Prop} {R : β → Prop}
  {f : Fault}

/-- A sequence stops where its first part does, or where the second does after it. -/
theorem runFrom_bind_eq_error_iff {f : α → Eval β} {s s' : Supply} {stop : Stop} :
    (x >>= f).runFrom s = (.error stop, s') ↔ x.runFrom s = (.error stop, s') ∨
      ∃ a middle, x.Yields s a middle ∧ (f a).runFrom middle = (.error stop, s') := by
  rw [runFrom_bind]
  unfold Yields
  rcases x.runFrom s with ⟨_ | a, middle⟩
  · simp
  · constructor
    · intro hrest
      exact .inr ⟨a, middle, rfl, hrest⟩
    · rintro (hfirst | ⟨_, _, heq, hrest⟩)
      · cases hfirst
      · cases heq
        exact hrest

/-- Every result satisfies `Q`, and every stop satisfies `F`. -/
structure Meets (F : Stop → Prop) (Q : α → Prop) (x : Eval α) : Prop where
  result {s s' : Supply} {a : α} : x.Yields s a s' → Q a
  stop {s s' : Supply} {stop : Stop} : x.runFrom s = (.error stop, s') → F stop

namespace Meets

theorem pure {a : α} (h : Q a) : Meets F Q (Pure.pure a) where
  result hrun := (yields_pure.1 hrun).1 ▸ h
  stop hrun := by cases hrun

theorem fail (h : F (.fault f)) : Meets F Q (Eval.fail f) where
  result hrun := absurd hrun yields_fail
  stop hrun := by
    cases hrun
    exact h

theorem outOfFuel (h : F .outOfFuel) : Meets F Q (throw .outOfFuel) where
  result hrun := absurd hrun yields_outOfFuel
  stop hrun := by
    cases hrun
    exact h

theorem bind {f : α → Eval β} (hx : Meets F P x) (hf : ∀ a, P a → Meets F R (f a)) :
    Meets F R (x >>= f) where
  result hrun := by
    obtain ⟨a, middle, hfirst, hrest⟩ := yields_bind.1 hrun
    exact (hf a (hx.result hfirst)).result hrest
  stop hrun := by
    rcases runFrom_bind_eq_error_iff.1 hrun with hfirst | ⟨a, middle, hfirst, hrest⟩
    · exact hx.stop hfirst
    · exact (hf a (hx.result hfirst)).stop hrest

theorem fail_bind {g : α → Eval β} (h : F (.fault f)) :
    Meets F R (Eval.fail f >>= g) :=
  bind (P := fun _ => False) (fail h) fun _ hnever => hnever.elim

theorem mono (h : Meets F P x) (hstop : ∀ stop, F stop → F' stop)
    (hresult : ∀ a, P a → Q a) : Meets F' Q x :=
  ⟨fun hrun => hresult _ (h.result hrun), fun hrun => hstop _ (h.stop hrun)⟩

theorem imp (h : Meets F P x) (hresult : ∀ a, P a → Q a) : Meets F Q x :=
  h.mono (fun _ hf => hf) hresult

theorem and (h : Meets F P x) (h' : Meets F Q x) :
    Meets F (fun a => P a ∧ Q a) x :=
  ⟨fun hrun => ⟨h.result hrun, h'.result hrun⟩, h.stop⟩

/-- A computation followed by what needs no more of it. -/
theorem map {g : α → β} (hx : Meets F P x) (hg : ∀ a, P a → R (g a)) :
    Meets F R (do let a ← x; return g a) :=
  hx.bind fun a ha => .pure (hg a ha)

theorem ensure {c : Bool} (h : c = false → F (.fault f)) :
    Meets F (fun _ => c = true) (Eval.ensure c f) := by
  cases c with
  | true => exact .pure rfl
  | false => exact .fail (h rfl)

theorem orFail {o : Option α} (h : o = none → F (.fault f)) :
    Meets F (fun a => o = some a) (Eval.orFail o f) := by
  cases o with
  | some a => exact .pure rfl
  | none => exact .fail (h rfl)

theorem freshId : Meets F (fun _ => True) Eval.freshId := ⟨fun _ => trivial, fun h => by cases h⟩

theorem freshTag : Meets F (fun _ => True) Eval.freshTag := ⟨fun _ => trivial, fun h => by cases h⟩

theorem restartIds : Meets F (fun _ => True) Eval.restartIds :=
  ⟨fun _ => trivial, fun h => by cases h⟩

end Meets

/-- Every result satisfies `Q`, however the computation may stop. -/
abbrev Gives (Q : α → Prop) (x : Eval α) : Prop := Meets (fun _ => True) Q x

theorem Meets.gives (h : Meets F Q x) : Gives Q x :=
  h.mono (fun _ _ => trivial) fun _ h => h

theorem Meets.of_yields (h : ∀ {s a s'}, x.Yields s a s' → Q a) : Gives Q x :=
  ⟨h, fun _ => trivial⟩

namespace Gives

theorem any : Gives (fun _ => True) x := Meets.of_yields fun _ => trivial

theorem ensure {c : Bool} : Gives (fun _ => c = true) (Eval.ensure c f) :=
  Meets.ensure fun _ => trivial

theorem orFail {o : Option α} : Gives (fun a => o = some a) (Eval.orFail o f) :=
  Meets.orFail fun _ => trivial

end Gives

/-- A computation of which nothing matters goes first. -/
theorem Meets.skip {f : α → Eval β} (hf : ∀ a, Gives R (f a)) : Gives R (x >>= f) :=
  Gives.any.bind fun a _ => hf a

/-- Runs leave a supply of numbers that begins no lower. -/
structure Grows (x : Eval α) : Prop where
  le {s : Supply} {a : α} {s' : Supply} : x.Yields s a s' → s.nextId ≤ s'.nextId

theorem Grows.of_keeps (h : ∀ s a s', x.Yields s a s' → s' = s) : x.Grows := by
  refine ⟨fun {s a s'} hrun => ?_⟩
  obtain rfl := h s a s' hrun
  exact Nat.le_refl _

/-- A computation of which all this is known. -/
structure Proceeds (F : Stop → Prop) (Q : α → Prop) (x : Eval α) : Prop extends Meets F Q x, Grows x

namespace Proceeds

theorem pure {a : α} (h : Q a) : Proceeds F Q (Pure.pure a) := ⟨.pure h, .of_keeps (by simp)⟩

theorem fail (h : F (.fault f)) : Proceeds F Q (Eval.fail f) :=
  ⟨.fail h, .of_keeps (by simp)⟩

theorem bind {f : α → Eval β} (hx : Proceeds F P x)
    (hf : ∀ a, P a → Proceeds F R (f a)) : Proceeds F R (x >>= f) := by
  refine ⟨hx.toMeets.bind fun a ha => (hf a ha).toMeets, ⟨fun hrun => ?_⟩⟩
  obtain ⟨a, middle, hfirst, hrest⟩ := yields_bind.1 hrun
  exact Nat.le_trans (hx.le hfirst) ((hf a (hx.result hfirst)).le hrest)

theorem mono (h : Proceeds F P x) (hstop : ∀ stop, F stop → F' stop)
    (hresult : ∀ a, P a → Q a) : Proceeds F' Q x :=
  ⟨h.toMeets.mono hstop hresult, h.toGrows⟩

theorem imp (h : Proceeds F P x) (hresult : ∀ a, P a → Q a) : Proceeds F Q x :=
  h.mono (fun _ hf => hf) hresult

theorem ensure {c : Bool} (h : c = false → F (.fault f)) :
    Proceeds F (fun _ => c = true) (Eval.ensure c f) :=
  ⟨.ensure h, .of_keeps (by simp)⟩

theorem orFail {o : Option α} (h : o = none → F (.fault f)) :
    Proceeds F (fun a => o = some a) (Eval.orFail o f) :=
  ⟨.orFail h, .of_keeps (by simp)⟩

theorem freshId : Proceeds F (fun _ => True) Eval.freshId := by
  refine ⟨.freshId, ⟨fun hrun => ?_⟩⟩
  obtain ⟨_, rfl⟩ := yields_freshId.1 hrun
  exact Nat.le_succ _

theorem freshTag : Proceeds F (fun _ => True) Eval.freshTag := by
  refine ⟨.freshTag, ⟨fun hrun => ?_⟩⟩
  obtain ⟨_, rfl⟩ := yields_freshTag.1 hrun
  exact Nat.le_refl _

/-- What is known of each run. -/
theorem steps (h : Proceeds F Q x) {s : Supply} :
    From s (fun a s' => Q a ∧ s.nextId ≤ s'.nextId) x :=
  ⟨fun hrun => ⟨h.result hrun, h.le hrun⟩⟩

end Proceeds

/-- A computation that can only stop with faults of the program. -/
abbrev Routine (x : Eval α) : Prop := Proceeds (·.isOrdinary = true) (fun _ => True) x

namespace Routine

/-- Whatever is known of its successful runs is what such a computation meets. -/
theorem yields (h : Routine x) (hstop : ∀ stop, stop.isOrdinary = true → F stop) :
    Meets F (fun a => ∃ s s', x.Yields s a s') x :=
  ⟨fun hrun => ⟨_, _, hrun⟩, fun hrun => hstop _ (h.stop hrun)⟩

theorem proceeds (h : Routine x) (hresult : ∀ {s a s'}, x.Yields s a s' → Q a) :
    Proceeds (·.isOrdinary = true) Q x :=
  ⟨⟨hresult, h.stop⟩, h.toGrows⟩

theorem pure (a : α) : Routine (Pure.pure a) := Proceeds.pure trivial

theorem fail (h : f.isOrdinary = true) : Routine (Eval.fail f : Eval α) := Proceeds.fail h

theorem bind {f : α → Eval β} (hx : Routine x) (hf : ∀ a, Routine (f a)) :
    Routine (x >>= f) :=
  Proceeds.bind hx fun a _ => hf a

theorem andThen {f : α → Eval β} (hx : Routine x)
    (hf : ∀ a, Proceeds (·.isOrdinary = true) R (f a)) :
    Proceeds (·.isOrdinary = true) R (x >>= f) :=
  Proceeds.bind hx fun a _ => hf a

theorem ensure {c : Bool} (h : f.isOrdinary = true) : Routine (Eval.ensure c f) :=
  (Proceeds.ensure fun _ => h).imp fun _ _ => trivial

theorem orFail {o : Option α} (h : f.isOrdinary = true) : Routine (Eval.orFail o f) :=
  (Proceeds.orFail fun _ => h).imp fun _ _ => trivial

end Routine

end Eval

open Eval

variable {loc : Loc} {ctx : Ctx}

/-! ### Checks -/

theorem Bindings.bind_routine (env : Bindings) (name : String) (sv : SecValue) :
    Routine (env.bind loc name sv) :=
  .orFail rfl

theorem Bindings.bindAll_routine (bindings : List (String × SecValue)) :
    ∀ env : Bindings, Routine (env.bindAll loc bindings) := by
  induction bindings with
  | nil => exact fun env => .pure env
  | cons b rest ih => exact fun env => .bind (env.bind_routine b.1 b.2) fun out => ih out

theorem Bindings.lookup_routine (env : Bindings) (name : String) :
    Routine (env.lookup loc name) :=
  .orFail rfl

theorem Bindings.identify_routine (env : Bindings) (name : String) :
    Routine (env.identify loc name) := by
  refine .bind (env.lookup_routine name) fun _ => ?_
  split
  · split
    · exact .pure _
    · exact .bind Proceeds.freshTag fun _ => .pure _
  · exact .pure _

theorem SecValue.requirePublic_routine (sv : SecValue) : Routine (sv.requirePublic loc) := by
  obtain ⟨level, v⟩ := sv
  cases level with
  | pub => exact .pure v
  | secret => exact .fail rfl

theorem SecValue.declassify_routine (sv : SecValue) : Routine (sv.declassify loc) := by
  obtain ⟨level, v⟩ := sv
  cases level with
  | pub => exact .fail rfl
  | secret => exact .pure _

theorem Value.typeOf_routine (v : Value) : Routine (v.typeOf loc) := .orFail rfl

theorem Value.checkType_routine (v : Value) (t : Ty) : Routine (v.checkType loc t) :=
  .bind v.typeOf_routine fun _ => .bind (.ensure rfl) fun _ => .pure _

theorem Value.typeOfAll_routine (vs : List Value) : Routine (Value.typeOfAll loc vs) := by
  induction vs with
  | nil => exact .pure []
  | cons v vs ih => exact .bind v.typeOf_routine fun _ => .bind ih fun _ => .pure _

theorem Value.expectNull_routine (v : Value) : Routine (v.expectNull loc) := by
  unfold Value.expectNull
  split
  · exact .pure ()
  · exact .fail rfl

namespace Ty

theorem convertArgs_routine (vs : List Value) : ∀ (dom : List Ty) (solved : NameMap Ty),
    Routine (convertArgs loc dom vs solved) := by
  induction vs with
  | nil => intro dom solved; cases dom <;> exact .pure _
  | cons v vs ih =>
    intro dom solved
    cases dom with
    | nil => exact .pure _
    | cons t dom =>
      refine .bind v.typeOf_routine ?_
      rintro ⟨type, arg⟩
      simp only
      split
      · exact .bind (ih ..) fun _ => .pure _
      · exact .fail rfl

/-- Only what has no function type blames the compiler when it is applied. -/
theorem convert_meets (t : Ty) (vs : List Value) :
    Proceeds (fun stop => stop.isOrdinary = true ∨
        (∀ dom rng, t.stripForAll ≠ .func dom rng) ∧ stop = .fault (.notAFunctionType loc t.full))
      (fun _ => True) (t.convert loc vs) := by
  unfold convert
  split
  · refine Proceeds.mono (Routine.bind (.ensure rfl) fun _ => ?_) (fun _ => .inl) fun _ _ => trivial
    exact .bind (convertArgs_routine ..) fun _ => .pure _
  · rename_i hfunction
    exact .fail (.inr ⟨hfunction, rfl⟩)

theorem convert_routine {t : Ty} {dom : List Ty} {rng : Ty} (h : t.stripForAll = .func dom rng)
    (vs : List Value) : Routine (t.convert loc vs) :=
  (t.convert_meets vs).mono (fun _ hf => hf.elim id fun hnot => absurd h (hnot.1 dom rng))
    fun _ _ => trivial

theorem join_routine (a b : Loc × Ty) : Routine (join loc a b) := by
  unfold join
  split
  · exact .pure _
  · exact .fail rfl

theorem joinRest_routine (ts : List (Loc × Ty)) :
    ∀ first : Loc × Ty, Routine (joinRest loc first ts) := by
  induction ts with
  | nil => exact fun _ => .pure _
  | cons t ts ih => exact fun first => .bind (join_routine first t) fun _ => ih _

theorem joinAll_routine (ts : List (Loc × Ty)) : Routine (joinAll loc ts) := by
  cases ts with
  | nil => exact .fail rfl
  | cons first rest => exact joinRest_routine rest first

end Ty

namespace Ctx

theorem alloc_routine : Routine (ctx.alloc loc) := by
  unfold alloc
  split
  · exact Proceeds.freshId
  · exact .fail rfl

theorem expectMode_routine (operation : String) (allowed : Mode → Bool) :
    Routine (ctx.expectMode loc operation allowed) :=
  .ensure rfl

end Ctx

namespace OrderedMap

variable {κ α β : Type}

theorem exists_get?_iff [DecidableEq κ] {m : OrderedMap κ α} {k : κ} :
    (∃ a, m.get? k = some a) ↔ k ∈ m.keys := by
  rw [← Option.isSome_iff_exists]
  simp [get?, keys]

/-- A key that one map has is in every map with the same keys. -/
theorem getD_of_keys_eq [DecidableEq κ] {m : OrderedMap κ α} {out : OrderedMap κ β} {P : β → Prop}
    (hkeys : out.keys = m.keys) {k : κ} {a : α} (hget : m.get? k = some a)
    (h : ∀ e ∈ out.entries, P e.2) {d : β} : P ((out.get? k).getD d) := by
  obtain ⟨b, hb⟩ := exists_get?_iff.2 (hkeys ▸ exists_get?_iff.1 ⟨a, hget⟩)
  rw [hb]
  exact h _ (mem_of_get? hb)

/-- What holds of each result of a traversal holds of them all, and no key is lost. -/
theorem traverse_meets {F : Stop → Prop} {f : κ → α → Eval β} {P : κ × α → Prop}
    {Q : κ × β → Prop} {m : OrderedMap κ α} (hm : ∀ e ∈ m.entries, P e)
    (hf : ∀ k a, P (k, a) → Meets F (fun b => Q (k, b)) (f k a)) :
    Meets F (fun out => (∀ e ∈ out.entries, Q e) ∧ out.keys = m.keys) (m.traverse f) := by
  obtain ⟨entries⟩ := m
  refine Meets.bind (P := fun es => (∀ e ∈ es, Q e) ∧ es.map (·.1) = entries.map (·.1)) ?_
    fun _ h => .pure h
  simp only at hm
  induction entries with
  | nil => exact .pure ⟨by simp, rfl⟩
  | cons e entries ih =>
    obtain ⟨hfirst, hrest⟩ := List.forall_mem_cons.1 hm
    rw [List.mapM_cons]
    refine Meets.bind (P := fun first => Q first ∧ first.1 = e.1) ?_ fun first hb =>
      (ih hrest).bind fun rest hes =>
        .pure ⟨List.forall_mem_cons.2 ⟨hb.1, hes.1⟩, by rw [List.map_cons, List.map_cons, hb.2, hes.2]⟩
    exact (hf _ _ hfirst).bind fun _ hb => .pure ⟨hb, rfl⟩

end OrderedMap

theorem expectLast_routine (rest : List Surface.Stmt) : Routine (expectLast loc rest) := by
  cases rest with
  | nil => exact .pure ()
  | cons => exact .fail rfl

theorem Target.identifiers_routine (es : List Surface.Expr) : Routine (Target.identifiers es) := by
  induction es with
  | nil => exact .pure _
  | cons e es ih =>
    cases e with
    | ident => exact .bind ih fun _ => .pure _
    | _ => exact .fail rfl

theorem Target.ofExpr_routine (e : Surface.Expr) : Routine (Target.ofExpr e) := by
  unfold Target.ofExpr
  split
  · exact .pure _
  · exact .bind (identifiers_routine _) fun _ => .pure _
  · exact .fail rfl

/-- A return leaves with the value of its expression, or with null. -/
theorem Evaluator.ret_meets {ev : Evaluator} {scope : Scope} {value : Option Surface.Expr}
    {rest : List Surface.Stmt} {F : Stop → Prop} {P : Lifted SecValue → Prop}
    {Q : Lifted Outcome → Prop} (hstop : ∀ stop, stop.isOrdinary = true → F stop)
    (hsome : ∀ e, value = some e → Meets F P (ev.expr ctx scope.env e))
    (hnone : P (.plain (.pub (.null loc))))
    (hleaves : ∀ r slot, P r → Q
      { code := r.code ++ [.ret loc slot (some r.value.value)],
        value := { env := scope.env, exits := [{ loc, value := r.value }] } }) :
    Meets F Q (ev.ret ctx loc scope value rest) := by
  have hpasses : ∀ {α : Type} {x : Eval α}, Routine x → Meets F (fun _ => True) x :=
    fun h => h.toMeets.mono hstop fun _ _ => trivial
  have hreturn : ∀ r, P r → Meets F Q (do
      let slot ← Eval.orFail scope.slot (.noReturn loc)
      Eval.ensure (scope.style != .cannotReturn) (.cannotReturn loc)
      expectLast loc rest
      return { code := r.code ++ [.ret loc slot (some r.value.value)],
               value := { env := scope.env, exits := [{ loc, value := r.value }] } }) :=
    fun r hr => (hpasses (.orFail rfl)).bind fun slot _ => (hpasses (.ensure rfl)).bind fun _ _ =>
      (hpasses (expectLast_routine rest)).bind fun _ _ => .pure (hleaves r slot hr)
  cases value with
  | none => exact hreturn _ hnone
  | some e => exact (hsome e rfl).bind hreturn

end Choreography
