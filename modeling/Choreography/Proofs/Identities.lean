import Choreography.Proofs.Lookup
import Choreography.Value.Text

/-!
Identities of values. The tags that tell closures, forms, participants and some primitives apart are
drawn in turn; nothing depends on which numbers they are. A computation is mirrored by another one
when a renaming takes the tags that the first draws to those that the second draws, and its results to
the results of the second.
-/

namespace Choreography

open Eval Ir

/-! ### Environments -/

namespace Env

variable {α β : Type} (f : α → β)

/-- Applies a function to everything that is bound. -/
def map (env : Env α) : Env β := ⟨env.entries.map fun b => (b.1, f b.2)⟩

theorem find?_map (env : Env α) (name : String) : (env.map f).find? name = (env.find? name).map f := by
  obtain ⟨entries⟩ := env
  simp only [map, find?]
  induction entries with
  | nil => rfl
  | cons b rest ih =>
    rw [List.map_cons, List.lookup_cons, List.lookup_cons]
    cases name == b.1
    · exact ih
    · rfl

theorem contains_map (env : Env α) (name : String) : (env.map f).contains name = env.contains name := by
  simp [contains, find?_map]

theorem map_push (env : Env α) (name : String) (a : α) :
    (env.push name a).map f = (env.map f).push name (f a) := by
  simp [map, push]

theorem map_difference (env other : Env α) :
    (env.difference other).map f = (env.map f).difference (other.map f) := by
  simp only [difference, contains_map]
  simp only [map, List.filter_map, Function.comp_def]

theorem map_set (env : Env α) (name : String) (a : α) :
    (env.set name a).map f = (env.map f).set name (f a) := by
  simp [map, set, without, push, List.filter_map, Function.comp_def]

theorem map_setAll (bindings : List (String × α)) : ∀ env : Env α,
    (env.setAll bindings).map f = (env.map f).setAll (bindings.map fun b => (b.1, f b.2)) := by
  induction bindings with
  | nil => exact fun _ => rfl
  | cons b rest ih =>
    intro env
    simp only [setAll, List.foldl_cons, List.map_cons] at ih ⊢
    rw [ih, map_set]

end Env

/-! ### Renaming -/

mutual

/-- Renames the tags in a value, at every depth. -/
def Value.rename (ρ : Tag → Tag) : Value → Value
  | .null loc => .null loc
  | .bool loc b => .bool loc b
  | .int loc n => .int loc n
  | .bytes loc s => .bytes loc s
  | .closure tag c => .closure (ρ tag) (c.rename ρ)
  | .prim loc p => .prim loc (p.rename ρ)
  | .form loc tag f => .form loc (ρ tag) (f.rename ρ)
  | .type loc t => .type loc t
  | .tuple loc elems => .tuple loc (Value.renameAll ρ elems)
  | .object loc ⟨fields⟩ => .object loc ⟨Value.renameFields ρ fields⟩
  | .participant tag p => .participant (ρ tag) p
  | .var v => .var v

def Closure.rename (ρ : Tag → Tag) : Closure → Closure
  | ⟨loc, name, formals, body, ⟨env⟩⟩ => ⟨loc, name, formals, body, ⟨Value.renameFields ρ env⟩⟩

def Prim.rename (ρ : Tag → Tag) : Prim → Prim
  | .op o => .op o
  | .claim c => .claim c
  | .interact who method type => .interact who method type
  | .declassify => .declassify
  | .commit => .commit
  | .committed => .committed
  | .digest => .digest
  | .transfer => .transfer
  | .transferTo tag amount => .transferTo (ρ tag) amount
  | .exit => .exit
  | .exited => .exited
  | .arrayType => .arrayType
  | .tupleType => .tupleType
  | .objectType => .objectType
  | .funType => .funType
  | .makeEnum => .makeEnum
  | .app tag a => .app (ρ tag) (a.rename ρ)

def App.rename (ρ : Tag → Tag) : App → App
  | ⟨⟨options⟩, parts, body, ⟨env⟩⟩ =>
    ⟨⟨Value.renameFields ρ options⟩, parts, body, ⟨Value.renameFields ρ env⟩⟩

def Form.rename (ρ : Tag → Tag) : Form → Form
  | .app => .app
  | .only who => .only who
  | .round r => .round r
  | .onlyDone who ⟨view⟩ ⟨level, v⟩ =>
    .onlyDone who ⟨Value.renameFields ρ view⟩ ⟨level, v.rename ρ⟩

def Value.renameAll (ρ : Tag → Tag) : List Value → List Value
  | [] => []
  | v :: vs => v.rename ρ :: Value.renameAll ρ vs

def Value.renameFields (ρ : Tag → Tag) :
    List (String × Labelled Value) → List (String × Labelled Value)
  | [] => []
  | (name, ⟨level, v⟩) :: fields => (name, ⟨level, v.rename ρ⟩) :: Value.renameFields ρ fields

end

variable {ρ : Tag → Tag}

def SecValue.rename (ρ : Tag → Tag) (sv : SecValue) : SecValue := ⟨sv.level, sv.value.rename ρ⟩

/-- Renames the tags of everything that is bound; names, their order and levels stay. -/
def Bindings.rename (ρ : Tag → Tag) (env : Bindings) : Bindings := env.map (SecValue.rename ρ)

theorem Value.renameAll_eq_map (vs : List Value) : Value.renameAll ρ vs = vs.map (·.rename ρ) := by
  induction vs with
  | nil => simp [Value.renameAll]
  | cons v vs ih => simp [Value.renameAll, ih]

theorem Value.renameFields_eq_map (fields : List (String × SecValue)) :
    Value.renameFields ρ fields = fields.map fun b => (b.1, SecValue.rename ρ b.2) := by
  induction fields with
  | nil => simp [Value.renameFields]
  | cons b fields ih => simp [Value.renameFields, ih, SecValue.rename]

namespace Value

@[simp] theorem rename_tuple (loc : Loc) (elems : List Value) :
    (Value.tuple loc elems).rename ρ = .tuple loc (elems.map (·.rename ρ)) := by
  rw [Value.rename, renameAll_eq_map]

@[simp] theorem rename_object (loc : Loc) (fields : Bindings) :
    (Value.object loc fields).rename ρ = .object loc (fields.rename ρ) := by
  rw [Value.rename, renameFields_eq_map]
  rfl

@[simp] theorem rename_closure (tag : Tag) (c : Closure) :
    (Value.closure tag c).rename ρ = .closure (ρ tag) { c with env := Bindings.rename ρ c.env } := by
  obtain ⟨loc, name, formals, body, ⟨env⟩⟩ := c
  rw [Value.rename, Closure.rename, renameFields_eq_map]
  rfl

@[simp] theorem rename_app (loc : Loc) (tag : Tag) (a : App) :
    (Value.prim loc (.app tag a)).rename ρ = .prim loc (.app (ρ tag)
      { a with options := Bindings.rename ρ a.options, env := Bindings.rename ρ a.env }) := by
  obtain ⟨⟨options⟩, parts, body, ⟨env⟩⟩ := a
  rw [Value.rename, Prim.rename, App.rename, renameFields_eq_map, renameFields_eq_map]
  rfl

@[simp] theorem rename_int (loc : Loc) (n : Int) : (Value.int loc n).rename ρ = .int loc n := rfl

@[simp] theorem rename_type (loc : Loc) (t : Ty) : (Value.type loc t).rename ρ = .type loc t := rfl

@[simp] theorem rename_var (v : Var) : (Value.var v).rename ρ = .var v := rfl

@[simp] theorem rename_participant (tag : Tag) (p : Participant) :
    (Value.participant tag p).rename ρ = .participant (ρ tag) p := rfl

end Value

/-! ### What renaming leaves alone -/

mutual

/-- Types and operands mention no tags. -/
theorem Value.typed?_rename : ∀ v : Value, (v.rename ρ).typed? = v.typed?
  | .null _ | .bool .. | .int .. | .bytes .. | .type .. | .var _ | .participant .. | .closure ..
  | .form .. => by simp [Value.rename, Value.typed?]
  | .prim _ p => by cases p <;> simp [Value.rename, Prim.rename, Value.typed?, Prim.typed?]
  | .tuple _ elems => by
    rw [Value.rename, Value.typed?, Value.typed?, Value.typedList?_renameAll elems]
  | .object _ ⟨fields⟩ => by
    rw [Value.rename, Value.typed?, Value.typed?, Value.typedFields?_renameFields fields]

theorem Value.typedList?_renameAll : ∀ vs : List Value,
    Value.typedList? (Value.renameAll ρ vs) = Value.typedList? vs
  | [] => by rw [Value.renameAll]
  | v :: vs => by
    rw [Value.renameAll, Value.typedList?, Value.typedList?, Value.typed?_rename v,
      Value.typedList?_renameAll vs]

theorem Value.typedFields?_renameFields : ∀ fields : List (String × Labelled Value),
    Value.typedFields? (Value.renameFields ρ fields) = Value.typedFields? fields
  | [] => by rw [Value.renameFields]
  | (name, ⟨level, v⟩) :: fields => by
    rw [Value.renameFields, Value.typedFields?, Value.typedFields?, Value.typed?_rename v,
      Value.typedFields?_renameFields fields]

end

mutual

/-- Nothing that is printed shows a tag. -/
theorem Value.text_rename : ∀ v : Value, (v.rename ρ).text = v.text
  | .null _ | .bool .. | .int .. | .bytes .. | .type .. | .var _ | .participant .. | .form .. => by
    simp [Value.rename, Value.text]
  | .closure _ c => by rw [Value.rename_closure, Value.text, Value.text]
  | .prim _ p => by cases p <;> simp [Value.rename, Prim.rename, Value.text, Prim.name]
  | .tuple _ elems => by
    rw [Value.rename, Value.text, Value.text, Value.texts_renameAll elems]
  | .object _ ⟨fields⟩ => by
    rw [Value.rename, Value.text, Value.text, Value.fieldTexts_renameFields fields]

theorem Value.texts_renameAll : ∀ vs : List Value,
    Value.texts (Value.renameAll ρ vs) = Value.texts vs
  | [] => by rw [Value.renameAll]
  | v :: vs => by
    rw [Value.renameAll, Value.texts, Value.texts, Value.text_rename v, Value.texts_renameAll vs]

theorem Value.fieldTexts_renameFields : ∀ fields : List (String × Labelled Value),
    Value.fieldTexts (Value.renameFields ρ fields) = Value.fieldTexts fields
  | [] => by rw [Value.renameFields]
  | (name, ⟨level, v⟩) :: fields => by
    rw [Value.renameFields, Value.fieldTexts, Value.fieldTexts, Value.text_rename v,
      Value.fieldTexts_renameFields fields]

end

/-! ### Mirrored computations -/

namespace Eval

variable {α β γ δ : Type} {f : α → β} {g : γ → δ}

/-- The computation never gives a result. -/
def Fails (x : Eval α) : Prop := ∀ s a s₁, ¬ x.Yields s a s₁

theorem Fails.bind {x : Eval α} {k : α → Eval γ} (h : x.Fails) : (x >>= k).Fails := by
  intro s c s₁ hrun
  obtain ⟨a, middle, hfirst, _⟩ := yields_bind.1 hrun
  exact h s a middle hfirst

theorem Fails.of_rest {x : Eval α} {k : α → Eval γ} (h : ∀ a, (k a).Fails) : (x >>= k).Fails := by
  intro s c s₁ hrun
  obtain ⟨a, middle, _, hrest⟩ := yields_bind.1 hrun
  exact h a middle c s₁ hrest

theorem fails_fail {e : Fault} : (fail e : Eval α).Fails := fun _ _ _ => yields_fail

/-- Each run of `x` is mirrored by runs of `y`, from every supply that the renaming takes the drawn
tags to: they give the image of the result under `f`, and draw as many tags. -/
structure Mirrors (ρ : Tag → Tag) (f : α → β) (x : Eval α) (y : Eval β) : Prop where
  grows {s s₁ : Supply} {a : α} : x.Yields s a s₁ → s.nextTag ≤ s₁.nextTag
  run {s s₁ : Supply} {a : α} : x.Yields s a s₁ → ∀ t : Supply,
    (∀ i, s.nextTag + i < s₁.nextTag → ρ (s.nextTag + i) = t.nextTag + i) →
    ∃ t₁, y.Yields t (f a) t₁ ∧ t₁.nextTag + s.nextTag = s₁.nextTag + t.nextTag

namespace Mirrors

theorem pure {a : α} {b : β} (h : f a = b) : Mirrors ρ f (Pure.pure a) (Pure.pure b) where
  grows hrun := by
    obtain ⟨_, rfl⟩ := yields_pure.1 hrun
    exact Nat.le_refl _
  run hrun t _ := by
    obtain ⟨rfl, rfl⟩ := yields_pure.1 hrun
    exact ⟨t, yields_pure.2 ⟨h, rfl⟩, Nat.add_comm _ _⟩

theorem of_eq {x : Eval α} {y y' : Eval β} (h : Mirrors ρ f x y) (heq : y = y') : Mirrors ρ f x y' :=
  heq ▸ h

/-- A computation that gives nothing is mirrored by any. -/
theorem of_fails {x : Eval α} {y : Eval β} (h : x.Fails) : Mirrors ρ f x y where
  grows hrun := absurd hrun (h _ _ _)
  run hrun := absurd hrun (h _ _ _)

theorem fail {e : Fault} {y : Eval β} : Mirrors ρ f (Eval.fail e : Eval α) y :=
  of_fails fails_fail

theorem outOfFuel {y : Eval β} : Mirrors ρ f (throw .outOfFuel : Eval α) y :=
  of_fails fun _ _ _ => yields_outOfFuel

theorem bind {x : Eval α} {y : Eval β} {k : α → Eval γ} {k' : β → Eval δ} (hx : Mirrors ρ f x y)
    (hk : ∀ a, Mirrors ρ g (k a) (k' (f a))) : Mirrors ρ g (x >>= k) (y >>= k') where
  grows hrun := by
    obtain ⟨a, middle, hfirst, hrest⟩ := yields_bind.1 hrun
    exact Nat.le_trans (hx.grows hfirst) ((hk a).grows hrest)
  run {s s₁ c} hrun t haligned := by
    obtain ⟨a, middle, hfirst, hrest⟩ := yields_bind.1 hrun
    have hle := hx.grows hfirst
    have hle' := (hk a).grows hrest
    obtain ⟨t₁, hfirst', htags⟩ := hx.run hfirst t fun i hi => haligned i (by grind)
    obtain ⟨t₂, hrest', htags'⟩ := (hk a).run hrest t₁ fun i hi => by
      have hdrawn := haligned (middle.nextTag - s.nextTag + i) (by grind)
      grind
    exact ⟨t₂, yields_bind.2 ⟨f a, t₁, hfirst', hrest'⟩, by grind⟩

theorem ite {x x' : Eval α} {y y' : Eval β} {c : Bool} (hyes : Mirrors ρ f x y)
    (hno : Mirrors ρ f x' y') : Mirrors ρ f (if c then x else x') (if c then y else y') := by
  cases c with
  | true => exact hyes
  | false => exact hno

theorem freshTag : Mirrors ρ ρ Eval.freshTag Eval.freshTag where
  grows hrun := by
    obtain ⟨_, rfl⟩ := yields_freshTag.1 hrun
    exact Nat.le_succ _
  run {s s₁ tag} hrun t haligned := by
    obtain ⟨rfl, rfl⟩ := yields_freshTag.1 hrun
    have hdrawn := haligned 0 (Nat.lt_succ_self _)
    exact ⟨{ t with nextTag := t.nextTag + 1 }, yields_freshTag.2 ⟨by simpa using hdrawn, rfl⟩, by grind⟩

theorem ensure {c c' : Bool} {e e' : Fault} (h : c = true → c' = true) :
    Mirrors ρ id (Eval.ensure c e) (Eval.ensure c' e') := by
  cases c with
  | true =>
    rw [h rfl]
    exact pure rfl
  | false => exact fail

theorem orFail {o : Option α} {o' : Option β} {e e' : Fault} (h : o' = o.map f) :
    Mirrors ρ f (Eval.orFail o e) (Eval.orFail o' e') := by
  subst h
  cases o with
  | some a => exact pure rfl
  | none => exact fail

end Mirrors

end Eval

end Choreography
