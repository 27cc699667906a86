import Choreography.Proofs.Identifiers
import Choreography.Proofs.Operands
import Choreography.Proofs.Types

/-!
What is asked of the values that elaboration computes with. A regime fixes what the participants'
frontends offer, and whether secrets are guarded. A value is formed when all variables it holds, at
any depth, are in scope, when whatever it asks a frontend for is offered, and, in a guarded regime,
when nothing that is held as public shows a secret outside the fields of an object.

The fields of an object keep levels of their own: the level of the object says nothing of them.
-/

namespace Choreography

/-- A variable in scope and who may know it. -/
abbrev Known := Labelled Ir.Var

structure Regime where
  /-- What each participant's frontend offers. -/
  interfaces : NameMap (NameMap Ty)
  /-- Whether secrets are kept from what is public. Nothing is declassified then. -/
  guarded : Bool

namespace Regime

/-- Something held at level `inner` may show in something held at level `outer`. -/
def Allows (R : Regime) (inner outer : Level) : Prop :=
  R.guarded = true → inner = .secret → outer = .secret

/-- The participant's frontend offers the method at exactly this type. -/
def Offers (R : Regime) (who method : String) (type : Ty) : Prop :=
  Ir.Declares R.interfaces who method type

/-- The names may be mentioned: a guarded regime has no use for `declassify`. -/
def Admits (R : Regime) (names : List String) : Prop := R.guarded = true → "declassify" ∉ names

/-- A variable may be mentioned by something held at a level. -/
def Sees (R : Regime) (X : List Known) (level : Level) (v : Ir.Var) : Prop :=
  ∃ k, ⟨k, v⟩ ∈ X ∧ R.Allows k level

variable {R : Regime} {X Y : List Known} {level level' : Level}

theorem Allows.refl : R.Allows level level := fun _ h => h

theorem Allows.of_pub : R.Allows .pub level := by
  intro _ h
  cases h

theorem Allows.to_secret : R.Allows level .secret := fun _ _ => rfl

theorem Allows.trans {a b c : Level} (hab : R.Allows a b) (hbc : R.Allows b c) : R.Allows a c :=
  fun hguarded ha => hbc hguarded (hab hguarded ha)

theorem Allows.of_unguarded (h : R.guarded = false) : R.Allows level level' := by
  intro hguarded
  simp [h] at hguarded

theorem Allows.meet_left : R.Allows level (level.meet level') := by
  intro _ h
  subst h
  rfl

theorem Allows.meet_right : R.Allows level (level'.meet level) := by
  intro _ h
  subst h
  cases level' <;> rfl

theorem Allows.meetAll {levels : List Level} (h : level ∈ levels) :
    R.Allows level (Level.meetAll levels) := by
  intro _ hsecret
  subst hsecret
  -- once a secret has been met, the meet stays secret
  have hstay : ∀ (rest : List Level), rest.foldl Level.meet .secret = .secret := by
    intro rest
    induction rest with
    | nil => rfl
    | cons _ rest ih => exact ih
  have hmeets : ∀ (start : Level), Level.secret ∈ levels →
      levels.foldl Level.meet start = .secret := by
    clear h
    induction levels with
    | nil => simp
    | cons first rest ih =>
      intro start hmem
      rcases List.mem_cons.1 hmem with rfl | hrest
      · cases start <;> exact hstay rest
      · exact ih _ hrest
  exact hmeets .pub h

theorem Allows.levelOf {α : Type} {xs : List (Labelled α)} {x : Labelled α} (h : x ∈ xs) :
    R.Allows x.level (Labelled.levelOf xs) :=
  Allows.meetAll (List.mem_map_of_mem h)

@[simp] theorem admits_nil : R.Admits [] := by simp [Admits]

@[simp] theorem admits_append {names names' : List String} :
    R.Admits (names ++ names') ↔ R.Admits names ∧ R.Admits names' := by
  simp only [Admits, List.mem_append, not_or]
  exact ⟨fun h => ⟨fun hg => (h hg).1, fun hg => (h hg).2⟩, fun h hg => ⟨h.1 hg, h.2 hg⟩⟩

@[simp] theorem admits_cons {name : String} {names : List String} :
    R.Admits (name :: names) ↔ R.Admits [name] ∧ R.Admits names :=
  @admits_append R [name] names

theorem admits_of_ne {name : String} (h : name ≠ "declassify") : R.Admits [name] := by
  intro _
  simpa using h.symm

theorem Sees.mono {v : Ir.Var} (h : R.Sees X level v) (hsub : X ⊆ Y)
    (hlevel : R.Allows level level') : R.Sees Y level' v := by
  obtain ⟨k, hmem, hallows⟩ := h
  exact ⟨k, hsub hmem, hallows.trans hlevel⟩

theorem Sees.of_mem {k : Known} (h : k ∈ X) : R.Sees X k.level k.value := ⟨k.level, h, .refl⟩

end Regime

namespace Ir

namespace Arg

/-- An operand may be mentioned at a level. Its object fields may be secret at any level. -/
inductive Formed (R : Regime) (X : List Known) : Level → Arg → Prop
  | var {level : Level} {v : Var} (h : R.Sees X level v) : Formed R X level (.var v)
  | const {level : Level} {c : Const} : Formed R X level (.const c)
  | tuple {level : Level} {elems : List Arg} (h : ∀ a ∈ elems, Formed R X level a) :
    Formed R X level (.tuple elems)
  | object {level : Level} {fields : List (String × Arg)}
    (h : ∀ f ∈ fields, Formed R X .secret f.2) : Formed R X level (.object fields)
  | interact {level : Level} {who method : String} {type : Ty} (h : R.Allows .secret level)
    (hoffers : R.Offers who method type) (hdata : ∀ dom rng, type ≠ .func dom rng) :
    Formed R X level (.interact who method type)

theorem Formed.mono {R : Regime} {X Y : List Known} {level level' : Level} {a : Arg}
    (h : a.Formed R X level) (hsub : X ⊆ Y) (hlevel : R.Allows level level') :
    a.Formed R Y level' := by
  induction h generalizing level' with
  | var h => exact .var (h.mono hsub hlevel)
  | const => exact .const
  | tuple _ ih => exact .tuple fun a ha => ih a ha hlevel
  | object _ ih => exact .object fun f hf => ih f hf .refl
  | interact h hoffers hdata => exact .interact (h.trans hlevel) hoffers hdata

theorem Formed.raise {R : Regime} {X : List Known} {level level' : Level} {a : Arg}
    (h : a.Formed R X level) (hlevel : R.Allows level level') : a.Formed R X level' :=
  h.mono (List.Subset.refl X) hlevel

end Arg

end Ir

/-- The binding by which programs declassify. No name of a guarded program refers to it. -/
def Reserved (b : String × SecValue) : Prop :=
  b.1 = "declassify" ∧ b.2.value = .prim .synthetic .declassify

/-- What the interface of each participant must satisfy: types that programs can write, each for
a method of its own. -/
def Participant.Formed (p : Participant) : Prop :=
  (p.interface.map (·.1)).Nodup ∧ ∀ m ∈ p.interface, m.2.Ground

namespace Round

/-- The identifiers in the stages of a round. -/
def idents (r : Round) : List String :=
  r.publish.getD [] ++ (r.pay.map (·.idents)).getD []
    ++ (r.timeout.map fun t => t.delay.idents ++ t.handler.idents).getD []

end Round

/-- What a primitive holds is formed. An app holds an environment and is not covered here. -/
def Prim.Formed (R : Regime) (X : List Known) (level : Level) : Prim → Prop
  | .interact who method type => R.Allows .secret level ∧ R.Offers who method type ∧ type.Ground
  | .declassify => R.guarded = false
  | .transferTo _ amount => amount.Formed R X .pub ∧ amount.type = .uint256
  | .app .. => False
  | _ => True

namespace Value

inductive Formed (R : Regime) (X : List Known) : Level → Value → Prop
  | null {level : Level} {loc : Loc} : Formed R X level (.null loc)
  | bool {level : Level} {loc : Loc} {b : Bool} : Formed R X level (.bool loc b)
  | int {level : Level} {loc : Loc} {n : Int} : Formed R X level (.int loc n)
  | bytes {level : Level} {loc : Loc} {s : String} : Formed R X level (.bytes loc s)
  | type {level : Level} {loc : Loc} {t : Ty} (h : t.Ground) : Formed R X level (.type loc t)
  | var {level : Level} {v : Ir.Var} (h : R.Sees X level v) : Formed R X level (.var v)
  | tuple {level : Level} {loc : Loc} {elems : List Value} (h : ∀ v ∈ elems, Formed R X level v) :
    Formed R X level (.tuple loc elems)
  | object {level : Level} {loc : Loc} {fields : Bindings}
    (hdistinct : (fields.entries.map (·.1)).Nodup)
    (h : ∀ b ∈ fields.entries, Formed R X b.2.level b.2.value) :
    Formed R X level (.object loc fields)
  | participant {level : Level} {tag : Tag} {p : Participant}
    (h : ∀ v, p.address = some v → R.Sees X .pub v ∧ v.type = .address) :
    Formed R X level (.participant tag p)
  | closure {level : Level} {tag : Tag} {c : Closure}
    (hnames : R.Admits (c.formals ++ c.body.idents))
    (h : ∀ b ∈ c.env.entries, ¬ Reserved b → Formed R X b.2.level b.2.value) :
    Formed R X level (.closure tag c)
  | prim {level : Level} {loc : Loc} {p : Prim} (h : p.Formed R X level) :
    Formed R X level (.prim loc p)
  | app {level : Level} {loc : Loc} {tag : Tag} {a : App} (hparts : ∀ p ∈ a.parts, p.Formed)
    (hnames : R.Admits a.body.idents)
    (h : ∀ b ∈ a.env.entries, ¬ Reserved b → Formed R X b.2.level b.2.value) :
    Formed R X level (.prim loc (.app tag a))
  | appForm {level : Level} {loc : Loc} {tag : Tag} : Formed R X level (.form loc tag .app)
  | only {level : Level} {loc : Loc} {tag : Tag} {who : String} :
    Formed R X level (.form loc tag (.only who))
  | round {level : Level} {loc : Loc} {tag : Tag} {r : Round} (hnames : R.Admits r.idents) :
    Formed R X level (.form loc tag (.round r))
  | onlyDone {level : Level} {loc : Loc} {tag : Tag} {who : String} {view : Bindings}
    {result : SecValue} (h : ∀ b ∈ view.entries, ¬ Reserved b → Formed R X b.2.level b.2.value)
    (hresult : Formed R X result.level result.value) :
    Formed R X level (.form loc tag (.onlyDone who view result))

variable {R : Regime} {X Y : List Known} {level level' : Level} {v : Value}

/-- A value stays formed when more is in scope and when it is held as more secret. -/
theorem Formed.mono (h : v.Formed R X level) (hsub : X ⊆ Y) (hlevel : R.Allows level level') :
    v.Formed R Y level' := by
  induction h generalizing level' with
  | null => exact .null
  | bool => exact .bool
  | int => exact .int
  | bytes => exact .bytes
  | type h => exact .type h
  | var h => exact .var (h.mono hsub hlevel)
  | tuple _ ih => exact .tuple fun v hv => ih v hv hlevel
  | object hdistinct _ ih => exact .object hdistinct fun b hb => ih b hb .refl
  | participant h =>
    exact .participant fun v hv => ⟨(h v hv).1.mono hsub .refl, (h v hv).2⟩
  | closure hnames _ ih => exact .closure hnames fun b hb hr => ih b hb hr .refl
  | @prim _ _ p h =>
    refine .prim ?_
    cases p with
    | interact => exact ⟨h.1.trans hlevel, h.2⟩
    | transferTo => exact ⟨h.1.mono hsub .refl, h.2⟩
    | _ => exact h
  | app hparts hnames _ ih => exact .app hparts hnames fun b hb hr => ih b hb hr .refl
  | appForm => exact .appForm
  | only => exact .only
  | round hnames => exact .round hnames
  | onlyDone _ _ ih ihresult => exact .onlyDone (fun b hb hr => ih b hb hr .refl) (ihresult .refl)

theorem Formed.raise (h : v.Formed R X level) (hlevel : R.Allows level level') :
    v.Formed R X level' :=
  h.mono (List.Subset.refl X) hlevel

end Value

end Choreography
