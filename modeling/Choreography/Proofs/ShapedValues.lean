import Choreography.Proofs.Endings
import Choreography.Proofs.Shapes

/-!
Values of a shape. A function of the program has a shape when every application to arguments of the
right shapes ends, with a result of the right shape. The recursion is on the shape and not on the
value, so that environments in which functions find each other do no harm. There are two settings:
privately, where no protocol goes on, and in the protocol, where every participant has a view of its
own that the function may reach. What has a shape in the protocol also has it privately, since views
learn what the protocol has bound.
-/

namespace Choreography

open Eval Ir

/-! ### Tame values -/

/-- The value waits for nothing to be evaluated, and its application evaluates nothing but the
arguments. -/
def Value.isTame : Value → Bool
  | .null _ | .bool .. | .int .. | .bytes .. | .type .. | .var _ | .participant ..
  | .form _ _ .app => true
  | .prim _ .makeEnum | .prim _ .declassify | .prim _ (.app ..) => false
  | .prim .. => true
  | .closure .. | .form .. | .tuple .. | .object .. => false

namespace Value

/-- The value is made of values that satisfy `P`, in tuples and objects. -/
inductive Made (P : Value → Prop) : Value → Prop
  | atom {v : Value} (h : P v) : Made P v
  | tuple {loc : Loc} {elems : List Value} (h : ∀ v ∈ elems, Made P v) : Made P (.tuple loc elems)
  | object {loc : Loc} {fields : Bindings} (h : ∀ b ∈ fields.entries, Made P b.2.value) :
    Made P (.object loc fields)

abbrev Tame : Value → Prop := Made (·.isTame = true)

theorem Made.mono {P Q : Value → Prop} {v : Value} (h : v.Made P) (hPQ : ∀ w, P w → Q w) :
    v.Made Q := by
  induction h with
  | atom h => exact .atom (hPQ _ h)
  | tuple _ ih => exact .tuple ih
  | object _ ih => exact .object ih

end Value

/-! ### Settings -/

/-- Where functions are applied, what else is asked of them, and what is asked of apps. -/
structure Setting where
  admits : Mode → Prop
  also : List Shape → Shape → Closure → Prop
  apps : App → Prop

namespace Setting

variable (S : Setting)

/-- The value is an app that waits to be compiled. -/
def Waits (v : Value) : Prop := ∃ loc tag a, v = .prim loc (.app tag a) ∧ S.apps a

mutual

/-- The value is a function of the given shape. -/
def Functional : Shape → Value → Prop
  | .any, _ | .data, _ => False
  | .enumerator, v => ∃ loc, v = .prim loc .makeEnum
  | .revealer, v => ∃ loc, v = .prim loc .declassify
  | .fn args result, v => ∃ tag c, v = .closure tag c ∧ S.also args result c ∧
      ∀ ctx loc vs, S.admits ctx.mode → Arguments args vs →
        Ends (fun fuel => (evaluator fuel).applyClosure ctx loc c vs) fun r =>
          result = .any ∨ r.value.value.value.Made fun w =>
            w.isTame = true ∨ S.Waits w ∨ Functional result w

/-- The values are arguments of the given shapes. -/
def Arguments : List Shape → List SecValue → Prop
  | [], [] => True
  | σ :: σs, v :: vs =>
    (σ = .any ∨ v.value.Made fun w => w.isTame = true ∨ S.Waits w ∨ Functional σ w) ∧
      Arguments σs vs
  | _, _ => False

end

/-- The value has the shape: it is made of data and of functions of the shape. -/
def Fits (σ : Shape) (v : Value) : Prop :=
  σ = .any ∨ v.Made fun w => w.isTame = true ∨ S.Waits w ∨ S.Functional σ w

/-- Every application of the function to arguments of the given shapes ends with a result of the
given shape. -/
def Applies (args : List Shape) (result : Shape) (c : Closure) : Prop :=
  ∀ ctx loc vs, S.admits ctx.mode → S.Arguments args vs →
    Ends (fun fuel => (evaluator fuel).applyClosure ctx loc c vs) fun r =>
      S.Fits result r.value.value.value

end Setting

variable {S : Setting} {σ τ : Shape} {v : Value} {loc : Loc}

namespace Setting.Functional

/-- Only functions of the program and two of the primitives are functional. -/
theorem cases (h : S.Functional σ v) :
    (∃ tag c, v = .closure tag c) ∨ ∃ loc p, v = .prim loc p ∧ (p = .makeEnum ∨ p = .declassify) := by
  cases σ with
  | any => exact h.elim
  | data => exact h.elim
  | enumerator =>
    obtain ⟨loc, rfl⟩ := h
    exact .inr ⟨loc, _, rfl, .inl rfl⟩
  | revealer =>
    obtain ⟨loc, rfl⟩ := h
    exact .inr ⟨loc, _, rfl, .inr rfl⟩
  | fn =>
    obtain ⟨tag, c, rfl, _⟩ := h
    exact .inl ⟨tag, c, rfl⟩

end Setting.Functional

namespace Setting.Fits

theorem any : S.Fits .any v := .inl rfl

theorem of_tame (h : v.Tame) : S.Fits σ v := .inr (h.mono fun _ => .inl)

theorem of_data (h : S.Fits .data v) : S.Fits σ v :=
  .inr ((h.resolve_left (by simp)).mono fun _ hw => hw.imp_right fun hw => .inl (hw.resolve_right id))

theorem le (hle : σ.le τ = true) (h : S.Fits σ v) : S.Fits τ v := by
  rcases Shape.le_iff.1 hle with rfl | rfl | rfl
  · exact any
  · exact of_data h
  · exact h

theorem join_left (h : S.Fits σ v) : S.Fits (σ.join τ) v := h.le (Shape.le_join_left σ τ)

theorem join_right (h : S.Fits τ v) : S.Fits (σ.join τ) v := h.le (Shape.le_join_right σ τ)

theorem tuple {elems : List Value} (h : ∀ v ∈ elems, S.Fits σ v) : S.Fits σ (.tuple loc elems) := by
  by_cases hany : σ = .any
  · exact .inl hany
  · exact .inr (.tuple fun v hv => (h v hv).resolve_left hany)

theorem object {fields : Bindings} (h : ∀ b ∈ fields.entries, S.Fits σ b.2.value) :
    S.Fits σ (.object loc fields) := by
  by_cases hany : σ = .any
  · exact .inl hany
  · exact .inr (.object fun b hb => (h b hb).resolve_left hany)

/-- What is no primitive and no function of the program is tame, or has parts. -/
theorem isTame_of_atom (h : v.isTame = true ∨ S.Waits v ∨ S.Functional σ v)
    (hprim : ∀ loc p, v ≠ .prim loc p) (hclosure : ∀ tag c, v ≠ .closure tag c) : v.isTame = true := by
  rcases h with h | ⟨_, _, _, h, _⟩ | h
  · exact h
  · exact absurd h (hprim _ _)
  · rcases h.cases with ⟨_, _, h⟩ | ⟨_, _, h, _⟩
    · exact absurd h (hclosure _ _)
    · exact absurd h (hprim _ _)

theorem elems {elems : List Value} (h : S.Fits σ (.tuple loc elems)) : ∀ v ∈ elems, S.Fits σ v := by
  intro v hv
  rcases h with h | h
  · exact .inl h
  · cases h with
    | atom h => cases isTame_of_atom h (by simp) (by simp)
    | tuple h => exact .inr (h v hv)

theorem fields {fields : Bindings} (h : S.Fits σ (.object loc fields)) :
    ∀ b ∈ fields.entries, S.Fits σ b.2.value := by
  intro b hb
  rcases h with h | h
  · exact .inl h
  · cases h with
    | atom h => cases isTame_of_atom h (by simp) (by simp)
    | object h => exact .inr (h b hb)

/-- What is neither a tuple nor an object is data or a function. -/
theorem atom (h : S.Fits σ v) (hany : σ ≠ .any) (htuple : ∀ loc elems, v ≠ .tuple loc elems)
    (hobject : ∀ loc fields, v ≠ .object loc fields) :
    v.isTame = true ∨ S.Waits v ∨ S.Functional σ v := by
  cases h.resolve_left hany with
  | atom h => exact h
  | tuple => exact absurd rfl (htuple _ _)
  | object => exact absurd rfl (hobject _ _)

theorem closure_iff {args : List Shape} {result : Shape} {tag : Tag} {c : Closure} :
    S.Fits (.fn args result) (.closure tag c) ↔ S.also args result c ∧ S.Applies args result c := by
  constructor
  · intro h
    rcases h.atom (by simp) (by simp) (by simp) with h | ⟨_, _, _, heq, _⟩ | ⟨_, _, heq, h⟩
    · cases h
    · cases heq
    · cases heq
      exact h
  · rintro ⟨halso, happlies⟩
    exact .inr (.atom (.inr (.inr ⟨tag, c, rfl, halso, happlies⟩)))

/-- No form but that of apps has a shape, unless it is that of any value. -/
theorem eq_app {tag : Tag} {f : Form} (h : S.Fits σ (.form loc tag f)) (hany : σ ≠ .any) :
    f = .app := by
  have htame := isTame_of_atom (h.atom hany (by simp) (by simp)) (by simp) (by simp)
  cases f with
  | app => rfl
  | _ => cases htame

end Setting.Fits

namespace Setting.Arguments

variable {σs τs : List Shape} {vs : List SecValue}

theorem le (h : S.Arguments σs vs) (hle : Shape.leAll σs τs = true) : S.Arguments τs vs := by
  induction σs generalizing τs vs with
  | nil =>
    cases τs with
    | nil => exact h
    | cons => simp [Shape.leAll] at hle
  | cons σ σs ih =>
    cases vs with
    | nil => exact h.elim
    | cons v vs =>
      cases τs with
      | nil => simp [Shape.leAll] at hle
      | cons τ τs =>
        simp only [Shape.leAll, Bool.and_eq_true] at hle
        exact ⟨Fits.le hle.1 h.1, ih h.2 hle.2⟩

/-- All arguments have the joint shape. -/
theorem joinAll (h : S.Arguments σs vs) : ∀ sv ∈ vs, S.Fits (Shape.joinAll σs) sv.value := by
  induction σs generalizing vs with
  | nil =>
    cases vs with
    | nil => simp
    | cons => exact h.elim
  | cons σ σs ih =>
    cases vs with
    | nil => simp
    | cons v vs =>
      exact List.forall_mem_cons.2 ⟨Fits.join_left h.1, fun sv hsv => (ih h.2 sv hsv).join_right⟩

/-- Formals are bound to arguments of their shapes. -/
theorem zip {Γ : Shaping} {formals : List String} (h : S.Arguments (formals.map Γ) vs) :
    ∀ b ∈ formals.zip vs, S.Fits (Γ b.1) b.2.value := by
  induction formals generalizing vs with
  | nil => simp
  | cons formal formals ih =>
    cases vs with
    | nil => simp
    | cons v vs =>
      rw [List.zip_cons_cons]
      exact List.forall_mem_cons.2 ⟨h.1, ih h.2⟩

end Setting.Arguments

/-! ### Environments -/

/-- Every name is bound to a value of its shape. -/
def Bindings.Fits (S : Setting) (Γ : Shaping) (env : Bindings) : Prop :=
  ∀ b ∈ env.entries, S.Fits (Γ b.1) b.2.value

variable {Γ : Shaping} {env : Bindings}

namespace Bindings.Fits

variable {out : Bindings} {name : String} {sv : SecValue}

variable (h : env.Fits S Γ)
include h

omit h in
theorem empty : Bindings.Fits S Γ {} := by simp [Bindings.Fits]

theorem of_append {more : List (String × SecValue)} (hmore : ∀ b ∈ more, S.Fits (Γ b.1) b.2.value)
    (hentries : out.entries = env.entries ++ more) : out.Fits S Γ := by
  intro b hb
  rw [hentries] at hb
  exact (List.mem_append.1 hb).elim (h b) (hmore b)

theorem of_subset (hsub : out.entries ⊆ env.entries) : out.Fits S Γ :=
  fun b hb => h b (hsub hb)

theorem without (names : List String) : Bindings.Fits S Γ (env.without names) :=
  h.of_subset (List.filter_subset_self _)

theorem set (hsv : S.Fits (Γ name) sv.value) : Bindings.Fits S Γ (env.set name sv) := by
  intro b hb
  rcases Env.mem_set hb with hold | rfl
  · exact h b hold
  · exact hsv

theorem bind (hsv : S.Fits (Γ name) sv.value) :
    Ends (fun _ => env.bind loc name sv) (Bindings.Fits S Γ) := by
  refine .of_routine (env.bind_routine name sv) fun hrun => ?_
  obtain ⟨_, rfl, _⟩ := Bindings.bind_yields.1 hrun
  exact h.of_append (by simpa using hsv) rfl

theorem bindAll {bindings : List (String × SecValue)}
    (hall : ∀ b ∈ bindings, S.Fits (Γ b.1) b.2.value) :
    Ends (fun _ => env.bindAll loc bindings) (Bindings.Fits S Γ) :=
  .of_routine (env.bindAll_routine bindings) fun hrun =>
    h.of_append hall (Bindings.bindAll_yields hrun).1

theorem merge {overlay : Bindings} (hoverlay : overlay.Fits S Γ) :
    Ends (fun _ => env.merge loc overlay) (Bindings.Fits S Γ) :=
  h.bindAll hoverlay

theorem lookup (name : String) :
    Ends (fun _ => env.lookup loc name) fun sv => S.Fits (Γ name) sv.value :=
  .of_routine (env.lookup_routine name) fun hrun =>
    h _ (Bindings.mem_of_find? (Bindings.lookup_yields.1 hrun).1)

theorem identify (name : String) :
    Ends (fun _ => env.identify loc name) fun sv => S.Fits (Γ name) sv.value := by
  refine (h.lookup name).bind fun sv hsv => ?_
  split
  · split
    · exact .pure hsv
    · exact Ends.freshTag.bind fun _ _ => .pure (.of_tame (.atom rfl))
  · exact .pure hsv

theorem withSender {sender : Option (String × SecValue)}
    (hsender : ∀ b, sender = some b → b.2.value.Tame) :
    Bindings.Fits S Γ (env.withSender sender) := by
  cases sender with
  | none => exact h
  | some b => exact h.set (.of_tame (hsender b rfl))

end Bindings.Fits

/-! ### The two settings -/

/-- Where no protocol goes on. -/
def Mode.isPrivate : Mode → Bool
  | .module | .pureLocal | .localStep => true
  | .step _ | .consensus .. => false

/-- The views that the protocol has of its participants. -/
def Mode.views : Mode → NameMap Bindings
  | .step parties | .consensus _ parties => parties.views
  | .module | .pureLocal | .localStep => {}

/-- At the top level of modules, and inside an `only`. -/
def Setting.privately : Setting where
  admits mode := mode.isPrivate = true
  also _ _ _ := True
  apps _ := True

/-- Anywhere, as long as views bind names to values of their shapes. Apps can be compiled. -/
def Setting.protocol (Γ : Shaping) : Setting where
  admits mode := ∀ e ∈ mode.views.entries, Bindings.Fits .privately Γ e.2
  also := Setting.privately.Applies
  apps a := ∀ loc, Ends (fun fuel => a.compile (evaluator fuel) loc) fun _ => True

theorem Setting.Fits.privately (h : (Setting.protocol Γ).Fits σ v) : Setting.privately.Fits σ v := by
  refine h.imp_right fun h => h.mono fun w hw => hw.imp_right fun hw => hw.imp ?_ fun hw => ?_
  · rintro ⟨loc, tag, a, rfl, _⟩
    exact ⟨loc, tag, a, rfl, trivial⟩
  · cases σ with
    | any => exact hw
    | data => exact hw
    | enumerator => exact hw
    | revealer => exact hw
    | fn =>
      obtain ⟨tag, c, rfl, halso, _⟩ := hw
      exact ⟨tag, c, rfl, trivial, halso⟩

theorem Bindings.Fits.privately (h : env.Fits (.protocol Γ) Γ) : env.Fits .privately Γ :=
  fun b hb => (h b hb).privately

/-! ### Values that act -/

/-- The parts of a timeout have shapes, and are smaller than `n`. -/
structure Timeout.Stores (Γ : Shaping) (n : Nat) (t : Timeout) : Prop where
  delay_lt : sizeOf t.delay < n
  handler_lt : sizeOf t.handler.stmts < n
  delay : (t.delay.use Γ).isSome = true
  handler : t.handler.returnShape Γ = some .data

/-- The parts of a round can be evaluated wherever the round is taken. -/
structure Round.Stores (Γ : Shaping) (n : Nat) (r : Round) : Prop where
  pay {e : Surface.Expr} : r.pay = some e → e.calm = true
  timeout {t : Timeout} : r.timeout = some t → t.Stores Γ n

/-- The value of an expression that acts: it is data, or a construct whose parts are smaller than
`n`. What asks for arguments is the given construct. -/
inductive Value.Acts (S : Setting) (Γ : Shaping) (n : Nat) (construct : Option String) :
    Value → Prop
  | data {v : Value} (h : S.Fits .data v) : Acts S Γ n construct v
  | only {loc : Loc} {tag : Tag} {who : String} (h : construct = some "only") :
    Acts S Γ n construct (.form loc tag (.only who))
  | done {loc : Loc} {tag : Tag} {who : String} {view : Bindings} {result : SecValue}
    (h : view.Fits .privately Γ) : Acts S Γ n construct (.form loc tag (.onlyDone who view result))
  | round {loc : Loc} {tag : Tag} {r : Round} (h : r.Stores Γ n)
    (hstage : ∀ stage, r.stage = some stage → construct = some stage.name) :
    Acts S Γ n construct (.form loc tag (.round r))

/-- The value is used as is known of it. -/
def Use.Holds (S : Setting) (Γ : Shaping) (n : Nat) : Use → Value → Prop
  | .value σ, v => S.Fits σ v
  | .act construct, v => v.Acts S Γ n construct

variable {n n' : Nat} {u : Use}

theorem Round.Stores.mono {r : Round} (h : r.Stores Γ n) (hle : n ≤ n') : r.Stores Γ n' where
  pay := h.pay
  timeout ht :=
    have ht := h.timeout ht
    ⟨Nat.lt_of_lt_of_le ht.delay_lt hle, Nat.lt_of_lt_of_le ht.handler_lt hle, ht.delay, ht.handler⟩

namespace Use.Holds

theorem mono (h : u.Holds S Γ n v) (hle : n ≤ n') : u.Holds S Γ n' v := by
  cases u with
  | value => exact h
  | act =>
    cases h with
    | data h => exact .data h
    | only h => exact .only h
    | done h => exact .done h
    | round h hstage => exact .round (h.mono hle) hstage

theorem fits (h : u.Holds S Γ n v) : S.Fits u.shape v := by
  cases u with
  | value => exact h
  | act => exact .any

theorem of_data (h : S.Fits .data v) : u.Holds S Γ n v := by
  cases u with
  | value => exact .of_data h
  | act => exact .data h

theorem of_tame (h : v.Tame) : u.Holds S Γ n v := of_data (.of_tame h)

end Use.Holds

end Choreography
