import Choreography.Proofs.Identities
import Choreography.Proofs.Delimitation
import Choreography.Proofs.Padding

/-!
Values and code of two runs that are compared. They are built in the same way, identities and numbers
included. Where levels vary, each level in the second run is at least as secret as the corresponding
level in the first: levels stand at bindings, at the fields of objects, and in the environments that
closures, apps and finished private computations hold. Where padding varies, the text that values hold
does, in functions, apps and rounds; then there is nothing but a list to tell where control falls off
its end, so the places of nulls and of ways out are not compared.

A computation tracks another one, which may go as deep as it needs, when their results are related and
they draw the same numbers. Raising levels may turn a result into a fault. Padding may not, so there
each result of the first is followed by a result of the second.
-/

namespace Choreography

open Eval Ir

/-! ### Levels -/

/-- Whatever was secret is secret. -/
instance : LE Level := ⟨fun l l' => l = .secret → l' = .secret⟩

namespace Level

variable {l l' m m' : Level}

@[simp] theorem le_refl (l : Level) : l ≤ l := fun h => h

theorem pub_le (l : Level) : .pub ≤ l := fun h => by cases h

theorem meet_eq_secret : l.meet m = .secret ↔ l = .secret ∨ m = .secret := by
  cases l <;> simp [meet]

theorem meet_mono (h : l ≤ l') (h' : m ≤ m') : l.meet m ≤ l'.meet m' := by
  intro hsecret
  rw [meet_eq_secret] at hsecret ⊢
  exact hsecret.imp h h'

end Level

namespace Variation

/-- How a level of the second run is related to that of the first. -/
def Rises : Variation → Level → Level → Prop
  | .levels, l, l' => l ≤ l'
  | .padding, l, l' => l = l'

variable {V : Variation} {l l' m m' : Level}

theorem rises_refl (l : Level) : V.Rises l l := by
  cases V with
  | levels => exact Level.le_refl l
  | padding => rfl

theorem Rises.secret (h : V.Rises .secret l) : l = .secret := by
  cases V with
  | levels => exact h rfl
  | padding => exact h.symm

theorem Rises.levels (h : V.Rises .pub .secret) : V = .levels := by
  cases V with
  | levels => rfl
  | padding => cases h

theorem Rises.meet (h : V.Rises l l') (h' : V.Rises m m') : V.Rises (l.meet m) (l'.meet m') := by
  cases V with
  | levels => exact Level.meet_mono h h'
  | padding =>
    cases h
    cases h'
    rfl

theorem Rises.meetAll {ls ls' : List Level} (h : List.Forall₂ V.Rises ls ls') :
    V.Rises (Level.meetAll ls) (Level.meetAll ls') := by
  have hfold : ∀ {ls ls' : List Level}, List.Forall₂ V.Rises ls ls' → ∀ {l l' : Level},
      V.Rises l l' → V.Rises (ls.foldl Level.meet l) (ls'.foldl Level.meet l') := by
    intro ls ls' h
    induction h with
    | nil => exact fun hl => hl
    | cons hfirst _ ih => exact fun hl => ih (hl.meet hfirst)
  exact hfold h (rises_refl _)

end Variation

variable {V : Variation}

/-! ### Values -/

/-- The primitive that holds environments. -/
def Prim.isApp : Prim → Bool
  | .app .. => true
  | .op _ | .claim _ | .interact .. | .declassify | .commit | .committed | .digest | .transfer
  | .transferTo .. | .exit | .exited | .arrayType | .tupleType | .objectType | .funType
  | .makeEnum => false

inductive Timeout.Like (V : Variation) : Timeout → Timeout → Prop
  | mk {loc : Loc} {delay delay' : Surface.Expr} {handler handler' : Surface.Block}
    (hdelay : delay.Like V delay') (hhandler : handler.Like V handler') :
    Like V ⟨loc, delay, handler⟩ ⟨loc, delay', handler'⟩

inductive Round.Like (V : Variation) : Round → Round → Prop
  | mk {who : String} {displayName : Option String} {stage : Option Stage}
    {publish : Option (List String)} {pay pay' : Option Surface.Expr}
    {timeout timeout' : Option Timeout} (hpay : Option.Rel (Surface.Expr.Like V) pay pay')
    (htimeout : Option.Rel (Timeout.Like V) timeout timeout') :
    Like V ⟨who, displayName, stage, publish, pay, timeout⟩
      ⟨who, displayName, stage, publish, pay', timeout'⟩

theorem Option.rel_refl {α : Type} {R : α → α → Prop} (h : ∀ a, R a a) (o : Option α) :
    Option.Rel R o o := by
  cases o with
  | none => exact .none
  | some a => exact .some (h a)

theorem Round.Like.refl (r : Round) : r.Like V r :=
  .mk (Option.rel_refl Surface.Expr.Like.refl _)
    (Option.rel_refl (fun _ => .mk (Surface.Expr.Like.refl _) (Surface.Block.Like.refl _)) _)

mutual

/-- Values that are built in the same way. Where levels vary, the fields of objects have distinct
names. -/
inductive Value.Like (V : Variation) : Value → Value → Prop
  | null {loc loc' : Loc} (h : V = .levels → loc = loc') : Value.Like V (.null loc) (.null loc')
  | bool {loc : Loc} {b : Bool} : Value.Like V (.bool loc b) (.bool loc b)
  | int {loc : Loc} {n : Int} : Value.Like V (.int loc n) (.int loc n)
  | bytes {loc : Loc} {s : String} : Value.Like V (.bytes loc s) (.bytes loc s)
  | type {loc : Loc} {t : Ty} : Value.Like V (.type loc t) (.type loc t)
  | participant {tag : Tag} {p : Participant} : Value.Like V (.participant tag p) (.participant tag p)
  | var {v : Var} : Value.Like V (.var v) (.var v)
  | prim {loc : Loc} {p : Prim} (h : p.isApp = false) : Value.Like V (.prim loc p) (.prim loc p)
  | app {loc : Loc} {tag : Tag} {options options' env env' : Bindings} {parts : List Participant}
    {body body' : Surface.Block} (hoptions : Bindings.Like V options options')
    (hbody : body.Like V body') (henv : Bindings.Like V env env') :
    Value.Like V (.prim loc (.app tag ⟨options, parts, body, env⟩))
      (.prim loc (.app tag ⟨options', parts, body', env'⟩))
  | appForm {loc : Loc} {tag : Tag} : Value.Like V (.form loc tag .app) (.form loc tag .app)
  | only {loc : Loc} {tag : Tag} {who : String} :
    Value.Like V (.form loc tag (.only who)) (.form loc tag (.only who))
  | round {loc : Loc} {tag : Tag} {r r' : Round} (h : r.Like V r') :
    Value.Like V (.form loc tag (.round r)) (.form loc tag (.round r'))
  | onlyDone {loc : Loc} {tag : Tag} {who : String} {view view' : Bindings}
    {result result' : SecValue} (hview : Bindings.Like V view view')
    (hresult : SecValue.Like V result result') :
    Value.Like V (.form loc tag (.onlyDone who view result))
      (.form loc tag (.onlyDone who view' result'))
  | tuple {loc : Loc} {elems elems' : List Value} (h : List.Forall₂ (Value.Like V) elems elems') :
    Value.Like V (.tuple loc elems) (.tuple loc elems')
  | object {loc : Loc} {fields fields' : Bindings} (hdistinct : V = .levels → fields.Distinct)
    (h : Bindings.Like V fields fields') : Value.Like V (.object loc fields) (.object loc fields')
  | closure {tag : Tag} {loc : Loc} {name : Option String} {formals : List String}
    {body body' : Surface.Block} {env env' : Bindings} (hbody : body.Like V body')
    (henv : Bindings.Like V env env') :
    Value.Like V (.closure tag ⟨loc, name, formals, body, env⟩)
      (.closure tag ⟨loc, name, formals, body', env'⟩)

inductive SecValue.Like (V : Variation) : SecValue → SecValue → Prop
  | mk {level level' : Level} {v v' : Value} (hlevel : V.Rises level level')
    (h : Value.Like V v v') : SecValue.Like V ⟨level, v⟩ ⟨level', v'⟩

inductive Binding.Like (V : Variation) : String × SecValue → String × SecValue → Prop
  | mk {name : String} {sv sv' : SecValue} (h : SecValue.Like V sv sv') :
    Binding.Like V (name, sv) (name, sv')

inductive Bindings.Like (V : Variation) : Bindings → Bindings → Prop
  | mk {entries entries' : List (String × SecValue)}
    (h : List.Forall₂ (Binding.Like V) entries entries') : Bindings.Like V ⟨entries⟩ ⟨entries'⟩

end

namespace SecValue.Like

variable {sv sv' : SecValue}

theorem value (h : sv.Like V sv') : sv.value.Like V sv'.value := by
  cases h with
  | mk _ h => exact h

theorem level (h : sv.Like V sv') : V.Rises sv.level sv'.level := by
  cases h with
  | mk hlevel _ => exact hlevel

theorem taint {l l' : Level} (h : sv.Like V sv') (hl : V.Rises l l') :
    SecValue.Like V (sv.taint l) (sv'.taint l') :=
  .mk (hl.meet h.level) h.value

theorem pub {v v' : Value} (h : v.Like V v') : SecValue.Like V (.pub v) (.pub v') :=
  .mk (Variation.rises_refl _) h

end SecValue.Like

theorem levelOf_like {svs svs' : List SecValue} (h : List.Forall₂ (SecValue.Like V) svs svs') :
    V.Rises (Labelled.levelOf svs) (Labelled.levelOf svs') := by
  refine .meetAll ?_
  rw [List.forall₂_map_left_iff, List.forall₂_map_right_iff]
  exact h.imp fun _ _ hsv => hsv.level

theorem values_like {svs svs' : List SecValue} (h : List.Forall₂ (SecValue.Like V) svs svs') :
    List.Forall₂ (Value.Like V) (svs.map (·.value)) (svs'.map (·.value)) := by
  rw [List.forall₂_map_left_iff, List.forall₂_map_right_iff]
  exact h.imp fun _ _ hsv => hsv.value

/-! ### Types of values -/

namespace Value

mutual

theorem typed?_like : ∀ v v' : Value, v.Like V v' → v.typed? = v'.typed?
  | .tuple _ elems, _, h => by
    cases h with
    | tuple h => simp only [typed?, typedList?_like elems _ h]
  | .object _ ⟨fields⟩, _, h => by
    cases h with
    | object _ h =>
      cases h with
      | mk h => simp only [typed?, typedFields?_like fields _ h]
  | .null _, _, h | .bool .., _, h | .int .., _, h | .bytes .., _, h | .type .., _, h
  | .participant .., _, h | .var _, _, h | .prim .., _, h | .form .., _, h | .closure .., _, h => by
    cases h <;> simp only [typed?, Prim.typed?]

theorem typedList?_like : ∀ vs vs' : List Value, List.Forall₂ (Like V) vs vs' →
    typedList? vs = typedList? vs'
  | [], _, h => by
    cases h
    rfl
  | v :: vs, _, h => by
    cases h with
    | cons hv hvs => simp only [typedList?, typed?_like v _ hv, typedList?_like vs _ hvs]

theorem typedFields?_like : ∀ fields fields' : List (String × Labelled Value),
    List.Forall₂ (Binding.Like V) fields fields' → typedFields? fields = typedFields? fields'
  | [], _, h => by
    cases h
    rfl
  | (name, ⟨level, v⟩) :: fields, _, h => by
    cases h with
    | cons hb hfields =>
      cases hb with
      | mk hsv =>
        cases hsv with
        | mk _ hv => simp only [typedFields?, typed?_like v _ hv, typedFields?_like fields _ hfields]

end

variable {v v' : Value}

theorem Like.typed?_eq (h : v.Like V v') : v.typed? = v'.typed? := typed?_like v v' h

theorem Like.kindName_eq (h : v.Like V v') : v.kindName = v'.kindName := by
  cases h <;> rfl

theorem Like.describe_eq (h : v.Like V v') : v.describe = v'.describe := by
  simp only [describe, h.typed?_eq, h.kindName_eq]

theorem Like.condition?_eq (h : v.Like V v') : v.condition? = v'.condition? := by
  cases h <;> rfl

end Value

/-! ### Environments -/

namespace Bindings.Like

variable {env env' other other' : Bindings} {name : String} {sv sv' : SecValue}

variable (h : env.Like V env')
include h

theorem entries : List.Forall₂ (Binding.Like V) env.entries env'.entries := by
  cases h with
  | mk h => exact h

omit h in
theorem empty : Bindings.Like V {} {} := .mk .nil

theorem distinct (hdistinct : env.Distinct) : env'.Distinct := by
  have hnames : env.entries.map (·.1) = env'.entries.map (·.1) := by
    obtain ⟨h⟩ := h
    induction h with
    | nil => rfl
    | cons hb _ ih =>
      cases hb with
      | mk _ => simpa using ih (List.nodup_cons.1 hdistinct).2
  rw [Env.Distinct, ← hnames]
  exact hdistinct

theorem find? (name : String) :
    Option.Rel (SecValue.Like V) (env.find? name) (env'.find? name) := by
  obtain ⟨h⟩ := h
  unfold Env.find?
  induction h with
  | nil => exact .none
  | cons hb _ ih =>
    cases hb with
    | @mk first _ _ hsv =>
      by_cases heq : name = first
      · subst heq
        simpa using Option.Rel.some hsv
      · have hne : (name == first) = false := by simpa using heq
        simpa only [List.lookup_cons, hne] using ih

theorem contains_eq (name : String) : env.contains name = env'.contains name := by
  have hfind := h.find? name
  unfold Env.contains
  revert hfind
  generalize env.find? name = found
  generalize env'.find? name = found'
  rintro (_ | _) <;> rfl

theorem push (hsv : sv.Like V sv') : Bindings.Like V (env.push name sv) (env'.push name sv') :=
  .mk (List.rel_append h.entries (.cons (.mk hsv) .nil))

theorem filter (keep keep' : String → Bool) (hkeep : ∀ x, keep x = keep' x) :
    Bindings.Like V ⟨env.entries.filter fun b => keep b.1⟩
      ⟨env'.entries.filter fun b => keep' b.1⟩ := by
  obtain ⟨h⟩ := h
  refine .mk ?_
  induction h with
  | nil => exact .nil
  | cons hb _ ih =>
    cases hb with
    | @mk first _ _ hsv =>
      simp only [List.filter_cons, hkeep first]
      split
      · exact .cons (.mk hsv) ih
      · exact ih

theorem without (names : List String) : Bindings.Like V (env.without names) (env'.without names) :=
  h.filter (fun x => !names.contains x) _ fun _ => rfl

theorem difference (hother : other.Like V other') :
    Bindings.Like V (env.difference other) (env'.difference other') :=
  h.filter (fun x => !other.contains x) (fun x => !other'.contains x)
    fun x => by rw [hother.contains_eq]

theorem set (hsv : sv.Like V sv') : Bindings.Like V (env.set name sv) (env'.set name sv') :=
  (h.without [name]).push hsv

omit h in
theorem of_forall (h : ∀ b ∈ env.entries, SecValue.Like V b.2 b.2) : env.Like V env := by
  refine .mk (List.forall₂_same.2 fun b hb => ?_)
  exact .mk (h b hb)

end Bindings.Like

/-! ### Sameness -/

theorem Prim.same_self (p : Prim) : p.same p = true := by
  cases p <;> simp [Prim.same]

/-- Apps are compared by identity. -/
theorem Prim.same_app (p : Prim) (tag : Tag) (a a' : App) :
    p.same (.app tag a) = p.same (.app tag a') ∧
      Prim.same (.app tag a) p = Prim.same (.app tag a') p := by
  cases p <;> exact ⟨rfl, rfl⟩

namespace Value

mutual

/-- What levels vary in is the same as itself in both runs. -/
theorem same_self_like : ∀ v v' : Value, v.Like .levels v' → v.same v = true ∧ v'.same v' = true
  | .tuple _ elems, _, h => by
    cases h with
    | tuple h => simpa only [same] using sameList_self_like elems _ h
  | .object _ ⟨fields⟩, _, h => by
    cases h with
    | object hdistinct h =>
      have hdistinct := hdistinct rfl
      have hdistinct' := h.distinct hdistinct
      cases h with
      | @mk _ fields' h =>
        have hfields := sameFields_self_like fields fields' h ⟨fields⟩ ⟨fields'⟩
          (fun b hb => hdistinct.find?_of_mem hb) (fun b hb => hdistinct'.find?_of_mem hb)
        simp [same, Env.size, hfields]
  | .null _, _, h | .bool .., _, h | .int .., _, h | .bytes .., _, h | .type .., _, h
  | .participant .., _, h | .var _, _, h | .form .., _, h | .closure .., _, h => by
    cases h <;> simp [same]
  | .prim _ p, _, h => by
    cases h <;> simp [same, Prim.same_self]

theorem sameList_self_like : ∀ vs vs' : List Value, List.Forall₂ (Like .levels) vs vs' →
    sameList vs vs = true ∧ sameList vs' vs' = true
  | [], _, h => by
    cases h
    simp [sameList]
  | v :: vs, _, h => by
    cases h with
    | cons hv hvs =>
      have hfirst := same_self_like v _ hv
      have hrest := sameList_self_like vs _ hvs
      simp [sameList, hfirst, hrest]

/-- Fields are the same as those that another environment binds to their names. -/
theorem sameFields_self_like : ∀ fields fields' : List (String × Labelled Value),
    List.Forall₂ (Binding.Like .levels) fields fields' → ∀ other other' : Bindings,
      (∀ b ∈ fields, other.find? b.1 = some b.2) → (∀ b ∈ fields', other'.find? b.1 = some b.2) →
      sameFields fields other = true ∧ sameFields fields' other' = true
  | [], _, h => by
    cases h
    simp [sameFields]
  | (name, ⟨level, v⟩) :: fields, _, h => by
    cases h with
    | cons hb hfields =>
      cases hb with
      | mk hsv =>
        cases hsv with
        | mk _ hv =>
          intro other other' hother hother'
          obtain ⟨hfirst, hothers⟩ := List.forall_mem_cons.1 hother
          obtain ⟨hfirst', hothers'⟩ := List.forall_mem_cons.1 hother'
          have hsame := same_self_like v _ hv
          have hrest := sameFields_self_like fields _ hfields other other' hothers hothers'
          simp [sameFields, hfirst, hfirst', hsame, hrest]

end

mutual

/-- Padding does not show in sameness. -/
theorem same_like : ∀ v v' w w' : Value, v.Like .padding v' → w.Like .padding w' →
    v.same w = v'.same w'
  | .tuple _ elems, _, w, w', hv, hw => by
    cases hv with
    | tuple h =>
      cases hw with
      | tuple h' => simp only [same, sameList_like elems _ _ _ h h']
      | _ => simp only [same]
  | .object _ ⟨fields⟩, _, w, w', hv, hw => by
    cases hv with
    | object _ h =>
      cases h with
      | mk h =>
        cases hw with
        | object _ h' =>
          simp only [same, Env.size, h.length_eq, h'.entries.length_eq,
            sameFields_like fields _ _ _ h h']
        | _ => simp only [same]
  | .null _, _, w, w', hv, hw | .bool .., _, w, w', hv, hw | .int .., _, w, w', hv, hw
  | .bytes .., _, w, w', hv, hw | .type .., _, w, w', hv, hw | .participant .., _, w, w', hv, hw
  | .var _, _, w, w', hv, hw | .form .., _, w, w', hv, hw | .closure .., _, w, w', hv, hw => by
    cases hv <;> cases hw <;> simp only [same]
  | .prim _ p, _, w, w', hv, hw => by
    cases hv with
    | prim =>
      cases hw with
      | app => simpa only [same] using (Prim.same_app p _ _ _).1
      | _ => simp only [same]
    | app =>
      cases hw with
      | @prim _ q => simpa only [same] using (Prim.same_app q _ _ _).2
      | _ => simp only [same, Prim.same]

theorem sameList_like : ∀ vs vs' ws ws' : List Value, List.Forall₂ (Like .padding) vs vs' →
    List.Forall₂ (Like .padding) ws ws' → sameList vs ws = sameList vs' ws'
  | [], _, _, _, h, h' => by
    cases h
    cases h' <;> simp only [sameList]
  | v :: vs, _, _, _, h, h' => by
    cases h with
    | cons hv hvs =>
      cases h' with
      | nil => simp only [sameList]
      | cons hw hws => simp only [sameList, same_like v _ _ _ hv hw, sameList_like vs _ _ _ hvs hws]

theorem sameFields_like : ∀ (fields fields' : List (String × Labelled Value))
    (other other' : Bindings), List.Forall₂ (Binding.Like .padding) fields fields' →
      other.Like .padding other' → sameFields fields other = sameFields fields' other'
  | [], _, _, _, h, _ => by
    cases h
    simp only [sameFields]
  | (name, ⟨level, v⟩) :: fields, _, other, other', h, hother => by
    cases h with
    | cons hb hfields =>
      cases hb with
      | mk hsv =>
        cases hsv with
        | mk hlevel hv =>
          cases hlevel
          have hfind := hother.find? name
          simp only [sameFields, sameFields_like fields _ _ _ hfields hother]
          generalize other.find? name = found at hfind ⊢
          generalize other'.find? name = found' at hfind ⊢
          cases hfind with
          | none => rfl
          | some hfound =>
            cases hfound with
            | mk hlevel hw =>
              cases hlevel
              simp only [same_like v _ _ _ hv hw]

end

end Value

/-! ### Code -/

namespace Ir

mutual

/-- Statements that are the same, but for what may vary in the values that they return. -/
inductive Stmt.Like (V : Variation) : Stmt → Stmt → Prop
  | letIn {loc : Loc} {v : Var} {e : Expr} : Stmt.Like V (.letIn loc v e) (.letIn loc v e)
  | claim {loc : Loc} {frames : List Frame} {c : Claim} {a : Arg} :
    Stmt.Like V (.claim loc frames c a) (.claim loc frames c a)
  | transfer {loc : Loc} {frames : List Frame} {recipient amount : Arg} :
    Stmt.Like V (.transfer loc frames recipient amount) (.transfer loc frames recipient amount)
  | stop {loc : Loc} {frames : List Frame} : Stmt.Like V (.stop loc frames) (.stop loc frames)
  | ret {loc : Loc} {slot : Nat} {v v' : Value} (h : v.Like V v') :
    Stmt.Like V (.ret loc slot (some v)) (.ret loc slot (some v'))
  | prompt {loc : Loc} {slot : Nat} {result : Option Var} {body body' : Code}
    (h : List.Forall₂ (Stmt.Like V) body body') :
    Stmt.Like V (.prompt loc slot result body) (.prompt loc slot result body')
  | branch {loc : Loc} {cond : Arg} {onTrue onTrue' onFalse onFalse' : Code}
    (ht : List.Forall₂ (Stmt.Like V) onTrue onTrue')
    (hf : List.Forall₂ (Stmt.Like V) onFalse onFalse') :
    Stmt.Like V (.branch loc cond onTrue onFalse) (.branch loc cond onTrue' onFalse')
  | only {loc : Loc} {who : String} {body body' : Code}
    (h : List.Forall₂ (Stmt.Like V) body body') :
    Stmt.Like V (.only loc who body) (.only loc who body')
  | toConsensus {loc : Loc} {who : String} {join : Bool} {whoVar : Var}
    {messages : List (Arg × Var)} {amount : Arg} {timeout timeout' : Option Deadline}
    {body body' : Code} (htimeout : Option.Rel (Deadline.Like V) timeout timeout')
    (h : List.Forall₂ (Stmt.Like V) body body') :
    Stmt.Like V (.toConsensus loc ⟨who, join, whoVar, messages, amount, timeout, body⟩)
      (.toConsensus loc ⟨who, join, whoVar, messages, amount, timeout', body'⟩)
  | fromConsensus {loc : Loc} {body body' : Code} (h : List.Forall₂ (Stmt.Like V) body body') :
    Stmt.Like V (.fromConsensus loc body) (.fromConsensus loc body')
  | loop {loc : Loc} {init : Assignment} {invariant invariant' cond cond' : Block}
    {body body' : Code} (hinvariant : Block.Like V invariant invariant')
    (hcond : Block.Like V cond cond') (h : List.Forall₂ (Stmt.Like V) body body') :
    Stmt.Like V (.loop loc init invariant cond body) (.loop loc init invariant' cond' body')
  | cont {loc : Loc} {a : Assignment} : Stmt.Like V (.cont loc a) (.cont loc a)

inductive Deadline.Like (V : Variation) : Deadline → Deadline → Prop
  | mk {delay : Arg} {body body' : Code} (h : List.Forall₂ (Stmt.Like V) body body') :
    Deadline.Like V ⟨delay, body⟩ ⟨delay, body'⟩

inductive Block.Like (V : Variation) : Block → Block → Prop
  | mk {loc : Loc} {frames : List Frame} {code code' : Code} {result : Arg}
    (h : List.Forall₂ (Stmt.Like V) code code') :
    Block.Like V ⟨loc, frames, code, result⟩ ⟨loc, frames, code', result⟩

end

/-- Code that is the same, but for what may vary in the values that it returns. -/
abbrev Code.Like (V : Variation) (code code' : Code) : Prop := List.Forall₂ (Stmt.Like V) code code'

variable {s s' : Stmt} {code code' rest rest' : Code}

theorem Code.Like.append (h : code.Like V code') (hrest : rest.Like V rest') :
    Code.Like V (code ++ rest) (code' ++ rest') :=
  List.rel_append h hrest

theorem Code.Like.single (h : s.Like V s') : Code.Like V [s] [s'] := .cons h .nil

mutual

theorem Stmt.isPure_like : ∀ s s' : Stmt, s.Like V s' → s.isPure = s'.isPure
  | .branch _ _ onTrue onFalse, _, h => by
    cases h with
    | branch ht hf =>
      simp only [Stmt.isPure, codeIsPure_like onTrue _ ht, codeIsPure_like onFalse _ hf]
  | .prompt _ _ _ body, _, h => by
    cases h with
    | prompt h => simp only [Stmt.isPure, codeIsPure_like body _ h]
  | .letIn .., _, h | .claim .., _, h | .transfer .., _, h | .stop .., _, h | .ret .., _, h
  | .only .., _, h | .toConsensus .., _, h | .fromConsensus .., _, h | .loop .., _, h
  | .cont .., _, h => by
    cases h
    simp only [Stmt.isPure]

theorem codeIsPure_like : ∀ code code' : List Stmt, List.Forall₂ (Stmt.Like V) code code' →
    codeIsPure code = codeIsPure code'
  | [], _, h => by
    cases h
    rfl
  | s :: rest, _, h => by
    cases h with
    | cons hs hrest => simp only [codeIsPure, Stmt.isPure_like s _ hs, codeIsPure_like rest _ hrest]

end

end Ir

/-! ### Contexts, scopes and results -/

/-- Private views of the same participants. -/
def Views.Like (V : Variation) (views views' : NameMap Bindings) : Prop :=
  List.Forall₂ (fun e e' => e.1 = e'.1 ∧ Bindings.Like V e.2 e'.2) views.entries views'.entries

inductive Mode.Like (V : Variation) : Mode → Mode → Prop
  | module : Like V .module .module
  | step {joined : NameMap Var} {views views' : NameMap Bindings} (h : Views.Like V views views') :
    Like V (.step ⟨joined, views⟩) (.step ⟨joined, views'⟩)
  | pureLocal : Like V .pureLocal .pureLocal
  | localStep : Like V .localStep .localStep
  | consensus {opened opened' : Bindings} {joined : NameMap Var} {views views' : NameMap Bindings}
    (hopened : opened.Like V opened') (h : Views.Like V views views') :
    Like V (.consensus opened ⟨joined, views⟩) (.consensus opened' ⟨joined, views'⟩)

inductive Ctx.Like (V : Variation) : Ctx → Ctx → Prop
  | mk {mode mode' : Mode} {canLift : Bool} {frames : List Frame} {localNames : Option (List String)}
    (h : mode.Like V mode') :
    Like V ⟨mode, canLift, frames, localNames⟩ ⟨mode', canLift, frames, localNames⟩

inductive Scope.Like (V : Variation) : Scope → Scope → Prop
  | mk {slot : Option Nat} {style : ReturnStyle} {env env' : Bindings}
    {loopVars : Option (NameMap Var)} (h : env.Like V env') :
    Like V ⟨slot, style, env, loopVars⟩ ⟨slot, style, env', loopVars⟩

theorem Scope.Like.env {scope scope' : Scope} (h : scope.Like V scope') :
    scope.env.Like V scope'.env := by
  cases h with
  | mk h => exact h

structure Lifted.Like {α β : Type} (V : Variation) (R : α → β → Prop) (r : Lifted α)
    (r' : Lifted β) : Prop where
  code : r.code.Like V r'.code
  value : R r.value r'.value

structure Exit.Like (V : Variation) (exit exit' : Exit) : Prop where
  place : V = .levels → exit.loc = exit'.loc
  value : exit.value.Like V exit'.value

structure Outcome.Like (V : Variation) (o o' : Outcome) : Prop where
  env : o.env.Like V o'.env
  exits : List.Forall₂ (Exit.Like V) o.exits o'.exits

structure Applied.Like (V : Variation) (a a' : Applied) : Prop where
  env : a.env.Like V a'.env
  value : a.value.Like V a'.value

theorem Lifted.Like.plain {α β : Type} {R : α → β → Prop} {a : α} {b : β} (h : R a b) :
    Lifted.Like V R (.plain a) (.plain b) :=
  ⟨.nil, h⟩

theorem Lifted.Like.after {α β : Type} {R : α → β → Prop} {code code' : Code} {r : Lifted α}
    {r' : Lifted β} (h : r.Like V R r') (hcode : code.Like V code') :
    Lifted.Like V R (r.after code) (r'.after code') :=
  ⟨hcode.append h.code, h.value⟩

namespace Views.Like

variable {views views' : NameMap Bindings} {env env' : Bindings}

theorem get? (h : Views.Like V views views') (who : String) :
    Option.Rel (Bindings.Like V) (views.get? who) (views'.get? who) := by
  obtain ⟨entries⟩ := views
  obtain ⟨entries'⟩ := views'
  unfold OrderedMap.get?
  simp only [Views.Like] at h
  induction h with
  | nil => exact .none
  | @cons e e' _ _ he _ ih =>
    rw [List.find?_cons, List.find?_cons, he.1]
    split
    · exact .some he.2
    · exact ih

theorem insert (h : Views.Like V views views') (who : String) (henv : env.Like V env') :
    Views.Like V (views.insert who env) (views'.insert who env') := by
  obtain ⟨entries⟩ := views
  obtain ⟨entries'⟩ := views'
  simp only [Views.Like, OrderedMap.insert] at h ⊢
  induction h with
  | nil => exact .cons ⟨rfl, henv⟩ .nil
  | @cons e e' _ _ he hrest ih =>
    obtain ⟨name, view⟩ := e
    obtain ⟨_, view'⟩ := e'
    obtain ⟨rfl, hview⟩ := he
    simp only [OrderedMap.place]
    split
    · exact .cons ⟨rfl, henv⟩ hrest
    · split
      · exact .cons ⟨rfl, henv⟩ (.cons ⟨rfl, hview⟩ hrest)
      · exact .cons ⟨rfl, hview⟩ ih

end Views.Like

/-! ### Lists of related values -/

theorem forall₂_getElem? {α β : Type} {R : α → β → Prop} {as : List α} {bs : List β}
    (h : List.Forall₂ R as bs) : ∀ i : Nat, Option.Rel R as[i]? bs[i]? := by
  induction h with
  | nil => exact fun _ => .none
  | cons hab _ ih =>
    intro i
    cases i with
    | zero => exact .some hab
    | succ i => exact ih i

theorem forall₂_getLast? {α β : Type} {R : α → β → Prop} {as : List α} {bs : List β}
    (h : List.Forall₂ R as bs) : Option.Rel R as.getLast? bs.getLast? := by
  rw [List.getLast?_eq_getElem?, List.getLast?_eq_getElem?, h.length_eq]
  exact forall₂_getElem? h _

theorem forall₂_dropLast {α β : Type} {R : α → β → Prop} {as : List α} {bs : List β}
    (h : List.Forall₂ R as bs) : List.Forall₂ R as.dropLast bs.dropLast := by
  rw [List.dropLast_eq_take, List.dropLast_eq_take, h.length_eq]
  exact List.forall₂_take _ h

/-! ### Computations that track others -/

namespace Eval

variable {α β γ δ : Type}

/-- Where both computations have a result from one supply, the results are related and one supply is
left. If padding is what varies, each result of `x` is followed by one of `y`, the same from some depth
on. -/
structure Tracks (V : Variation) (R : α → β → Prop) (x : Eval α) (y : Nat → Eval β) : Prop where
  agree {fuel : Nat} {s s₁ s₂ : Supply} {a : α} {b : β} : x.Yields s a s₁ →
    (y fuel).Yields s b s₂ → R a b ∧ s₁ = s₂
  follows {s s' : Supply} {a : α} : V = .padding → x.Yields s a s' →
    ∃ b depth, ∀ fuel, depth ≤ fuel → (y fuel).Yields s b s'

namespace Tracks

variable {R : α → β → Prop} {Q : γ → δ → Prop} {x : Eval α} {y : Nat → Eval β}

theorem pure {a : α} {b : β} (h : R a b) : Tracks V R (Pure.pure a) (fun _ => Pure.pure b) := by
  refine ⟨fun hx hy => ?_, fun _ hx => ?_⟩
  · obtain ⟨rfl, rfl⟩ := yields_pure.1 hx
    obtain ⟨rfl, rfl⟩ := yields_pure.1 hy
    exact ⟨h, rfl⟩
  · obtain ⟨rfl, rfl⟩ := yields_pure.1 hx
    exact ⟨b, 0, fun _ _ => yields_pure.2 ⟨rfl, rfl⟩⟩

theorem bind {f : α → Eval γ} {g : Nat → β → Eval δ} (h : Tracks V R x y)
    (hrest : ∀ a b, R a b → Tracks V Q (f a) (fun fuel => g fuel b)) :
    Tracks V Q (x >>= f) (fun fuel => y fuel >>= g fuel) := by
  refine ⟨fun hx hy => ?_, fun hV hrun => ?_⟩
  · obtain ⟨a, _, hx, hf⟩ := yields_bind.1 hx
    obtain ⟨b, _, hy, hg⟩ := yields_bind.1 hy
    obtain ⟨hab, rfl⟩ := h.agree hx hy
    exact (hrest a b hab).agree hf hg
  · obtain ⟨a, middle, hx, hf⟩ := yields_bind.1 hrun
    obtain ⟨b, depth, hy⟩ := h.follows hV hx
    have hab := (h.agree hx (hy depth (Nat.le_refl _))).1
    obtain ⟨d, depth', hg⟩ := (hrest a b hab).follows hV hf
    refine ⟨d, max depth depth', fun fuel hfuel => yields_bind.2 ⟨b, middle, ?_, ?_⟩⟩
    · exact hy fuel (by omega)
    · exact hg fuel (by omega)

/-- What never gives a result tracks anything. -/
theorem of_fails (h : x.Fails) : Tracks V R x y :=
  ⟨fun hx _ => absurd hx (h _ _ _), fun _ hx => absurd hx (h _ _ _)⟩

theorem fail {f : Fault} : Tracks V R (Eval.fail f) y := of_fails fails_fail

/-- Higher levels may lead to a fault. -/
theorem fail_right {f : Fault} (hV : V = .levels) : Tracks V R x (fun _ => Eval.fail f) := by
  subst hV
  refine ⟨fun _ hy => ?_, fun hV => ?_⟩
  · simp at hy
  · cases hV

/-- Related results are results of runs. -/
theorem with_runs (h : Tracks V R x y) : Tracks V (fun a b => R a b ∧
    (∃ s s', x.Yields s a s') ∧ ∃ fuel s s', (y fuel).Yields s b s') x y := by
  refine ⟨fun hx hy => ?_, h.follows⟩
  obtain ⟨hab, hs⟩ := h.agree hx hy
  exact ⟨⟨hab, ⟨_, _, hx⟩, ⟨_, _, _, hy⟩⟩, hs⟩

/-- A computation tracks itself. -/
theorem same (x : Eval α) : Tracks V Eq x (fun _ => x) :=
  ⟨fun hx hy => hx.unique hy, fun _ hx => ⟨_, 0, fun _ _ => hx⟩⟩

theorem ensure {c c' : Bool} {f f' : Fault} (h : c = c') :
    Tracks V (fun _ _ => c = true) (Eval.ensure c f) (fun _ => Eval.ensure c' f') := by
  subst h
  cases c with
  | true => exact pure rfl
  | false => exact fail

theorem orFail {o : Option α} {o' : Option β} {f f' : Fault} (h : Option.Rel R o o') :
    Tracks V R (Eval.orFail o f) (fun _ => Eval.orFail o' f') := by
  cases h with
  | some h => exact pure h
  | none => exact fail

theorem orFail_eq {o o' : Option α} {f f' : Fault} (h : o = o') :
    Tracks V Eq (Eval.orFail o f) (fun _ => Eval.orFail o' f') := by
  subst h
  cases o with
  | some a => exact pure rfl
  | none => exact fail

/-- One level of depth more or less makes no difference. -/
theorem of_succ (hzero : (y 0).Fails) (h : Tracks V R x fun fuel => y (fuel + 1)) :
    Tracks V R x y := by
  refine ⟨fun {fuel} {_ _ _ _ _} hx hy => ?_, fun hV hx => ?_⟩
  · cases fuel with
    | zero => exact absurd hy (hzero _ _ _)
    | succ fuel => exact h.agree hx hy
  · obtain ⟨b, depth, hy⟩ := h.follows hV hx
    refine ⟨b, depth + 1, fun fuel hfuel => ?_⟩
    obtain ⟨fuel, rfl⟩ := Nat.exists_eq_add_of_le' (Nat.le_of_add_left_le hfuel)
    exact hy fuel (by omega)

end Tracks

end Eval

end Choreography
