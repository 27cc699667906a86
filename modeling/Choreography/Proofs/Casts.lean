import Choreography.Proofs.Policies

/-!
Who takes part. An app has a cast: its participants, and the names by which its function speaks of
them. Values of the app's program refer to no one else, and what they ask of a frontend is offered by
one of the cast. So there are two ways only in which the compiler can come to blame itself: a value
that a frontend offers is applied although its type is no function, and a name of a participant
stands for something else where a round begins.
-/

namespace Choreography

open Eval Ir

/-- The participants of an app and the names by which its function speaks of them. -/
structure Cast where
  parts : List Participant := []
  names : List String := []

namespace Cast

def Plays (C : Cast) (who : String) : Prop := ∃ p ∈ C.parts, p.who = who

/-- A frontend offers something of this type. -/
def Offers (C : Cast) (t : Ty) : Prop := ∃ p ∈ C.parts, ∃ method, (method, t) ∈ p.interface

/-- How programs of the cast can stop. -/
inductive Excuses (C : Cast) : Stop → Prop
  | outOfFuel : Excuses C .outOfFuel
  | ordinary {stop : Stop} (h : stop.isOrdinary = true) : Excuses C stop
  | notAFunction {loc : Loc} {t : Ty} (hoffered : C.Offers t) (hdata : ∀ dom rng, t ≠ .func dom rng) :
    Excuses C (.fault (.notAFunctionType loc t.full))
  | notAParticipant {loc : Loc} {name : String} (hname : name ∈ C.names) :
    Excuses C (.fault (.notAParticipant loc name))

end Cast

/-- Neither asks a frontend nor waits to be compiled. -/
def Prim.isPlain : Prim → Bool
  | .interact .. | .app .. => false
  | _ => true

/-- The value refers to participants of the cast only, and they go by names of the cast: by their own,
or by the name `at'` that the value is bound to. -/
inductive Value.Within : Cast → Option String → Value → Prop
  | null {C : Cast} {at' : Option String} {loc : Loc} : Within C at' (.null loc)
  | bool {C : Cast} {at' : Option String} {loc : Loc} {b : Bool} : Within C at' (.bool loc b)
  | int {C : Cast} {at' : Option String} {loc : Loc} {n : Int} : Within C at' (.int loc n)
  | bytes {C : Cast} {at' : Option String} {loc : Loc} {text : String} : Within C at' (.bytes loc text)
  | type {C : Cast} {at' : Option String} {loc : Loc} {t : Ty} : Within C at' (.type loc t)
  | var {C : Cast} {at' : Option String} {v : Var} : Within C at' (.var v)
  | tuple {C : Cast} {at' : Option String} {loc : Loc} {elems : List Value}
    (h : ∀ v ∈ elems, Within C none v) : Within C at' (.tuple loc elems)
  | object {C : Cast} {at' : Option String} {loc : Loc} {fields : Bindings}
    (h : ∀ b ∈ fields.entries, Within C none b.2.value) : Within C at' (.object loc fields)
  | closure {C : Cast} {at' : Option String} {tag : Tag} {c : Closure}
    (h : ∀ b ∈ c.env.entries, Within C (some b.1) b.2.value) : Within C at' (.closure tag c)
  | participant {C : Cast} {at' : Option String} {tag : Tag} {p : Participant} {name : String}
    (hplays : C.Plays p.who) (hname : name ∈ C.names) (hcalled : p.displayName.or at' = some name) :
    Within C at' (.participant tag p)
  | prim {C : Cast} {at' : Option String} {loc : Loc} {p : Prim} (h : p.isPlain = true) :
    Within C at' (.prim loc p)
  | interact {C : Cast} {at' : Option String} {loc : Loc} {who method : String} {t : Ty}
    (h : C.Offers t) : Within C at' (.prim loc (.interact who method t))
  | app {C : Cast} {at' : Option String} {loc : Loc} {tag : Tag} {a : App} {names : List String}
    (hnames : ∀ name ∈ names, ∃ tag p, a.env.find? name = some (.secret (.participant tag p)))
    (h : ∀ b ∈ a.env.entries, Within ⟨a.parts, names⟩ (some b.1) b.2.value) :
    Within C at' (.prim loc (.app tag a))
  | appForm {C : Cast} {at' : Option String} {loc : Loc} {tag : Tag} : Within C at' (.form loc tag .app)
  | only {C : Cast} {at' : Option String} {loc : Loc} {tag : Tag} {who : String} (h : C.Plays who) :
    Within C at' (.form loc tag (.only who))
  | onlyDone {C : Cast} {at' : Option String} {loc : Loc} {tag : Tag} {who : String}
    {view : Bindings} {result : SecValue} (h : ∀ b ∈ view.entries, Within C (some b.1) b.2.value) :
    Within C at' (.form loc tag (.onlyDone who view result))
  | round {C : Cast} {at' : Option String} {loc : Loc} {tag : Tag} {r : Round}
    (hplays : C.Plays r.who) (hnames : ∀ name, r.displayName = some name → name ∈ C.names) :
    Within C at' (.form loc tag (.round r))

variable {C : Cast} {at' : Option String} {loc : Loc} {ctx : Ctx} {env : Bindings}

namespace Value.Within

variable {v : Value}

/-- Only of participants does it matter what a value is bound to. -/
theorem rebind {at'' : Option String} (h : v.Within C at')
    (hparticipant : ∀ tag p, v = .participant tag p → v.Within C at'') : v.Within C at'' := by
  cases h with
  | participant => exact hparticipant _ _ rfl
  | null => exact .null
  | bool => exact .bool
  | int => exact .int
  | bytes => exact .bytes
  | type => exact .type
  | var => exact .var
  | tuple h => exact .tuple h
  | object h => exact .object h
  | closure h => exact .closure h
  | prim h => exact .prim h
  | interact h => exact .interact h
  | app hnames h => exact .app hnames h
  | appForm => exact .appForm
  | only h => exact .only h
  | onlyDone h => exact .onlyDone h
  | round hplays hnames => exact .round hplays hnames

/-- A value that goes by its own name may be bound to any. -/
theorem bound (h : v.Within C none) : v.Within C at' := by
  refine h.rebind fun tag p hv => ?_
  subst hv
  cases h with
  | participant hplays hname hcalled =>
    rw [Option.or_none] at hcalled
    exact .participant hplays hname (by rw [hcalled]; rfl)

/-- What refers to no one at all may stand in any program. -/
theorem anywhere (h : v.Within {} at') : v.Within C at' := by
  generalize hcast : ({} : Cast) = D at h
  induction h with
  | null => exact .null
  | bool => exact .bool
  | int => exact .int
  | bytes => exact .bytes
  | type => exact .type
  | var => exact .var
  | tuple _ ih => exact .tuple fun v hv => ih v hv hcast
  | object _ ih => exact .object fun b hb => ih b hb hcast
  | closure _ ih => exact .closure fun b hb => ih b hb hcast
  | participant hplays =>
    subst hcast
    obtain ⟨p, hp, _⟩ := hplays
    exact absurd hp List.not_mem_nil
  | prim h => exact .prim h
  | interact hoffers =>
    subst hcast
    obtain ⟨p, hp, _⟩ := hoffers
    exact absurd hp List.not_mem_nil
  | app hnames h => exact .app hnames h
  | appForm => exact .appForm
  | only hplays =>
    subst hcast
    obtain ⟨p, hp, _⟩ := hplays
    exact absurd hp List.not_mem_nil
  | onlyDone _ ih => exact .onlyDone fun b hb => ih b hb hcast
  | round hplays =>
    subst hcast
    obtain ⟨p, hp, _⟩ := hplays
    exact absurd hp List.not_mem_nil

end Value.Within

/-! ### Environments -/

/-- Everything that is bound refers to the cast only. -/
def Bindings.Within (C : Cast) (env : Bindings) : Prop :=
  ∀ b ∈ env.entries, b.2.value.Within C (some b.1)

namespace Bindings.Within

variable {out overlay : Bindings} {name : String} {sv : SecValue} {s s' : Supply}

theorem empty : Bindings.Within C {} := by simp [Bindings.Within]

theorem of_append (h : env.Within C) {more : List (String × SecValue)}
    (hmore : ∀ b ∈ more, b.2.value.Within C (some b.1))
    (hentries : out.entries = env.entries ++ more) : out.Within C := by
  intro b hb
  rw [hentries] at hb
  exact (List.mem_append.1 hb).elim (h b) (hmore b)

theorem of_subset (h : env.Within C) (hsub : out.entries ⊆ env.entries) : out.Within C :=
  fun b hb => h b (hsub hb)

theorem without (h : env.Within C) (names : List String) : Bindings.Within C (env.without names) :=
  h.of_subset (List.filter_subset_self _)

theorem difference (h : env.Within C) (other : Bindings) :
    Bindings.Within C (env.difference other) :=
  h.of_subset (List.filter_subset_self _)

theorem set (h : env.Within C) (hsv : sv.value.Within C (some name)) :
    Bindings.Within C (env.set name sv) := by
  intro b hb
  rcases Env.mem_set hb with hold | rfl
  · exact h b hold
  · exact hsv

theorem find? (h : env.Within C) (hfind : env.find? name = some sv) :
    sv.value.Within C (some name) :=
  h _ (Bindings.mem_of_find? hfind)

end Bindings.Within

/-! ### Operations on bindings -/

namespace Cast

theorem excuse {α : Type} {Q : α → Prop} {x : Eval α} (C : Cast)
    (h : Proceeds (·.isOrdinary = true) Q x) : Meets C.Excuses Q x :=
  h.toMeets.mono (fun _ => .ordinary) fun _ h => h

theorem meets {α : Type} {Q : α → Prop} {x : Eval α} (C : Cast) (h : Routine x)
    (hresult : ∀ {s a s'}, x.Yields s a s' → Q a) : Meets C.Excuses Q x :=
  C.excuse (h.proceeds hresult)

/-- A computation whose result does not matter. -/
theorem passes {α : Type} {x : Eval α} (C : Cast) (h : Routine x) :
    Meets C.Excuses (fun _ => True) x :=
  C.excuse h

theorem skip {α β : Type} {x : Eval α} {f : α → Eval β} {Q : β → Prop} (C : Cast) (h : Routine x)
    (hf : ∀ a, Meets C.Excuses Q (f a)) : Meets C.Excuses Q (x >>= f) :=
  (C.passes h).bind fun a _ => hf a

theorem bind (henv : env.Within C) {name : String} {sv : SecValue}
    (hsv : sv.value.Within C (some name)) :
    Meets C.Excuses (Bindings.Within C) (env.bind loc name sv) := by
  refine C.meets (env.bind_routine name sv) fun hrun => ?_
  obtain ⟨_, rfl, _⟩ := Bindings.bind_yields.1 hrun
  exact henv.of_append (by simpa using hsv) rfl

theorem bindAll (henv : env.Within C) {bindings : List (String × SecValue)}
    (hall : ∀ b ∈ bindings, b.2.value.Within C (some b.1)) :
    Meets C.Excuses (Bindings.Within C) (env.bindAll loc bindings) :=
  C.meets (env.bindAll_routine bindings) fun hrun =>
    henv.of_append hall (Bindings.bindAll_yields hrun).1

theorem merge (henv : env.Within C) {overlay : Bindings} (hoverlay : overlay.Within C) :
    Meets C.Excuses (Bindings.Within C) (env.merge loc overlay) :=
  C.bindAll henv hoverlay

theorem lookup (henv : env.Within C) (name : String) :
    Meets C.Excuses (fun sv => sv.value.Within C (some name)) (env.lookup loc name) :=
  C.meets (env.lookup_routine name) fun hrun => henv.find? (Bindings.lookup_yields.1 hrun).1

/-- Whoever is referred to by a name goes by a name from then on. -/
theorem identify (henv : env.Within C) (name : String) :
    Meets C.Excuses (fun sv => sv.value.Within C none) (env.identify loc name) := by
  refine (C.lookup henv name).bind fun sv hsv => ?_
  split
  · rename_i tag p hvalue
    rw [hvalue] at hsv
    cases hsv with
    | participant hplays hname hcalled =>
      split
      · rename_i own hown
        refine .pure ?_
        rw [hvalue]
        exact .participant hplays hname (by rw [hown] at hcalled ⊢; exact hcalled)
      · rename_i hown
        rw [hown] at hcalled
        exact Meets.freshTag.bind fun _ _ => .pure (.participant hplays hname hcalled)
  · rename_i hother
    exact .pure (hsv.rebind fun tag p hv => absurd hv (hother tag p))

end Cast

/-! ### Operations -/

/-- The value of an evaluated expression refers to the cast only. -/
def Lifted.Within (C : Cast) (r : Lifted SecValue) : Prop := r.value.value.Within C none

theorem Value.Atomic.within {v : Value} (h : v.Atomic) : v.Within C at' := by
  cases h <;> constructor

theorem Prim.ComesTo.within {p : Prim} {args : List SecValue} {v : Value}
    (h : p.ComesTo ctx loc env args v) (henv : env.Within C)
    (hargs : ∀ sv ∈ args, sv.value.Within C none) : v.Within C none := by
  cases h with
  | atomic h => exact h.within
  | enumeration =>
    refine .tuple (List.forall_mem_cons.2 ⟨.closure henv, fun v hv => ?_⟩)
    obtain ⟨i, _, rfl⟩ := List.mem_map.1 hv
    exact .int
  | declassified h => exact hargs _ h
  | committed | exited => exact .prim rfl
  | payment =>
    refine .object fun b hb => ?_
    obtain rfl := List.mem_singleton.1 (Env.mem_ofList hb)
    exact .prim rfl

theorem Value.Offers.within {v part : Value} {field : String} (h : v.Offers loc field part)
    (hv : v.Within C none) : part.Within C none := by
  cases h with
  | part hfind =>
    cases hv with
    | object h => exact h _ (Bindings.mem_of_find? hfind)
  | only =>
    cases hv with
    | participant hplays => exact .only hplays
  | start =>
    cases hv with
    | participant hplays hname hcalled =>
      refine .round hplays fun other hother => ?_
      rw [Option.or_none] at hcalled
      cases hcalled.symm.trans hother
      exact hname
  | next =>
    cases hv with
    | round hplays hnames => exact .round hplays hnames

namespace Cast

/-- What a frontend offers is a function, or the compiler is blamed for its application. -/
theorem applyPrim {p : Prim} {primLoc : Loc} {args : List SecValue} (henv : env.Within C)
    (hp : (Value.prim primLoc p).Within C at') (hargs : ∀ sv ∈ args, sv.value.Within C none) :
    Meets C.Excuses (Lifted.Within C) (ctx.applyPrim loc env p args) := by
  refine Ctx.applyPrim_meets.toMeets.mono (fun stop hstop => ?_) fun r hr => hr.value.within henv hargs
  cases hstop with
  | ordinary h => exact .ordinary h
  | notAFunction hnot =>
    cases hp with
    | interact hoffers =>
      refine .notAFunction hoffers fun dom rng h => ?_
      subst h
      exact hnot dom rng rfl
    | prim hplain => cases hplain

theorem field {v : Value} (hv : v.Within C none) (field : String) :
    Meets C.Excuses (Lifted.Within C) (ctx.field loc v field) :=
  C.excuse (Ctx.field_meets.imp fun _ h => h.2.elim (fun h => h.within) fun h => h.within hv)

end Cast

end Choreography
