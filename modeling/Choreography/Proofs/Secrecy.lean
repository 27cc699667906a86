import Choreography.Proofs.Numbering

/-!
Secrets stay with their participants. Without `declassify`, what the frontend of a participant
answers, and whatever is computed from the answers, is not sent to the ledger. Objects are the
exception: the level of an object says nothing of its fields, so that secrets in them are sent along.
-/

namespace Choreography

open Ir

namespace Ir

/-- What a statement makes known to all: messages, amounts and the delays of deadlines. -/
def Stmt.sent : Stmt → List Arg
  | .toConsensus _ t => t.messages.map (·.1) ++ [t.amount] ++ t.timeout.toList.map (·.delay)
  | .transfer _ _ _ amount => [amount]
  | _ => []

/-- A datum that comes from a frontend: it is asked for in place, or it is a variable for the answer
of a frontend, or for what is computed from such a datum. With `deep`, computations use the fields of
objects that they mention too. -/
inductive Derived (deep : Bool) (code : Code) : Arg → Prop
  | datum {who method : String} {type : Ty} : Derived deep code (.interact who method type)
  | answer {loc : Loc} {v : Var} {e : Expr} (hmem : .letIn loc v e ∈ statements code)
    (hasks : e.asks = true) : Derived deep code (.var v)
  | computed {loc : Loc} {v : Var} {e : Expr} {a x : Arg} (hmem : .letIn loc v e ∈ statements code)
    (ha : a ∈ e.operands) (hx : x ∈ a.atoms deep) (h : Derived deep code x) :
    Derived deep code (.var v)

/-- A datum that comes from a frontend is sent; with `deep`, possibly in the field of an object. -/
def Leaks (deep : Bool) (code : Code) : Prop :=
  ∃ st ∈ statements code, ∃ a ∈ st.sent, ∃ x ∈ a.atoms deep, Derived deep code x

mutual

/-- The operand neither is nor holds an object. -/
def Arg.plain : Arg → Bool
  | .tuple elems => allPlain elems
  | .object _ => false
  | .var _ | .const _ | .interact .. => true

def Arg.allPlain : List Arg → Bool
  | [] => true
  | a :: args => a.plain && allPlain args

end

/-- No operand of the code has to do with objects. -/
def ObjectFree (code : Code) : Prop :=
  ∀ st ∈ statements code, ∀ a ∈ st.operands, a.plain = true

mutual

theorem Arg.atoms_of_plain : ∀ {a : Arg}, a.plain = true → a.atoms true = a.atoms false
  | .tuple elems, h => by
    rw [Arg.atoms, Arg.atoms]
    exact Arg.allAtoms_of_plain (by simpa only [Arg.plain] using h)
  | .object _, h => by simp [Arg.plain] at h
  | .var _, _ => by simp only [Arg.atoms]
  | .const _, _ => by simp only [Arg.atoms]
  | .interact .., _ => by simp only [Arg.atoms]

theorem Arg.allAtoms_of_plain : ∀ {args : List Arg}, Arg.allPlain args = true →
    Arg.allAtoms true args = Arg.allAtoms false args
  | [], _ => by simp only [Arg.allAtoms]
  | a :: args, h => by
    simp only [Arg.allPlain, Bool.and_eq_true] at h
    rw [Arg.allAtoms, Arg.allAtoms, Arg.atoms_of_plain h.1, Arg.allAtoms_of_plain h.2]

end

variable {R : Regime} {J : List (String × Var)} {X : List Known} {E : List Return}
  {K O B : List Known} {next : Option Stmt} {s : Stmt} {parts : List Part} {code : Code}

theorem Stmt.sent_subset (s : Stmt) : s.sent ⊆ s.operands := by
  cases s with
  | transfer => exact List.subset_cons_self _ _
  | toConsensus => exact List.Subset.refl _
  | _ => exact List.nil_subset _

theorem Derived.shallow {x : Arg} (h : Derived true code x) (hfree : ObjectFree code) :
    Derived false code x := by
  induction h with
  | datum => exact .datum
  | answer hmem hasks => exact .answer hmem hasks
  | @computed loc v e a x hmem ha hx _ ih =>
    rw [Arg.atoms_of_plain (hfree _ hmem a ha)] at hx
    exact .computed hmem ha hx ih

/-- Without objects, whatever is sent is sent in plain sight. -/
theorem Leaks.shallow (h : Leaks true code) (hfree : ObjectFree code) : Leaks false code := by
  obtain ⟨st, hst, a, ha, x, hx, hderived⟩ := h
  rw [Arg.atoms_of_plain (hfree st hst a (st.sent_subset ha))] at hx
  exact ⟨st, hst, a, ha, x, hx, hderived.shallow hfree⟩

/-! ### Every variable has one level -/

theorem map_pub_id {α : Type} (xs : List α) (f : α → Var) :
    (xs.map fun x => Labelled.pub (f x)).map (·.value.id) = xs.map fun x => (f x).id := by
  rw [List.map_map]
  rfl

/-- A statement binds variables of its own, with numbers that it defines, and those of its parts. -/
theorem Stmt.Formed.binders_eq (h : s.Formed R J X next parts E K B) :
    ∃ own : List Known, B = own ++ parts.flatMap Part.binders ∧
      (own.map (·.value.id)).Sublist s.defines := by
  cases h with
  | letIn => exact ⟨_, (List.append_nil _).symm, List.Sublist.refl _⟩
  | claim | transfer | stop | ret | cont => exact ⟨[], rfl, List.nil_sublist _⟩
  | @prompt _ slot result p _ _ hid =>
    refine ⟨result.toList.map .pub, by simp, ?_⟩
    cases result with
    | none => exact List.nil_sublist _
    | some v => simp [Stmt.defines, Labelled.pub, hid v rfl]
  | branch => exact ⟨[], by simp, List.nil_sublist _⟩
  | only => exact ⟨[], by simp, List.nil_sublist _⟩
  | fromConsensus => exact ⟨[], by simp, List.nil_sublist _⟩
  | @toConsensus _ t =>
    refine ⟨t.learned, rfl, ?_⟩
    rw [Transition.learned, List.map_append, map_pub_id, Stmt.defines]
    cases t.join <;> exact List.Sublist.refl _
  | @loop _ init =>
    refine ⟨init.map fun i => .pub i.1, by simp, ?_⟩
    rw [map_pub_id, Stmt.defines]

theorem count_flatMap_le {α : Type} {xs : List α} {f g : α → List Nat} {i : Nat}
    (h : ∀ x ∈ xs, (f x).count i ≤ (g x).count i) :
    (xs.flatMap f).count i ≤ (xs.flatMap g).count i := by
  induction xs with
  | nil => simp
  | cons x xs ih =>
    obtain ⟨hx, hxs⟩ := List.forall_mem_cons.1 h
    simpa using Nat.add_le_add hx (ih hxs)

/-- What code binds has numbers that the code defines. -/
theorem Code.Formed.count_binders_le (h : Code.Formed R J X code E O B) (i : Nat) :
    (B.map (·.value.id)).count i ≤ (definitions code).count i := by
  induction h with
  | nil => simp
  | @cons J X s parts E E' K O B B' rest hstmt hparts _ ihparts ih =>
    obtain ⟨own, rfl, hown⟩ := hstmt.binders_eq
    have hinside := count_flatMap_le ihparts
    have hhere := hown.count_le i
    rw [definitions_cons, hstmt.inner_eq, List.flatMap_assoc]
    simp only [definitions] at hinside ih
    simp only [List.map_append, List.map_flatMap, List.count_append, definitions]
    omega

end Ir

section

variable {R : Regime} {s s' : Supply} {code : Code} {E : List Return} {O B : List Known}

/-- What a program binds it binds at one level. -/
theorem Emits.level_unique (h : Emits R [] [] s s' code E O B) {k k' : Known} (hk : k ∈ B)
    (hk' : k' ∈ B) (hvalue : k.value = k'.value) : k = k' := by
  have hnodup : (B.map (·.value.id)).Nodup := by
    rw [List.nodup_iff_count_le_one]
    exact fun i => Nat.le_trans (h.formed.count_binders_le i)
      (List.nodup_iff_count_le_one.1 h.definitions_nodup i)
  exact List.inj_on_of_nodup_map hnodup hk hk' (by rw [hvalue])

/-- The level of a variable that is bound by a computation. -/
theorem Emits.letIn_level (h : Emits R [] [] s s' code E O B) {loc : Loc} {v : Var} {e : Expr}
    (hmem : .letIn loc v e ∈ statements code) :
    ∃ level, ⟨level, v⟩ ∈ B ∧ e.Formed R B level v.type := by
  obtain ⟨_, _, _, _, _, _, _, hstmt, hX, hB, _⟩ := h.formed.of_mem_statements _ hmem
  cases hstmt with
  | @letIn _ _ _ level he => exact ⟨level, hB List.mem_cons_self, he.mono (by simpa using hX)⟩

theorem Emits.secret_var (h : Emits R [] [] s s' code E O B) (hguarded : R.guarded = true) {v : Var}
    {level : Level} (hv : ⟨.secret, v⟩ ∈ B) (hformed : (Arg.var v).Formed R B level) :
    level = .secret := by
  cases hformed with
  | var hsees =>
    obtain ⟨l, hl, hallows⟩ := hsees
    obtain rfl : Level.secret = l := congrArg Labelled.level (h.level_unique hv hl rfl)
    exact hallows hguarded rfl

/-- In a guarded program, whatever comes from a frontend is secret wherever it is held. -/
theorem Emits.derived_secret (h : Emits R [] [] s s' code E O B) (hguarded : R.guarded = true)
    {x : Arg} (hderived : Derived false code x) :
    ∀ {level : Level}, x.Formed R B level → level = .secret := by
  induction hderived with
  | datum =>
    intro level hformed
    cases hformed with
    | interact hallows => exact hallows hguarded rfl
  | answer hmem hasks =>
    intro level hformed
    obtain ⟨l, hl, he⟩ := h.letIn_level hmem
    obtain rfl : l = .secret := he.answer hasks hguarded rfl
    exact h.secret_var hguarded hl hformed
  | @computed loc v e a x hmem ha hx _ ih =>
    intro level hformed
    obtain ⟨l, hl, he⟩ := h.letIn_level hmem
    have hsecret : l = .secret := by
      cases hasks : e.asks with
      | true => exact he.answer hasks hguarded rfl
      | false =>
        have hoperand := he.operands a ha
        rw [hasks] at hoperand
        exact ih (hoperand.atom.1 x hx)
    rw [hsecret] at hl
    exact h.secret_var hguarded hl hformed

/-- Everything that is sent is public. -/
theorem Emits.sent_public (h : Emits R [] [] s s' code E O B) :
    ∀ st ∈ statements code, ∀ a ∈ st.sent, a.Formed R B .pub := by
  intro st hst a ha
  obtain ⟨_, X, _, _, _, _, _, hstmt, hX, _⟩ := h.formed.of_mem_statements st hst
  suffices hpublic : a.Formed R X .pub from hpublic.mono (by simpa using hX) .refl
  cases hstmt with
  | transfer _ _ hamount =>
    obtain rfl := List.mem_singleton.1 ha
    exact hamount
  | toConsensus _ _ hmessages hamount _ hlate htimeout =>
    simp only [Stmt.sent, htimeout, List.mem_append, List.mem_map, List.mem_singleton,
      Option.mem_toList, Option.map_eq_some_iff] at ha
    rcases ha with (⟨m, hm, rfl⟩ | rfl) | ⟨_, ⟨l, hl, rfl⟩, rfl⟩
    · exact (hmessages m hm).1
    · exact hamount
    · exact (hlate l hl).1
  | _ => simp [Stmt.sent] at ha

end

/-- A program that never mentions `declassify` sends nothing that comes from a frontend, but in the
fields of objects; without objects it sends nothing of the kind at all. -/
theorem compileBundle_keeps_secrets {fuel : Nat} {options : Options} {session : Session}
    {bundle : Bundle} {top : String} {p : Program}
    (hcompile : (compileBundle fuel options session bundle top).1 = .ok p)
    (hnames : ∀ m ∈ bundle, "declassify" ∉ m.tree.idents) :
    ¬ Leaks false p.body ∧ (ObjectFree p.body → ¬ Leaks true p.body) := by
  obtain ⟨O, B, s, s', hemits⟩ := compileBundle_emits true hcompile fun _ => hnames
  have hshallow : ¬ Leaks false p.body := by
    rintro ⟨st, hst, a, ha, x, hx, hderived⟩
    have hpublic := (hemits.sent_public st hst a ha).atom.1 x hx
    cases hemits.derived_secret rfl hderived hpublic
  exact ⟨hshallow, fun hfree hleaks => hshallow (hleaks.shallow hfree)⟩

theorem countingApp_keeps_secrets :
    ∃ p, (compileBundle 30 {} {} Surface.countingApp "main").1 = .ok p ∧
      (∀ m ∈ Surface.countingApp, "declassify" ∉ m.tree.idents) ∧ ObjectFree p.body ∧
      ¬ Leaks false p.body ∧ ¬ Leaks true p.body := by
  have hplain : (compileBundle 30 {} {} Surface.countingApp "main").1.toOption.any
      (fun p => (statements p.body).all fun st => st.operands.all Arg.plain) = true := by
    decide +kernel
  obtain ⟨p, hp, hall⟩ := exists_ok_of_any hplain
  have hnames : ∀ m ∈ Surface.countingApp, "declassify" ∉ m.tree.idents := by decide +kernel
  have hfree : ObjectFree p.body := by simpa [ObjectFree] using hall
  obtain ⟨hshallow, hdeep⟩ := compileBundle_keeps_secrets hp hnames
  exact ⟨p, hp, hnames, hfree, hshallow, hdeep hfree⟩

/-! ### Secrets in objects -/

/-- Some variable for the answer of a frontend is sent, possibly in the field of an object. -/
def Ir.sendsAnswer (code : Code) : Bool :=
  (statements code).any fun
    | .letIn _ v e => e.asks && (statements code).any fun st => st.sent.any fun a =>
      (a.atoms true).any fun
        | .var w => w == v
        | _ => false
    | _ => false

theorem Ir.leaks_of_sendsAnswer {code : Code} (h : sendsAnswer code = true) : Leaks true code := by
  obtain ⟨bind, hbind, h⟩ := List.any_eq_true.1 h
  cases bind with
  | letIn loc v e =>
    simp only [Bool.and_eq_true, List.any_eq_true] at h
    obtain ⟨hasks, st, hst, a, ha, x, hx, hvar⟩ := h
    refine ⟨st, hst, a, ha, x, hx, ?_⟩
    cases x with
    | var w =>
      obtain rfl : w = v := by simpa using hvar
      exact .answer hbind hasks
    | _ => simp at hvar
  | _ => simp at h

namespace Surface

/-- The participant publishes an object that holds what its frontend has answered. -/
def leakingApp : Bundle :=
  appOf ["A"] [
    .expr here (method (name "A") "only" [thunk [
      define "o" (.object here [.value here (.ident "x") (method (name "interact") "getX" [])])]]),
    .expr here (method (name "A") "publish" [name "o"])]

end Surface

/-- A secret is sent in the field of an object, and nothing has declassified it. -/
theorem leakingApp_sends_secret :
    ∃ p, (compileBundle 30 {} {} Surface.leakingApp "main").1 = .ok p ∧
      (∀ m ∈ Surface.leakingApp, "declassify" ∉ m.tree.idents) ∧ Leaks true p.body := by
  have hsends : (compileBundle 30 {} {} Surface.leakingApp "main").1.toOption.any
      (fun p => sendsAnswer p.body) = true := by
    decide +kernel
  obtain ⟨p, hp, hanswer⟩ := exists_ok_of_any hsends
  exact ⟨p, hp, by decide +kernel, leaks_of_sendsAnswer hanswer⟩

end Choreography
