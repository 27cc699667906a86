import Choreography.Proofs.Traversal
import Choreography.Proofs.Values

/-!
The formation of code. Code is formed from what is known where it stands: the variables in scope
with who may know them, and the participants that have joined. Formation says in one judgement that
operands are typed, that variables are in scope and that what is sent is public; it also collects
what code leaves behind: what it returns, the variables in scope after it, and all variables that it
binds.

What is bound at the outer level of a prompt or an `only` stays in scope after it, whereas the
variables of branches, of rounds and of the turns of a loop end with them. Only where a prompt has no
result may the value that is returned take more of them along.
-/

namespace Choreography.Ir

/-- A computation of the given type whose result may be held at a level. What a frontend is asked may
be secret, and its answer is. -/
structure Expr.Formed (R : Regime) (X : List Known) (level : Level) (e : Expr) (t : Ty) : Prop where
  type : e.HasType R.interfaces t
  operands : ∀ a ∈ e.operands, a.Formed R X (if e.asks then .secret else level)
  answer : e.asks = true → R.Allows .secret level

/-- A value that is delivered to a slot, with the level at which it is held. -/
abbrev Return := Nat × SecValue

/-- Code inside a statement: from what it is formed, and what it leaves behind. -/
structure Part where
  joined : List (String × Var)
  known : List Known
  code : Code
  returns : List Return
  /-- The variables in scope after the code. -/
  exports : List Known
  /-- All variables that the code binds at any depth. -/
  binders : List Known

/-- Of what code binds, the variables that a return inside it may take along. -/
def escaping (code : Code) (B : List Known) : List Known :=
  B.filter fun k => k.value ∈ codeLeaves true code

/-- A part can be formed where the given participants have joined and the given variables are in
scope. -/
def Part.Fits (p : Part) (J : List (String × Var)) (X : List Known) : Prop :=
  p.joined ⊆ J ∧ p.known ⊆ X

/-- What everyone learns when a round takes place: the messages, and the address of a participant
that joins. -/
def Transition.learned (t : Transition) : List Known :=
  t.messages.map (fun m => .pub m.2) ++ if t.join then [.pub t.whoVar] else []

/-- A statement is formed from its parts. The last three indices are what it returns, which
variables are in scope after it, and which it binds. `next` is the statement after it: the payment
of a round is computed just before the round, and may mention the address that the sender is going
to join with. -/
inductive Stmt.Formed (R : Regime) (J : List (String × Var)) (X : List Known) (next : Option Stmt) :
    Stmt → List Part → List Return → List Known → List Known → Prop
  | letIn {loc : Loc} {v : Var} {e : Expr} {level : Level} (h : e.Formed R X level v.type) :
    Formed R J X next (.letIn loc v e) [] [] [⟨level, v⟩] [⟨level, v⟩]
  | claim {loc : Loc} {frames : List Frame} {c : Claim} {a : Arg} (h : a.Formed R X .secret)
    (htype : a.type = .bool) : Formed R J X next (.claim loc frames c a) [] [] [] []
  | transfer {loc : Loc} {frames : List Frame} {recipient amount : Arg}
    (hrecipient : recipient.Formed R X .secret) (hrecipientType : recipient.type = .address)
    (hamount : amount.Formed R X .pub) (hamountType : amount.type = .uint256) :
    Formed R J X next (.transfer loc frames recipient amount) [] [] [] []
  | stop {loc : Loc} {frames : List Frame} : Formed R J X next (.stop loc frames) [] [] [] []
  | ret {loc : Loc} {slot : Nat} {sv : SecValue} (h : sv.Formed R X) :
    Formed R J X next (.ret loc slot (some sv.value)) [] [(slot, sv)] [] []
  | prompt {loc : Loc} {slot : Nat} {result : Option Var} {p : Part} (hfits : p.Fits J X)
    (hslot : ∀ r ∈ p.returns, r.1 = slot) (hid : ∀ v, result = some v → v.id = slot)
    (htype : ∀ v, result = some v → ∀ r ∈ p.returns, ∃ a, r.2.value.typed? = some (v.type, a)) :
    Formed R J X next (.prompt loc slot result p.code) [p] []
      (result.toList.map .pub ++ if result.isSome then p.exports else escaping p.code p.binders)
      (result.toList.map .pub ++ p.binders)
  | branch {loc : Loc} {cond : Arg} {t f : Part} (hcond : cond.Formed R X .secret)
    (hcondType : cond.type = .bool) (ht : t.Fits J X) (hf : f.Fits J X) :
    Formed R J X next (.branch loc cond t.code f.code) [t, f] (t.returns ++ f.returns) []
      (t.binders ++ f.binders)
  | only {loc : Loc} {who : String} {p : Part} {ahead : List Known} (hfits : p.Fits J (X ++ ahead))
    (hreturns : p.returns = [])
    (hahead : ∀ k ∈ ahead, ∃ loc t, next = some (.toConsensus loc t) ∧ t.who = who ∧
      t.join = true ∧ k = .pub t.whoVar) :
    Formed R J X next (.only loc who p.code) [p] [] p.exports p.binders
  | toConsensus {loc : Loc} {t : Transition} {late : Option (Arg × Part)} {body : Part}
    (haddress : t.whoVar.type = .address)
    (hjoined : t.join = false → (t.who, t.whoVar) ∈ J ∧ R.Sees X .pub t.whoVar)
    (hmessages : ∀ m ∈ t.messages, m.1.Formed R X .pub ∧ m.1.type = m.2.type)
    (hamount : t.amount.Formed R X .pub) (hamountType : t.amount.type = .uint256)
    (hlate : ∀ l, late = some l → l.1.Formed R X .pub ∧ l.1.type = .uint256 ∧ l.2.Fits J X)
    (htimeout : t.timeout = late.map fun l => { delay := l.1, body := l.2.code })
    (hfits : body.Fits ((t.who, t.whoVar) :: J) (X ++ t.learned)) (hbody : t.body = body.code) :
    Formed R J X next (.toConsensus loc t) (late.toList.map (·.2) ++ [body])
      ((late.toList.map (·.2) ++ [body]).flatMap Part.returns) []
      (t.learned ++ (late.toList.map (·.2) ++ [body]).flatMap Part.binders)
  | fromConsensus {loc : Loc} {p : Part} (hfits : p.Fits J X) :
    Formed R J X next (.fromConsensus loc p.code) [p] p.returns [] p.binders
  | loop {loc : Loc} {init : Assignment} {invariantLoc condLoc : Loc}
    {invariantFrames condFrames : List Frame} {invariant cond body : Part}
    {invariantResult condResult : Arg}
    (hinit : ∀ i ∈ init, i.2.Formed R X .secret ∧ i.2.type = i.1.type)
    (hinvariant : invariant.Fits J (X ++ init.map fun i => .pub i.1))
    (hinvariantReturns : invariant.returns = [])
    (hinvariantResult : invariantResult.Formed R
      (X ++ (init.map fun i => .pub i.1) ++ invariant.exports) .secret)
    (hinvariantType : invariantResult.type = .bool)
    (hcond : cond.Fits J (X ++ init.map fun i => .pub i.1)) (hcondReturns : cond.returns = [])
    (hcondResult : condResult.Formed R (X ++ (init.map fun i => .pub i.1) ++ cond.exports) .secret)
    (hcondType : condResult.type = .bool)
    (hbody : body.Fits J (X ++ init.map fun i => .pub i.1)) :
    Formed R J X next
      (.loop loc init ⟨invariantLoc, invariantFrames, invariant.code, invariantResult⟩
        ⟨condLoc, condFrames, cond.code, condResult⟩ body.code)
      [invariant, cond, body] body.returns (init.map fun i => .pub i.1)
      ((init.map fun i => .pub i.1) ++ (invariant.binders ++ cond.binders ++ body.binders))
  | cont {loc : Loc} {assignment : Assignment}
    (h : ∀ i ∈ assignment, R.Sees X .pub i.1 ∧ i.2.Formed R X .pub ∧ i.2.type = i.1.type) :
    Formed R J X next (.cont loc assignment) [] [] [] []

/-- Code is formed statement by statement, each where all before it has left its variables. -/
inductive Code.Formed (R : Regime) :
    List (String × Var) → List Known → Code → List Return → List Known → List Known → Prop
  | nil {J : List (String × Var)} {X : List Known} : Formed R J X [] [] [] []
  | cons {J : List (String × Var)} {X : List Known} {s : Stmt} {parts : List Part}
    {E E' : List Return} {K O B B' : List Known} {rest : Code}
    (hstmt : s.Formed R J X rest.head? parts E K B)
    (hparts : ∀ p ∈ parts, Formed R p.joined p.known p.code p.returns p.exports p.binders)
    (hrest : Formed R J (X ++ K) rest E' O B') :
    Formed R J X (s :: rest) (E ++ E') (K ++ O) (B ++ B')

variable {R : Regime} {J J' : List (String × Var)} {X Y : List Known} {E : List Return}
  {K O B : List Known} {next : Option Stmt} {s : Stmt} {parts : List Part} {code : Code}

/-! ### Weakening -/

theorem Part.Fits.mono {p : Part} (h : p.Fits J X) (hJ : J ⊆ J') (hX : X ⊆ Y) : p.Fits J' Y :=
  ⟨List.Subset.trans h.1 hJ, List.Subset.trans h.2 hX⟩

theorem Expr.Formed.mono {level : Level} {e : Expr} {t : Ty} (h : e.Formed R X level t)
    (hX : X ⊆ Y) : e.Formed R Y level t :=
  ⟨h.type, fun a ha => (h.operands a ha).mono hX .refl, h.answer⟩

/-- A computation that asks no one. -/
theorem Expr.Formed.silent {level : Level} {e : Expr} {t : Ty} (hasks : e.asks = false)
    (htype : e.HasType R.interfaces t) (hoperands : ∀ a ∈ e.operands, a.Formed R X level) :
    e.Formed R X level t :=
  ⟨htype, by simpa [hasks] using hoperands, by simp [hasks]⟩

/-- What an operand mentions outside the fields of objects is held as the operand is; in the fields it
may be secret. -/
theorem Arg.Formed.atom {level : Level} {a : Arg} (h : a.Formed R X level) :
    (∀ x ∈ a.atoms false, x.Formed R X level) ∧ ∀ x ∈ a.atoms true, x.Formed R X .secret := by
  induction h with
  | var h => simpa [Arg.atoms] using ⟨.var h, .raise (.var h) .to_secret⟩
  | const => simpa [Arg.atoms] using ⟨.const, .const⟩
  | tuple _ ih =>
    simp only [Arg.atoms, Arg.allAtoms_eq_flatMap, List.mem_flatMap]
    exact ⟨fun x ⟨a, ha, hx⟩ => (ih a ha).1 x hx, fun x ⟨a, ha, hx⟩ => (ih a ha).2 x hx⟩
  | object _ ih =>
    simp only [Arg.atoms, Arg.fieldAtoms_eq_flatMap, if_true, List.mem_flatMap]
    exact ⟨by simp, fun x ⟨f, hf, hx⟩ => (ih f hf).2 x hx⟩
  | interact h hoffers hdata =>
    simpa [Arg.atoms] using ⟨.interact h hoffers hdata, .interact .to_secret hoffers hdata⟩

/-- The operands of a statement are formed, those of the results of a loop's blocks once the blocks
have run. -/
theorem Stmt.Formed.operand (h : s.Formed R J X next parts E K B) :
    ∀ a ∈ s.operands, ∃ Y level, Y ⊆ X ++ (B ++ parts.flatMap Part.exports) ∧
      a.Formed R Y level := by
  have hhere : X ⊆ X ++ (B ++ parts.flatMap Part.exports) := List.subset_append_left _ _
  cases h with
  | letIn h => exact fun a ha => ⟨_, _, hhere, h.operands a ha⟩
  | claim h =>
    simp only [Stmt.operands, List.mem_singleton, forall_eq]
    exact ⟨_, _, hhere, h⟩
  | transfer hrecipient _ hamount =>
    simp only [Stmt.operands, List.mem_cons, List.not_mem_nil, or_false, forall_eq_or_imp, forall_eq]
    exact ⟨⟨_, _, hhere, hrecipient⟩, _, _, hhere, hamount⟩
  | @ret _ _ sv h =>
    intro a ha
    simp only [Stmt.operands, Option.bind_some, List.mem_map, Option.mem_toList] at ha
    obtain ⟨⟨t, a⟩, ht, rfl⟩ := ha
    exact ⟨_, _, hhere, (h.typed? ht).1⟩
  | branch hcond =>
    simp only [Stmt.operands, List.mem_singleton, forall_eq]
    exact ⟨_, _, hhere, hcond⟩
  | toConsensus _ _ hmessages hamount _ hlate htimeout =>
    intro a ha
    simp only [Stmt.operands, htimeout, List.mem_append, List.mem_map, List.mem_singleton,
      Option.mem_toList, Option.map_eq_some_iff] at ha
    rcases ha with (⟨m, hm, rfl⟩ | rfl) | ⟨_, ⟨l, hl, rfl⟩, rfl⟩
    · exact ⟨_, _, hhere, (hmessages m hm).1⟩
    · exact ⟨_, _, hhere, hamount⟩
    · exact ⟨_, _, hhere, (hlate l hl).1⟩
  | @loop _ init _ _ _ _ invariant cond body _ _ hinit _ _ hinvariant _ _ _ hcond =>
    have hafter : ∀ p ∈ [invariant, cond, body], ∀ {B : List Known},
        X ++ (init.map fun i => Labelled.pub i.1) ++ p.exports ⊆
          X ++ ((init.map fun i => Labelled.pub i.1) ++ B ++
            [invariant, cond, body].flatMap Part.exports) := by
      intro p hp B k hk
      simp only [List.mem_append] at hk ⊢
      rcases hk with (hX | hvar) | hleft
      · exact .inl hX
      · exact .inr (.inl (.inl hvar))
      · exact .inr (.inr (List.mem_flatMap.2 ⟨p, hp, hleft⟩))
    intro a ha
    simp only [Stmt.operands, List.mem_append, List.mem_map, List.mem_cons, List.not_mem_nil,
      or_false] at ha
    rcases ha with ⟨i, hi, rfl⟩ | rfl | rfl
    · exact ⟨_, _, hhere, (hinit i hi).1⟩
    · exact ⟨_, _, hafter invariant (by simp), hinvariant⟩
    · exact ⟨_, _, hafter cond (by simp), hcond⟩
  | cont h =>
    intro a ha
    obtain ⟨i, hi, rfl⟩ := List.mem_map.1 ha
    exact ⟨_, _, hhere, (h i hi).2.1⟩
  | stop | prompt | only | fromConsensus => simp [Stmt.operands]

theorem subset_append_left (h : O ⊆ B) : X ++ O ⊆ X ++ B :=
  List.append_subset_of_subset_of_subset (List.subset_append_left _ _)
    (List.Subset.trans h (List.subset_append_right _ _))

theorem subset_append_right {K : List Known} (h : X ⊆ Y) : X ++ K ⊆ Y ++ K := by
  intro k hk
  rw [List.mem_append] at hk ⊢
  exact hk.imp_left (@h k)

theorem Stmt.Formed.mono (h : s.Formed R J X next parts E K B) (hJ : J ⊆ J') (hX : X ⊆ Y) :
    s.Formed R J' Y next parts E K B := by
  cases h with
  | letIn h => exact .letIn (h.mono hX)
  | claim h htype => exact .claim (h.mono hX .refl) htype
  | transfer hrecipient hrecipientType hamount hamountType =>
    exact .transfer (hrecipient.mono hX .refl) hrecipientType (hamount.mono hX .refl) hamountType
  | stop => exact .stop
  | ret h => exact .ret (h.mono hX)
  | prompt hfits hslot hid htype => exact .prompt (hfits.mono hJ hX) hslot hid htype
  | branch hcond hcondType ht hf =>
    exact .branch (hcond.mono hX .refl) hcondType (ht.mono hJ hX) (hf.mono hJ hX)
  | only hfits hreturns hahead =>
    exact .only (hfits.mono hJ (subset_append_right hX)) hreturns hahead
  | toConsensus haddress hjoined hmessages hamount hamountType hlate htimeout hfits hbody =>
    refine .toConsensus haddress ?_ ?_ (hamount.mono hX .refl) hamountType ?_ htimeout
      (hfits.mono (List.cons_subset_cons _ hJ) (subset_append_right hX)) hbody
    · intro hold
      exact ⟨hJ (hjoined hold).1, (hjoined hold).2.mono hX .refl⟩
    · intro m hm
      exact ⟨(hmessages m hm).1.mono hX .refl, (hmessages m hm).2⟩
    · intro l hl
      obtain ⟨hdelay, hdelayType, hpart⟩ := hlate l hl
      exact ⟨hdelay.mono hX .refl, hdelayType, hpart.mono hJ hX⟩
  | fromConsensus hfits => exact .fromConsensus (hfits.mono hJ hX)
  | loop hinit hinvariant hinvariantReturns hinvariantResult hinvariantType hcond hcondReturns
      hcondResult hcondType hbody =>
    refine .loop ?_ (hinvariant.mono hJ (subset_append_right hX)) hinvariantReturns
      (hinvariantResult.mono (subset_append_right (subset_append_right hX)) .refl) hinvariantType
      (hcond.mono hJ (subset_append_right hX)) hcondReturns
      (hcondResult.mono (subset_append_right (subset_append_right hX)) .refl) hcondType
      (hbody.mono hJ (subset_append_right hX))
    intro i hi
    exact ⟨(hinit i hi).1.mono hX .refl, (hinit i hi).2⟩
  | cont h =>
    refine .cont fun i hi => ?_
    obtain ⟨hsees, hformed, htype⟩ := h i hi
    exact ⟨hsees.mono hX .refl, hformed.mono hX .refl, htype⟩

/-- Code stays formed when more is in scope and more participants have joined. -/
theorem Code.Formed.mono (h : Code.Formed R J X code E O B) (hJ : J ⊆ J') (hX : X ⊆ Y) :
    Code.Formed R J' Y code E O B := by
  induction h generalizing J' Y with
  | nil => exact .nil
  | cons hstmt hparts _ _ ih =>
    exact .cons (hstmt.mono hJ hX) hparts (ih hJ (subset_append_right hX))

/-! ### Sequences -/

/-- A statement that says nothing of the one after it can stand before any. -/
theorem Stmt.Formed.before {next' : Option Stmt} (h : s.Formed R J X next parts E K B)
    (hnext : ∀ loc t, next = some (.toConsensus loc t) → next' = some (.toConsensus loc t)) :
    s.Formed R J X next' parts E K B := by
  cases h with
  | only hfits hreturns hahead =>
    refine .only hfits hreturns fun k hk => ?_
    obtain ⟨loc, t, hto, hwho⟩ := hahead k hk
    exact ⟨loc, t, hnext loc t hto, hwho⟩
  | letIn h => exact .letIn h
  | claim h htype => exact .claim h htype
  | transfer hrecipient hrecipientType hamount hamountType =>
    exact .transfer hrecipient hrecipientType hamount hamountType
  | stop => exact .stop
  | ret h => exact .ret h
  | prompt hfits hslot hid htype => exact .prompt hfits hslot hid htype
  | branch hcond hcondType ht hf => exact .branch hcond hcondType ht hf
  | toConsensus haddress hjoined hmessages hamount hamountType hlate htimeout hfits hbody =>
    exact .toConsensus haddress hjoined hmessages hamount hamountType hlate htimeout hfits hbody
  | fromConsensus hfits => exact .fromConsensus hfits
  | loop hinit hinvariant hinvariantReturns hinvariantResult hinvariantType hcond hcondReturns
      hcondResult hcondType hbody =>
    exact .loop hinit hinvariant hinvariantReturns hinvariantResult hinvariantType hcond
      hcondReturns hcondResult hcondType hbody
  | cont h => exact .cont h

theorem Code.Formed.append {code' : Code} {E' : List Return} {O' B' : List Known}
    (h : Code.Formed R J X code E O B) (h' : Code.Formed R J (X ++ O) code' E' O' B') :
    Code.Formed R J X (code ++ code') (E ++ E') (O ++ O') (B ++ B') := by
  induction h with
  | nil => simpa using h'
  | @cons J X s parts E₁ E₂ K O B₁ B₂ rest hstmt hparts _ _ ih =>
    rw [List.append_assoc, List.append_assoc, List.append_assoc]
    refine .cons (hstmt.before ?_) hparts (ih (by simpa using h'))
    intro loc t hhead
    simp [List.head?_append, hhead]

/-- A single statement. -/
theorem Code.Formed.single (hstmt : s.Formed R J X none parts E K B)
    (hparts : ∀ p ∈ parts, Code.Formed R p.joined p.known p.code p.returns p.exports p.binders) :
    Code.Formed R J X [s] E K B := by
  have h : Code.Formed R J X [s] (E ++ []) (K ++ []) (B ++ []) := .cons hstmt hparts .nil
  simpa using h

/-- Code that ends with a return is formed before the return. -/
theorem Code.Formed.dropRet {loc : Loc} {slot : Nat} {v : Value}
    (h : Code.Formed R J X (code ++ [.ret loc slot (some v)]) E O B) :
    ∃ E' level, Code.Formed R J X code E' O B ∧ E = E' ++ [(slot, ⟨level, v⟩)] ∧
      v.Formed R (X ++ O) level := by
  induction code generalizing X E O B with
  | nil =>
    cases h with
    | cons hstmt _ hrest =>
      cases hrest
      cases hstmt with
      | @ret _ _ sv hsv => exact ⟨[], sv.level, by simpa using .nil, by simp, by simpa using hsv⟩
  | cons s rest ih =>
    cases h with
    | cons hstmt hparts hrest =>
      obtain ⟨E', level, hcode, rfl, hv⟩ := ih hrest
      refine ⟨_, level, .cons (hstmt.before ?_) hparts hcode, by simp, by simpa using hv⟩
      intro loc t hhead
      cases rest with
      | nil => simp at hhead
      | cons _ _ => simpa using hhead

/-! ### What code leaves behind -/

theorem mem_escaping {k : Known} :
    k ∈ escaping code B ↔ k ∈ B ∧ k.value ∈ codeLeaves true code := by
  simp [escaping]

theorem escaping_append_left {code' : Code} {B' : List Known} :
    escaping code B ⊆ escaping (code ++ code') (B ++ B') := by
  intro k hk
  obtain ⟨hB, hleft⟩ := mem_escaping.1 hk
  refine mem_escaping.2 ⟨List.mem_append_left _ hB, ?_⟩
  rw [codeLeaves_append]
  exact List.mem_append_left _ hleft

theorem escaping_append_right {code' : Code} {B' : List Known} :
    escaping code' B' ⊆ escaping (code ++ code') (B ++ B') := by
  intro k hk
  obtain ⟨hB, hleft⟩ := mem_escaping.1 hk
  refine mem_escaping.2 ⟨List.mem_append_right _ hB, ?_⟩
  rw [codeLeaves_append]
  exact List.mem_append_right _ hleft

theorem Stmt.Formed.exports_left (h : s.Formed R J X next parts E K B)
    (hparts : ∀ p ∈ parts, ∀ k ∈ p.exports, k ∈ p.binders ∧ k.value ∈ codeLeaves false p.code) :
    ∀ k ∈ K, k ∈ B ∧ k.value ∈ s.leaves false := by
  cases h with
  | @prompt _ _ result p =>
    intro k hk
    have hpart := hparts p (by simp)
    cases result with
    | none => simpa [Stmt.leaves, mem_escaping] using hk
    | some v =>
      simp only [Option.toList_some, List.map_cons, List.map_nil, Option.isSome_some, if_true,
        List.singleton_append, List.mem_cons] at hk
      rcases hk with rfl | hk
      · simp [Stmt.leaves, Labelled.pub]
      · simp [Stmt.leaves, hpart k hk]
  | @only _ _ p =>
    intro k hk
    simpa [Stmt.leaves] using hparts p (by simp) k hk
  | loop =>
    intro k hk
    obtain ⟨i, hi, rfl⟩ := List.mem_map.1 hk
    refine ⟨List.mem_append_left _ hk, ?_⟩
    simp only [Stmt.leaves, List.mem_append, List.mem_map]
    exact .inl ⟨i, hi, rfl⟩
  | _ => simp [Stmt.leaves]

/-- What is in scope after code was bound at its outer level. -/
theorem Code.Formed.exports_left (h : Code.Formed R J X code E O B) :
    ∀ k ∈ O, k ∈ B ∧ k.value ∈ codeLeaves false code := by
  induction h with
  | nil => simp
  | cons hstmt _ _ ihparts ih =>
    intro k hk
    rw [codeLeaves_cons]
    rcases List.mem_append.1 hk with hk | hk
    · obtain ⟨hB, hleft⟩ := hstmt.exports_left ihparts k hk
      exact ⟨List.mem_append_left _ hB, List.mem_append_left _ hleft⟩
    · obtain ⟨hB, hleft⟩ := ih k hk
      exact ⟨List.mem_append_right _ hB, List.mem_append_right _ hleft⟩

theorem Code.Formed.exports_subset (h : Code.Formed R J X code E O B) : O ⊆ escaping code B := by
  intro k hk
  obtain ⟨hB, hleft⟩ := h.exports_left k hk
  exact mem_escaping.2 ⟨hB, codeLeaves_subset_deep code hleft⟩

/-! ### Statements at every depth -/

theorem Stmt.Formed.inner_eq (h : s.Formed R J X next parts E K B) :
    s.inner = parts.flatMap fun p => statements p.code := by
  cases h with
  | @toConsensus _ t late body _ _ _ _ _ _ htimeout _ hbody =>
    obtain ⟨who, join, whoVar, messages, amount, timeout, code⟩ := t
    simp only at htimeout hbody
    subst htimeout hbody
    cases late <;> simp [Stmt.inner]
  | _ => simp [Stmt.inner]

/-- What a part is formed from is in scope where the statement stands, or bound by the statement; the
payment of a round also knows the address that the sender is going to join with. -/
theorem Stmt.Formed.part_known (h : s.Formed R J X next parts E K B) :
    ∀ p ∈ parts, p.binders ⊆ B ∧ ∀ k ∈ p.known, k ∈ X ++ B ∨
      ∃ loc t, next = some (.toConsensus loc t) ∧ t.join = true ∧ k = .pub t.whoVar := by
  cases h with
  | letIn | claim | transfer | stop | ret | cont => simp
  | prompt hfits =>
    simp only [List.mem_singleton, forall_eq]
    exact ⟨List.subset_append_right _ _, fun k hk => .inl (List.mem_append_left _ (hfits.2 hk))⟩
  | branch _ _ ht hf =>
    simp only [List.mem_cons, List.not_mem_nil, or_false, forall_eq_or_imp, forall_eq]
    exact ⟨⟨List.subset_append_left _ _, fun k hk => .inl (List.mem_append_left _ (ht.2 hk))⟩,
      List.subset_append_right _ _, fun k hk => .inl (List.mem_append_left _ (hf.2 hk))⟩
  | only hfits _ hahead =>
    simp only [List.mem_singleton, forall_eq]
    refine ⟨List.Subset.refl _, fun k hk => ?_⟩
    rcases List.mem_append.1 (hfits.2 hk) with hX | hnext
    · exact .inl (List.mem_append_left _ hX)
    · obtain ⟨loc, t, hto, _, hjoin, hk⟩ := hahead k hnext
      exact .inr ⟨loc, t, hto, hjoin, hk⟩
  | @toConsensus _ t late body _ _ _ _ _ hlate _ hfits =>
    intro p hp
    have hbinders : p.binders ⊆ t.learned ++
        (late.toList.map (·.2) ++ [body]).flatMap Part.binders := fun k hk =>
      List.mem_append_right _ (List.mem_flatMap.2 ⟨p, hp, hk⟩)
    refine ⟨hbinders, fun k hk => .inl ?_⟩
    simp only [List.mem_append, List.mem_map, Option.mem_toList, List.mem_singleton] at hp
    rcases hp with ⟨l, hl, rfl⟩ | rfl
    · exact List.mem_append_left _ ((hlate l hl).2.2.2 hk)
    · exact subset_append_left (List.subset_append_left _ _) (hfits.2 hk)
  | fromConsensus hfits =>
    simp only [List.mem_singleton, forall_eq]
    exact ⟨List.Subset.refl _, fun k hk => .inl (List.mem_append_left _ (hfits.2 hk))⟩
  | loop _ hinvariant _ _ _ hcond _ _ _ hbody =>
    have hknown : ∀ {p : Part} {init B : List Known}, p.Fits J (X ++ init) →
        p.known ⊆ X ++ (init ++ B) :=
      fun hfits => List.Subset.trans hfits.2 (subset_append_left (List.subset_append_left _ _))
    simp only [List.mem_cons, List.not_mem_nil, or_false, forall_eq_or_imp, forall_eq]
    refine ⟨⟨?_, fun k hk => .inl (hknown hinvariant hk)⟩, ⟨?_, fun k hk => .inl (hknown hcond hk)⟩,
      ?_, fun k hk => .inl (hknown hbody hk)⟩
    all_goals
      intro k hk
      simp [hk]

/-- The code after a payment learns what the round teaches. -/
theorem Code.Formed.learned_subset {loc : Loc} {t : Transition}
    (h : Code.Formed R J X code E O B) (hhead : code.head? = some (.toConsensus loc t)) :
    t.learned ⊆ B := by
  cases h with
  | nil => simp at hhead
  | cons hstmt =>
    simp only [List.head?_cons, Option.some.injEq] at hhead
    subst hhead
    cases hstmt
    exact List.Subset.trans (List.subset_append_left _ _) (List.subset_append_left _ _)

/-- Every statement of formed code is formed, from variables that the code binds or that are in scope
where it stands. -/
theorem Code.Formed.of_mem_statements (h : Code.Formed R J X code E O B) :
    ∀ st ∈ statements code, ∃ J' X' next parts E' K' B',
      st.Formed R J' X' next parts E' K' B' ∧ X' ⊆ X ++ B ∧ B' ⊆ B ∧
        ∀ p ∈ parts, Code.Formed R p.joined p.known p.code p.returns p.exports p.binders := by
  induction h with
  | nil => simp
  | @cons J X s parts E E' K O B B' rest hstmt hparts hrest ihparts ih =>
    intro st hst
    rw [statements_cons] at hst
    rcases List.mem_cons.1 hst with rfl | hst
    · exact ⟨_, _, _, _, _, _, _, hstmt, List.subset_append_left _ _, List.subset_append_left _ _,
        hparts⟩
    rcases List.mem_append.1 hst with hinner | hlater
    · rw [hstmt.inner_eq] at hinner
      obtain ⟨p, hp, hst⟩ := List.mem_flatMap.1 hinner
      obtain ⟨J', X', next, inside, E', K', Bst, hformed, hX', hBst, hinside⟩ := ihparts p hp st hst
      obtain ⟨hbinders, hknown⟩ := hstmt.part_known p hp
      refine ⟨J', X', next, inside, E', K', Bst, hformed, fun k hk => ?_,
        fun k hk => List.mem_append_left _ (hbinders (hBst hk)), hinside⟩
      rw [← List.append_assoc]
      rcases List.mem_append.1 (hX' hk) with hpart | hbound
      · rcases hknown k hpart with hhere | ⟨loc, t, hnext, hjoin, rfl⟩
        · exact List.mem_append_left _ hhere
        · refine List.mem_append_right _ (hrest.learned_subset hnext ?_)
          simp [Transition.learned, hjoin]
      · exact List.mem_append_left _ (List.mem_append_right _ (hbinders hbound))
    · obtain ⟨J', X', next, inside, E', K', Bst, hformed, hX', hBst, hinside⟩ := ih st hlater
      refine ⟨J', X', next, inside, E', K', Bst, hformed, List.Subset.trans hX' ?_,
        List.Subset.trans hBst (List.subset_append_right _ _), hinside⟩
      rw [List.append_assoc]
      refine subset_append_left (subset_append_right fun k hk => ?_)
      exact (hstmt.exports_left (fun p hp => (hparts p hp).exports_left) k hk).1

end Choreography.Ir
