import Choreography.Proofs.Delimitation
import Choreography.Proofs.Scoping

/-!
Data of programs. All that a program computes with at run time is data: every variable has a
first-order type, and so has every operand, as long as what the frontends answer is data.
-/

namespace Choreography

open Ir

namespace Ty

/-- Data, or a function whose answers are data. -/
def answersData : Ty → Bool
  | .func _ rng => rng.isFirstOrder
  | t => t.isFirstOrder

theorem allFirstOrder_iff {ts : List Ty} :
    allFirstOrder ts = true ↔ ∀ t ∈ ts, t.isFirstOrder = true := by
  induction ts with
  | nil => simp [allFirstOrder]
  | cons t ts ih => simp [allFirstOrder, ih]

theorem fieldsFirstOrder_iff {fields : List (String × Ty)} :
    fieldsFirstOrder fields = true ↔ ∀ f ∈ fields, f.2.isFirstOrder = true := by
  induction fields with
  | nil => simp [fieldsFirstOrder]
  | cons f fields ih => simp [fieldsFirstOrder, ih]

theorem substAll_uint256 (solutions : List (String × Ty)) : uint256.substAll solutions = uint256 := by
  induction solutions with
  | nil => rfl
  | cons s solutions ih => exact ih

theorem substAll_bool (solutions : List (String × Ty)) : bool.substAll solutions = bool := by
  induction solutions with
  | nil => rfl
  | cons s solutions ih => exact ih

end Ty

namespace Ir

/-- Frontends answer with data, and what they offer without being asked is data. -/
def AnswerData (participants : NameMap (NameMap Ty)) : Prop :=
  ∀ who method type, Declares participants who method type → type.answersData = true

/-- All variables are data. -/
def FirstOrder (X : List Known) : Prop := ∀ k ∈ X, k.value.type.isFirstOrder = true

/-- All values that are returned and have a type are data. -/
def ReturnsData (E : List Return) : Prop :=
  ∀ r ∈ E, ∀ t a, r.2.value.typed? = some (t, a) → t.isFirstOrder = true

/-- The variables that a statement binds or assigns itself. -/
def Stmt.variables : Stmt → List Var
  | .letIn _ v _ => [v]
  | .prompt _ _ result _ => result.toList
  | .toConsensus _ t => t.whoVar :: t.messages.map (·.2)
  | .loop _ init _ _ _ => init.map (·.1)
  | .cont _ assignment => assignment.map (·.1)
  | .claim .. | .transfer .. | .stop .. | .ret .. | .branch .. | .only .. | .fromConsensus .. => []

@[simp] theorem firstOrder_nil : FirstOrder [] := by simp [FirstOrder]

@[simp] theorem firstOrder_append {X Y : List Known} :
    FirstOrder (X ++ Y) ↔ FirstOrder X ∧ FirstOrder Y := by
  simp [FirstOrder, or_imp, forall_and]

theorem FirstOrder.subset {X Y : List Known} (h : FirstOrder Y) (hsub : X ⊆ Y) : FirstOrder X :=
  fun k hk => h k (hsub hk)

@[simp] theorem returnsData_nil : ReturnsData [] := by simp [ReturnsData]

@[simp] theorem returnsData_append {E E' : List Return} :
    ReturnsData (E ++ E') ↔ ReturnsData E ∧ ReturnsData E' := by
  simp [ReturnsData, or_imp, forall_and]

variable {R : Regime} {J : List (String × Var)} {X : List Known} {E : List Return}
  {K O B : List Known} {next : Option Stmt} {s : Stmt} {parts : List Part} {code : Code}

/-! ### Operands and computations -/

theorem FirstOrder.of_sees {level : Level} {v : Var} (hX : FirstOrder X) (h : R.Sees X level v) :
    v.type.isFirstOrder = true := by
  obtain ⟨k, hk, _⟩ := h
  exact hX _ hk

theorem Arg.Formed.firstOrder {level : Level} {a : Arg} (h : a.Formed R X level)
    (hX : FirstOrder X) (hdata : AnswerData R.interfaces) : a.type.isFirstOrder = true := by
  induction h with
  | var hsees => exact hX.of_sees hsees
  | @const _ c => cases c <;> rfl
  | tuple _ ih =>
    simp only [Arg.type, Arg.types_eq_map, Ty.isFirstOrder, Ty.allFirstOrder_iff]
    exact List.forall_mem_map.2 ih
  | object _ ih =>
    simp only [Arg.type, Arg.fieldTypes_eq_map, Ty.isFirstOrder, Ty.fieldsFirstOrder_iff]
    exact List.forall_mem_map.2 ih
  | @interact _ who method type _ hoffers hfunc =>
    have hanswers := hdata _ _ _ hoffers
    simp only [Arg.type]
    cases type with
    | func dom rng => exact absurd rfl (hfunc dom rng)
    | _ => exact hanswers

/-- The result of a computation on data is data. -/
theorem Expr.HasType.firstOrder {e : Expr} {t : Ty} (h : e.HasType R.interfaces t)
    (hdata : AnswerData R.interfaces)
    (hoperands : ∀ a ∈ e.operands, a.type.isFirstOrder = true) : t.isFirstOrder = true := by
  cases h with
  | @prim op args _ happlies =>
    obtain ⟨formals, result, solutions, hop, hdom, rfl⟩ := happlies
    cases op with
    | ifThenElse =>
      -- the result has the type of either alternative
      simp only [Op.type, Ty.stripForAll, Ty.func.injEq] at hop
      obtain ⟨rfl, rfl⟩ := hop
      have hmem : (Ty.var "b").substAll solutions ∈ args.map Arg.type := by
        rw [← hdom]
        simp
      obtain ⟨a, ha, htype⟩ := List.mem_map.1 hmem
      rw [← htype]
      exact hoperands a ha
    | _ =>
      simp only [Op.type, Ty.stripForAll, Ty.func.injEq] at hop
      obtain ⟨_, rfl⟩ := hop
      simp [Ty.substAll_uint256, Ty.substAll_bool, Ty.isFirstOrder]
  | @arrayRef _ array index _ _ harray =>
    have helem := hoperands array (by simp [Expr.operands])
    simpa [harray, Ty.isFirstOrder] using helem
  | @tupleRef tuple i types _ htuple hcomponent =>
    have helems := hoperands tuple (by simp [Expr.operands])
    rw [htuple, Ty.isFirstOrder, Ty.allFirstOrder_iff] at helems
    exact helems t (List.mem_of_getElem? hcomponent)
  | @objectRef object field _ hfield =>
    have hobject := hoperands object (by simp [Expr.operands])
    unfold Ty.field? at hfield
    split at hfield
    · rename_i hfields
      rw [hfields, Ty.isFirstOrder, Ty.fieldsFirstOrder_iff] at hobject
      obtain ⟨before, after, rfl, _⟩ := List.lookup_eq_some_iff.1 hfield
      exact hobject (_, t) (List.mem_append_right _ List.mem_cons_self)
    · cases hfield
  | interact hdeclared => exact hdata _ _ _ hdeclared
  | digest => rfl

/-! ### Returns and prompts -/

/-- What formed code returns is what it delivers. -/
theorem Stmt.Formed.returned (h : s.Formed R J X next parts E K B)
    (hparts : ∀ p ∈ parts, codeReturned p.code = p.returns.map (·.2.value)) :
    s.returned = E.map (·.2.value) := by
  cases h with
  | ret => simp [Stmt.returned]
  | branch =>
    simp only [List.mem_cons, List.not_mem_nil, or_false, forall_eq_or_imp, forall_eq] at hparts
    simp [Stmt.returned, hparts]
  | @toConsensus _ t late body _ _ _ _ _ _ htimeout _ hbody =>
    have hbodyReturned := hparts body (by simp)
    rw [Stmt.returned_toConsensus, htimeout, hbody, hbodyReturned]
    cases late with
    | none => simp
    | some l => simp [hparts l.2 (by simp)]
  | fromConsensus => simpa [Stmt.returned] using hparts
  | loop => simpa [Stmt.returned] using hparts _ (by simp)
  | letIn | claim | transfer | stop | prompt | only | cont => simp [Stmt.returned]

theorem Code.Formed.returned (h : Code.Formed R J X code E O B) :
    codeReturned code = E.map (·.2.value) := by
  induction h with
  | nil => simp
  | cons hstmt _ _ ihparts ih => rw [codeReturned_cons, hstmt.returned ihparts, ih, List.map_append]

/-- Jumps stay in bounds in all code inside a statement, whatever the bounds are there. -/
theorem Stmt.Jumps.of_mem_inner {slot : Option Nat} {allowed : Assignment → Prop}
    (h : s.Jumps slot allowed) :
    ∀ st ∈ s.inner, ∃ slot' allowed', st.Jumps slot' allowed' := by
  have hcode : ∀ {code : Code} {slot : Option Nat} {allowed : Assignment → Prop},
      code.Jumps slot allowed →
      (∀ s ∈ code, ∀ st ∈ s.inner, ∃ slot' allowed', st.Jumps slot' allowed') →
      ∀ st ∈ statements code, ∃ slot' allowed', st.Jumps slot' allowed' := by
    intro code slot allowed hjumps hinner st hst
    obtain ⟨s, hs, rfl | hmem⟩ := mem_statements.1 hst
    · exact ⟨slot, allowed, hjumps _ hs⟩
    · exact hinner s hs st hmem
  induction h with
  | letIn | claim | transfer | stop | ret | cont => simp [Stmt.inner]
  | prompt h _ ih | only h ih | fromConsensus h ih =>
    simp only [Stmt.inner]
    exact hcode h ih
  | branch ht hf iht ihf =>
    simp only [Stmt.inner, List.mem_append]
    rintro st (hst | hst)
    · exact hcode ht iht st hst
    · exact hcode hf ihf st hst
  | @toConsensus _ _ _ t hlate hbody ihlate ih =>
    obtain ⟨who, join, whoVar, messages, amount, timeout, body⟩ := t
    cases timeout with
    | none =>
      simp only [Stmt.inner]
      exact hcode hbody ih
    | some d =>
      obtain ⟨delay, late⟩ := d
      simp only [Stmt.inner, List.mem_append]
      rintro st (hst | hst)
      · exact hcode (hlate _ rfl) (ihlate _ rfl) st hst
      · exact hcode hbody ih st hst
  | @loop _ _ _ _ invariant cond _ hinvariant hcond hbody ihinvariant ihcond ih =>
    obtain ⟨_, _, invariantCode, _⟩ := invariant
    obtain ⟨_, _, condCode, _⟩ := cond
    simp only [Stmt.inner, List.mem_append]
    rintro st ((hst | hst) | hst)
    · exact hcode hinvariant ihinvariant st hst
    · exact hcode hcond ihcond st hst
    · exact hcode hbody ih st hst

/-- A prompt of the code that nothing returns to has no result but null. -/
def Code.NullUnreturned (code : Code) : Prop :=
  ∀ loc slot v body, .prompt loc slot (some v) body ∈ statements code →
    codeReturned body = [] → v.type = .null

theorem Code.Jumps.nullUnreturned {slot : Option Nat} {allowed : Assignment → Prop}
    (h : code.Jumps slot allowed) : code.NullUnreturned := by
  intro loc slot v body hmem hnone
  obtain ⟨s, hs, rfl | hinner⟩ := mem_statements.1 hmem
  · cases h _ hs with
    | prompt _ hnull => exact hnull v rfl hnone
  · obtain ⟨_, _, hjumps⟩ := (h s hs).of_mem_inner _ hinner
    cases hjumps with
    | prompt _ hnull => exact hnull v rfl hnone

/-! ### Statements -/

/-- The sender of a round is known by an address. -/
theorem Code.Formed.head_address {loc : Loc} {t : Transition} (h : Code.Formed R J X code E O B)
    (hhead : code.head? = some (.toConsensus loc t)) : t.whoVar.type = .address := by
  cases h with
  | nil => simp at hhead
  | cons hstmt =>
    simp only [List.head?_cons, Option.some.injEq] at hhead
    subst hhead
    cases hstmt with
    | toConsensus haddress => exact haddress

/-- What a formed statement binds and returns is data, where all in scope is. -/
theorem Stmt.Formed.firstOrder (h : s.Formed R J X next parts E K B)
    (hdata : AnswerData R.interfaces) (hX : FirstOrder X)
    (hparts : ∀ p ∈ parts, FirstOrder p.known → FirstOrder p.binders ∧ ReturnsData p.returns)
    (hreturned : ∀ p ∈ parts, codeReturned p.code = p.returns.map (·.2.value))
    (hnull : ∀ loc slot v body, s = .prompt loc slot (some v) body → codeReturned body = [] →
      v.type = .null)
    (hnext : ∀ loc t, next = some (.toConsensus loc t) → t.whoVar.type = .address) :
    FirstOrder B ∧ ReturnsData E := by
  have hpart : ∀ p ∈ parts, p.Fits J X → FirstOrder p.binders ∧ ReturnsData p.returns :=
    fun p hp hfits => hparts p hp (hX.subset hfits.2)
  cases h with
  | letIn h =>
    have htype := h.type.firstOrder hdata fun a ha => (h.operands a ha).firstOrder hX hdata
    simpa [FirstOrder] using htype
  | claim | transfer | stop | cont => simp
  | @ret _ slot sv h =>
    refine ⟨by simp, ?_⟩
    simp only [ReturnsData, List.mem_singleton, forall_eq]
    intro t a ht
    obtain ⟨hformed, rfl⟩ := h.typed? ht
    exact hformed.firstOrder hX hdata
  | @prompt loc slot result p hfits _ _ htype =>
    obtain ⟨hbinders, hreturns⟩ := hpart p (by simp) hfits
    refine ⟨firstOrder_append.2 ⟨?_, hbinders⟩, by simp⟩
    intro k hk
    obtain ⟨v, hv, rfl⟩ := List.mem_map.1 hk
    obtain rfl := Option.mem_toList.1 hv
    rcases List.eq_nil_or_concat p.returns with hnone | ⟨rest, r, hsome⟩
    · have hunreturned : codeReturned p.code = [] := by
        rw [hreturned p (by simp), hnone, List.map_nil]
      rw [show (Labelled.pub v).value = v from rfl, hnull _ _ _ _ rfl hunreturned]
      rfl
    · have hr : r ∈ p.returns := by simp [hsome]
      obtain ⟨a, ha⟩ := htype v rfl r hr
      exact hreturns r hr _ a ha
  | @branch _ _ t f _ _ ht hf =>
    obtain ⟨htBinders, htReturns⟩ := hpart t (by simp) ht
    obtain ⟨hfBinders, hfReturns⟩ := hpart f (by simp) hf
    exact ⟨firstOrder_append.2 ⟨htBinders, hfBinders⟩, returnsData_append.2 ⟨htReturns, hfReturns⟩⟩
  | @only _ _ p ahead hfits _ hahead =>
    have hknown : FirstOrder (X ++ ahead) := by
      refine firstOrder_append.2 ⟨hX, fun k hk => ?_⟩
      obtain ⟨loc, t, hto, _, _, rfl⟩ := hahead k hk
      rw [show (Labelled.pub t.whoVar).value = t.whoVar from rfl, hnext loc t hto]
      rfl
    exact ⟨(hparts p (by simp) (hknown.subset hfits.2)).1, by simp⟩
  | @toConsensus _ t late body haddress _ hmessages _ _ hlate _ hfits _ =>
    have hlearned : FirstOrder t.learned := by
      refine firstOrder_append.2 ⟨fun k hk => ?_, fun k hk => ?_⟩
      · obtain ⟨m, hm, rfl⟩ := List.mem_map.1 hk
        obtain ⟨hformed, htype⟩ := hmessages m hm
        rw [show (Labelled.pub m.2).value = m.2 from rfl, ← htype]
        exact hformed.firstOrder hX hdata
      · split at hk
        · obtain rfl := List.mem_singleton.1 hk
          rw [show (Labelled.pub t.whoVar).value = t.whoVar from rfl, haddress]
          rfl
        · simp at hk
    have hinside : ∀ p ∈ late.toList.map (·.2) ++ [body],
        FirstOrder p.binders ∧ ReturnsData p.returns := by
      intro p hp
      rcases List.mem_append.1 hp with hmem | hmem
      · obtain ⟨l, hl, rfl⟩ := List.mem_map.1 hmem
        exact hpart l.2 hp (hlate l (Option.mem_toList.1 hl)).2.2
      · obtain rfl := List.mem_singleton.1 hmem
        exact hparts p hp ((firstOrder_append.2 ⟨hX, hlearned⟩).subset hfits.2)
    refine ⟨firstOrder_append.2 ⟨hlearned, fun k hk => ?_⟩, fun r hr => ?_⟩
    · obtain ⟨p, hp, hmem⟩ := List.mem_flatMap.1 hk
      exact (hinside p hp).1 k hmem
    · obtain ⟨p, hp, hmem⟩ := List.mem_flatMap.1 hr
      exact (hinside p hp).2 r hmem
  | @fromConsensus _ p hfits => exact hpart p (by simp) hfits
  | @loop _ init _ _ _ _ invariant cond body _ _ hinit hinvariant _ _ _ hcond _ _ _ hbody =>
    have hvars : FirstOrder (init.map fun i => Labelled.pub i.1) := by
      intro k hk
      obtain ⟨i, hi, rfl⟩ := List.mem_map.1 hk
      obtain ⟨hformed, htype⟩ := hinit i hi
      rw [show (Labelled.pub i.1).value = i.1 from rfl, ← htype]
      exact hformed.firstOrder hX hdata
    have hknown := firstOrder_append.2 ⟨hX, hvars⟩
    obtain ⟨hinvariantBinders, _⟩ := hparts invariant (by simp) (hknown.subset hinvariant.2)
    obtain ⟨hcondBinders, _⟩ := hparts cond (by simp) (hknown.subset hcond.2)
    obtain ⟨hbodyBinders, hbodyReturns⟩ := hparts body (by simp) (hknown.subset hbody.2)
    simp only [firstOrder_append]
    exact ⟨⟨hvars, ⟨hinvariantBinders, hcondBinders⟩, hbodyBinders⟩, hbodyReturns⟩

/-- What formed code binds and returns is data, where all in scope is. -/
theorem Code.Formed.firstOrder (h : Code.Formed R J X code E O B)
    (hdata : AnswerData R.interfaces) (hX : FirstOrder X) (hnull : code.NullUnreturned) :
    FirstOrder B ∧ ReturnsData E := by
  induction h with
  | nil => simp
  | @cons J X s parts E E' K O B B' rest hstmt hparts hrest ihparts ih =>
    have hinside : ∀ p ∈ parts, FirstOrder p.known →
        FirstOrder p.binders ∧ ReturnsData p.returns := by
      refine fun p hp hknown => ihparts p hp hknown fun loc slot v body hmem => ?_
      refine hnull loc slot v body ?_
      rw [statements_cons, hstmt.inner_eq]
      exact List.mem_cons_of_mem _ (List.mem_append_left _ (List.mem_flatMap.2 ⟨p, hp, hmem⟩))
    obtain ⟨hB, hE⟩ := hstmt.firstOrder hdata hX hinside (fun p hp => (hparts p hp).returned)
      (fun loc slot v body heq => hnull loc slot v body (by simp [heq]))
      (fun loc t hhead => hrest.head_address hhead)
    have hK : FirstOrder K := fun k hk =>
      hB k (hstmt.exports_left (fun p hp => (hparts p hp).exports_left) k hk).1
    obtain ⟨hB', hE'⟩ := ih (firstOrder_append.2 ⟨hX, hK⟩) fun loc slot v body hmem =>
      hnull loc slot v body (by simp [hmem])
    exact ⟨firstOrder_append.2 ⟨hB, hB'⟩, returnsData_append.2 ⟨hE, hE'⟩⟩

/-- The variables of a formed statement are in scope or bound by it, but for the address of a sender
that has joined before. -/
theorem Stmt.Formed.variables_firstOrder (h : s.Formed R J X next parts E K B)
    (hX : FirstOrder X) (hB : FirstOrder B) : ∀ v ∈ s.variables, v.type.isFirstOrder = true := by
  cases h with
  | @letIn _ v _ level => simpa [Stmt.variables] using hB ⟨level, v⟩ (by simp)
  | prompt =>
    intro v hv
    exact hB (.pub v) (List.mem_append_left _ (List.mem_map_of_mem hv))
  | @toConsensus _ t _ _ haddress =>
    intro v hv
    rcases List.mem_cons.1 hv with rfl | hmessage
    · rw [haddress]
      rfl
    · obtain ⟨m, hm, rfl⟩ := List.mem_map.1 hmessage
      refine hB (.pub m.2) (List.mem_append_left _ (List.mem_append_left _ ?_))
      exact List.mem_map_of_mem (f := fun m : Arg × Var => Labelled.pub m.2) hm
  | @loop _ init =>
    intro v hv
    obtain ⟨i, hi, rfl⟩ := List.mem_map.1 hv
    refine hB (.pub i.1) (List.mem_append_left _ ?_)
    exact List.mem_map_of_mem (f := fun i : Var × Arg => Labelled.pub i.1) hi
  | cont h =>
    intro v hv
    obtain ⟨i, hi, rfl⟩ := List.mem_map.1 hv
    exact hX.of_sees (h i hi).1
  | claim | transfer | stop | ret | branch | only | fromConsensus => simp [Stmt.variables]

end Ir

/-- Everything that a program computes with is data, as long as the frontends of its participants
answer with data and offer, besides functions, nothing else. The variables that its statements bind
and assign have first-order types, and so have the operands that they mention, at any depth, and the
variables in what they return. -/
theorem compileBundle_computes_with_data {fuel : Nat} {options : Options} {session : Session}
    {bundle : Bundle} {top : String} {p : Program}
    (hcompile : (compileBundle fuel options session bundle top).1 = .ok p)
    (hdata : AnswerData p.participants) :
    ∀ st ∈ statements p.body,
      (∀ v ∈ st.variables, v.type.isFirstOrder = true) ∧
      (∀ a ∈ st.operands, ∀ x ∈ a :: a.atoms true, x.type.isFirstOrder = true) ∧
      ∀ loc slot value v, st = .ret loc slot (some value) → value.Mentions v →
        v.type.isFirstOrder = true := by
  intro st hst
  obtain ⟨O, B, _, _, hemits⟩ := compileBundle_emits false hcompile (by simp)
  have hnull : p.body.NullUnreturned := by
    obtain ⟨_, _, _, _, _, r, _, hrun, hbody⟩ := compileBundle_evaluates hcompile
    rw [hbody]
    exact ((evaluator_delimits fuel).stmts hrun).code.nullUnreturned
  obtain ⟨hB, _⟩ := hemits.formed.firstOrder hdata firstOrder_nil hnull
  obtain ⟨_, X', _, parts, _, _, B', hformed, hX', hB', hparts⟩ :=
    hemits.formed.of_mem_statements st hst
  rw [List.nil_append] at hX'
  have hexports : FirstOrder (parts.flatMap Part.exports) := by
    intro k hk
    obtain ⟨q, hq, hmem⟩ := List.mem_flatMap.1 hk
    exact hB k (hB' ((hformed.part_known q hq).1 ((hparts q hq).exports_left k hmem).1))
  refine ⟨hformed.variables_firstOrder (hB.subset hX') (hB.subset hB'), fun a ha x hx => ?_, ?_⟩
  · obtain ⟨Y, level, hY, hformedArg⟩ := hformed.operand a ha
    have hknown : FirstOrder Y := FirstOrder.subset (firstOrder_append.2
      ⟨hB.subset hX', firstOrder_append.2 ⟨hB.subset hB', hexports⟩⟩) hY
    rcases List.mem_cons.1 hx with rfl | hatom
    · exact hformedArg.firstOrder hknown hdata
    · exact (hformedArg.atom.2 x hatom).firstOrder hknown hdata
  · rintro loc slot value v rfl hmentions
    cases hformed with
    | ret hvalue =>
      obtain ⟨k, hk, rfl⟩ := List.mem_map.1 (hmentions.mem hvalue)
      exact hB k (hX' hk)

theorem countingApp_computes_with_data :
    ∃ p, (compileBundle 30 {} {} Surface.countingApp "main").1 = .ok p ∧
      AnswerData p.participants ∧
      ∀ st ∈ statements p.body,
        (∀ v ∈ st.variables, v.type.isFirstOrder = true) ∧
        (∀ a ∈ st.operands, ∀ x ∈ a :: a.atoms true, x.type.isFirstOrder = true) ∧
        ∀ loc slot value v, st = .ret loc slot (some value) → value.Mentions v →
          v.type.isFirstOrder = true := by
  obtain ⟨p, hp, hall⟩ := exists_ok_of_any
    (f := fun p : Program => p.participants.entries.all fun e =>
      e.2.entries.all fun m => m.2.answersData)
    (x := (compileBundle 30 {} {} Surface.countingApp "main").1) (by decide +kernel)
  have hdata : AnswerData p.participants := by
    rintro who method type ⟨methods, hmethods, hmethod⟩
    have hmethodsAll := List.all_eq_true.1 hall _ (OrderedMap.mem_of_get? hmethods)
    exact List.all_eq_true.1 hmethodsAll _ (OrderedMap.mem_of_get? hmethod)
  exact ⟨p, hp, hdata, compileBundle_computes_with_data hp hdata⟩

namespace Surface

/-- The participant publishes what it knows as `y`. -/
def publishing (y : Expr) : List Stmt :=
  [.expr here (method (name "A") "only" [thunk [define "y" (apply "declassify" [y])]]),
   .expr here (method (name "A") "publish" [name "y"]), .expr here (apply "commit" [])]

/-- The type of functions that give numbers. -/
def givesNumber : Expr := apply "Fun" [.array here [], name "UInt256"]

/-- The frontend offers a tuple of a function, and the participant publishes it. -/
def functionInTuple : Bundle :=
  offeringApp (apply "Tuple" [givesNumber]) (publishing (.dot here (name "interact") "x"))

/-- The frontend answers with a function, and the participant publishes it. -/
def functionAnswered : Bundle :=
  offeringApp (apply "Fun" [.array here [], givesNumber])
    (publishing (method (name "interact") "x" []))

end Surface

/-- Functions get into programs where frontends give them: what is offered or answered is looked at
on the outside only. -/
theorem functions_are_published :
    (∃ p, (compileBundle 30 {} {} Surface.functionInTuple "main").1 = .ok p ∧
      ∃ st ∈ statements p.body, (∃ a ∈ st.operands, a.type.isFirstOrder = false) ∧
        ∃ v ∈ st.variables, v.type.isFirstOrder = false) ∧
    ∃ p, (compileBundle 30 {} {} Surface.functionAnswered "main").1 = .ok p ∧
      ∃ st ∈ statements p.body, (∃ a ∈ st.operands, a.type.isFirstOrder = false) ∧
        ∃ v ∈ st.variables, v.type.isFirstOrder = false := by
  have hcheck : ∀ {bundle : Bundle},
      ((compileBundle 30 {} {} bundle "main").1.toOption.any fun p =>
        (statements p.body).any fun st => st.operands.any (fun a => !a.type.isFirstOrder) &&
          st.variables.any fun v => !v.type.isFirstOrder) = true →
      ∃ p, (compileBundle 30 {} {} bundle "main").1 = .ok p ∧
        ∃ st ∈ statements p.body, (∃ a ∈ st.operands, a.type.isFirstOrder = false) ∧
          ∃ v ∈ st.variables, v.type.isFirstOrder = false := by
    intro bundle h
    obtain ⟨p, hp, hany⟩ := exists_ok_of_any h
    exact ⟨p, hp, by simpa using hany⟩
  exact ⟨hcheck (by decide +kernel), hcheck (by decide +kernel)⟩

end Choreography
