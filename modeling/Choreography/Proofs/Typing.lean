import Choreography.Proofs.Numbering
import Mathlib.Data.List.Flatten

/-!
Programs are well typed. Every statement of a program, at every depth, follows the typing rules of
the intermediate language, and whatever is asked of a frontend is declared for its participant.
-/

namespace Choreography

open Ir

namespace Ir

/-- An operand asks frontends only for what they are declared to offer, at exactly that type. -/
def Arg.Declared (participants : NameMap (NameMap Ty)) (a : Arg) : Prop :=
  ∀ who method type, .interact who method type ∈ a.atoms true →
    Declares participants who method type

/-- The typing rules for statements. All returns to a slot whose result has a variable deliver values
of the variable's type. -/
def Stmt.WellTyped (participants : NameMap (NameMap Ty)) : Stmt → Prop
  | .letIn _ v e => e.HasType participants v.type
  | .claim _ _ _ a => a.type = .bool
  | .transfer _ _ recipient amount => recipient.type = .address ∧ amount.type = .uint256
  | .prompt _ slot (some v) body => ∀ loc value, .ret loc slot value ∈ statements body →
      ∃ result a, value = some result ∧ result.typed? = some (v.type, a)
  | .branch _ cond _ _ => cond.type = .bool
  | .toConsensus _ t => t.whoVar.type = .address ∧ (∀ m ∈ t.messages, m.1.type = m.2.type) ∧
      t.amount.type = .uint256 ∧ ∀ d, t.timeout = some d → d.delay.type = .uint256
  | .loop _ init invariant cond _ => (∀ i ∈ init, i.2.type = i.1.type) ∧
      invariant.result.type = .bool ∧ cond.result.type = .bool
  | .cont _ assignment => ∀ i ∈ assignment, i.2.type = i.1.type
  | .stop .. | .ret .. | .prompt .. | .only .. | .fromConsensus .. => True

variable {R : Regime} {J : List (String × Var)} {X : List Known} {E : List Return}
  {K O B : List Known} {next : Option Stmt} {s : Stmt} {parts : List Part} {code : Code}

/-! ### Returns -/

theorem Stmt.Formed.part_returns (h : s.Formed R J X next parts E K B) :
    ∀ p ∈ parts, ∀ r ∈ p.returns, r ∈ E ∨ r.1 ∈ s.defines := by
  cases h with
  | letIn | claim | transfer | stop | ret | cont => simp
  | prompt _ hslot =>
    simp only [List.mem_singleton, forall_eq, Stmt.defines]
    exact fun r hr => .inr (hslot r hr)
  | branch =>
    simp only [List.mem_cons, List.not_mem_nil, or_false, forall_eq_or_imp, forall_eq]
    exact ⟨fun r hr => .inl (List.mem_append_left _ hr),
      fun r hr => .inl (List.mem_append_right _ hr)⟩
  | only _ hreturns => simp [hreturns]
  | toConsensus => exact fun p hp r hr => .inl (List.mem_flatMap.2 ⟨p, hp, hr⟩)
  | fromConsensus =>
    simp only [List.mem_singleton, forall_eq]
    exact fun r hr => .inl hr
  | loop _ _ hinvariant _ _ _ hcond =>
    simp only [List.mem_cons, List.not_mem_nil, or_false, forall_eq_or_imp, forall_eq, hinvariant,
      hcond, false_implies, implies_true, true_and]
    exact fun r hr => .inl hr

/-- A return goes to a slot outside the code, or to one that the code owns. -/
theorem Code.Formed.ret_mem (h : Code.Formed R J X code E O B) {loc : Loc} {slot : Nat}
    {value : Option Value} :
    .ret loc slot value ∈ statements code →
      (∃ sv : SecValue, (slot, sv) ∈ E ∧ value = some sv.value) ∨ slot ∈ definitions code := by
  induction h with
  | nil => simp
  | @cons J X s parts E E' K O B B' rest hstmt hparts _ ihparts ih =>
    intro hret
    rw [statements_cons] at hret
    rw [definitions_cons, List.mem_append, List.mem_append]
    rcases List.mem_cons.1 hret with hhere | hret
    · cases hhere
      cases hstmt with
      | @ret _ _ sv => exact .inl ⟨sv, by simp, rfl⟩
    rcases List.mem_append.1 hret with hinner | hlater
    · rw [hstmt.inner_eq] at hinner ⊢
      obtain ⟨p, hp, hret⟩ := List.mem_flatMap.1 hinner
      rcases ihparts p hp hret with ⟨sv, hsv, hvalue⟩ | hslot
      · rcases hstmt.part_returns p hp _ hsv with hE | hdefines
        · exact .inl ⟨sv, List.mem_append_left _ hE, hvalue⟩
        · exact .inr (.inl hdefines)
      · obtain ⟨st, hst, hdefines⟩ := List.mem_flatMap.1 hslot
        exact .inr (.inr (.inl (List.mem_flatMap.2 ⟨st, List.mem_flatMap.2 ⟨p, hp, hst⟩, hdefines⟩)))
    · rcases ih hlater with ⟨sv, hsv, hvalue⟩ | hslot
      · exact .inl ⟨sv, List.mem_append_right _ hsv, hvalue⟩
      · exact .inr (.inr (.inr hslot))

/-- What a statement and the code inside it define stands together among the definitions. -/
theorem Code.Formed.definitions_sublist (h : Code.Formed R J X code E O B) :
    ∀ st ∈ statements code, (definitions [st]).Sublist (definitions code) := by
  induction h with
  | nil => simp
  | @cons J X s parts E E' K O B B' rest hstmt hparts _ ihparts ih =>
    intro st hst
    have hsplit : definitions (s :: rest) = definitions [s] ++ definitions rest :=
      definitions_append [s] rest
    rw [statements_cons] at hst
    rw [hsplit]
    rcases List.mem_cons.1 hst with rfl | hst
    · exact List.sublist_append_left _ _
    rcases List.mem_append.1 hst with hinner | hlater
    · rw [hstmt.inner_eq] at hinner
      obtain ⟨p, hp, hst⟩ := List.mem_flatMap.1 hinner
      have hpart : (statements p.code).Sublist (statements [s]) := by
        have hinside := (List.singleton_sublist.2 hp).flatMap fun p => statements p.code
        rw [List.flatMap_singleton] at hinside
        simpa [hstmt.inner_eq] using hinside.cons s
      exact (ihparts p hp st hst).trans
        ((hpart.flatMap Stmt.defines).trans (List.sublist_append_left _ _))
    · exact (ih st hlater).trans (List.sublist_append_right _ _)

/-! ### Statements -/

theorem Stmt.Formed.declared (h : s.Formed R J X next parts E K B) :
    ∀ a ∈ s.operands, a.Declared R.interfaces := by
  intro a ha who method type hatom
  obtain ⟨Y, level, _, hformed⟩ := h.operand a ha
  cases hformed.atom.2 _ hatom with
  | interact _ hoffers => exact hoffers

/-- A formed statement is well typed where every number is defined once. -/
theorem Stmt.Formed.wellTyped (h : s.Formed R J X next parts E K B)
    (hparts : ∀ p ∈ parts, Code.Formed R p.joined p.known p.code p.returns p.exports p.binders)
    (honce : (definitions [s]).Nodup) : s.WellTyped R.interfaces := by
  cases h with
  | letIn h => exact h.type
  | claim _ htype => exact htype
  | transfer _ hrecipient _ hamount => exact ⟨hrecipient, hamount⟩
  | stop | ret | only | fromConsensus => trivial
  | @prompt _ slot result p _ _ _ htype =>
    cases result with
    | none => trivial
    | some v =>
      intro loc value hret
      rcases (hparts p (by simp)).ret_mem hret with ⟨sv, hsv, hvalue⟩ | hslot
      · obtain ⟨a, ha⟩ := htype v rfl _ hsv
        exact ⟨sv.value, a, hvalue, ha⟩
      · -- the slot belongs to the prompt, so nothing inside it owns the number
        simp only [definitions_cons, definitions_nil, Stmt.defines, Stmt.inner, List.append_nil,
          List.singleton_append] at honce
        exact absurd hslot (List.nodup_cons.1 honce).1
  | branch _ htype => exact htype
  | toConsensus haddress _ hmessages _ hamount hlate htimeout =>
    refine ⟨haddress, fun m hm => (hmessages m hm).2, hamount, fun d hd => ?_⟩
    rw [htimeout] at hd
    obtain ⟨l, hl, rfl⟩ := Option.map_eq_some_iff.1 hd
    exact (hlate l hl).2.1
  | loop hinit _ _ _ hinvariant _ _ _ hcond =>
    exact ⟨fun i hi => (hinit i hi).2, hinvariant, hcond⟩
  | cont h => exact fun i hi => (h i hi).2.2

end Ir

/-- Every statement of a compiled program is well typed, and all it asks of frontends is declared. -/
theorem compileBundle_wellTyped {fuel : Nat} {options : Options} {session : Session}
    {bundle : Bundle} {top : String} {p : Program}
    (hcompile : (compileBundle fuel options session bundle top).1 = .ok p) :
    ∀ st ∈ statements p.body, st.WellTyped p.participants ∧
      ∀ a ∈ st.operands, a.Declared p.participants := by
  obtain ⟨O, B, s, s', hemits⟩ := compileBundle_emits false hcompile (by simp)
  intro st hst
  obtain ⟨_, _, _, _, _, _, _, hstmt, _, _, hparts⟩ := hemits.formed.of_mem_statements st hst
  have honce := hemits.definitions_nodup.sublist (hemits.formed.definitions_sublist st hst)
  exact ⟨hstmt.wellTyped hparts honce, hstmt.declared⟩

theorem countingApp_wellTyped :
    ∃ p, (compileBundle 30 {} {} Surface.countingApp "main").1 = .ok p ∧
      ∀ st ∈ statements p.body, st.WellTyped p.participants ∧
        ∀ a ∈ st.operands, a.Declared p.participants := by
  obtain ⟨p, hp⟩ := countingApp_compiles
  exact ⟨p, hp, compileBundle_wellTyped hp⟩

end Choreography
