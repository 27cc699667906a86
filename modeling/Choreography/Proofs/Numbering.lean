import Choreography.Proofs.Compilation
import Mathlib.Data.List.Nodup

/-!
Numbers of variables and slots. Every number has one defining occurrence in a program. The address
of a participant is defined where the participant joins; its later rounds stand inside that round and
use the same variable.
-/

namespace Choreography

open Ir

namespace Ir

mutual

/-- Rounds of participants that have joined use the address of the round that joined them. The list
holds the addresses of the rounds around the statement by which participants have joined. -/
def Stmt.Rejoins (joined : List (String × Nat)) : Stmt → Prop
  | .toConsensus _ ⟨who, join, whoVar, _, _, none, body⟩ =>
    (join = false → (who, whoVar.id) ∈ joined) ∧
      codeRejoins (if join then (who, whoVar.id) :: joined else joined) body
  | .toConsensus _ ⟨who, join, whoVar, _, _, some ⟨_, late⟩, body⟩ =>
    (join = false → (who, whoVar.id) ∈ joined) ∧ codeRejoins joined late ∧
      codeRejoins (if join then (who, whoVar.id) :: joined else joined) body
  | .prompt _ _ _ body | .only _ _ body | .fromConsensus _ body => codeRejoins joined body
  | .branch _ _ onTrue onFalse => codeRejoins joined onTrue ∧ codeRejoins joined onFalse
  | .loop _ _ ⟨_, _, invariant, _⟩ ⟨_, _, cond, _⟩ body =>
    codeRejoins joined invariant ∧ codeRejoins joined cond ∧ codeRejoins joined body
  | .letIn .. | .claim .. | .transfer .. | .stop .. | .ret .. | .cont .. => True

def codeRejoins (joined : List (String × Nat)) : List Stmt → Prop
  | [] => True
  | s :: rest => s.Rejoins joined ∧ codeRejoins joined rest

end

variable {R : Regime} {J : List (String × Var)} {X : List Known} {E : List Return}
  {K O B : List Known} {next : Option Stmt} {s : Stmt} {parts : List Part} {code : Code}

theorem Stmt.Formed.rejoins {joined : List (String × Nat)}
    (h : s.Formed R J X next parts E K B) (hJ : ∀ e ∈ J, (e.1, e.2.id) ∈ joined)
    (hparts : ∀ p ∈ parts, ∀ joined, (∀ e ∈ p.joined, (e.1, e.2.id) ∈ joined) →
      codeRejoins joined p.code) : s.Rejoins joined := by
  have hpart : ∀ p ∈ parts, p.joined ⊆ J → codeRejoins joined p.code :=
    fun p hp hsub => hparts p hp joined fun e he => hJ e (hsub he)
  cases h with
  | letIn | claim | transfer | stop | ret | cont => simp only [Stmt.Rejoins]
  | prompt hfits | only hfits | fromConsensus hfits =>
    simp only [Stmt.Rejoins]
    exact hpart _ (by simp) hfits.1
  | branch _ _ ht hf =>
    simp only [Stmt.Rejoins]
    exact ⟨hpart _ (by simp) ht.1, hpart _ (by simp) hf.1⟩
  | loop _ hinvariant _ _ _ hcond _ _ _ hbody =>
    simp only [Stmt.Rejoins]
    exact ⟨hpart _ (by simp) hinvariant.1, hpart _ (by simp) hcond.1, hpart _ (by simp) hbody.1⟩
  | @toConsensus _ t late body _ hjoined _ _ _ hlate htimeout hfits hbody =>
    obtain ⟨who, join, whoVar, messages, amount, timeout, code⟩ := t
    simp only at htimeout hbody hjoined hfits
    subst htimeout hbody
    have hagain : join = false → (who, whoVar.id) ∈ joined := fun hold => hJ _ (hjoined hold).1
    have hinside : codeRejoins (if join then (who, whoVar.id) :: joined else joined) body.code := by
      refine hparts body (by simp) _ fun e he => ?_
      rcases List.mem_cons.1 (hfits.1 he) with rfl | hold
      · cases join with
        | true => simp
        | false => simpa using hagain rfl
      · have hmem := hJ e hold
        split
        · exact List.mem_cons_of_mem _ hmem
        · exact hmem
    cases late with
    | none =>
      simp only [Option.map_none, Stmt.Rejoins]
      exact ⟨hagain, hinside⟩
    | some l =>
      simp only [Option.map_some, Stmt.Rejoins]
      exact ⟨hagain, hpart l.2 (by simp) (hlate l rfl).2.2.1, hinside⟩

theorem Code.Formed.rejoins (h : Code.Formed R J X code E O B) :
    ∀ joined, (∀ e ∈ J, (e.1, e.2.id) ∈ joined) → codeRejoins joined code := by
  induction h with
  | nil => simp [codeRejoins]
  | cons hstmt _ _ ihparts ih =>
    intro joined hJ
    rw [codeRejoins]
    exact ⟨hstmt.rejoins hJ ihparts, ih joined hJ⟩

end Ir

theorem Emits.definitions_nodup {R : Regime} {J : List (String × Var)} {X : List Known}
    {s s' : Supply} {code : Code} {E : List Return} {O B : List Known}
    (h : Emits R J X s s' code E O B) : (definitions code).Nodup := by
  rw [List.nodup_iff_count_le_one]
  intro i
  have honce := h.once i
  grind [drawn]

/-- Every number is defined once, at a variable or at a slot; a slot and the variable of its result
are one definition. The address that a participant uses again is that of a round around it by which
the same participant has joined. -/
theorem compileBundle_defines_once {fuel : Nat} {options : Options} {session : Session}
    {bundle : Bundle} {top : String} {p : Program}
    (hcompile : (compileBundle fuel options session bundle top).1 = .ok p) :
    (definitions p.body).Nodup ∧
      (∀ loc slot v body, .prompt loc slot (some v) body ∈ statements p.body → v.id = slot) ∧
      codeRejoins [] p.body := by
  obtain ⟨O, B, s, s', hemits⟩ := compileBundle_emits false hcompile (by simp)
  refine ⟨hemits.definitions_nodup, ?_, hemits.formed.rejoins [] (by simp)⟩
  intro loc slot v body hmem
  obtain ⟨_, _, _, _, _, _, _, hstmt, _⟩ := hemits.formed.of_mem_statements _ hmem
  generalize hst : (.prompt loc slot (some v) body : Stmt) = st at hstmt
  cases hstmt with
  | prompt _ _ hid =>
    cases hst
    exact hid v rfl
  | _ => cases hst

theorem countingApp_defines_once :
    ∃ p, (compileBundle 30 {} {} Surface.countingApp "main").1 = .ok p ∧
      (definitions p.body).Nodup ∧
      (∀ loc slot v body, .prompt loc slot (some v) body ∈ statements p.body → v.id = slot) ∧
      codeRejoins [] p.body := by
  obtain ⟨p, hp⟩ := countingApp_compiles
  exact ⟨p, hp, compileBundle_defines_once hp⟩

end Choreography
