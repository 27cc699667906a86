import Choreography.Proofs.Effects
import Choreography.Proofs.Staging

/-!
Tidy code: frontends are asked only in private code of their own participants, and, where a program
is strict, nothing follows a statement that ends its list: a round, a commit, a stop or a continue.
Quiet code moreover has no such statement of its own, so that anything may follow it.
-/

namespace Choreography

open Eval Ir

namespace Ir

/-- The lists of statements that stand inside a statement. -/
def Stmt.parts : Stmt → List Code
  | .prompt _ _ _ body | .only _ _ body | .fromConsensus _ body => [body]
  | .branch _ _ onTrue onFalse => [onTrue, onFalse]
  | .toConsensus _ t => t.timeout.toList.map (·.body) ++ [t.body]
  | .loop _ _ invariant cond body => [invariant.code, cond.code, body]
  | .letIn .. | .claim .. | .transfer .. | .stop .. | .ret .. | .cont .. => []

theorem Stmt.inner_eq_flatMap_parts (s : Stmt) : s.inner = s.parts.flatMap statements := by
  cases s with
  | toConsensus loc t =>
    obtain ⟨who, join, whoVar, messages, amount, timeout, body⟩ := t
    cases timeout with
    | none => simp [Stmt.inner, Stmt.parts]
    | some d =>
      obtain ⟨delay, late⟩ := d
      simp [Stmt.inner, Stmt.parts]
  | loop loc init invariant cond body =>
    obtain ⟨_, _, invariant, _⟩ := invariant
    obtain ⟨_, _, cond, _⟩ := cond
    simp [Stmt.inner, Stmt.parts]
  | _ => simp [Stmt.inner, Stmt.parts]

/-! ### All statements of some code -/

/-- All statements satisfy `P`, at every depth. -/
def Code.Everywhere (P : Stmt → Prop) (code : Code) : Prop := ∀ st ∈ statements code, P st

namespace Code

variable {P : Stmt → Prop} {st : Stmt} {code code' : Code} {loc : Loc}

theorem everywhere_append :
    Everywhere P (code ++ code') ↔ code.Everywhere P ∧ code'.Everywhere P := by
  simp [Everywhere, or_imp, forall_and]

theorem Everywhere.single (h : P st) (hparts : ∀ code ∈ st.parts, Everywhere P code) :
    Everywhere P [st] := by
  intro t ht
  simp only [statements_cons, statements_nil, List.append_nil, List.mem_cons,
    Stmt.inner_eq_flatMap_parts, List.mem_flatMap] at ht
  rcases ht with rfl | ⟨code, hcode, hin⟩
  · exact h
  · exact hparts code hcode t hin

theorem Everywhere.dropLast (h : code.Everywhere P) : Everywhere P code.dropLast := by
  rcases List.eq_nil_or_concat code with rfl | ⟨front, last, rfl⟩
  · exact h
  · rw [List.concat_eq_append, List.dropLast_concat]
    exact (everywhere_append.1 (by simpa using h)).1

theorem Everywhere.unprompted {slot : Nat} (h : code.Everywhere P)
    (hprompt : P (.prompt loc slot none code)) (result : Value) :
    (Code.unprompted code loc slot result).Everywhere P := by
  have hprompted : Everywhere P [.prompt loc slot none code] :=
    .single hprompt (by simpa [Stmt.parts] using h)
  unfold Code.unprompted
  split
  · simp [Everywhere]
  · split
    · exact h.dropLast
    · exact hprompted
  · exact hprompted

end Code

/-- Whose frontend a statement asks. -/
def Stmt.asked : Stmt → Option String
  | .letIn _ _ (.interact who _ _ _) => some who
  | _ => none

/-- The participants whose private code the parts of a statement stand in, given those whose private
code the statement stands in. -/
def Stmt.owners (S : List String) : Stmt → List String
  | .only _ who _ => who :: S
  | _ => S

/-- Nothing is left to do in a list after these statements: what follows them in the program stands
inside them, or the protocol or the turn of a loop is over. -/
def Stmt.endsList : Stmt → Bool
  | .toConsensus .. | .fromConsensus .. | .stop .. | .cont .. => true
  | .letIn .. | .claim .. | .transfer .. | .ret .. | .prompt .. | .branch .. | .only ..
  | .loop .. => false

/-- Only the last statement ends the list. -/
def Code.Orderly (code : Code) : Prop := ∀ s ∈ code.dropLast, s.endsList = false

/-- A statement whose frontend questions are asked in private code of their participants, of which
those in `S` are around the statement; and whose parts are in order. -/
inductive Stmt.Kept (strict : Bool) : List String → Stmt → Prop
  | intro {S : List String} {s : Stmt} (hasked : ∀ who, s.asked = some who → who ∈ S)
    (horderly : strict = true → ∀ code ∈ s.parts, Code.Orderly code)
    (hparts : ∀ code ∈ s.parts, ∀ t ∈ code, Kept strict (s.owners S) t) : Kept strict S s

structure Code.Tidy (strict : Bool) (S : List String) (code : Code) : Prop where
  kept : ∀ s ∈ code, s.Kept strict S
  orderly : strict = true → code.Orderly

structure Code.Quiet (strict : Bool) (S : List String) (code : Code) : Prop where
  kept : ∀ s ∈ code, s.Kept strict S
  calm : strict = true → ∀ s ∈ code, s.endsList = false

variable {strict : Bool} {S T : List String} {s : Stmt} {code code' : Code}

/-! ### Statements -/

theorem Stmt.owners_subset (hsub : S ⊆ T) : s.owners S ⊆ s.owners T := by
  cases s with
  | only => exact List.cons_subset_cons _ hsub
  | _ => exact hsub

theorem Stmt.Kept.mono (h : s.Kept strict S) (hsub : S ⊆ T) : s.Kept strict T := by
  induction h generalizing T with
  | intro hasked horderly _ ih =>
    refine .intro (fun who hwho => hsub (hasked who hwho)) horderly fun code hcode t ht => ?_
    exact ih code hcode t ht (Stmt.owners_subset hsub)

theorem Stmt.Kept.of_parts (hasked : ∀ who, s.asked = some who → who ∈ S)
    (h : ∀ code ∈ s.parts, Code.Tidy strict (s.owners S) code) : s.Kept strict S :=
  .intro hasked (fun hstrict code hcode => (h code hcode).orderly hstrict)
    fun code hcode => (h code hcode).kept

/-- A statement with nothing inside that asks no frontend. -/
theorem Stmt.Kept.atom (hasked : s.asked = none) (hparts : s.parts = []) : s.Kept strict S :=
  .of_parts (by simp [hasked]) (by simp [hparts])

theorem Stmt.Kept.prompt {slot : Nat} {result : Option Var} (h : code.Tidy strict S) :
    (Stmt.prompt loc slot result code).Kept strict S :=
  .of_parts (by simp [Stmt.asked]) (by simpa [Stmt.parts, Stmt.owners] using h)

theorem Stmt.Kept.branch {cond : Arg} (ht : code.Tidy strict S) (hf : code'.Tidy strict S) :
    (Stmt.branch loc cond code code').Kept strict S :=
  .of_parts (by simp [Stmt.asked]) (by simpa [Stmt.parts, Stmt.owners] using ⟨ht, hf⟩)

theorem Stmt.Kept.only {who : String} (h : code.Tidy strict (who :: S)) :
    (Stmt.only loc who code).Kept strict S :=
  .of_parts (by simp [Stmt.asked]) (by simpa [Stmt.parts, Stmt.owners] using h)

theorem Stmt.Kept.toConsensus {t : Transition}
    (hlate : ∀ d, t.timeout = some d → Code.Tidy strict S d.body)
    (hbody : Code.Tidy strict S t.body) : (Stmt.toConsensus loc t).Kept strict S := by
  refine .of_parts (by simp [Stmt.asked]) fun code hcode => ?_
  simp only [Stmt.parts, List.mem_append, List.mem_map, Option.mem_toList,
    List.mem_singleton] at hcode
  rcases hcode with ⟨d, hd, rfl⟩ | rfl
  · exact hlate d hd
  · exact hbody

theorem Stmt.Kept.fromConsensus (h : code.Tidy strict S) :
    (Stmt.fromConsensus loc code).Kept strict S :=
  .of_parts (by simp [Stmt.asked]) (by simpa [Stmt.parts, Stmt.owners] using h)

theorem Stmt.Kept.loop {init : Assignment} {invariant cond : Block}
    (hinvariant : Code.Tidy strict S invariant.code) (hcond : Code.Tidy strict S cond.code)
    (hbody : code.Tidy strict S) : (Stmt.loop loc init invariant cond code).Kept strict S :=
  .of_parts (by simp [Stmt.asked])
    (by simpa [Stmt.parts, Stmt.owners] using ⟨hinvariant, hcond, hbody⟩)

/-! ### Lists of statements -/

namespace Code

theorem Quiet.nil : Code.Quiet strict S [] := ⟨by simp, by simp⟩

theorem Quiet.single (hkept : s.Kept strict S) (hcalm : s.endsList = false) :
    Code.Quiet strict S [s] :=
  ⟨by simpa using hkept, fun _ => by simpa using hcalm⟩

theorem Quiet.append (h : code.Quiet strict S) (h' : code'.Quiet strict S) :
    Code.Quiet strict S (code ++ code') := by
  refine ⟨fun s hs => ?_, fun hstrict s hs => ?_⟩
  · exact (List.mem_append.1 hs).elim (h.kept s) (h'.kept s)
  · exact (List.mem_append.1 hs).elim (h.calm hstrict s) (h'.calm hstrict s)

theorem Quiet.mono (h : code.Quiet strict S) (hsub : S ⊆ T) : code.Quiet strict T :=
  ⟨fun s hs => (h.kept s hs).mono hsub, h.calm⟩

theorem Quiet.tidy (h : code.Quiet strict S) : code.Tidy strict S :=
  ⟨h.kept, fun hstrict s hs => h.calm hstrict s (List.dropLast_subset _ hs)⟩

theorem Tidy.single (h : s.Kept strict S) : Code.Tidy strict S [s] :=
  ⟨by simpa using h, fun _ => by simp [Code.Orderly]⟩

theorem Quiet.append_tidy (h : code.Quiet strict S) (h' : code'.Tidy strict S) :
    Code.Tidy strict S (code ++ code') := by
  refine ⟨fun s hs => ?_, fun hstrict s hs => ?_⟩
  · exact (List.mem_append.1 hs).elim (h.kept s) (h'.kept s)
  · rw [List.dropLast_append] at hs
    split at hs
    · exact h.calm hstrict s (List.dropLast_subset _ hs)
    · exact (List.mem_append.1 hs).elim (h.calm hstrict s) (h'.orderly hstrict s)

/-- Without its last statement, tidy code is quiet. -/
theorem Tidy.dropLast (h : code.Tidy strict S) : Code.Quiet strict S code.dropLast :=
  ⟨fun s hs => h.kept s (List.dropLast_subset _ hs), h.orderly⟩

theorem Silent.quiet (h : code.Silent) : code.Quiet strict S := by
  have hatom : ∀ s ∈ code, s.asked = none ∧ s.parts = [] ∧ s.endsList = false := by
    intro s hs
    obtain ⟨loc, v, e, rfl, hask⟩ := h s hs
    refine ⟨?_, rfl, rfl⟩
    cases e with
    | interact => simp [Expr.asks] at hask
    | _ => rfl
  exact ⟨fun s hs => .atom (hatom s hs).1 (hatom s hs).2.1, fun _ s hs => (hatom s hs).2.2⟩

/-- A body with at most one return, without a prompt where it needs none. -/
theorem Tidy.unprompted (h : code.Tidy strict S) (loc : Loc) (slot : Nat) (result : Value) :
    (Code.unprompted code loc slot result).Quiet strict S := by
  have hprompt : Code.Quiet strict S [.prompt loc slot none code] := .single (.prompt h) rfl
  unfold Code.unprompted
  split
  · exact .nil
  · split
    · exact h.dropLast
    · exact hprompt
  · exact hprompt

end Code

/-- What a plain primitive emits is quiet. -/
theorem Stmt.ByPrim.quiet {mode : Mode} {p : Prim} (h : s.ByPrim mode p) (hp : p.Plain strict S) :
    Code.Quiet strict S [s] := by
  cases h with
  | compute hask => exact Code.Silent.quiet (by simpa [Code.Silent] using hask)
  | ask =>
    refine .single (.of_parts ?_ (by simp [Stmt.parts])) rfl
    rintro who ⟨⟩
    exact hp
  | claim => exact .single (.atom rfl rfl) rfl
  | transfer => exact .single (.atom rfl rfl) rfl
  | stop =>
    refine ⟨by simpa using Stmt.Kept.atom rfl rfl, fun hstrict => ?_⟩
    simp [Prim.Plain, hstrict] at hp

/-- No statement inside tidy code is out of order. -/
theorem Stmt.Kept.inner (h : s.Kept strict S) : ∀ t ∈ s.inner, ∃ T, t.Kept strict T := by
  induction h with
  | @intro S s _ _ hparts ih =>
    intro t ht
    rw [Stmt.inner_eq_flatMap_parts] at ht
    obtain ⟨code, hcode, hmem⟩ := List.mem_flatMap.1 ht
    obtain ⟨u, hu, rfl | hin⟩ := mem_statements.1 hmem
    · exact ⟨_, hparts code hcode _ hu⟩
    · exact ih code hcode u hu t hin

end Ir

end Choreography
