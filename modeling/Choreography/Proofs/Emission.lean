import Choreography.Proofs.Formation

/-!
What elaboration emits. Emitted code is formed, and it defines only numbers that its own run has
drawn from the supply, each at most once.
-/

namespace Choreography

open Ir

/-- How often a run from `s` to `s'` draws a number: once if it lies between them. -/
def drawn (s s' : Supply) (i : Nat) : Nat := if s.nextId ≤ i ∧ i < s'.nextId then 1 else 0

theorem drawn_add {s s₁ s' : Supply} (h : s.nextId ≤ s₁.nextId) (h' : s₁.nextId ≤ s'.nextId)
    (i : Nat) : drawn s s₁ i + drawn s₁ s' i = drawn s s' i := by
  grind [drawn]

/-- Code that a run from `s` to `s'` emits. -/
structure Emits (R : Regime) (J : List (String × Var)) (X : List Known) (s s' : Supply)
    (code : Code) (E : List Return) (O B : List Known) : Prop where
  formed : Code.Formed R J X code E O B
  le : s.nextId ≤ s'.nextId
  once : ∀ i, (definitions code).count i ≤ drawn s s' i

variable {R : Regime} {J J' : List (String × Var)} {X Y : List Known} {s s₁ s₂ s' : Supply}
  {code code' : Code} {E E' : List Return} {K O O' B B' : List Known}

namespace Emits

theorem nil (h : s.nextId ≤ s'.nextId) : Emits R J X s s' [] [] [] [] :=
  ⟨.nil, h, by simp⟩

theorem widen (h : Emits R J X s₁ s₂ code E O B) (hbefore : s.nextId ≤ s₁.nextId)
    (hafter : s₂.nextId ≤ s'.nextId) : Emits R J X s s' code E O B := by
  have hle := h.le
  refine ⟨h.formed, by omega, fun i => ?_⟩
  have honce := h.once i
  grind [drawn]

theorem append (h : Emits R J X s s₁ code E O B)
    (h' : Emits R J (X ++ O) s₁ s' code' E' O' B') :
    Emits R J X s s' (code ++ code') (E ++ E') (O ++ O') (B ++ B') := by
  have hle := h.le
  have hle' := h'.le
  refine ⟨h.formed.append h'.formed, by omega, fun i => ?_⟩
  have honce := h.once i
  have honce' := h'.once i
  have hadd := drawn_add hle hle' i
  rw [definitions_append, List.count_append]
  omega

theorem single {st : Stmt} {parts : List Part} (hstmt : st.Formed R J X none parts E K B)
    (hparts : ∀ p ∈ parts, Code.Formed R p.joined p.known p.code p.returns p.exports p.binders)
    (hle : s.nextId ≤ s'.nextId)
    (honce : ∀ i, (definitions [st]).count i ≤ drawn s s' i) :
    Emits R J X s s' [st] E K B :=
  ⟨.single hstmt hparts, hle, honce⟩

/-- Statements that have no parts, bind nothing and return nothing. -/
theorem inert (h : ∀ st ∈ code, st.Formed R J X none [] [] [] [] ∧ st.defines = [])
    (hle : s.nextId ≤ s'.nextId) : Emits R J X s s' code [] [] [] := by
  induction code with
  | nil => exact .nil hle
  | cons st rest ih =>
    obtain ⟨⟨hfirst, hdefines⟩, hothers⟩ := List.forall_mem_cons.1 h
    have hrest := ih hothers
    have hinner := hfirst.inner_eq
    have hhead : st.Formed R J X rest.head? [] [] [] [] := hfirst.before (by simp)
    refine ⟨.cons hhead (by simp) (by simpa using hrest.formed), hle, fun i => ?_⟩
    have honce := hrest.once i
    simpa [hdefines, hinner] using honce

theorem letIn {loc : Loc} {v : Var} {e : Expr} {level : Level} (h : e.Formed R X level v.type)
    (hid : v.id = s.nextId) (hnext : s'.nextId = s.nextId + 1) :
    Emits R J X s s' [.letIn loc v e] [] [⟨level, v⟩] [⟨level, v⟩] := by
  refine single (.letIn h) (by simp) (by omega) fun i => ?_
  simp only [definitions_cons, Stmt.defines, Stmt.inner, definitions_nil, List.flatMap_nil,
    List.append_nil, List.count_singleton, beq_iff_eq]
  grind [drawn]

end Emits

/-! ### Sound results -/

/-- What a run computes: its code is emitted without free returns, and its value is good where the
code has left its variables. -/
def Lifted.Sound {α : Type} (R : Regime) (J : List (String × Var)) (X : List Known)
    (s s' : Supply) (good : List Known → α → Prop) (r : Lifted α) : Prop :=
  ∃ O B, Emits R J X s s' r.code [] O B ∧ good (X ++ O) r.value

namespace Lifted

variable {α β : Type} {good : List Known → α → Prop} {good' : List Known → β → Prop}
  {r : Lifted α}

theorem Sound.plain {a : α} (hle : s.nextId ≤ s'.nextId) (h : good X a) :
    (Lifted.plain a).Sound R J X s s' good :=
  ⟨[], [], .nil hle, by simpa [Lifted.plain] using h⟩

theorem Sound.imp {b : β} (h : r.Sound R J X s s' good)
    (himp : ∀ Y, X ⊆ Y → good Y r.value → good' Y b) :
    Lifted.Sound R J X s s' good' ⟨r.code, b⟩ := by
  obtain ⟨O, B, hcode, hvalue⟩ := h
  exact ⟨O, B, hcode, himp _ (List.subset_append_left X O) hvalue⟩

/-- A result after earlier code, where the variables of that code are in scope. -/
theorem Sound.after (h : Emits R J X s s₁ code [] O B) (h' : r.Sound R J (X ++ O) s₁ s' good) :
    (r.after code).Sound R J X s s' good := by
  obtain ⟨O', B', hcode, hvalue⟩ := h'
  exact ⟨O ++ O', B ++ B', h.append hcode, by simpa [Lifted.after] using hvalue⟩

end Lifted

/-- A computation whose result is sound when it starts from a supply. -/
abbrev Eval.Computes {α : Type} (R : Regime) (J : List (String × Var)) (X : List Known) (s : Supply)
    (good : List Known → α → Prop) (x : Eval (Lifted α)) : Prop :=
  Eval.From s (fun r s' => r.Sound R J X s s' good) x

namespace Eval

variable {α β : Type} {good : List Known → α → Prop}

theorem From.plain {a : α} (h : good X a) :
    Computes R J X s good (Pure.pure (Lifted.plain a)) :=
  .pure (.plain (Nat.le_refl _) h)

theorem Computes.andThen {Q : β → Supply → Prop} {x : Eval (Lifted α)} {f : Lifted α → Eval β}
    (hx : Computes R J X s good x)
    (hf : ∀ r s₁ O B, Emits R J X s s₁ r.code [] O B → good (X ++ O) r.value → From s₁ Q (f r)) :
    From s Q (x >>= f) := by
  refine From.bind hx fun r s₁ h => ?_
  obtain ⟨O, B, hcode, hvalue⟩ := h
  exact hf r s₁ O B hcode hvalue

end Eval

theorem Ctx.lift_emits {ctx : Ctx} {loc : Loc} {label : String} {type : Ty} {e : Expr}
    {level : Level} (h : e.Formed R X level type) :
    Eval.From s (fun r s' => Emits R J X s s' r.code [] [⟨level, r.value⟩] [⟨level, r.value⟩])
      (ctx.lift loc label type e) := by
  refine ⟨fun hrun => ?_⟩
  obtain ⟨v, rfl, hid, rfl, rfl⟩ := Ctx.lift_yields hrun
  exact .letIn h hid rfl

theorem Ctx.liftValue_sound {ctx : Ctx} {loc : Loc} {label : String} {type : Ty} {e : Expr}
    {level : Level} (h : e.Formed R X level type) :
    Eval.Computes R J X s (SecValue.Formed R) (ctx.liftValue loc label type e level) := by
  refine ⟨fun hrun => ?_⟩
  obtain ⟨v, rfl, hid, rfl, rfl⟩ := Ctx.liftValue_yields hrun
  refine ⟨_, _, .letIn h hid rfl, .var ?_⟩
  exact .of_mem (List.mem_append_right X List.mem_cons_self)

end Choreography
