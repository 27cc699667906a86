import Choreography.Proofs.Folding
import Choreography.Proofs.Fuel
import Choreography.Proofs.Literals
import Choreography.Proofs.Lookup
import Choreography.Proofs.Shapes

/-!
Constant expressions. Half of the operators are operations that are computed at once, and half are
functions of the standard library, which are applied in place. Either way an expression of literals
and operators evaluates to what it is worth in mathematics, is known to everyone, and needs no code.
-/

namespace Choreography

open Eval

/-! ### Computations that arrive -/

namespace Eval

variable {α β : Type} {x : Nat → Eval α} {P Q : α → Prop} {R : β → Prop}

/-- From some depth on the computation has one result, and it satisfies `Q`. -/
def Arrives (x : Nat → Eval α) (Q : α → Prop) : Prop :=
  ∀ s, ∃ depth a s', (∀ fuel, depth ≤ fuel → (x fuel).Yields s a s') ∧ Q a

namespace Arrives

theorem of_yields {x : Eval α} (h : ∀ s, ∃ a s', x.Yields s a s' ∧ Q a) : Arrives (fun _ => x) Q := by
  intro s
  obtain ⟨a, s', hrun, ha⟩ := h s
  exact ⟨0, a, s', fun _ _ => hrun, ha⟩

theorem pure {a : α} (h : Q a) : Arrives (fun _ => (Pure.pure a : Eval α)) Q :=
  of_yields fun s => ⟨a, s, rfl, h⟩

theorem bind {f : Nat → α → Eval β} (hx : Arrives x P)
    (hf : ∀ a, P a → Arrives (fun fuel => f fuel a) R) :
    Arrives (fun fuel => x fuel >>= f fuel) R := by
  intro s
  obtain ⟨depth, a, middle, hrun, ha⟩ := hx s
  obtain ⟨depth', b, s', hrun', hb⟩ := hf a ha middle
  refine ⟨max depth depth', b, s', fun fuel hfuel => ?_, hb⟩
  exact yields_bind.2 ⟨a, middle, hrun fuel (by omega), hrun' fuel (by omega)⟩

theorem imp (h : Arrives x P) (himp : ∀ a, P a → Q a) : Arrives x Q := by
  intro s
  obtain ⟨depth, a, s', hrun, ha⟩ := h s
  exact ⟨depth, a, s', hrun, himp a ha⟩

theorem of_succ (h : Arrives (fun fuel => x (fuel + 1)) Q) : Arrives x Q := by
  intro s
  obtain ⟨depth, a, s', hrun, ha⟩ := h s
  refine ⟨depth + 1, a, s', fun fuel hfuel => ?_, ha⟩
  obtain ⟨fuel, rfl⟩ := Nat.exists_eq_add_of_le' (Nat.le_of_add_left_le hfuel)
  exact hrun fuel (by omega)

end Arrives

end Eval

/-! ### Readings -/

/-- What an expression of literals and operators is worth. -/
inductive Constant
  | int (n : Int)
  | bool (b : Bool)

/-- What an operator makes of two constants; shifts round down, and are read up to the largest amount
that is folded. -/
def Surface.BinaryOp.reading? : Surface.BinaryOp → Constant → Constant → Option Constant
  | .plus, .int a, .int b => some (.int (a + b))
  | .minus, .int a, .int b => some (.int (a - b))
  | .times, .int a, .int b => some (.int (a * b))
  | .bitAnd, .int a, .int b => some (.int (a.land b))
  | .bitOr, .int a, .int b => some (.int (a.lor b))
  | .bitXor, .int a, .int b => some (.int (a.xor b))
  | .shiftLeft, .int a, .int n => if |n| ≤ 65536 then some (.int ⌊(a : ℚ) * 2 ^ n⌋) else none
  | .shiftRight, .int a, .int n => if |n| ≤ 65536 then some (.int ⌊(a : ℚ) / 2 ^ n⌋) else none
  | .lt, .int a, .int b => some (.bool (a < b))
  | .le, .int a, .int b => some (.bool (a ≤ b))
  | .eq, .int a, .int b => some (.bool (a = b))
  | .ge, .int a, .int b => some (.bool (a ≥ b))
  | .gt, .int a, .int b => some (.bool (a > b))
  | .neq, .int a, .int b => some (.bool (a ≠ b))
  | .and, .bool a, .bool b => some (.bool (a && b))
  | .or, .bool a, .bool b => some (.bool (a || b))
  | _, _, _ => none

def Surface.UnaryOp.reading? : Surface.UnaryOp → Constant → Option Constant
  | .minus, .int n => some (.int (-n))
  | .not, .bool b => some (.bool !b)
  | _, _ => none

/-- The expression is built from literals by operators on constants of the right kind, and this is
what it is worth. -/
inductive Surface.Expr.Reads : Surface.Expr → Constant → Prop
  | int {loc : Loc} {text : String} {radix : Nat} {n : Int} (h : Integer.Literal text radix n) :
    Reads (.int loc text radix) (.int n)
  | bool {loc : Loc} {b : Bool} : Reads (.bool loc b) (.bool b)
  | paren {loc : Loc} {e : Surface.Expr} {k : Constant} (h : Reads e k) : Reads (.paren loc e) k
  | binary {loc : Loc} {op : Surface.BinaryOp} {lhs rhs : Surface.Expr} {k k₁ k₂ : Constant}
    (hlhs : Reads lhs k₁) (hrhs : Reads rhs k₂) (h : op.reading? k₁ k₂ = some k) :
    Reads (.binary loc op lhs rhs) k
  | unary {loc : Loc} {op : Surface.UnaryOp} {e : Surface.Expr} {k k₁ : Constant} (he : Reads e k₁)
    (h : op.reading? k₁ = some k) : Reads (.unary loc op e) k
  | ternary {loc : Loc} {cond onTrue onFalse : Surface.Expr} {b : Bool} {k₁ k₂ : Constant}
    (hcond : Reads cond (.bool b)) (hTrue : Reads onTrue k₁) (hFalse : Reads onFalse k₂) :
    Reads (.ternary loc cond onTrue onFalse) (if b then k₁ else k₂)

/-! ### Operations -/

/-- The value of a constant that was written or computed at `loc`. -/
def Constant.value (loc : Loc) : Constant → Value
  | .int n => .int loc n
  | .bool b => .bool loc b

/-- Folding an operation gives what its operator is read as. -/
theorem Surface.BinaryOp.fold?_operation {op : Surface.BinaryOp} {o : Ir.Op}
    (ho : op.operation? = some o) {k₁ k₂ k : Constant} (h : op.reading? k₁ k₂ = some k) (loc : Loc) :
    ∃ a b, k₁ = .int a ∧ k₂ = .int b ∧ o.fold? loc a b = some (k.value loc) := by
  rcases k₁ with a | a <;> rcases k₂ with b | b
  · refine ⟨a, b, rfl, rfl, ?_⟩
    cases op with
    | shiftLeft =>
      cases ho
      simp only [reading?] at h
      split at h <;> cases h
      simp [Ir.Op.fold?, Integer.shiftLeft_eq, *, Constant.value]
    | shiftRight =>
      cases ho
      simp only [reading?] at h
      split at h <;> cases h
      simp [Ir.Op.fold?, Integer.shiftRight_eq_shiftLeft_neg, Integer.shiftLeft_eq, *, Constant.value,
        div_eq_mul_inv]
    | _ =>
      cases ho <;> cases h <;>
        simp [Ir.Op.fold?, Constant.value, Integer.land_eq, Integer.lor_eq, Integer.lxor_eq]
  all_goals cases op <;> cases ho <;> cases h

/-! ### Evaluation -/

/-- A constant that everyone knows. -/
def SecValue.Known (k : Constant) (sv : SecValue) : Prop := ∃ loc, sv = .pub (k.value loc)

/-- The expression evaluates to a constant that everyone knows, and needs no code. -/
def Settles (ctx : Ctx) (env : Bindings) (e : Surface.Expr) (k : Constant) : Prop :=
  Arrives (fun fuel => (evaluator fuel).expr ctx env e) fun r => r.code = [] ∧ SecValue.Known k r.value

variable {loc : Loc} {ctx : Ctx} {env : Bindings} {k k₁ k₂ : Constant}
  {e lhs rhs cond onTrue onFalse : Surface.Expr}

/-- The value of a name, where it is no participant. -/
theorem ident_arrives {name : String} {sv : SecValue} (hfind : env.find? name = some sv)
    (hsv : ∀ tag p, sv.value ≠ .participant tag p) :
    Arrives (fun fuel => (evaluator fuel).expr ctx env (.ident loc name)) (· = .plain sv) := by
  refine .of_succ (.of_yields fun s => ⟨_, s, ?_, rfl⟩)
  refine yields_bind.2 ⟨sv, s, yields_bind.2 ⟨sv, s, Bindings.lookup_yields.2 ⟨hfind, rfl⟩, ?_⟩, rfl⟩
  split
  · exact absurd ‹_› (hsv _ _)
  · rfl

/-- Calling what everyone knows adds nothing to the application. -/
theorem call_arrives {name : String} {f : Value} {es : List Surface.Expr} {Q : Lifted SecValue → Prop}
    (hfind : env.find? name = some (.pub f)) (hf : ∀ tag p, f ≠ .participant tag p)
    (happly : Arrives (fun fuel => (evaluator fuel).apply ctx loc env f es) Q) (nameLoc : Loc) :
    Arrives (fun fuel => (evaluator fuel).expr ctx env (.call loc (.ident nameLoc name) es)) Q := by
  refine .of_succ (Arrives.bind (ident_arrives hfind hf) fun _ hr => ?_)
  subst hr
  refine happly.bind fun r hr => .pure ?_
  obtain ⟨code, ⟨level, value⟩⟩ := r
  cases level <;> exact hr

namespace Settles

theorem int {text : String} {radix : Nat} {n : Int} (h : Integer.Literal text radix n) :
    Settles ctx env (.int loc text radix) (.int n) :=
  Integer.ofLiteral_eq h ▸ .of_succ (.pure ⟨rfl, loc, rfl⟩)

theorem bool (b : Bool) (loc : Loc) : Settles ctx env (.bool loc b) (.bool b) :=
  .of_succ (.pure ⟨rfl, loc, rfl⟩)

theorem ident {name : String} {sv : SecValue} (hfind : env.find? name = some sv)
    (hsv : SecValue.Known k sv) : Settles ctx env (.ident loc name) k := by
  obtain ⟨bound, rfl⟩ := hsv
  have hvalue : ∀ tag p, k.value bound ≠ .participant tag p := by cases k <;> simp [Constant.value]
  exact (ident_arrives hfind hvalue).imp fun r hr => hr ▸ ⟨rfl, bound, rfl⟩

theorem paren (h : Settles ctx env e k) : Settles ctx env (.paren loc e) k := .of_succ h

theorem ternary {b : Bool} (hcond : Settles ctx env cond (.bool b)) (hTrue : Settles ctx env onTrue k₁)
    (hFalse : Settles ctx env onFalse k₂) (loc : Loc) :
    Settles ctx env (.ternary loc cond onTrue onFalse) (if b then k₁ else k₂) := by
  refine .of_succ (hcond.bind fun c hc => hTrue.bind fun t ht => hFalse.bind fun f hf => ?_)
  obtain ⟨c, _⟩ := c
  obtain ⟨t, _⟩ := t
  obtain ⟨f, _⟩ := f
  obtain ⟨rfl, _, rfl⟩ := hc
  obtain ⟨rfl, trueLoc, rfl⟩ := ht
  obtain ⟨rfl, falseLoc, rfl⟩ := hf
  cases b with
  | true => exact .pure ⟨rfl, trueLoc, rfl⟩
  | false => exact .pure ⟨rfl, falseLoc, rfl⟩

theorem exprs {es : List Surface.Expr} {ks : List Constant} (h : List.Forall₂ (Settles ctx env) es ks) :
    Arrives (fun fuel => (evaluator fuel).exprs ctx env es) fun r =>
      r.code = [] ∧ List.Forall₂ SecValue.Known ks r.value := by
  induction h with
  | nil => exact .pure ⟨rfl, .nil⟩
  | cons hfirst _ ih =>
    exact hfirst.bind fun _ hr => ih.bind fun _ hrs => .pure ⟨by simp [hr.1, hrs.1], .cons hr.2 hrs.2⟩

theorem operation {op : Surface.BinaryOp} {o : Ir.Op} (ho : op.operation? = some o)
    (h : op.reading? k₁ k₂ = some k) (hlhs : Settles ctx env lhs k₁) (hrhs : Settles ctx env rhs k₂) :
    Settles ctx env (.binary loc op lhs rhs) k := by
  obtain ⟨a, b, rfl, rfl, hfold⟩ := op.fold?_operation ho h loc
  have happly : Arrives (fun fuel => (evaluator fuel).apply ctx loc env (.prim .synthetic (.op o))
      [lhs, rhs]) fun r => r.code = [] ∧ SecValue.Known k r.value := by
    refine (exprs (.cons hlhs (.cons hrhs .nil))).bind fun args hargs => ?_
    obtain ⟨code, values⟩ := args
    obtain ⟨rfl, _ | ⟨⟨_, rfl⟩, _ | ⟨⟨_, rfl⟩, _ | _⟩⟩⟩ := hargs
    refine Arrives.bind (P := fun r => r.code = [] ∧ SecValue.Known k r.value.value) ?_
      fun r hr => .pure ⟨by simp [hr.1], hr.2⟩
    refine Arrives.bind (P := (· = .plain (.pub (k.value loc)))) (.of_yields fun s => ⟨_, s, ?_, rfl⟩)
      fun r hr => .pure ⟨by rw [hr]; rfl, loc, by rw [hr]; rfl⟩
    simp [Ctx.applyPrim, Ctx.applyOp, Ir.Op.constant?, Labelled.pub, Constant.value, hfold,
      Labelled.levelOf, Level.meetAll, Level.meet]
  refine .of_succ ?_
  change Arrives (fun fuel => op.rator loc env >>= fun rator =>
    (evaluator fuel).apply ctx loc env rator [lhs, rhs]) _
  rw [op.rator_operation ho]
  exact happly

end Settles

/-- A function whose body is one expression is worth what the expression is, where its formals are
bound. Its return is the last thing it does, so nothing of it is left. -/
theorem applyClosure_arrives {c : Closure} {bodyLoc : Loc} (hbody : c.body = .returning bodyLoc e)
    {args : List SecValue} {inner : Bindings} (hlength : c.formals.length = args.length)
    (hbind : ∀ s, (Bindings.bindAll c.env c.loc (c.formals.zip args)).Yields s inner s)
    (hresult : ∀ {ctx : Ctx}, ctx.canLift = true → Settles ctx inner e k) (hctx : ctx.canLift = true) :
    Arrives (fun fuel => (evaluator fuel).applyClosure ctx loc c args) fun r =>
      r.code = [] ∧ SecValue.Known k r.value.value := by
  refine Arrives.bind (P := fun _ => True) (.of_yields fun s => ⟨_, _, Ctx.alloc_yields.2 ⟨hctx, rfl, rfl⟩,
    trivial⟩) fun slot _ => ?_
  refine Arrives.bind (P := fun _ => True) (.of_yields fun s => ⟨(), s, by simp [hlength], trivial⟩)
    fun _ _ => ?_
  refine Arrives.bind (P := (· = inner)) (.of_yields fun s => ⟨inner, s, hbind s, rfl⟩) ?_
  rintro _ rfl
  refine Arrives.bind (P := fun r : Lifted Outcome => ∃ retLoc valueLoc,
    r.code = [.ret retLoc slot (some (k.value valueLoc))] ∧
    r.value.exits = [{ loc := retLoc, value := .pub (k.value valueLoc) }]) ?_ fun body hreturned => ?_
  · rw [hbody]
    refine .of_succ (Arrives.bind (hresult (by exact hctx)) fun r hr => ?_)
    obtain ⟨code, value⟩ := r
    obtain ⟨rfl, valueLoc, rfl⟩ := hr
    exact .pure ⟨bodyLoc, valueLoc, rfl, rfl⟩
  · obtain ⟨retLoc, valueLoc, hcode, hexits⟩ := hreturned
    unfold Ctx.joinExits
    rw [hexits]
    refine .pure ⟨?_, valueLoc, rfl⟩
    have hsame : (k.value valueLoc).same (k.value valueLoc) = true := by
      cases k <;> simp [Constant.value, Value.same]
    simp [Ir.Code.unprompted, hcode, hsame, Labelled.pub]

/-! ### Functions of the standard library -/

/-- The name is bound to a function that makes constants of constants, and needs no code for it. -/
def Bindings.Computes (env : Bindings) (name : String) (R : List Constant → Constant → Prop) : Prop :=
  ∃ tag c, env.find? name = some (.pub (.closure tag c)) ∧
    ∀ {ctx : Ctx} {loc : Loc} {ks : List Constant} {args : List SecValue} {k : Constant},
      ctx.canLift = true → List.Forall₂ SecValue.Known ks args → R ks k →
      Arrives (fun fuel => (evaluator fuel).applyClosure ctx loc c args) fun r =>
        r.code = [] ∧ SecValue.Known k r.value.value

/-- Names that are free are bound in turn. -/
theorem Bindings.bindAll_free {bindings : List (String × SecValue)} :
    ∀ {env : Bindings}, (bindings.map (·.1)).Nodup → (∀ b ∈ bindings, env.find? b.1 = none) →
      ∀ s, (env.bindAll loc bindings).Yields s ⟨env.entries ++ bindings⟩ s := by
  induction bindings with
  | nil => simp [Bindings.bindAll]
  | cons b rest ih =>
    intro env hnodup hfree s
    obtain ⟨hnew, hnodup⟩ := List.nodup_cons.1 hnodup
    obtain ⟨hfirst, hrest⟩ := List.forall_mem_cons.1 hfree
    refine yields_bind.2 ⟨_, s, bind_yields.2 ⟨Env.contains_eq_false.2 hfirst, rfl, rfl⟩, ?_⟩
    have hpush : ∀ b' ∈ rest, (env.push b.1 b.2).find? b'.1 = none := by
      intro b' hb'
      have hne : b'.1 ≠ b.1 := fun heq => hnew (List.mem_map.2 ⟨b', hb', heq⟩)
      simp [Env.push, Env.find?_of_append rfl, hrest b' hb', hne]
    simpa [Env.push] using ih hnodup hpush s

namespace Bindings.Computes

variable {name : String} {R : List Constant → Constant → Prop} {es : List Surface.Expr}
  {ks : List Constant}

/-- A function of one expression, whose formals are free where it was written. -/
theorem of_returning {tag : Tag} {c : Closure} {bodyLoc : Loc}
    (hfind : env.find? name = some (.pub (.closure tag c))) (hbody : c.body = .returning bodyLoc e)
    (hnodup : c.formals.Nodup) (hfree : ∀ formal ∈ c.formals, Env.find? c.env formal = none)
    (h : ∀ {ctx : Ctx} {ks : List Constant} {args : List SecValue} {k : Constant}, ctx.canLift = true →
      List.Forall₂ SecValue.Known ks args → R ks k → c.formals.length = args.length ∧
        Settles ctx ⟨c.env.entries ++ c.formals.zip args⟩ e k) : env.Computes name R := by
  refine ⟨tag, c, hfind, fun hctx hargs hk => ?_⟩
  have hlength := (h hctx hargs hk).1
  refine applyClosure_arrives hbody hlength (Bindings.bindAll_free ?_ fun b hb => ?_)
    (fun hctx => (h hctx hargs hk).2) hctx
  · rwa [List.map_fst_zip hlength.le]
  · exact hfree _ (List.of_mem_zip hb).1

/-- What is bound later leaves the function as it is. -/
theorem of_older (h : env.Computes name R) {out : Bindings} (hout : env.entries <+: out.entries) :
    out.Computes name R := by
  obtain ⟨tag, c, hfind, happly⟩ := h
  exact ⟨tag, c, Env.find?_of_older hout hfind, happly⟩

theorem apply (h : env.Computes name R) (hctx : ctx.canLift = true)
    (hes : List.Forall₂ (Settles ctx env) es ks) (hk : R ks k) (loc : Loc) :
    ∃ tag c, env.find? name = some (.pub (.closure tag c)) ∧
      Arrives (fun fuel => (evaluator fuel).apply ctx loc env (.closure tag c) es) fun r =>
        r.code = [] ∧ SecValue.Known k r.value := by
  obtain ⟨tag, c, hfind, happly⟩ := h
  refine ⟨tag, c, hfind, (Settles.exprs hes).bind fun args hargs => ?_⟩
  exact (happly hctx hargs.2 hk).bind fun r hr => .pure ⟨by simp [hargs.1, hr.1], hr.2⟩

/-- An operator that stands for the function. -/
theorem operator (h : env.Computes name R) (hctx : ctx.canLift = true)
    (hes : List.Forall₂ (Settles ctx env) es ks) (hk : R ks k) {rator : Eval Value}
    (hrator : rator = do let sv ← env.lookup loc name; return sv.value) :
    Arrives (fun fuel => do let v ← rator; (evaluator fuel).apply ctx loc env v es) fun r =>
      r.code = [] ∧ SecValue.Known k r.value := by
  obtain ⟨tag, c, hfind, happly⟩ := h.apply hctx hes hk loc
  subst hrator
  refine Arrives.bind (P := (· = .closure tag c)) (.of_yields fun s => ⟨_, s, ?_, rfl⟩)
    fun _ hv => hv ▸ happly
  exact yields_bind.2 ⟨_, s, Bindings.lookup_yields.2 ⟨hfind, rfl⟩, rfl⟩

theorem call (h : env.Computes name R) (hctx : ctx.canLift = true)
    (hes : List.Forall₂ (Settles ctx env) es ks) (hk : R ks k) (nameLoc : Loc) :
    Settles ctx env (.call loc (.ident nameLoc name) es) k := by
  obtain ⟨tag, c, hfind, happly⟩ := h.apply hctx hes hk loc
  exact call_arrives hfind (by simp) happly nameLoc

end Bindings.Computes

/-- The operator makes the constant of the operands. -/
def Surface.UnaryOp.Makes (op : Surface.UnaryOp) (ks : List Constant) (k : Constant) : Prop :=
  ∃ k₁, ks = [k₁] ∧ op.reading? k₁ = some k

def Surface.BinaryOp.Makes (op : Surface.BinaryOp) (ks : List Constant) (k : Constant) : Prop :=
  ∃ k₁ k₂, ks = [k₁, k₂] ∧ op.reading? k₁ k₂ = some k

/-- The functions that operators stand for compute what the operators are read as. -/
structure Bindings.Provides (env : Bindings) : Prop where
  unary {op : Surface.UnaryOp} {name : String} (h : op.function? = some name) :
    env.Computes name op.Makes
  binary {op : Surface.BinaryOp} {name : String} (h : op.function? = some name) :
    env.Computes name op.Makes

theorem Settles.of_reads (henv : env.Provides) (hctx : ctx.canLift = true) (h : e.Reads k) :
    Settles ctx env e k := by
  induction h with
  | int h => exact .int h
  | bool => exact .bool _ _
  | paren _ ih => exact ih.paren
  | @binary loc op _ _ _ k₁ k₂ _ _ h ihl ihr =>
    cases ho : op.operation? with
    | some o => exact .operation ho h ihl ihr
    | none =>
      have hargs := List.Forall₂.cons ihl (.cons ihr .nil)
      cases op with
      | and | or | neq | strictNeq =>
        exact .of_succ ((henv.binary rfl).operator hctx hargs ⟨k₁, k₂, rfl, h⟩ rfl)
      | _ => cases ho <;> cases h
  | @unary loc op _ _ k₁ _ h ih =>
    cases op with
    | minus | not => exact .of_succ ((henv.unary rfl).operator hctx (.cons ih .nil) ⟨k₁, rfl, h⟩ rfl)
    | _ => cases h
  | ternary _ _ _ ihc iht ihf => exact ihc.ternary iht ihf _

end Choreography
