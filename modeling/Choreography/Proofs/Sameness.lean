import Choreography.Proofs.Environments
import Choreography.Proofs.Interning
import Choreography.Value.Same
import Choreography.Value.Typing
import Mathlib.Data.List.Forall2
import Mathlib.Data.List.Perm.Subperm

/-!
Sameness of values. Objects that are the same agree field by field once their fields stand in the
order of their names, so sameness is an equivalence; and values that are the same have one type and
are mentioned by one operand.
-/

namespace Choreography

open Ty List

/-! ### Values without parts -/

/-- What tells primitives apart. -/
inductive Prim.Mark
  | op (o : Ir.Op)
  | claim (c : Ir.Claim)
  | interact (who method : String) (type : Ty)
  | tagged (name : String) (tag : Tag)
  | plain (name : String)

def Prim.mark : Prim → Prim.Mark
  | .op o => .op o
  | .claim c => .claim c
  | .interact who method type => .interact who method type
  | .transferTo tag _ => .tagged "transfer_amt_to" tag
  | .app tag _ => .tagged "App_Delay" tag
  | p => .plain p.name

/-- What tells values without parts apart. -/
inductive Value.Mark
  | data (c : Ir.Const)
  | type (t : Ty)
  | prim (mark : Prim.Mark)
  | identity (kind : String) (number : Nat)

/-- Tuples and objects have parts, and no mark. -/
def Value.mark : Value → Option Value.Mark
  | .null _ => some (.data .null)
  | .bool _ b => some (.data (.bool b))
  | .int _ n => some (.data (.int n))
  | .bytes _ s => some (.data (.bytes s))
  | .type _ t => some (.type t)
  | .prim _ p => some (.prim p.mark)
  | .closure tag _ => some (.identity "closure" tag)
  | .form _ tag _ => some (.identity "form" tag)
  | .participant tag _ => some (.identity "participant" tag)
  | .var v => some (.identity "variable" v.id)
  | .tuple .. | .object .. => none

theorem Prim.same_iff {p q : Prim} : p.same q = true ↔ p.mark = q.mark := by
  cases p <;> cases q <;> simp [Prim.same, mark, name, and_assoc]

theorem Prim.typed?_eq_of_same {p q : Prim} (h : p.same q = true) : p.typed? = q.typed? := by
  rw [same_iff] at h
  cases p <;> cases q <;> simp_all [mark, typed?]

theorem Value.same_iff_mark {a b : Value} (ha : a.mark.isSome = true) :
    a.same b = true ↔ a.mark = b.mark := by
  cases a <;> cases b <;> simp [same, mark, Prim.same_iff] at ha ⊢

/-! ### Fields in order -/

/-- Fields of one name that have the same level and the same value. -/
def SameField (b c : String × SecValue) : Prop :=
  b.1 = c.1 ∧ b.2.level = c.2.level ∧ b.2.value.same c.2.value = true

section

variable {α β γ : Type} {R S : α → β → Prop} {l : List α} {l' : List β}

theorem forall₂_imp_of_mem (h : Forall₂ R l l') (himp : ∀ x ∈ l, ∀ y ∈ l', R x y → S x y) :
    Forall₂ S l l' := by
  induction h with
  | nil => exact .nil
  | cons hxy _ ih =>
    refine .cons (himp _ mem_cons_self _ mem_cons_self hxy) (ih ?_)
    exact fun x hx y hy => himp x (mem_cons_of_mem _ hx) y (mem_cons_of_mem _ hy)

theorem exists_of_forall₂ {x : α} (h : Forall₂ R l l') (hx : x ∈ l) : ∃ y ∈ l', R x y := by
  induction h with
  | nil => cases hx
  | @cons _ y _ _ hxy _ ih =>
    rcases mem_cons.1 hx with rfl | hx
    · exact ⟨y, mem_cons_self, hxy⟩
    · obtain ⟨z, hz, hxz⟩ := ih hx
      exact ⟨z, mem_cons_of_mem _ hz, hxz⟩

theorem forall₂_comp {T : β → γ → Prop} {U : α → γ → Prop} {l'' : List γ} (h : Forall₂ R l l')
    (h' : Forall₂ T l' l'') (hcomp : ∀ x y z, R x y → T y z → U x z) : Forall₂ U l l'' := by
  induction h generalizing l'' with
  | nil => cases h' with | nil => exact .nil
  | cons hxy _ ih => cases h' with | cons hyz h' => exact .cons (hcomp _ _ _ hxy hyz) (ih h')

end

theorem Env.map_sortFields {α : Type} (env : Env α) :
    (sortFields env.entries).map (·.1) = env.names :=
  List.map_mergeSort fun _ _ _ _ => rfl

theorem Env.names_eq_of_perm {α β : Type} {a : Env α} {b : Env β}
    (h : (a.entries.map (·.1)).Perm (b.entries.map (·.1))) : a.names = b.names :=
  Perm.eq_of_pairwise (fun _ _ _ _ => String.le_antisymm) a.pairwise_names b.pairwise_names
    ((mergeSort_perm _ _).trans (h.trans (mergeSort_perm _ _).symm))

namespace Value

variable {loc loc' : Loc} {elems elems' : List Value} {fields fields' : Bindings} {a b c : Value}

theorem sameList_iff : ∀ {vs ws : List Value},
    sameList vs ws = true ↔ Forall₂ (fun v w => v.same w = true) vs ws
  | [], [] => by simp [sameList]
  | [], _ :: _ => by simp [sameList]
  | _ :: _, [] => by simp [sameList]
  | v :: vs, w :: ws => by simp [sameList, sameList_iff]

theorem sameFields_iff {other : Bindings} : ∀ {fields : List (String × SecValue)},
    sameFields fields other = true ↔
      ∀ b ∈ fields, ∃ w, other.find? b.1 = some w ∧ SameField b (b.1, w)
  | [] => by simp [sameFields]
  | (name, ⟨level, v⟩) :: fields => by
    rw [sameFields, Bool.and_eq_true, sameFields_iff, forall_mem_cons]
    refine and_congr_left' ?_
    cases other.find? name <;> simp [SameField]

/-- Objects are the same when their fields are, in the order of their names. -/
theorem same_object_iff (h : fields.Distinct) (h' : fields'.Distinct) :
    (Value.object loc fields).same (.object loc' fields') = true ↔
      Forall₂ SameField (sortFields fields.entries) (sortFields fields'.entries) := by
  rw [same, Bool.and_eq_true, beq_iff_eq, sameFields_iff]
  constructor
  · rintro ⟨hsize, hfields⟩
    -- as many names, all of them bound on the other side: no name is left over there
    have hsubset : fields.entries.map (·.1) ⊆ fields'.entries.map (·.1) := by
      intro name hname
      obtain ⟨b, hb, rfl⟩ := mem_map.1 hname
      obtain ⟨w, hw, _⟩ := hfields b hb
      exact Env.contains_iff_mem.1 (by simp [Env.contains, hw])
    have hperm : (fields.entries.map (·.1)).Perm (fields'.entries.map (·.1)) :=
      (subperm_of_subset h hsubset).perm_of_length_le (by simpa [Env.size] using hsize.ge)
    have hnames : Forall₂ (· = ·) ((sortFields fields.entries).map (·.1))
        ((sortFields fields'.entries).map (·.1)) := by
      rw [Env.map_sortFields, Env.map_sortFields, Env.names_eq_of_perm hperm]
      exact forall₂_refl _
    rw [forall₂_map_left_iff, forall₂_map_right_iff] at hnames
    refine forall₂_imp_of_mem hnames fun b hb c hc hname => ?_
    obtain ⟨w, hw, hsame⟩ := hfields b (mem_mergeSort.1 hb)
    rw [hname, h'.find?_of_mem (mem_mergeSort.1 hc), Option.some.injEq] at hw
    exact ⟨hname, hw ▸ hsame.2⟩
  · intro hall
    refine ⟨by simpa [sortFields, Env.size] using hall.length_eq, fun b hb => ?_⟩
    obtain ⟨c, hc, hname, hsame⟩ := exists_of_forall₂ hall (mem_mergeSort.2 hb)
    refine ⟨c.2, ?_, rfl, hsame⟩
    rw [hname]
    exact h'.find?_of_mem (mem_mergeSort.1 hc)

/-! ### The equivalence -/

/-- No object has two fields of one name, at any depth of the data. -/
inductive WellFormed : Value → Prop
  | atom {v : Value} (h : v.mark.isSome = true) : WellFormed v
  | tuple {loc : Loc} {elems : List Value} (h : ∀ e ∈ elems, WellFormed e) :
    WellFormed (.tuple loc elems)
  | object {loc : Loc} {fields : Bindings} (hnames : fields.Distinct)
    (h : ∀ b ∈ fields.entries, WellFormed b.2.value) : WellFormed (.object loc fields)

theorem same_refl (ha : a.WellFormed) : a.same a = true := by
  induction ha with
  | atom h => exact (same_iff_mark h).2 rfl
  | tuple _ ih =>
    rw [same, sameList_iff]
    exact forall₂_same.2 ih
  | object hnames _ ih =>
    refine (same_object_iff hnames hnames).2 (forall₂_same.2 fun b hb => ?_)
    exact ⟨rfl, rfl, ih b (mem_mergeSort.1 hb)⟩

/-- Induction over values that are the same. -/
theorem same_induction {P : Value → Value → Prop}
    (atom : ∀ {a b}, a.mark.isSome = true → a.same b = true → P a b)
    (tuple : ∀ {loc loc' elems elems'}, Forall₂ P elems elems' →
      P (.tuple loc elems) (.tuple loc' elems'))
    (object : ∀ {loc loc' fields fields'}, fields.Distinct → fields'.Distinct →
      Forall₂ (fun b c => SameField b c ∧ P b.2.value c.2.value) (sortFields fields.entries)
        (sortFields fields'.entries) → P (.object loc fields) (.object loc' fields'))
    (ha : a.WellFormed) (hb : b.WellFormed) (hsame : a.same b = true) : P a b := by
  induction ha generalizing b with
  | atom h => exact atom h hsame
  | tuple _ ih =>
    cases hb with
    | atom h => cases b <;> simp [mark, same] at h hsame
    | object => simp [same] at hsame
    | tuple hb =>
      rw [same, sameList_iff] at hsame
      exact tuple (forall₂_imp_of_mem hsame fun v hv w hw => ih v hv (hb w hw))
  | object hnames _ ih =>
    cases hb with
    | atom h => cases b <;> simp [mark, same] at h hsame
    | tuple => simp [same] at hsame
    | object hnames' hb =>
      refine object hnames hnames'
        (forall₂_imp_of_mem ((same_object_iff hnames hnames').1 hsame) ?_)
      exact fun b hfield c hfield' h =>
        ⟨h, ih b (mem_mergeSort.1 hfield) (hb c (mem_mergeSort.1 hfield')) h.2.2⟩

theorem same_symm (ha : a.WellFormed) (hb : b.WellFormed) (h : a.same b = true) :
    b.same a = true := by
  refine same_induction (P := fun a b => b.same a = true) ?_ ?_ ?_ ha hb h
  · intro a b ha hab
    rw [same_iff_mark ha] at hab
    exact (same_iff_mark (hab ▸ ha)).2 hab.symm
  · intro _ _ _ _ hall
    rw [same, sameList_iff]
    exact hall.flip
  · intro _ _ _ _ hnames hnames' hall
    refine (same_object_iff hnames' hnames).2 (Forall₂.flip (hall.imp ?_))
    exact fun b c h => ⟨h.1.1.symm, h.1.2.1.symm, h.2⟩

theorem same_trans (ha : a.WellFormed) (hb : b.WellFormed) (h : a.same b = true)
    (h' : b.same c = true) : a.same c = true := by
  refine same_induction (P := fun a b => ∀ c, b.same c = true → a.same c = true) ?_ ?_ ?_ ha hb h
    c h'
  · intro a b ha hab c hbc
    rw [same_iff_mark ha] at hab ⊢
    rw [hab, ← same_iff_mark (hab ▸ ha)]
    exact hbc
  · intro _ _ _ _ hall c hbc
    cases c <;> simp [same] at hbc
    rw [same, sameList_iff]
    exact forall₂_comp hall (sameList_iff.1 hbc) fun v w u hvw hwu => hvw u hwu
  · intro _ _ fields fields' hnames _ hall c hbc
    cases c <;> simp only [same, Bool.and_eq_true, beq_iff_eq, Bool.false_eq_true,
      sameFields_iff] at hbc ⊢
    have hsize := hall.length_eq
    simp only [sortFields, length_mergeSort] at hsize
    refine ⟨hsize.trans hbc.1, fun b hb => ?_⟩
    obtain ⟨c, hc, hfield, hvalue⟩ := exists_of_forall₂ hall (mem_mergeSort.2 hb)
    obtain ⟨w, hw, hlast⟩ := hbc.2 c (mem_mergeSort.1 hc)
    exact ⟨w, hfield.1 ▸ hw, rfl, hfield.2.1.trans hlast.2.1, hvalue _ hlast.2.2⟩

end Value

/-! ### Types and operands -/

/-- Operands that differ in the places and the display names of their variables only. -/
inductive Ir.Arg.Matches : Arg → Arg → Prop
  | var {v w : Var} (hid : v.id = w.id) (htype : v.type = w.type) : Matches (.var v) (.var w)
  | const (c : Const) : Matches (.const c) (.const c)
  | tuple {args args' : List Arg} (h : Forall₂ Matches args args') :
    Matches (.tuple args) (.tuple args')
  | object {fields fields' : List (String × Arg)} (hnames : fields.map (·.1) = fields'.map (·.1))
    (h : Forall₂ Matches (fields.map (·.2)) (fields'.map (·.2))) :
    Matches (.object fields) (.object fields')
  | interact (who method : String) (type : Ty) :
    Matches (.interact who method type) (.interact who method type)

/-- One type, and operands that match. -/
def TypedAlike (t t' : Ty × Ir.Arg) : Prop := t.1 = t'.1 ∧ t.2.Matches t'.2

namespace Value

/-- The second value is the first one or stands in it as data, at any depth. -/
inductive Contains : Value → Value → Prop
  | self {v : Value} : Contains v v
  | element {loc : Loc} {elems : List Value} {e v : Value} (hmem : e ∈ elems)
    (h : Contains e v) : Contains (.tuple loc elems) v
  | field {loc : Loc} {fields : Bindings} {b : String × SecValue} {v : Value}
    (hmem : b ∈ fields.entries) (h : Contains b.2.value v) : Contains (.object loc fields) v

/-- Equal numbers in two values denote variables of one type, and equal identities participants of
one address. -/
structure Agree (a b : Value) : Prop where
  vars {v w : Ir.Var} : a.Contains (.var v) → b.Contains (.var w) → v.id = w.id → v.type = w.type
  participants {tag : Tag} {p q : Participant} : a.Contains (.participant tag p) →
    b.Contains (.participant tag q) → p.address = q.address

section

variable {α β γ δ : Type} {R : α → β → Prop} {S : γ → δ → Prop} {x : Option α} {y : Option β}

theorem rel_bind {f : α → Option γ} {g : β → Option δ} (h : Option.Rel R x y)
    (hfg : ∀ a b, R a b → Option.Rel S (f a) (g b)) : Option.Rel S (x >>= f) (y >>= g) := by
  cases h with
  | none => exact .none
  | some h => exact hfg _ _ h

theorem rel_map {f : α → γ} {g : β → δ} (h : Option.Rel R x y)
    (hfg : ∀ a b, R a b → S (f a) (g b)) : Option.Rel S (x.map f) (y.map g) := by
  cases h with
  | none => exact .none
  | some h => exact .some (hfg _ _ h)

end

theorem typedList?_alike {vs ws : List Value}
    (h : Forall₂ (fun v w => Option.Rel TypedAlike v.typed? w.typed?) vs ws) :
    Option.Rel (Forall₂ TypedAlike) (typedList? vs) (typedList? ws) := by
  induction h with
  | nil => exact .some .nil
  | cons hv _ ih =>
    exact rel_bind hv fun _ _ ht => rel_bind ih fun _ _ hts => .some (.cons ht hts)

theorem typedFields?_alike {fields fields' : List (String × SecValue)}
    (h : Forall₂ (fun b c => b.1 = c.1 ∧ Option.Rel TypedAlike b.2.value.typed? c.2.value.typed?)
      fields fields') :
    Option.Rel (Forall₂ fun f g => f.1 = g.1 ∧ TypedAlike f.2 g.2) (typedFields? fields)
      (typedFields? fields') := by
  induction h with
  | nil => exact .some .nil
  | cons hb _ ih =>
    exact rel_bind hb.2 fun _ _ ht => rel_bind ih fun _ _ hts => .some (.cons ⟨hb.1, ht⟩ hts)

theorem typedFields?_eq : ∀ fields : List (String × SecValue), typedFields? fields =
    if fields.all (·.2.value.typed?.isSome) then
      some (fields.map fun b => (b.1, b.2.value.typed?.getD default)) else none
  | [] => by simp [typedFields?]
  | (name, ⟨level, v⟩) :: fields => by
    rw [typedFields?, typedFields?_eq fields, all_cons, map_cons]
    cases v.typed? <;> cases fields.all (·.2.value.typed?.isSome) <;> simp

/-- Fields may be put in order before they are typed. -/
theorem typedFields?_sortFields (fields : List (String × SecValue)) :
    (typedFields? fields).map sortFields = typedFields? (sortFields fields) := by
  have hall : (sortFields fields).all (·.2.value.typed?.isSome) =
      fields.all (·.2.value.typed?.isSome) := (mergeSort_perm _ _).all_eq
  have hmap : (sortFields fields).map (fun b => (b.1, b.2.value.typed?.getD default)) =
      sortFields (fields.map fun b => (b.1, b.2.value.typed?.getD default)) :=
    map_mergeSort fun _ _ _ _ => rfl
  rw [typedFields?_eq, typedFields?_eq, hall, hmap]
  split <;> rfl

theorem typed?_object (loc : Loc) (fields : Bindings) :
    (Value.object loc fields).typed? = (typedFields? (sortFields fields.entries)).map fun fs =>
      (.object (fs.map fun f => (f.1, f.2.1)), .object (fs.map fun f => (f.1, f.2.2))) := by
  rw [typed?, ← typedFields?_sortFields, Option.map_map]
  rfl

theorem Agree.of_parts {a b v w : Value} (h : a.Agree b) (ha : ∀ x, v.Contains x → a.Contains x)
    (hb : ∀ x, w.Contains x → b.Contains x) : v.Agree w where
  vars hv hw := h.vars (ha _ hv) (hb _ hw)
  participants hp hq := h.participants (ha _ hp) (hb _ hq)

theorem typed?_alike_of_mark {a b : Value} (ha : a.mark.isSome = true) (hsame : a.same b = true)
    (hagree : a.Agree b) : Option.Rel TypedAlike a.typed? b.typed? := by
  cases a <;> cases b <;> simp only [same, Bool.false_eq_true, beq_iff_eq] at hsame <;> subst_vars
  case tuple.tuple | object.object => cases ha
  case null.null | bool.bool | int.int | bytes.bytes => exact .some ⟨rfl, .const _⟩
  case type.type | closure.closure | form.form => exact .none
  case var.var v w =>
    have htype := hagree.vars .self .self hsame
    exact .some ⟨htype, .var hsame htype⟩
  case participant.participant tag p q =>
    rw [typed?, typed?, hagree.participants .self .self]
    cases q.address with
    | none => exact .none
    | some v => exact .some ⟨rfl, .var rfl rfl⟩
  case prim.prim p q =>
    rw [typed?, typed?, Prim.typed?_eq_of_same hsame]
    cases q with
    | interact who method type =>
      cases type with
      | func | forAll => exact .none
      | _ => exact .some ⟨rfl, .interact who method _⟩
    | _ => exact .none

theorem typed?_alike {a b : Value} (ha : a.WellFormed) (hb : b.WellFormed) (h : a.same b = true)
    (hagree : a.Agree b) : Option.Rel TypedAlike a.typed? b.typed? := by
  refine same_induction (P := fun a b => a.Agree b → Option.Rel TypedAlike a.typed? b.typed?)
    typed?_alike_of_mark ?_ ?_ ha hb h hagree
  · intro _ _ _ _ hall hagree
    have hparts := typedList?_alike (forall₂_imp_of_mem hall fun v hv w hw h =>
      h (hagree.of_parts (fun _ => .element hv) fun _ => .element hw))
    rw [typed?, typed?]
    refine rel_map hparts fun ts ts' hts => ⟨congrArg Ty.tuple ?_, .tuple ?_⟩
    · rw [← forall₂_eq_eq_eq, forall₂_map_left_iff, forall₂_map_right_iff]
      exact hts.imp fun _ _ h => h.1
    · rw [forall₂_map_left_iff, forall₂_map_right_iff]
      exact hts.imp fun _ _ h => h.2
  · intro _ _ fields fields' _ _ hall hagree
    have hparts := typedFields?_alike (forall₂_imp_of_mem hall fun b hb c hc h =>
      ⟨h.1.1, h.2 (hagree.of_parts (fun _ => .field (mem_mergeSort.1 hb))
        fun _ => .field (mem_mergeSort.1 hc))⟩)
    rw [typed?_object, typed?_object]
    refine rel_map hparts fun fs gs h => ⟨congrArg Ty.object ?_, .object ?_ ?_⟩
    · rw [← forall₂_eq_eq_eq, forall₂_map_left_iff, forall₂_map_right_iff]
      exact h.imp fun _ _ h => Prod.ext h.1 h.2.1
    · simp only [map_map, ← forall₂_eq_eq_eq, forall₂_map_left_iff, forall₂_map_right_iff]
      exact h.imp fun _ _ h => h.1
    · simp only [map_map, forall₂_map_left_iff, forall₂_map_right_iff]
      exact h.imp fun _ _ h => h.2.2

/-- The order in which fields were written makes no difference. -/
theorem WellFormed.same_reordered {loc loc' : Loc} {fields fields' : Bindings}
    (h : (Value.object loc fields).WellFormed)
    (hperm : fields.entries.Perm fields'.entries) :
    (Value.object loc fields).same (.object loc' fields') = true ∧
      (Value.object loc fields).typed? = (Value.object loc' fields').typed? := by
  have hsame := same_refl h
  cases h with
  | atom h => cases h
  | object hnames _ =>
    have hnames' : fields'.Distinct := (hperm.map _).nodup_iff.1 hnames
    have hsorted := sortFields_eq_of_perm hnames hperm
    rw [same_object_iff hnames hnames] at hsame
    rw [same_object_iff hnames hnames', typed?_object, typed?_object, ← hsorted]
    exact ⟨hsame, rfl⟩

end Value

/-- Sameness is an equivalence, and values that are the same have one type and are mentioned alike,
or have no type. The order in which the fields of an object were written makes no difference. -/
theorem sameness_respects_typing {a b : Value} (ha : a.WellFormed) (hb : b.WellFormed) :
    a.same a = true ∧ (a.same b = true ↔ b.same a = true) ∧
    (∀ c, a.same b = true → b.same c = true → a.same c = true) ∧
    (a.same b = true → a.Agree b → Option.Rel TypedAlike a.typed? b.typed?) ∧
    ∀ loc loc' fields fields', a = .object loc fields → fields.entries.Perm fields'.entries →
      a.same (.object loc' fields') = true ∧ a.typed? = (Value.object loc' fields').typed? := by
  refine ⟨Value.same_refl ha, ⟨Value.same_symm ha hb, Value.same_symm hb ha⟩,
    fun c => Value.same_trans ha hb, Value.typed?_alike ha hb, ?_⟩
  rintro loc loc' fields fields' rfl hperm
  exact ha.same_reordered hperm

namespace Value

/-- An object of two fields, written in either order. -/
def pair (swapped : Bool) (b c : String × SecValue) : Value :=
  .object .synthetic ⟨if swapped then [c, b] else [b, c]⟩

variable {swapped : Bool} {b c : String × SecValue} {v : Value}

theorem wellFormed_pair (hne : b.1 ≠ c.1) (hb : b.2.value.WellFormed) (hc : c.2.value.WellFormed) :
    (pair swapped b c).WellFormed := by
  cases swapped
  · exact .object (by simpa [Env.Distinct] using hne) (by simpa using ⟨hb, hc⟩)
  · exact .object (by simpa [Env.Distinct] using hne.symm) (by simpa using ⟨hc, hb⟩)

theorem contains_pair (hv : v.mark.isSome = true) (h : (pair swapped b c).Contains v) :
    b.2.value.Contains v ∨ c.2.value.Contains v := by
  cases h with
  | self => cases hv
  | field hmem h => cases swapped <;> grind

/-- A variable that is shown by the given name, and an object of numbers. -/
def sample (shown : String) (swapped : Bool) : Value :=
  pair swapped ("x", .pub (.var ⟨.synthetic, shown, .bool, 0⟩))
    ("y", .pub (pair swapped ("p", .pub (.int .synthetic 1)) ("q", .pub (.int .synthetic 2))))

theorem wellFormed_sample (shown : String) (swapped : Bool) : (sample shown swapped).WellFormed :=
  wellFormed_pair (by simp) (.atom rfl) (wellFormed_pair (by simp) (.atom rfl) (.atom rfl))

theorem contains_sample {shown : String} (hv : v.mark.isSome = true)
    (h : (sample shown swapped).Contains v) :
    v = .var ⟨.synthetic, shown, .bool, 0⟩ ∨ ∃ n, v = .int .synthetic n := by
  rcases contains_pair hv h with h | h
  · cases h
    exact .inl rfl
  · rcases contains_pair hv h with h | h <;> cases h <;> exact .inr ⟨_, rfl⟩

theorem agree_sample : (sample "x" false).Agree (sample "z" true) where
  vars hv hw _ := by
    obtain h | ⟨_, h⟩ := contains_sample rfl hv <;> cases h
    obtain h | ⟨_, h⟩ := contains_sample rfl hw <;> cases h
    rfl
  participants hp _ := by
    obtain h | ⟨_, h⟩ := contains_sample rfl hp <;> cases h

theorem sample_typed_alike : (sample "x" false).WellFormed ∧ (sample "z" true).WellFormed ∧
    Option.Rel TypedAlike (sample "x" false).typed? (sample "z" true).typed? :=
  ⟨wellFormed_sample _ _, wellFormed_sample _ _,
    (sameness_respects_typing (wellFormed_sample _ _) (wellFormed_sample _ _)).2.2.2.1 rfl
      agree_sample⟩

end Value

end Choreography
