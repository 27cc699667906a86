import Choreography.Proofs.Types

/-!
Types as trees: the order of the fields of their objects, the variables that occur in them, and what
becomes of them when types are put for variables, all at once. Where fields stand in the order of
their names, putting in types that have no variables one after the other, in any order, comes to the
same as putting them in at once.
-/

namespace Choreography

namespace Ty

/-! ### The order of fields -/

/-- A type whose objects list their fields in the order of the names. -/
inductive Ordered : Ty → Prop
  | null : Ordered .null
  | bool : Ordered .bool
  | uint256 : Ordered .uint256
  | bytes : Ordered .bytes
  | address : Ordered .address
  | func {dom : List Ty} {rng : Ty} (hdom : ∀ t ∈ dom, Ordered t) (hrng : Ordered rng) :
    Ordered (.func dom rng)
  | array {elem : Ty} {size : Nat} (helem : Ordered elem) : Ordered (.array elem size)
  | tuple {elems : List Ty} (helems : ∀ t ∈ elems, Ordered t) : Ordered (.tuple elems)
  | object {fields : List (String × Ty)} (hnames : (fields.map (·.1)).Pairwise (· ≤ ·))
    (hfields : ∀ f ∈ fields, Ordered f.2) : Ordered (.object fields)
  | forAll {name : String} {body : Ty} (hbody : Ordered body) : Ordered (.forAll name body)
  | var {name : String} : Ordered (.var name)

/-- Fields that stand in order stay where they are. -/
theorem sortFields_of_pairwise {α : Type} {fields : List (String × α)}
    (h : (fields.map (·.1)).Pairwise (· ≤ ·)) : sortFields fields = fields := by
  refine List.mergeSort_of_pairwise ?_
  rw [List.pairwise_map] at h
  simpa using h

/-! ### Variables -/

mutual

/-- The variables that occur in a type, bound or not. -/
def vars : Ty → List String
  | .var name => [name]
  | .func dom rng => varsList dom ++ vars rng
  | .array elem _ => vars elem
  | .tuple elems => varsList elems
  | .object fields => varsFields fields
  | .forAll _ body => vars body
  | .null | .bool | .uint256 | .bytes | .address => []

def varsList : List Ty → List String
  | [] => []
  | t :: ts => vars t ++ varsList ts

def varsFields : List (String × Ty) → List String
  | [] => []
  | (_, t) :: fields => vars t ++ varsFields fields

end

mutual

/-- No quantifier occurs in the type. -/
def isQuantifierFree : Ty → Bool
  | .func dom rng => allQuantifierFree dom && isQuantifierFree rng
  | .array elem _ => isQuantifierFree elem
  | .tuple elems => allQuantifierFree elems
  | .object fields => fieldsQuantifierFree fields
  | .forAll .. => false
  | .null | .bool | .uint256 | .bytes | .address | .var _ => true

def allQuantifierFree : List Ty → Bool
  | [] => true
  | t :: ts => isQuantifierFree t && allQuantifierFree ts

def fieldsQuantifierFree : List (String × Ty) → Bool
  | [] => true
  | (_, t) :: fields => isQuantifierFree t && fieldsQuantifierFree fields

end

/-! ### Substitutions -/

/-- Types for some variables. -/
abbrev Subst := String → Option Ty

namespace Subst

/-- The substitution of one type. -/
def single (name : String) (t : Ty) : Subst := fun x => if x = name then some t else none

/-- The substitution without a type for one variable. -/
def hide (σ : Subst) (name : String) : Subst := fun x => if x = name then none else σ x

/-- The substitution for the given variables only. -/
def restrict (σ : Subst) (names : List String) : Subst := fun x => if x ∈ names then σ x else none

/-- What the first substitution has no type for is left to the second. -/
def orElse (σ τ : Subst) : Subst := fun x => (σ x).or (τ x)

/-- All types that are put in satisfy `P`. -/
def All (σ : Subst) (P : Ty → Prop) : Prop := ∀ x t, σ x = some t → P t

theorem All.hide {σ : Subst} {P : Ty → Prop} (h : σ.All P) (name : String) : (σ.hide name).All P := by
  intro x t ht
  unfold Subst.hide at ht
  split at ht
  · cases ht
  · exact h x t ht

theorem orElse_hide (σ τ : Subst) (name : String) :
    (σ.hide name).orElse (τ.hide name) = (σ.orElse τ).hide name := by
  funext x
  unfold orElse hide
  split <;> rfl

end Subst

mutual

/-- Puts types for the free variables of a type, all at once. -/
def instantiate (σ : Subst) : Ty → Ty
  | .var name => (σ name).getD (.var name)
  | .func dom rng => .func (instantiateList σ dom) (instantiate σ rng)
  | .array elem size => .array (instantiate σ elem) size
  | .tuple elems => .tuple (instantiateList σ elems)
  | .object fields => .object (instantiateFields σ fields)
  | .forAll name body => .forAll name (instantiate (σ.hide name) body)
  | .null => .null
  | .bool => .bool
  | .uint256 => .uint256
  | .bytes => .bytes
  | .address => .address

def instantiateList (σ : Subst) : List Ty → List Ty
  | [] => []
  | t :: ts => instantiate σ t :: instantiateList σ ts

def instantiateFields (σ : Subst) : List (String × Ty) → List (String × Ty)
  | [] => []
  | (name, t) :: fields => (name, instantiate σ t) :: instantiateFields σ fields

end

variable {σ τ : Subst}

theorem instantiateList_eq_map (ts : List Ty) : instantiateList σ ts = ts.map (instantiate σ) := by
  induction ts with
  | nil => rfl
  | cons t ts ih => rw [instantiateList, ih, List.map_cons]

theorem instantiateFields_eq_map (fields : List (String × Ty)) :
    instantiateFields σ fields = fields.map fun f => (f.1, instantiate σ f.2) := by
  induction fields with
  | nil => rfl
  | cons f fields ih => rw [instantiateFields, ih, List.map_cons]

/-- The names of fields, and so their order, are not touched. -/
theorem instantiateFields_names (fields : List (String × Ty)) :
    (instantiateFields σ fields).map (·.1) = fields.map (·.1) := by
  rw [instantiateFields_eq_map, List.map_map]
  rfl

mutual

/-- Only the types for the variables that occur matter. -/
theorem instantiate_congr : ∀ (t : Ty) {σ τ : Subst}, (∀ x ∈ t.vars, σ x = τ x) →
    instantiate σ t = instantiate τ t
  | .var name, σ, τ, h => by rw [instantiate, instantiate, h name (by simp [vars])]
  | .func dom rng, σ, τ, h => by
    simp only [vars, List.mem_append] at h
    rw [instantiate, instantiate, instantiateList_congr dom fun x hx => h x (.inl hx),
      instantiate_congr rng fun x hx => h x (.inr hx)]
  | .array elem _, σ, τ, h => by rw [instantiate, instantiate, instantiate_congr elem h]
  | .tuple elems, σ, τ, h => by rw [instantiate, instantiate, instantiateList_congr elems h]
  | .object fields, σ, τ, h => by rw [instantiate, instantiate, instantiateFields_congr fields h]
  | .forAll name body, σ, τ, h => by
    have hbody : ∀ x ∈ body.vars, σ.hide name x = τ.hide name x := fun x hx => by
      unfold Subst.hide
      rw [h x hx]
    rw [instantiate, instantiate, instantiate_congr body hbody]
  | .null, _, _, _ | .bool, _, _, _ | .uint256, _, _, _ | .bytes, _, _, _ | .address, _, _, _ => rfl

theorem instantiateList_congr : ∀ (ts : List Ty) {σ τ : Subst}, (∀ x ∈ varsList ts, σ x = τ x) →
    instantiateList σ ts = instantiateList τ ts
  | [], _, _, _ => rfl
  | t :: ts, σ, τ, h => by
    simp only [varsList, List.mem_append] at h
    rw [instantiateList, instantiateList, instantiate_congr t fun x hx => h x (.inl hx),
      instantiateList_congr ts fun x hx => h x (.inr hx)]

theorem instantiateFields_congr : ∀ (fields : List (String × Ty)) {σ τ : Subst},
    (∀ x ∈ varsFields fields, σ x = τ x) → instantiateFields σ fields = instantiateFields τ fields
  | [], _, _, _ => rfl
  | (_, t) :: fields, σ, τ, h => by
    simp only [varsFields, List.mem_append] at h
    rw [instantiateFields, instantiateFields, instantiate_congr t fun x hx => h x (.inl hx),
      instantiateFields_congr fields fun x hx => h x (.inr hx)]

end

mutual

theorem instantiate_none : ∀ t : Ty, instantiate (fun _ => none) t = t
  | .var name => rfl
  | .func dom rng => by rw [instantiate, instantiateList_none dom, instantiate_none rng]
  | .array elem _ => by rw [instantiate, instantiate_none elem]
  | .tuple elems => by rw [instantiate, instantiateList_none elems]
  | .object fields => by rw [instantiate, instantiateFields_none fields]
  | .forAll name body => by
    have hnone : Subst.hide (fun _ => none) name = fun _ => none := by
      funext x
      simp [Subst.hide]
    rw [instantiate, hnone, instantiate_none body]
  | .null | .bool | .uint256 | .bytes | .address => rfl

theorem instantiateList_none : ∀ ts : List Ty, instantiateList (fun _ => none) ts = ts
  | [] => rfl
  | t :: ts => by rw [instantiateList, instantiate_none t, instantiateList_none ts]

theorem instantiateFields_none : ∀ fields : List (String × Ty),
    instantiateFields (fun _ => none) fields = fields
  | [] => rfl
  | (_, t) :: fields => by rw [instantiateFields, instantiate_none t, instantiateFields_none fields]

end

/-- A type without variables is what it is under every substitution. -/
theorem instantiate_of_closed {t : Ty} (h : t.vars = []) (σ : Subst) : instantiate σ t = t := by
  rw [instantiate_congr t (τ := fun _ => none) (by simp [h]), instantiate_none]

mutual

/-- Putting in types without variables leaves the other variables to a second substitution. -/
theorem instantiate_instantiate : ∀ (t : Ty) {σ τ : Subst}, σ.All (·.vars = []) →
    instantiate τ (instantiate σ t) = instantiate (σ.orElse τ) t
  | .var name, σ, τ, hσ => by
    cases hname : σ name with
    | none => simp [instantiate, Subst.orElse, hname]
    | some t => simp [instantiate, Subst.orElse, hname, instantiate_of_closed (hσ name t hname)]
  | .func dom rng, σ, τ, hσ => by
    simp only [instantiate, instantiateList_instantiateList dom hσ, instantiate_instantiate rng hσ]
  | .array elem _, σ, τ, hσ => by simp only [instantiate, instantiate_instantiate elem hσ]
  | .tuple elems, σ, τ, hσ => by simp only [instantiate, instantiateList_instantiateList elems hσ]
  | .object fields, σ, τ, hσ => by
    simp only [instantiate, instantiateFields_instantiateFields fields hσ]
  | .forAll name body, σ, τ, hσ => by
    simp only [instantiate, instantiate_instantiate body (hσ.hide name), Subst.orElse_hide]
  | .null, _, _, _ | .bool, _, _, _ | .uint256, _, _, _ | .bytes, _, _, _ | .address, _, _, _ => rfl

theorem instantiateList_instantiateList : ∀ (ts : List Ty) {σ τ : Subst}, σ.All (·.vars = []) →
    instantiateList τ (instantiateList σ ts) = instantiateList (σ.orElse τ) ts
  | [], _, _, _ => rfl
  | t :: ts, σ, τ, hσ => by
    simp only [instantiateList, instantiate_instantiate t hσ, instantiateList_instantiateList ts hσ]

theorem instantiateFields_instantiateFields : ∀ (fields : List (String × Ty)) {σ τ : Subst},
    σ.All (·.vars = []) →
    instantiateFields τ (instantiateFields σ fields) = instantiateFields (σ.orElse τ) fields
  | [], _, _, _ => rfl
  | (_, t) :: fields, σ, τ, hσ => by
    simp only [instantiateFields, instantiate_instantiate t hσ,
      instantiateFields_instantiateFields fields hσ]

end

theorem Ordered.instantiate {t : Ty} (h : t.Ordered) : ∀ {σ : Subst}, σ.All Ordered →
    (Ty.instantiate σ t).Ordered := by
  induction h with
  | null | bool | uint256 | bytes | address =>
    intro σ _
    rw [Ty.instantiate]
    constructor
  | func _ _ ihdom ihrng =>
    intro σ hσ
    rw [Ty.instantiate, instantiateList_eq_map]
    exact .func (List.forall_mem_map.2 fun t ht => ihdom t ht hσ) (ihrng hσ)
  | array _ ih =>
    intro σ hσ
    rw [Ty.instantiate]
    exact .array (ih hσ)
  | tuple _ ih =>
    intro σ hσ
    rw [Ty.instantiate, instantiateList_eq_map]
    exact .tuple (List.forall_mem_map.2 fun t ht => ih t ht hσ)
  | object hnames _ ih =>
    intro σ hσ
    rw [Ty.instantiate]
    refine .object (by rwa [instantiateFields_names]) ?_
    rw [instantiateFields_eq_map]
    exact List.forall_mem_map.2 fun f hf => ih f hf hσ
  | forAll _ ih =>
    intro σ hσ
    rw [Ty.instantiate]
    exact .forAll (ih (hσ.hide _))
  | @var name =>
    intro σ hσ
    rw [Ty.instantiate]
    cases hname : σ name with
    | none => exact .var
    | some t => exact hσ name t hname

/-! ### One substitution after another -/

theorem substList_eq_map (ts : List Ty) (name : String) (r : Ty) :
    substList ts name r = ts.map (·.subst name r) := by
  induction ts with
  | nil => rfl
  | cons t ts ih => rw [substList, ih, List.map_cons]

theorem substFields_eq_map (fields : List (String × Ty)) (name : String) (r : Ty) :
    substFields fields name r = fields.map fun f => (f.1, f.2.subst name r) := by
  induction fields with
  | nil => rfl
  | cons f fields ih => rw [substFields, ih, List.map_cons]

/-- Replacing one variable is the substitution of one type, where the fields are in order before. -/
theorem Ordered.subst_eq_instantiate {t : Ty} (h : t.Ordered) (name : String) (r : Ty) :
    t.subst name r = Ty.instantiate (.single name r) t := by
  induction h with
  | null | bool | uint256 | bytes | address => simp only [Ty.subst, Ty.instantiate]
  | func _ _ ihdom ihrng =>
    rw [Ty.subst, Ty.instantiate, substList_eq_map, instantiateList_eq_map, ihrng,
      List.map_congr_left ihdom]
  | array _ ih => rw [Ty.subst, Ty.instantiate, ih]
  | tuple _ ih =>
    rw [Ty.subst, Ty.instantiate, substList_eq_map, instantiateList_eq_map, List.map_congr_left ih]
  | @object fields hnames _ ih =>
    have hfields : substFields fields name r = instantiateFields (.single name r) fields := by
      rw [substFields_eq_map, instantiateFields_eq_map]
      exact List.map_congr_left fun f hf => by rw [ih f hf]
    rw [Ty.subst, Ty.instantiate, objectOf, hfields,
      sortFields_of_pairwise (by rwa [instantiateFields_names])]
  | @forAll n body _ ih =>
    rw [Ty.subst, Ty.instantiate]
    split
    · rename_i heq
      -- the variable is bound here, so that nothing is left to put in
      have hnone : (Subst.single name r).hide n = fun _ => none := by
        funext x
        simp [Subst.hide, Subst.single, heq]
      rw [hnone, instantiate_none]
    · rename_i hne
      have hsame : (Subst.single name r).hide n = .single name r := by
        funext x
        unfold Subst.hide Subst.single
        split
        · rename_i heq
          rw [if_neg (heq ▸ hne)]
        · rfl
      rw [ih, hsame]
  | @var n =>
    rw [Ty.subst, Ty.instantiate, Subst.single]
    split <;> rfl

/-- Substituting one solution after another comes to substituting them all at once: the first
solution of a name counts, and solutions have no variables for the later ones to replace. -/
theorem substAll_eq_instantiate {solutions : List (String × Ty)} : ∀ {t : Ty}, t.Ordered →
    (∀ s ∈ solutions, s.2.vars = [] ∧ s.2.Ordered) →
    t.substAll solutions = Ty.instantiate (fun x => solutions.lookup x) t := by
  induction solutions with
  | nil =>
    intro t _ _
    rw [substAll, List.foldl_nil]
    exact (instantiate_none t).symm
  | cons first rest ih =>
    intro t ht hall
    obtain ⟨⟨hclosed, hordered⟩, hrest⟩ := List.forall_mem_cons.1 hall
    have hsingle : ∀ P : Ty → Prop, P first.2 → (Subst.single first.1 first.2).All P := by
      intro P hP x t ht
      unfold Subst.single at ht
      split at ht
      · cases ht
        exact hP
      · cases ht
    have hlookup : (Subst.single first.1 first.2).orElse (fun x => rest.lookup x) =
        fun x => (first :: rest).lookup x := by
      funext x
      unfold Subst.orElse Subst.single
      rw [List.lookup_cons]
      by_cases hx : x = first.1
      · simp [hx]
      · have hne : (x == first.1) = false := by simpa using hx
        simp [hx, hne]
    have hnext := ht.instantiate (hsingle Ordered hordered)
    calc t.substAll (first :: rest)
        = (Ty.instantiate (.single first.1 first.2) t).substAll rest := by
          rw [← ht.subst_eq_instantiate]
          rfl
      _ = Ty.instantiate (fun x => rest.lookup x) (Ty.instantiate (.single first.1 first.2) t) :=
          ih hnext hrest
      _ = Ty.instantiate (fun x => (first :: rest).lookup x) t := by
          rw [instantiate_instantiate t (hsingle _ hclosed), hlookup]

end Ty

end Choreography
