/-!
Types of the language. Equality of types is decided by structure.
-/

namespace Choreography

/-- The types of values. Function types may be polymorphic under any number of `forAll`s. -/
inductive Ty
  | null
  | bool
  | uint256
  | bytes
  | address
  | func (dom : List Ty) (rng : Ty)
  | array (elem : Ty) (size : Nat)
  | tuple (elems : List Ty)
  | object (fields : List (String × Ty))
  | forAll (name : String) (body : Ty)
  | var (name : String)
  deriving Inhabited

namespace Ty

/-- Object types are the same whatever the order in which their fields were written: fields stand
in the order of their names. -/
def sortFields {α : Type} (fields : List (String × α)) : List (String × α) :=
  fields.mergeSort fun a b => decide (a.1 ≤ b.1)

/-- The type of objects with the given fields. -/
def objectOf (fields : List (String × Ty)) : Ty := .object (sortFields fields)

mutual

/-- Structural equality, decided layer by layer. -/
def same : Ty → Ty → Bool
  | .null, .null => true
  | .bool, .bool => true
  | .uint256, .uint256 => true
  | .bytes, .bytes => true
  | .address, .address => true
  | .func dom rng, .func dom' rng' => sameList dom dom' && same rng rng'
  | .array elem size, .array elem' size' => same elem elem' && size == size'
  | .tuple elems, .tuple elems' => sameList elems elems'
  | .object fields, .object fields' => sameFields fields fields'
  | .forAll name body, .forAll name' body' => name == name' && same body body'
  | .var name, .var name' => name == name'
  | _, _ => false

/-- Structural equality of lists of types. -/
def sameList : List Ty → List Ty → Bool
  | [], [] => true
  | t :: ts, t' :: ts' => same t t' && sameList ts ts'
  | _, _ => false

/-- Structural equality of lists of fields. -/
def sameFields : List (String × Ty) → List (String × Ty) → Bool
  | [], [] => true
  | (name, t) :: fields, (name', t') :: fields' =>
    name == name' && same t t' && sameFields fields fields'
  | _, _ => false

end

mutual

theorem same_iff : ∀ a b : Ty, same a b = true ↔ a = b
  | .null, b => by cases b <;> simp [same]
  | .bool, b => by cases b <;> simp [same]
  | .uint256, b => by cases b <;> simp [same]
  | .bytes, b => by cases b <;> simp [same]
  | .address, b => by cases b <;> simp [same]
  | .func dom rng, b => by
    cases b <;> simp [same, sameList_iff dom, same_iff rng]
  | .array elem size, b => by cases b <;> simp [same, same_iff elem]
  | .tuple elems, b => by cases b <;> simp [same, sameList_iff elems]
  | .object fields, b => by cases b <;> simp [same, sameFields_iff fields]
  | .forAll name body, b => by cases b <;> simp [same, same_iff body]
  | .var name, b => by cases b <;> simp [same]

theorem sameList_iff : ∀ ts us : List Ty, sameList ts us = true ↔ ts = us
  | [], us => by cases us <;> simp [sameList]
  | t :: ts, us => by cases us <;> simp [sameList, same_iff t, sameList_iff ts]

theorem sameFields_iff : ∀ fs gs : List (String × Ty), sameFields fs gs = true ↔ fs = gs
  | [], gs => by cases gs <;> simp [sameFields]
  | (name, t) :: fs, gs => by
    rcases gs with _ | ⟨⟨name', t'⟩, gs⟩
    · simp [sameFields]
    · simp [sameFields, same_iff t, sameFields_iff fs]

end

instance : DecidableEq Ty := fun a b => decidable_of_iff (same a b = true) (same_iff a b)

mutual

/-- Data that a program can hold at run time: no function, quantifier or type variable occurs at
any depth. -/
def isFirstOrder : Ty → Bool
  | .null | .bool | .uint256 | .bytes | .address => true
  | .array elem _ => isFirstOrder elem
  | .tuple elems => allFirstOrder elems
  | .object fields => fieldsFirstOrder fields
  | .func _ _ | .forAll _ _ | .var _ => false

/-- Every type of a list is first order. -/
def allFirstOrder : List Ty → Bool
  | [] => true
  | t :: ts => isFirstOrder t && allFirstOrder ts

/-- Every field of an object type is first order. -/
def fieldsFirstOrder : List (String × Ty) → Bool
  | [] => true
  | (_, t) :: fields => isFirstOrder t && fieldsFirstOrder fields

end

/-- The type of a field of an object type. -/
def field? : Ty → String → Option Ty
  | .object fields, name => fields.lookup name
  | _, _ => none

/-- The fields of an object type, in order; other types have none. -/
def fieldNames : Ty → List String
  | .object fields => fields.map (·.1)
  | _ => []

mutual

/-- Replaces the free occurrences of a type variable. -/
def subst (t : Ty) (name : String) (replacement : Ty) : Ty :=
  match t with
  | .var n => if n = name then replacement else .var n
  | .forAll n body => if n = name then .forAll n body else .forAll n (body.subst name replacement)
  | .array elem size => .array (elem.subst name replacement) size
  | .tuple elems => .tuple (substList elems name replacement)
  | .object fields => objectOf (substFields fields name replacement)
  | .func dom rng => .func (substList dom name replacement) (rng.subst name replacement)
  | .null => .null
  | .bool => .bool
  | .uint256 => .uint256
  | .bytes => .bytes
  | .address => .address

/-- Substitution in each of a list of types. -/
def substList (ts : List Ty) (name : String) (replacement : Ty) : List Ty :=
  match ts with
  | [] => []
  | t :: ts => t.subst name replacement :: substList ts name replacement

/-- Substitution in each field. -/
def substFields (fields : List (String × Ty)) (name : String) (replacement : Ty) :
    List (String × Ty) :=
  match fields with
  | [] => []
  | (n, t) :: fields => (n, t.subst name replacement) :: substFields fields name replacement

end

/-- Substitutes one solution after another, in the order of the list. -/
def substAll (t : Ty) (solutions : List (String × Ty)) : Ty :=
  solutions.foldl (fun t s => t.subst s.1 s.2) t

/-- What stands under the leading quantifiers. -/
def stripForAll : Ty → Ty
  | .forAll _ body => stripForAll body
  | t => t

/-- The short name of a type, as faults mention it: compound types show their kind only. -/
def short : Ty → String
  | .null => "null"
  | .bool => "bool"
  | .uint256 => "uint256"
  | .bytes => "bytes"
  | .address => "address"
  | .func _ _ => "function"
  | .array _ _ => "array"
  | .tuple _ => "tuple"
  | .object _ => "object"
  | .forAll name body => "Forall(" ++ name ++ ": " ++ short body ++ ")"
  | .var name => name

mutual

/-- The whole structure of a type, as programs show it. -/
def full : Ty → String
  | .func dom rng => "Fun([" ++ String.intercalate ", " (fullList dom) ++ "], " ++ full rng ++ ")"
  | .array elem size => "Array(" ++ full elem ++ ", " ++ toString size ++ ")"
  | .tuple elems => "Tuple(" ++ String.intercalate ", " (fullList elems) ++ ")"
  | .object fields => "Object(\x7b" ++ String.intercalate ", " (fullFields fields) ++ "\x7d)"
  | .forAll name body => "Forall(" ++ name ++ ": " ++ full body ++ ")"
  | .null => "null"
  | .bool => "bool"
  | .uint256 => "uint256"
  | .bytes => "bytes"
  | .address => "address"
  | .var name => name

/-- The whole structure of each of a list of types. -/
def fullList : List Ty → List String
  | [] => []
  | t :: ts => full t :: fullList ts

/-- The fields of an object type with their whole structure. -/
def fullFields : List (String × Ty) → List String
  | [] => []
  | (name, t) :: fields => (name ++ ": " ++ full t) :: fullFields fields

end

end Ty

end Choreography
