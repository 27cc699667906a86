import Choreography.Ir.Code

/-!
The operands and computations of intermediate programs: what they mention, and their types.
-/

namespace Choreography.Ir

namespace Arg

mutual

/-- The variables, constants and data of frontends that an operand mentions; with `deep` also those
in the fields of objects. -/
def atoms (deep : Bool) : Arg → List Arg
  | .tuple elems => allAtoms deep elems
  | .object fields => if deep then fieldAtoms fields else []
  | .var v => [.var v]
  | .const c => [.const c]
  | .interact who method type => [.interact who method type]

def allAtoms (deep : Bool) : List Arg → List Arg
  | [] => []
  | a :: args => atoms deep a ++ allAtoms deep args

def fieldAtoms : List (String × Arg) → List Arg
  | [] => []
  | (_, a) :: fields => atoms true a ++ fieldAtoms fields

end

@[simp] theorem allAtoms_eq_flatMap (deep : Bool) (args : List Arg) :
    allAtoms deep args = args.flatMap (atoms deep) := by
  induction args with
  | nil => simp [allAtoms]
  | cons a args ih => simp [allAtoms, ih]

@[simp] theorem fieldAtoms_eq_flatMap (fields : List (String × Arg)) :
    fieldAtoms fields = fields.flatMap fun f => f.2.atoms true := by
  induction fields with
  | nil => simp [fieldAtoms]
  | cons f fields ih => simp [fieldAtoms, ih]

mutual

/-- The type of an operand. -/
def type : Arg → Ty
  | .var v => v.type
  | .const .null => .null
  | .const (.bool _) => .bool
  | .const (.int _) => .uint256
  | .const (.bytes _) => .bytes
  | .tuple elems => .tuple (types elems)
  | .object fields => .object (fieldTypes fields)
  | .interact _ _ type => type

def types : List Arg → List Ty
  | [] => []
  | a :: args => type a :: types args

def fieldTypes : List (String × Arg) → List (String × Ty)
  | [] => []
  | (name, a) :: fields => (name, type a) :: fieldTypes fields

end

@[simp] theorem types_eq_map (args : List Arg) : types args = args.map type := by
  induction args with
  | nil => rfl
  | cons a args ih => simp [types, ih]

@[simp] theorem fieldTypes_eq_map (fields : List (String × Arg)) :
    fieldTypes fields = fields.map fun f => (f.1, f.2.type) := by
  induction fields with
  | nil => rfl
  | cons f fields ih => simp [fieldTypes, ih]

end Arg

/-- The frontend of a participant is declared to offer a method at a type. -/
def Declares (participants : NameMap (NameMap Ty)) (who method : String) (type : Ty) : Prop :=
  ∃ methods, participants.get? who = some methods ∧ methods.get? method = some type

/-- The operation takes operands of the given types to a result of type `rng`, under some solution
for the type variables of its signature. -/
def Op.Applies (op : Op) (dom : List Ty) (rng : Ty) : Prop :=
  ∃ (formals : List Ty) (result : Ty) (solutions : List (String × Ty)),
    op.type.stripForAll = .func formals result ∧ formals.map (·.substAll solutions) = dom ∧
      result.substAll solutions = rng

namespace Expr

def operands : Expr → List Arg
  | .arg a | .tupleRef a _ | .objectRef a _ => [a]
  | .arrayRef _ array _ index => [array, index]
  | .prim _ args | .interact _ _ _ args | .digest args => args

/-- The computation asks a participant's frontend. -/
def asks : Expr → Bool
  | .interact .. => true
  | .arg _ | .prim .. | .arrayRef .. | .tupleRef .. | .objectRef .. | .digest _ => false

/-- The types of computations. An array is read inside its bounds where the index is constant. -/
inductive HasType (participants : NameMap (NameMap Ty)) : Expr → Ty → Prop
  | prim {op : Op} {args : List Arg} {t : Ty} (h : op.Applies (args.map Arg.type) t) :
    HasType participants (.prim op args) t
  | arrayRef {frames : List Frame} {array index : Arg} {size : Nat} {t : Ty}
    (harray : array.type = .array t size) (hindex : index.type = .uint256)
    (hbound : ∀ n, index = .int n → 0 ≤ n ∧ n < size) :
    HasType participants (.arrayRef frames array size index) t
  | tupleRef {tuple : Arg} {i : Nat} {types : List Ty} {t : Ty} (htuple : tuple.type = .tuple types)
    (hcomponent : types[i]? = some t) : HasType participants (.tupleRef tuple i) t
  | objectRef {object : Arg} {field : String} {t : Ty}
    (hfield : object.type.field? field = some t) : HasType participants (.objectRef object field) t
  | interact {who method : String} {args : List Arg} {t : Ty}
    (hdeclared : Declares participants who method (.func (args.map Arg.type) t)) :
    HasType participants (.interact who method t args) t
  | digest {args : List Arg} : HasType participants (.digest args) .uint256

end Expr

end Choreography.Ir
