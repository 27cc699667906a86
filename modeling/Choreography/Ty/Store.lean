import Choreography.Ty.Basic

/-!
A store of types in which equal types share one number. A node refers to its components by
number; nodes are kept in the order in which they were first made, so a component always comes
before what it is part of. Whether a node was made before is looked up in a table, by a text that is
written from the node.
-/

namespace Choreography.Ty

/-- One layer of a type, over components of any kind. -/
inductive Layer (κ : Type)
  | null
  | bool
  | uint256
  | bytes
  | address
  | func (dom : List κ) (rng : κ)
  | array (elem : κ) (size : Nat)
  | tuple (elems : List κ)
  | object (fields : List (String × κ))
  | forAll (name : String) (body : κ)
  | var (name : String)
  deriving Inhabited

namespace Layer

variable {κ κ' : Type}

/-- The same layer over other components. -/
def map (f : κ → κ') : Layer κ → Layer κ'
  | .null => .null
  | .bool => .bool
  | .uint256 => .uint256
  | .bytes => .bytes
  | .address => .address
  | .func dom rng => .func (dom.map f) (f rng)
  | .array elem size => .array (f elem) size
  | .tuple elems => .tuple (elems.map f)
  | .object fields => .object (fields.map fun b => (b.1, f b.2))
  | .forAll name body => .forAll name (f body)
  | .var name => .var name

/-- The layer as it is kept: fields in the order of the names. -/
def sorted : Layer κ → Layer κ
  | .object fields => .object (sortFields fields)
  | layer => layer

/-- The type whose outermost layer is given. -/
def toTy : Layer Ty → Ty
  | .null => .null
  | .bool => .bool
  | .uint256 => .uint256
  | .bytes => .bytes
  | .address => .address
  | .func dom rng => .func dom rng
  | .array elem size => .array elem size
  | .tuple elems => .tuple elems
  | .object fields => .object fields
  | .forAll name body => .forAll name body
  | .var name => .var name

/-- A number for the kind of a layer. -/
def kind : Layer κ → Nat
  | .null => 0
  | .bool => 1
  | .uint256 => 2
  | .bytes => 3
  | .address => 4
  | .func .. => 5
  | .array .. => 6
  | .tuple _ => 7
  | .object _ => 8
  | .forAll .. => 9
  | .var _ => 10

/-- The components that come as a list: the domain of a function, the elements of a tuple. -/
def elems : Layer κ → List κ
  | .func dom _ => dom
  | .tuple elems => elems
  | _ => []

/-- The component that stands alone: the range of a function, the element of an array, the body of
a quantifier. -/
def inner? : Layer κ → Option κ
  | .func _ rng => some rng
  | .array elem _ => some elem
  | .forAll _ body => some body
  | _ => none

def size : Layer κ → Nat
  | .array _ size => size
  | _ => 0

def fields : Layer κ → List (String × κ)
  | .object fields => fields
  | _ => []

/-- The name of a variable, or of the variable that a quantifier binds. -/
def name : Layer κ → String
  | .forAll name _ => name
  | .var name => name
  | _ => ""

end Layer

/-- The position of a type in a store. -/
abbrev Id := Nat

/-- One layer of a type, its components given by their numbers. -/
abbrev Node := Layer Id

/-- The text by which a node is looked up. The length of a field's name stands before the name, so
that the name may hold any text; the name of a variable comes last. -/
def Node.key (node : Node) : String :=
  toString node.kind ++ "(" ++ String.join (node.elems.map fun id => toString id ++ ",") ++ ";" ++
    toString (node.inner?.getD 0) ++ ";" ++ toString node.size ++ ";" ++
    String.join (node.fields.map fun f =>
      toString f.1.utf8ByteSize ++ ":" ++ f.1 ++ "=" ++ toString f.2 ++ ",") ++
    ";" ++ node.name ++ ")"

/-- The types made so far, each under its number, and the numbers by the keys of the nodes. -/
structure Store where
  nodes : List Node := []
  table : List (String × Id) := []
  deriving Inhabited

namespace Store

/-- The number of a node, which is new exactly when no node with the same key was made before. -/
def intern (store : Store) (node : Node) : Id × Store :=
  match store.table.lookup node.key with
  | some id => (id, store)
  | none =>
    let id := store.nodes.length
    (id, { nodes := store.nodes ++ [node], table := (node.key, id) :: store.table })

/-- Makes a type from its outermost layer, whose components have been made before. -/
def make (store : Store) (node : Node) : Id × Store := store.intern node.sorted

/-- The types of all nodes, each built from those before it. -/
def types (store : Store) : List Ty :=
  store.nodes.foldl (fun made node => made ++ [(node.map fun id => made.getD id .null).toTy]) []

/-- The type that a number stands for. -/
def get? (store : Store) (id : Id) : Option Ty := store.types[id]?

mutual

/-- Makes a type from its components on, left to right, and gives its number. -/
def add (store : Store) : Ty → Id × Store
  | .null => store.make .null
  | .bool => store.make .bool
  | .uint256 => store.make .uint256
  | .bytes => store.make .bytes
  | .address => store.make .address
  | .func dom rng =>
    let (dom, store) := addList store dom
    let (rng, store) := add store rng
    store.make (.func dom rng)
  | .array elem size =>
    let (elem, store) := add store elem
    store.make (.array elem size)
  | .tuple elems =>
    let (elems, store) := addList store elems
    store.make (.tuple elems)
  | .object fields =>
    let (fields, store) := addFields store fields
    store.make (.object fields)
  | .forAll name body =>
    let (body, store) := add store body
    store.make (.forAll name body)
  | .var name => store.make (.var name)

/-- Makes each type of a list in turn. -/
def addList (store : Store) : List Ty → List Id × Store
  | [] => ([], store)
  | t :: ts =>
    let (id, store) := add store t
    let (ids, store) := addList store ts
    (id :: ids, store)

/-- Makes the type of each field in turn. -/
def addFields (store : Store) : List (String × Ty) → List (String × Id) × Store
  | [] => ([], store)
  | (name, t) :: fields =>
    let (id, store) := add store t
    let (ids, store) := addFields store fields
    ((name, id) :: ids, store)

end

end Store

end Choreography.Ty
