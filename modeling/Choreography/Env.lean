/-!
Environments: finite maps from names in which a name is bound once. Bindings remember their age,
because they are listed oldest first; replacing a binding makes it the newest.
-/

namespace Choreography

/-- Bindings of distinct names, oldest first. -/
structure Env (α : Type) where
  entries : List (String × α) := []
  deriving Inhabited

namespace Env

variable {α β : Type}

def empty : Env α := {}

def size (env : Env α) : Nat := env.entries.length

def isEmpty (env : Env α) : Bool := env.entries.isEmpty

def find? (env : Env α) (name : String) : Option α := env.entries.lookup name

def contains (env : Env α) (name : String) : Bool := (env.find? name).isSome

/-- Adds a binding as the newest, for a name that is not bound. -/
def push (env : Env α) (name : String) (a : α) : Env α := ⟨env.entries ++ [(name, a)]⟩

/-- Drops the bindings of the given names. -/
def without (env : Env α) (names : List String) : Env α :=
  ⟨env.entries.filter fun b => !names.contains b.1⟩

/-- Keeps the bindings of the names that `other` does not bind. -/
def difference (env other : Env α) : Env α :=
  ⟨env.entries.filter fun b => !other.contains b.1⟩

/-- Binds a new name; refused when the name is bound. -/
def insert? (env : Env α) (name : String) (a : α) : Option (Env α) :=
  if env.contains name then none else some (env.push name a)

/-- Binds a name, dropping a binding that it had. -/
def set (env : Env α) (name : String) (a : α) : Env α :=
  (env.without [name]).push name a

/-- Sets each binding in turn. -/
def setAll (env : Env α) (bindings : List (String × α)) : Env α :=
  bindings.foldl (fun env b => env.set b.1 b.2) env

def ofList (bindings : List (String × α)) : Env α := empty.setAll bindings

/-- The bound names in the order of their bytes. -/
def names (env : Env α) : List String :=
  (env.entries.map (·.1)).mergeSort fun a b => decide (a ≤ b)

end Env

end Choreography
