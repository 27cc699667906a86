/-!
Finite maps listed by ascending key. The order of traversal is part of their meaning: whoever
walks such a map meets its keys in order.
-/

namespace Choreography

/-- A finite map. Its entries stand in ascending order of distinct keys. -/
structure OrderedMap (κ α : Type) where
  entries : List (κ × α) := []
  deriving Inhabited

namespace OrderedMap

variable {κ α β : Type}

def empty : OrderedMap κ α := {}

def keys (m : OrderedMap κ α) : List κ := m.entries.map (·.1)

def get? [DecidableEq κ] (m : OrderedMap κ α) (k : κ) : Option α :=
  (m.entries.find? (·.1 = k)).map (·.2)

/-- Places an entry in a list that is in order, in front of the first larger key. An entry with
the same key is replaced. -/
def place [DecidableEq κ] [LT κ] [DecidableLT κ] (k : κ) (a : α) : List (κ × α) → List (κ × α)
  | [] => [(k, a)]
  | (k', a') :: rest =>
    if k = k' then (k, a) :: rest
    else if k < k' then (k, a) :: (k', a') :: rest
    else (k', a') :: place k a rest

/-- Binds a key, whether or not it was bound before. -/
def insert [DecidableEq κ] [LT κ] [DecidableLT κ] (m : OrderedMap κ α) (k : κ) (a : α) :
    OrderedMap κ α :=
  ⟨place k a m.entries⟩

/-- Binds a key that has no binding yet; the first binding of a key stays. -/
def insertNew [DecidableEq κ] [LT κ] [DecidableLT κ] (m : OrderedMap κ α) (k : κ) (a : α) :
    OrderedMap κ α :=
  match m.get? k with
  | some _ => m
  | none => m.insert k a

/-- Applies an effectful function to every binding, in ascending order of keys. -/
def traverse {m : Type → Type} [Monad m] (f : κ → α → m β) (t : OrderedMap κ α) :
    m (OrderedMap κ β) := do
  return ⟨← t.entries.mapM fun (k, a) => return (k, ← f k a)⟩

end OrderedMap

/-- Maps from names, listed by name in the order of their bytes. -/
abbrev NameMap (α : Type) := OrderedMap String α

end Choreography
