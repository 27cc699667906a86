/-!
Security levels: who may know a value.
-/

namespace Choreography

/-- A value is known to every participant, or only to the one that produced it. -/
inductive Level
  | pub
  | secret
  deriving DecidableEq, Inhabited

namespace Level

def name : Level → String
  | .pub => "public"
  | .secret => "secret"

/-- The level of something computed from two values: secret as soon as either is. -/
def meet : Level → Level → Level
  | .pub, level => level
  | .secret, _ => .secret

/-- The level of something computed from any number of values. -/
def meetAll (levels : List Level) : Level := levels.foldl meet .pub

end Level

/-- Anything carried together with the level at which it may be known. -/
structure Labelled (α : Type) where
  level : Level
  value : α
  deriving DecidableEq, Inhabited

namespace Labelled

def pub {α : Type} (value : α) : Labelled α := ⟨.pub, value⟩

def secret {α : Type} (value : α) : Labelled α := ⟨.secret, value⟩

/-- The same value, known to no more than `level` allows. -/
def taint {α : Type} (level : Level) (x : Labelled α) : Labelled α :=
  { x with level := level.meet x.level }

/-- The level of a result that depends on all of `xs`. -/
def levelOf {α : Type} (xs : List (Labelled α)) : Level := Level.meetAll (xs.map (·.level))

end Labelled

end Choreography
