import Choreography.Elaborate.Eval
import Choreography.Value.Typing

/-!
Bindings that stop with a fault: a name is bound once, must be bound to be used, and secrets are
used only where secrets may be.
-/

namespace Choreography.Bindings

/-- Binds a new name. -/
def bind (env : Bindings) (loc : Loc) (name : String) (v : SecValue) : Eval Bindings :=
  Eval.orFail (env.insert? name v) (.shadowed loc name)

/-- Binds names in turn. -/
def bindAll (env : Bindings) (loc : Loc) : List (String × SecValue) → Eval Bindings
  | [] => pure env
  | (name, v) :: rest => do
    let env ← env.bind loc name v
    bindAll env loc rest

/-- Adds all bindings of another environment, oldest first. -/
def merge (env : Bindings) (loc : Loc) (overlay : Bindings) : Eval Bindings :=
  env.bindAll loc overlay.entries

def lookup (env : Bindings) (loc : Loc) (name : String) : Eval SecValue :=
  Eval.orFail (env.find? name) (.unbound loc name env.names)

/-- The value of an identifier. A participant that has no display name yet takes the name by which
it is referred to here. -/
def identify (env : Bindings) (loc : Loc) (name : String) : Eval SecValue := do
  let sv ← env.lookup loc name
  match sv.value with
  | .participant _ p =>
    match p.displayName with
    | some _ => return sv
    | none =>
      let tag ← Eval.freshTag
      return { sv with value := .participant tag { p with displayName := some name } }
  | _ => return sv

end Choreography.Bindings

namespace Choreography.SecValue

/-- The value, where everyone may know it. -/
def requirePublic (sv : SecValue) (loc : Loc) : Eval Value :=
  match sv.level with
  | .pub => pure sv.value
  | .secret => Eval.fail (.secretUse loc sv.value.describe)

/-- Makes a secret known to everyone. What is public already cannot be declassified. -/
def declassify (sv : SecValue) (loc : Loc) : Eval SecValue :=
  match sv.level with
  | .secret => pure (.pub sv.value)
  | .pub => Eval.fail (.alreadyPublic loc sv.value.describe)

end Choreography.SecValue
