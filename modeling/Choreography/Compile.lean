import Choreography.Link

/-!
Compilation: the app that the entry module exports is elaborated into a program.
-/

namespace Choreography

namespace App

/-- What each participant's frontend offers. Of several participants of one name, or several
fields of one name, the first counts. -/
def interfaces (parts : List Participant) : NameMap (NameMap Ty) :=
  parts.foldl (fun all p =>
    let known := (all.get? p.who).getD {}
    all.insert p.who (p.interface.foldl (fun m (method, t) => m.insertNew method t) known)) {}

/-- The first view of each participant: the shared environment and its own interface. -/
def views (loc : Loc) (env : Bindings) (known : NameMap Bindings) :
    List Participant → Eval (NameMap Bindings)
  | [] => pure known
  | p :: parts => do
    let view ← env.bind loc "interact" (.secret p.interactValue)
    views loc env (known.insertNew p.who view) parts

/-- Elaborates the body of an app between rounds, with no one on the ledger yet. -/
def compile (a : App) (ev : Evaluator) (loc : Loc) : Eval Ir.Program := do
  let views ← views loc a.env {} a.parts
  Eval.restartIds
  let ctx : Ctx := { mode := .step { views }, canLift := true }
  let result ← ev.stmts ctx a.body.loc { env := a.env } a.body.stmts
  return { loc, participants := interfaces a.parts, body := result.code }

end App

/-- The program of the app that the entry module exports as `top`. -/
def compile (fuel : Nat) (options : Options) (sources : SourceTable) (bundle : Bundle)
    (top : String) : Eval Ir.Program := do
  let entry ← Eval.orFail bundle.getLast? .emptyBundle
  let libs ← link fuel options sources bundle
  let loc := entry.tree.loc
  let exports ← Eval.orFail (libs.get? entry.file) .emptyBundle
  let sv ← exports.lookup loc top
  let value ← sv.requirePublic loc
  match value with
  | .prim appLoc (.app _ a) => a.compile (evaluator fuel) appLoc
  | _ => Eval.fail (.notApp loc value.describe)

end Choreography
