import Choreography.Elaborate.Run
import Choreography.Library.Base
import Choreography.Library.Standard
import Choreography.Source.Table

/-!
Linking. The modules of a bundle are elaborated in order, each against the exports of those
before it; the standard library comes first unless the bundle brings its own.
-/

namespace Choreography

/-- Settings of an elaboration. -/
structure Options where
  major : Nat := 0
  minor : Nat := 1
  /-- How many names a fault suggests at most. -/
  maxSuggestions : Nat := 5
  deriving DecidableEq, Inhabited

/-- The text that every module opens with. -/
def Options.header (options : Options) : String :=
  "reach " ++ toString options.major ++ "." ++ toString options.minor

/-- A module and the number of the file it stands in. -/
structure ModuleSource where
  file : Nat
  tree : Surface.Module

/-- Modules in an order in which each only imports modules before it. The last is the entry. -/
abbrev Bundle := List ModuleSource

/-- The exports of the modules elaborated so far, by file. -/
abbrev Libraries := OrderedMap Nat Bindings

/-- Whether an item is the header that a module opens with. -/
def Surface.Item.isHeader (item : Surface.Item) (header : String) : Bool :=
  match item with
  | .plain _ (.expr _ (.string _ text)) => Text.unquote text == header
  | _ => false

/-- The items of a module after its header. -/
def Surface.Module.afterHeader (m : Surface.Module) (header : String) :
    Eval (List Surface.Item) :=
  match m.items with
  | [] => Eval.fail (.noHeader m.loc header)
  | first :: rest => do
    Eval.ensure (first.isHeader header) (.noHeader first.loc header)
    return rest

/-- A module in progress: all its bindings, and those it exports. -/
structure ModuleState where
  env : Bindings
  exports : Bindings := {}

namespace Link

/-- The context at the top level of a module, where nothing may be emitted. -/
def moduleCtx : Ctx := { mode := .module, canLift := false }

/-- Evaluates a statement at the top level. It may neither emit code nor return. -/
def topLevel (ev : Evaluator) (loc : Loc) (env : Bindings) (stmt : Surface.Stmt) :
    Eval Bindings := do
  let result ← ev.stmts moduleCtx loc { env } [stmt]
  Eval.ensure (result.code.isEmpty && result.value.exits.isEmpty) (.moduleReturn loc)
  return result.value.env

/-- The exports of the module that an import names. -/
def dependency (sources : SourceTable) (libs : Libraries) (loc : Loc) (source : String) :
    Eval Bindings :=
  Eval.orFail ((sources.find? source).bind libs.get?) (.missingDependency loc source)

def item (ev : Evaluator) (sources : SourceTable) (libs : Libraries) (m : ModuleState) :
    Surface.Item → Eval ModuleState
  | .importFrom loc source => do
    let imported ← dependency sources libs loc source
    let env ← m.env.merge loc imported
    return { m with env }
  | .exported loc stmt => do
    let env ← topLevel ev loc m.env stmt
    let exports ← m.exports.merge loc (env.difference m.env)
    return { env, exports }
  | .plain loc stmt => do
    let env ← topLevel ev loc m.env stmt
    return { m with env }
  | .foreign loc .otherExport =>
    Eval.fail (.foreignExport loc (Surface.ForeignItem.otherExport).construct)
  | .foreign loc .otherImport =>
    Eval.fail (.foreignImport loc (Surface.ForeignItem.otherImport).construct)

def items (ev : Evaluator) (sources : SourceTable) (libs : Libraries) (m : ModuleState) :
    List Surface.Item → Eval ModuleState
  | [] => pure m
  | first :: rest => do
    let m ← item ev sources libs m first
    items ev sources libs m rest

/-- The environment in which a module begins: user modules see the standard library on top of the
base environment. -/
def initialEnv (libs : Libraries) (m : ModuleSource) : Eval Bindings :=
  if m.file = SourceTable.libraryId then pure baseEnv
  else do
    let library ← Eval.orFail (libs.get? SourceTable.libraryId) (.noLibrary m.tree.loc)
    return baseEnv.setAll library.entries

/-- What a module exports. -/
def moduleExports (ev : Evaluator) (options : Options) (sources : SourceTable) (libs : Libraries)
    (m : ModuleSource) : Eval Bindings := do
  let rest ← m.tree.afterHeader options.header
  let env ← initialEnv libs m
  let result ← items ev sources libs { env } rest
  return result.exports

def modules (ev : Evaluator) (options : Options) (sources : SourceTable) (libs : Libraries) :
    Bundle → Eval Libraries
  | [] => pure libs
  | m :: rest => do
    let exports ← moduleExports ev options sources libs m
    modules ev options sources (libs.insert m.file exports) rest

/-- The bundle with the standard library in front, unless it brings its own. -/
def withLibrary (options : Options) (bundle : Bundle) : Bundle :=
  if bundle.any (·.file == SourceTable.libraryId) then bundle
  else
    { file := SourceTable.libraryId,
      tree := standardLibrary SourceTable.libraryId options.header } :: bundle

end Link

/-- The exports of every module of a bundle and of the standard library. -/
def link (fuel : Nat) (options : Options) (sources : SourceTable) (bundle : Bundle) :
    Eval Libraries :=
  Link.modules (evaluator fuel) options sources {} (Link.withLibrary options bundle)

end Choreography
