/-!
The table of source modules. The built-in library always has number zero; the modules of a
program are numbered from one in the order in which they are first registered.
-/

namespace Choreography

inductive SourceKind
  | library
  | file
  deriving DecidableEq

structure SourceFile where
  id : Nat
  kind : SourceKind
  path : String
  deriving DecidableEq

/-- Paths of the registered modules, in order. Registration keeps them distinct. -/
structure SourceTable where
  paths : List String := []
  deriving DecidableEq, Inhabited

namespace SourceTable

/-- The number of the built-in library. -/
def libraryId : Nat := 0

def libraryPath : String := "<stdlib>"

/-- Only registered modules are found by path: the library has no path of its own on disk. -/
def find? (table : SourceTable) (path : String) : Option Nat :=
  (table.paths.findIdx? (· == path)).map (· + 1)

/-- Registers a path and gives its number. A path keeps the number it was first given. -/
def add (table : SourceTable) (path : String) : Nat × SourceTable :=
  match table.find? path with
  | some id => (id, table)
  | none => (table.paths.length + 1, { paths := table.paths ++ [path] })

def file? (table : SourceTable) : Nat → Option SourceFile
  | 0 => some { id := libraryId, kind := .library, path := libraryPath }
  | n + 1 => table.paths[n]?.map fun path => { id := n + 1, kind := .file, path }

def path? (table : SourceTable) (id : Nat) : Option String :=
  (table.file? id).map (·.path)

end SourceTable

end Choreography
