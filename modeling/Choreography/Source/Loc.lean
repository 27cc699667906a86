/-!
Source locations: the points of program text that every tree node, value and emitted statement
remembers.
-/

namespace Choreography

/-- A point in a source module. Line zero marks what no program text produced, so the default
location is the synthetic one. -/
structure Loc where
  file : Nat := 0
  line : Nat := 0
  column : Nat := 0
  deriving DecidableEq, Inhabited

namespace Loc

/-- The location of everything built by the elaborator itself. -/
def synthetic : Loc := {}

def isSynthetic (loc : Loc) : Bool := loc.line == 0

/-- The given location, or `fallback` when nothing in the text stands for it. -/
def orElse (loc fallback : Loc) : Loc := if loc.isSynthetic then fallback else loc

/-- How a message points at another place of the same program. -/
def mention (loc : Loc) : String :=
  if loc.isSynthetic then "<builtin>" else s!"{loc.line}:{loc.column}"

/-- The location in full: the number of the file, the line and the column. -/
def text (loc : Loc) : String :=
  toString loc.file ++ ":" ++ toString loc.line ++ ":" ++ toString loc.column

end Loc

end Choreography
