import Choreography.Fault.Basic

/-!
The faults that elaboration raises, each from what caused it.
-/

namespace Choreography.Fault

/-! ### Names -/

def unbound (loc : Loc) (name : String) (scope : List String) : Fault :=
  { kind := .unbound, loc, subject := name, options := scope }

def shadowed (loc : Loc) (name : String) : Fault := { kind := .shadowed, loc, subject := name }

/-! ### Grammar -/

def strayAssignment (loc : Loc) : Fault := { kind := .strayAssignment, loc }

def foreignStatement (loc : Loc) (construct : String) : Fault :=
  { kind := .foreignStatement, loc, subject := construct }

def strayVar (loc : Loc) : Fault := { kind := .strayVar, loc }

def strayLoop (loc : Loc) : Fault := { kind := .strayLoop, loc }

def bindingTarget (loc : Loc) (construct : String) : Fault :=
  { kind := .bindingTarget, loc, subject := construct }

def noInitializer (loc : Loc) : Fault :=
  { kind := .foreignDeclaration, loc, subject := "declaration without initializer" }

def foreignExpression (loc : Loc) (construct : String) : Fault :=
  { kind := .foreignExpression, loc, subject := construct }

def foreignBinary (loc : Loc) (symbol : String) : Fault :=
  { kind := .foreignBinary, loc, subject := symbol }

def foreignUnary (loc : Loc) (symbol : String) : Fault :=
  { kind := .foreignUnary, loc, subject := symbol }

def expectedIdentifier (loc : Loc) (construct : String) : Fault :=
  { kind := .expectedIdentifier, loc, subject := construct }

def namedFunctionExpr (loc : Loc) (name : String) : Fault :=
  { kind := .namedFunctionExpr, loc, subject := name }

def namelessFunction (loc : Loc) : Fault := { kind := .namelessFunction, loc }

def methodField (loc : Loc) : Fault := { kind := .methodField, loc }

def numberField (loc : Loc) (text : String) : Fault :=
  { kind := .numberField, loc, subject := text }

def foreignImport (loc : Loc) (construct : String) : Fault :=
  { kind := .foreignImport, loc, subject := construct }

def foreignExport (loc : Loc) (construct : String) : Fault :=
  { kind := .foreignExport, loc, subject := construct }

def noHeader (loc : Loc) (header : String) : Fault := { kind := .noHeader, loc, expected := header }

def tailNotEmpty (loc : Loc) (count : Nat) : Fault :=
  { kind := .tailNotEmpty, loc, got := toString count }

def invariantArity (loc : Loc) (count : Nat) : Fault :=
  { kind := .invariantArity, loc, got := toString count }

def timeoutArgs (loc : Loc) : Fault := { kind := .timeoutArgs, loc }

def appArgs (loc : Loc) : Fault := { kind := .appArgs, loc }

/-- A form that takes one argument got another number of them, or one of another kind. -/
def formArgs (loc : Loc) (form : String) (count : Nat) : Fault :=
  { kind := .formArgs, loc, subject := form, expected := "1", got := toString count }

/-! ### Types -/

def applyArity (loc : Loc) (formals args : Nat) (defLoc : Loc) : Fault :=
  { kind := .applyArity, loc, expected := toString formals, got := toString args,
    otherLoc := some defLoc }

def statementNotNull (loc : Loc) (found : String) : Fault :=
  { kind := .statementNotNull, loc, got := found }

def interactSpec (loc : Loc) (method found : String) : Fault :=
  { kind := .interactSpec, loc, subject := method, got := found }

def participantSpec (loc : Loc) (found : String) : Fault :=
  { kind := .participantSpec, loc, got := found }

def notDestructurable (loc : Loc) (found : String) : Fault :=
  { kind := .notDestructurable, loc, got := found }

def destructureLength (loc : Loc) (names values : Nat) : Fault :=
  { kind := .destructureLength, loc, expected := toString names, got := toString values }

def noField (loc : Loc) (field : String) (fields : List String) : Fault :=
  { kind := .noField, loc, subject := field, options := fields }

def condNotBool (loc : Loc) (found : String) : Fault := { kind := .condNotBool, loc, got := found }

def notApplicable (loc : Loc) (found : String) : Fault :=
  { kind := .notApplicable, loc, got := found }

def notApplicableToValues (loc : Loc) (found : String) : Fault :=
  { kind := .notApplicableToValues, loc, got := found }

def notObject (loc : Loc) (found : String) : Fault := { kind := .notObject, loc, got := found }

def notIndexable (loc : Loc) (found : String) : Fault :=
  { kind := .notIndexable, loc, got := found }

def indexNotInt (loc : Loc) (found : String) : Fault := { kind := .indexNotInt, loc, got := found }

def indirectNotArray (loc : Loc) (found : String) : Fault :=
  { kind := .indirectNotArray, loc, got := found }

def outOfBounds (loc : Loc) (size : Nat) (index : Int) : Fault :=
  { kind := .outOfBounds, loc, expected := toString size, got := Integer.decimal index }

def alreadyPublic (loc : Loc) (found : String) : Fault :=
  { kind := .alreadyPublic, loc, got := found }

def secretUse (loc : Loc) (found : String) : Fault := { kind := .secretUse, loc, got := found }

def computedField (loc : Loc) (found : String) : Fault :=
  { kind := .computedField, loc, got := found }

def spreadNotObject (loc : Loc) (found : String) : Fault :=
  { kind := .spreadNotObject, loc, got := found }

def primitiveArgs (loc : Loc) (primitive : String) (found : List String) : Fault :=
  { kind := .primitiveArgs, loc, subject := primitive, options := found }

def typeMismatch (loc : Loc) (wanted found : String) : Fault :=
  { kind := .typeMismatch, loc, expected := wanted, got := found }

def typeArity (loc : Loc) (wanted found : Nat) : Fault :=
  { kind := .typeArity, loc, expected := toString wanted, got := toString found }

def untyped (loc : Loc) (kind : String) : Fault := { kind := .untyped, loc, got := kind }

def joinMismatch (loc : Loc) (first second : String) (otherLoc : Loc) : Fault :=
  { kind := .joinMismatch, loc, expected := first, got := second, otherLoc := some otherLoc }

def joinEmpty (loc : Loc) : Fault := { kind := .joinEmpty, loc }

def notApp (loc : Loc) (found : String) : Fault := { kind := .notApp, loc, got := found }

def repeatedStage (loc : Loc) (stage : String) : Fault :=
  { kind := .repeatedStage, loc, subject := stage }

/-! ### Modes -/

def wrongMode (loc : Loc) (operation mode : String) : Fault :=
  { kind := .wrongMode, loc, subject := operation, got := mode }

def illegalLift (loc : Loc) (mode : String) : Fault := { kind := .illegalLift, loc, got := mode }

def cannotReturn (loc : Loc) : Fault := { kind := .cannotReturn, loc }

def noReturn (loc : Loc) : Fault := { kind := .noReturn, loc }

def moduleReturn (loc : Loc) : Fault := { kind := .moduleReturn, loc }

def continueOutsideLoop (loc : Loc) : Fault := { kind := .continueOutsideLoop, loc }

def notLoopVariable (loc : Loc) (name : String) : Fault :=
  { kind := .notLoopVariable, loc, subject := name }

/-! ### States that no program should reach -/

def internal (loc : Loc) (problem : String) : Fault :=
  { kind := .internal, loc, subject := problem }

def notAFunctionType (loc : Loc) (type : String) : Fault :=
  internal loc ("cannot apply values of type " ++ type)

def noView (loc : Loc) (who : String) : Fault := internal loc ("no local environment for " ++ who)

def notAParticipant (loc : Loc) (name : String) : Fault :=
  internal loc (name ++ " is not a participant")

def missingDependency (loc : Loc) (source : String) : Fault :=
  internal loc ("dependency not found: " ++ source)

def noLibrary (loc : Loc) : Fault := internal loc "standard library not elaborated"

def emptyBundle : Fault := internal .synthetic "empty bundle"

end Choreography.Fault
