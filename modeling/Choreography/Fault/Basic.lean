import Choreography.Fault.Kind
import Choreography.Fault.Suggestion
import Choreography.Integer
import Choreography.Source.Diagnostic

/-!
Faults: why a program was rejected. A fault records where and of which kind it is, and the texts
that its message is made of; which of them are used depends on the kind. The message is composed
only when the fault is reported.
-/

namespace Choreography

structure Fault where
  kind : FaultKind
  loc : Loc
  /-- The offending name, construct, field, primitive or operation. -/
  subject : String := ""
  /-- Names in scope, fields that exist, or what was passed. -/
  options : List String := []
  /-- The count, type, size or header that was expected. -/
  expected : String := ""
  /-- The count, type, index or mode that was found. -/
  got : String := ""
  /-- A second place that takes part in the fault. -/
  otherLoc : Option Loc := none
  deriving Inhabited

namespace Fault

/-- The message of a fault on one line, with at most `limit` suggestions. -/
def message (f : Fault) (limit : Nat) : String :=
  match f.kind with
  | .unbound =>
    "Invalid unbound identifier: " ++ f.subject ++ Suggestion.hint f.subject f.options limit
  | .shadowed => "Invalid name shadowing. Cannot be rebound: " ++ f.subject
  | .strayAssignment => "Invalid assignment"
  | .foreignStatement => "Invalid statement: " ++ f.subject
  | .strayVar => "Invalid `var` syntax. (Double check your syntax for while?)"
  | .strayLoop => "Invalid `while` syntax"
  | .bindingTarget => "Invalid binding. Expressions cannot appear on the LHS."
  | .foreignDeclaration => "Invalid Reach declaration: " ++ f.subject
  | .foreignExpression => "Invalid Reach expression syntax: " ++ f.subject
  | .foreignBinary => "Invalid binary operator: " ++ f.subject
  | .foreignUnary => "Invalid unary operator: " ++ f.subject
  | .expectedIdentifier => "Invalid expression. Expected identifier, got: " ++ f.subject
  | .namedFunctionExpr =>
    "Invalid function expression. Anonymous functions must not be named."
  | .namelessFunction =>
    "Invalid function declaration. Top-level functions must be named."
  | .methodField =>
    "Invalid function field. Instead of \x7bf() \x7b...\x7d\x7d, write \x7bf: () => \x7b...\x7d\x7d"
  | .numberField => "Invalid field name. Fields must be bytes, but got: uint256"
  | .foreignImport => "Invalid Reach import syntax: " ++ f.subject
  | .foreignExport => "Invalid Reach export syntax: " ++ f.subject
  | .noHeader =>
    "Invalid Reach file. Expected header '" ++ f.expected ++ "'; at top of file."
  | .tailNotEmpty =>
    "Invalid statement block. Expected empty tail, but found " ++ f.got ++ " more statements"
  | .invariantArity => "Invalid while loop invariant. Expected 1 expr, but got " ++ f.got
  | .timeoutArgs => "Invalid Participant.timeout args"
  | .appArgs => "Invalid app arguments"
  | .formArgs => "Invalid args. Expected " ++ f.expected ++ " but got " ++ f.got
  | .applyArity =>
    "Invalid function application. Expected " ++ f.expected ++ " args, got " ++ f.got
      ++ (match f.otherLoc with
        | some loc => " for function defined at " ++ loc.mention
        | none => "")
  | .statementNotNull => "Invalid block result type. Expected Null, got " ++ f.got
  | .interactSpec => "Invalid interact specification. Expected public type, got: " ++ f.got
  | .participantSpec => "Invalid participant spec"
  | .notDestructurable => "Invalid binding. Expected array or tuple, got: " ++ f.got
  | .destructureLength =>
    "Invalid array binding. nIdents:" ++ f.expected ++ " does not match nVals:" ++ f.got
  | .noField => "Invalid field: " ++ f.subject ++ Suggestion.hint f.subject f.options limit
  | .condNotBool =>
    "Invalid if statement. Expected if condition to be bool, got: " ++ f.got
  | .notApplicable => "Invalid function application. Cannot apply: " ++ f.got
  | .notApplicableToValues => "Invalid function. Cannot apply: " ++ f.got
  | .notObject => "Invalid field access. Expected object, got: " ++ f.got
  | .notIndexable => "Invalid element reference. Expected array or tuple, got: " ++ f.got
  | .indexNotInt => "Invalid array index. Expected uint256, got: " ++ f.got
  | .indirectNotArray => "Invalid indirect element reference. Expected array, got: " ++ f.got
  | .outOfBounds =>
    "Invalid array index. Expected (0 <= ix < " ++ f.expected ++ "), got " ++ f.got
  | .alreadyPublic =>
    "Invalid declassify. Expected to declassify something private, but this " ++ f.got
      ++ " is public."
  | .secretUse => "Invalid access of secret value (" ++ f.got ++ ")"
  | .computedField =>
    "Invalid computed field name. Fields must be bytes, but got: " ++ f.got
  | .spreadNotObject => "Invalid object spread. Expected object, got: " ++ f.got
  | .primitiveArgs =>
    "Invalid args for " ++ f.subject ++ ". got: [" ++ String.intercalate ", " f.options ++ "]"
  | .typeMismatch => "Type mismatch. Expected " ++ f.expected ++ ", got " ++ f.got
  | .typeArity =>
    "Invalid argument count. Expected " ++ f.expected ++ " args, got " ++ f.got
  | .untyped => "Invalid value. A " ++ f.got ++ " has no first-order type"
  | .joinMismatch =>
    "Inconsistent types: " ++ f.expected ++ " and " ++ f.got
      ++ (match f.otherLoc with
        | some loc => " (other branch at " ++ loc.mention ++ ")"
        | none => "")
  | .joinEmpty => "Cannot join an empty list of types"
  | .notApp => "Invalid compilation target. Expected App, but got " ++ f.got
  | .repeatedStage =>
    if f.subject = "publish" then
      "Invalid double publish. Hint: commit() before publishing again."
    else "Invalid double toConsensus (" ++ f.subject ++ ")."
  | .wrongMode =>
    "Invalid operation. `" ++ f.subject ++ "` cannot be used in context: " ++ f.got
  | .illegalLift => "Illegal lift in context: " ++ f.got
  | .cannotReturn => "Invalid `return` syntax"
  | .noReturn => "Nowhere to return to"
  | .moduleReturn =>
    "Invalid return statement. Cannot return at top level of module."
  | .continueOutsideLoop => "Invalid continue. Expected to be inside of a while."
  | .notLoopVariable =>
    "Invalid loop variable update. Expected loop variable, got: " ++ f.subject
  | .internal => "Internal error: " ++ f.subject

/-- The diagnostic that reports a fault. -/
def diagnostic (f : Fault) (limit : Nat) : Diagnostic :=
  { severity := .error, loc := f.loc, code := f.kind.code, message := f.message limit }

end Fault

end Choreography
