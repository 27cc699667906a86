/-!
Kinds of faults that a program can have, the families they belong to, and their codes.
-/

namespace Choreography

/-- Which of the language's disciplines a fault is against. The last family is for states that no
program should be able to reach. -/
inductive FaultFamily
  | binding | grammar | type | mode | internal
  deriving DecidableEq, Inhabited

def FaultFamily.name : FaultFamily → String
  | .binding => "binding"
  | .grammar => "syntax"
  | .type => "type"
  | .mode => "mode"
  | .internal => "internal"

inductive FaultKind
  -- names
  | unbound | shadowed
  -- grammar
  | strayAssignment | foreignStatement | strayVar | strayLoop
  | bindingTarget | foreignDeclaration | foreignExpression | foreignBinary | foreignUnary
  | expectedIdentifier | namedFunctionExpr | namelessFunction | methodField | numberField
  | foreignImport | foreignExport | noHeader | tailNotEmpty | invariantArity | timeoutArgs
  | appArgs | formArgs
  -- types
  | applyArity | statementNotNull | interactSpec | participantSpec | notDestructurable
  | destructureLength | noField | condNotBool | notApplicable | notApplicableToValues | notObject
  | notIndexable | indexNotInt | indirectNotArray | outOfBounds | alreadyPublic | secretUse
  | computedField | spreadNotObject | primitiveArgs | typeMismatch | typeArity | untyped
  | joinMismatch | joinEmpty | notApp | repeatedStage
  -- modes
  | wrongMode | illegalLift | cannotReturn | noReturn | moduleReturn | continueOutsideLoop
  | notLoopVariable
  | internal
  deriving DecidableEq, Inhabited

namespace FaultKind

def all : List FaultKind :=
  [.unbound, .shadowed,
   .strayAssignment, .foreignStatement, .strayVar, .strayLoop,
   .bindingTarget, .foreignDeclaration, .foreignExpression, .foreignBinary, .foreignUnary,
   .expectedIdentifier, .namedFunctionExpr, .namelessFunction, .methodField, .numberField,
   .foreignImport, .foreignExport, .noHeader, .tailNotEmpty, .invariantArity, .timeoutArgs,
   .appArgs, .formArgs,
   .applyArity, .statementNotNull, .interactSpec, .participantSpec, .notDestructurable,
   .destructureLength, .noField, .condNotBool, .notApplicable, .notApplicableToValues, .notObject,
   .notIndexable, .indexNotInt, .indirectNotArray, .outOfBounds, .alreadyPublic, .secretUse,
   .computedField, .spreadNotObject, .primitiveArgs, .typeMismatch, .typeArity, .untyped,
   .joinMismatch, .joinEmpty, .notApp, .repeatedStage,
   .wrongMode, .illegalLift, .cannotReturn, .noReturn, .moduleReturn, .continueOutsideLoop,
   .notLoopVariable,
   .internal]

def family : FaultKind → FaultFamily
  | .unbound | .shadowed => .binding
  | .strayAssignment | .foreignStatement | .strayVar | .strayLoop
  | .bindingTarget | .foreignDeclaration | .foreignExpression | .foreignBinary | .foreignUnary
  | .expectedIdentifier | .namedFunctionExpr | .namelessFunction | .methodField | .numberField
  | .foreignImport | .foreignExport | .noHeader | .tailNotEmpty | .invariantArity | .timeoutArgs
  | .appArgs | .formArgs => .grammar
  | .wrongMode | .illegalLift | .cannotReturn | .noReturn | .moduleReturn | .continueOutsideLoop
  | .notLoopVariable => .mode
  | .internal => .internal
  | .applyArity | .statementNotNull | .interactSpec | .participantSpec | .notDestructurable
  | .destructureLength | .noField | .condNotBool | .notApplicable | .notApplicableToValues
  | .notObject | .notIndexable | .indexNotInt | .indirectNotArray | .outOfBounds | .alreadyPublic
  | .secretUse | .computedField | .spreadNotObject | .primitiveArgs | .typeMismatch | .typeArity
  | .untyped | .joinMismatch | .joinEmpty | .notApp | .repeatedStage => .type

/-- The code under which diagnostics file a fault. -/
def code : FaultKind → String
  | .unbound => "UnboundId"
  | .shadowed => "Shadowed"
  | .strayAssignment => "BlockAssign"
  | .foreignStatement => "BlockIllegalJS"
  | .strayVar => "BlockVariable"
  | .strayLoop => "BlockWhile"
  | .bindingTarget => "DeclLHSIllegalJS"
  | .foreignDeclaration => "DeclIllegalJS"
  | .foreignExpression => "IllegalJS"
  | .foreignBinary => "IllegalBinOp"
  | .foreignUnary => "IllegalUnaOp"
  | .expectedIdentifier => "ExpectIdentifier"
  | .namedFunctionExpr => "FunNamesIllegal"
  | .namelessFunction => "TopFunNoName"
  | .methodField => "ObjIllegalMethodDefinition"
  | .numberField => "ObjIllegalNumberField"
  | .foreignImport => "ImportIllegalJS"
  | .foreignExport => "ExportIllegalJS"
  | .noHeader => "NoHeader"
  | .tailNotEmpty => "TailNotEmpty"
  | .invariantArity => "WhileIllegalInvariant"
  | .timeoutArgs => "ToConsensusTimeoutArgs"
  | .appArgs => "AppInvalidArgs"
  | .formArgs => "FormInvalidArgs"
  | .applyArity => "ApplyArgCount"
  | .statementNotNull => "BlockNotNull"
  | .interactSpec => "AppInvalidInteract"
  | .participantSpec => "AppInvalidPartSpec"
  | .notDestructurable => "DeclNotRefable"
  | .destructureLength => "DeclWrongArrayLength"
  | .noField => "DotInvalidField"
  | .condNotBool => "IfCondNotBool"
  | .notApplicable => "NotApplicable"
  | .notApplicableToValues => "NotApplicableVals"
  | .notObject => "NotObject"
  | .notIndexable => "RefNotRefable"
  | .indexNotInt => "RefNotInt"
  | .indirectNotArray => "IndirectRefNotArray"
  | .outOfBounds => "RefOutOfBounds"
  | .alreadyPublic => "ExpectedPrivate"
  | .secretUse => "ExpectedPublic"
  | .computedField => "ObjIllegalComputedField"
  | .spreadNotObject => "ObjSpreadNotObj"
  | .primitiveArgs => "PrimInvalidArgs"
  | .typeMismatch => "TypeMismatch"
  | .typeArity => "TypeArgCount"
  | .untyped => "TypeNone"
  | .joinMismatch => "TypeMeetMismatch"
  | .joinEmpty => "TypeMeetNone"
  | .notApp => "TopNotApp"
  | .repeatedStage => "ToConsensusDouble"
  | .wrongMode => "IllegalContext"
  | .illegalLift => "IllegalLift"
  | .cannotReturn => "CannotReturn"
  | .noReturn => "NoReturn"
  | .moduleReturn => "ModuleReturn"
  | .continueOutsideLoop => "ContinueNotInWhile"
  | .notLoopVariable => "ContinueNotLoopVariable"
  | .internal => "Internal"

end FaultKind

end Choreography
