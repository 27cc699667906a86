import Choreography.Source.Diagnostic
import Choreography.Level
import Choreography.Text.Escape
import Choreography.Text.EditDistance
import Choreography.Integer
import Choreography.OrderedMap
import Choreography.Env
import Choreography.Ty.Store
import Choreography.Surface.Outline
import Choreography.Fault.Cause
import Choreography.Ir.Text
import Choreography.Ir.Sites
import Choreography.Value.Same
import Choreography.Elaboration
import Choreography.Proofs.Run
import Choreography.Proofs.Containers
import Choreography.Proofs.Types
import Choreography.Proofs.Identifiers
import Choreography.Proofs.Regime
import Choreography.Proofs.Values
import Choreography.Proofs.Traversal
import Choreography.Proofs.Formation
import Choreography.Proofs.Emission
import Choreography.Proofs.Primitives
import Choreography.Proofs.Access
import Choreography.Proofs.Soundness
import Choreography.Proofs.Applications
import Choreography.Proofs.Expressions
import Choreography.Proofs.Sequences
import Choreography.Proofs.Rounds
import Choreography.Proofs.Statements
import Choreography.Proofs.Linking
import Choreography.Proofs.Compilation
import Choreography.Proofs.Numbering
import Choreography.Proofs.Scoping
import Choreography.Proofs.Typing
import Choreography.Proofs.Secrecy
import Choreography.Proofs.Effects
import Choreography.Proofs.Phases
import Choreography.Proofs.Modes
import Choreography.Proofs.Joining
import Choreography.Proofs.Staging
import Choreography.Proofs.Tidiness
import Choreography.Proofs.StagedExpressions
import Choreography.Proofs.StagedStatements
import Choreography.Proofs.StagedPrograms
import Choreography.Proofs.Lookup
import Choreography.Proofs.Traits
import Choreography.Proofs.Transitions
import Choreography.Proofs.PrivateViews
import Choreography.Proofs.CommonKnowledge
import Choreography.Proofs.Amounts
import Choreography.Proofs.Policies
import Choreography.Proofs.PolicyExpressions
import Choreography.Proofs.PolicyStatements
import Choreography.Proofs.Payments
import Choreography.Proofs.Composition
import Choreography.Proofs.Exits
import Choreography.Proofs.Jumps
import Choreography.Proofs.Delimitation
import Choreography.Proofs.Slots
import Choreography.Proofs.Landing
import Choreography.Proofs.Fuel
import Choreography.Proofs.Reporting
import Choreography.Proofs.Returns
import Choreography.Proofs.FirstOrder
import Choreography.Proofs.Blame
import Choreography.Proofs.Termination
import Choreography.Proofs.Materials
import Choreography.Proofs.MaterialExpressions
import Choreography.Proofs.MaterialPrograms
import Choreography.Proofs.Residue
import Choreography.Proofs.Constants
import Choreography.Proofs.Identities
import Choreography.Proofs.Padding
import Choreography.Proofs.Likeness
import Choreography.Proofs.LikeOperations
import Choreography.Proofs.LikeExpressions
import Choreography.Proofs.LikeStatements
import Choreography.Proofs.Relabelling
import Choreography.Proofs.EmptyStatements
import Choreography.Proofs.MirroredExpressions
import Choreography.Proofs.MirroredStatements
import Choreography.Proofs.Independence
import Choreography.Proofs.Locality
import Choreography.Proofs.TypeTrees
import Choreography.Proofs.Matching
import Choreography.Proofs.Interning
import Choreography.Proofs.LoopBodies
import Choreography.Proofs.ExplicitExpressions
import Choreography.Proofs.ExplicitPrograms
import Choreography.Proofs.Literals
import Choreography.Proofs.Folding
import Choreography.Proofs.ConstantExpressions
import Choreography.Proofs.LibraryFunctions
import Choreography.Proofs.Enumerations
import Choreography.Proofs.Laundering
import Choreography.Proofs.ByteOrder
import Choreography.Proofs.EditScripts
import Choreography.Proofs.Suggestions
import Choreography.Proofs.Environments
import Choreography.Proofs.Sameness
import Choreography.Proofs.Conditionals
