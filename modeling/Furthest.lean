import Furthest.Session
import Furthest.Main
import Furthest.Proofs.RecordAlgebra
import Furthest.Proofs.Combination
import Furthest.Proofs.Observation
import Furthest.Proofs.Discipline
import Furthest.Proofs.RaisedRecords
import Furthest.Proofs.CursorBounds
import Furthest.Proofs.Described
import Furthest.Proofs.Calculator.Derivation
import Furthest.Proofs.Calculator.Standing
import Furthest.Proofs.Outcomes
import Furthest.Proofs.Calculator.Tokens
import Furthest.Proofs.Calculator.Settled
import Furthest.Proofs.Calculator.Chains
import Furthest.Proofs.Calculator.Completeness
import Furthest.Proofs.Calculator.Language
import Furthest.Proofs.Calculator.ViablePrefix
import Furthest.Proofs.Calculator.Continuations
import Furthest.Proofs.ClosedClass
import Furthest.Proofs.Coupling
import Furthest.Proofs.Variation
import Furthest.Proofs.DescribedVariation
import Furthest.Proofs.Diagnostics
import Furthest.Proofs.Relocation
import Furthest.Proofs.EntryPoints
import Furthest.Proofs.Congruence
import Furthest.Proofs.Notes
import Furthest.Proofs.Spans
import Furthest.Proofs.Calculator.Totality
import Furthest.Proofs.ConsoleSession
import Furthest.Proofs.Interpretation
import Furthest.Proofs.History
import Furthest.Proofs.Unfolding
import Furthest.Proofs.BuildEvents
import Furthest.Proofs.Reopening
import Furthest.Proofs.LazyConstruction
import Furthest.Proofs.Tyings
import Furthest.Proofs.FailingIndex
import Furthest.Proofs.ErrorDepth
import Furthest.Proofs.RepetitionChain
import Furthest.Proofs.Declarations
import Furthest.Proofs.LateBinding
import Furthest.Proofs.Calculator.Descent
import Furthest.Proofs.RepetitionAttempts
import Furthest.Proofs.RepetitionUntil
import Furthest.Proofs.RepetitionLimit
import Furthest.Proofs.SeparatedRepetition
import Furthest.Proofs.BindLaws
import Furthest.Proofs.ResultEquality
import Furthest.Proofs.Repeatability
import Furthest.Proofs.OrderedChoice
import Furthest.Proofs.LeftFactoring
import Furthest.Proofs.LongestMatch
import Furthest.Proofs.Reports
import Furthest.Proofs.Sequencing
import Furthest.Proofs.RepetitionSplit
import Furthest.Proofs.Positions
import Furthest.Proofs.ExpectationText
import Furthest.Proofs.ErrorMessage
import Furthest.Proofs.TokenBlanks
import Furthest.Proofs.Readings
import Furthest.Proofs.SeparatedWords
import Furthest.Proofs.LengthPrefix
import Furthest.Proofs.Nesting
