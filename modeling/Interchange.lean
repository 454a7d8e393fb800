import Interchange.Braket.Circuit
import Interchange.Braket.Program
import Interchange.Circuit.Basic
import Interchange.Circuit.Error
import Interchange.Circuit.Instruction
import Interchange.Circuit.Layout
import Interchange.Circuit.Stats
import Interchange.Circuit.Unitary
import Interchange.Cirq.Decode
import Interchange.Cirq.Document
import Interchange.Cirq.Encode
import Interchange.Cirq.Expression
import Interchange.Cirq.ExpressionText
import Interchange.Cirq.Moments
import Interchange.Config.Basic
import Interchange.Config.Environment
import Interchange.Convert.Angle
import Interchange.Convert.Error
import Interchange.Convert.Lowering
import Interchange.Convert.Operands
import Interchange.Convert.Placement
import Interchange.Framework.Basic
import Interchange.Framework.Table
import Interchange.Gate.Basic
import Interchange.Gate.Standard
import Interchange.Gate.Tag
import Interchange.InPlace
import Interchange.IonQ.Circuit
import Interchange.IonQ.Document
import Interchange.Job.Backend
import Interchange.Job.Counts
import Interchange.Job.Status
import Interchange.Json.Printer
import Interchange.Json.Reader
import Interchange.Json.Record
import Interchange.Json.Text
import Interchange.Json.Value
import Interchange.Native.Basic
import Interchange.Native.Circuit
import Interchange.Number.Binary
import Interchange.Number.Digit
import Interchange.Number.Fused
import Interchange.Number.Numeral
import Interchange.Number.Shortest
import Interchange.Number.Written
import Interchange.Operator.Amplitude
import Interchange.Operator.Basic
import Interchange.Operator.Determinant
import Interchange.Operator.Phase
import Interchange.Param.Basic
import Interchange.Param.Evaluate
import Interchange.Param.Parser
import Interchange.Param.Printer
import Interchange.Param.Registry
import Interchange.Param.Token
import Interchange.Parsed
import Interchange.Proofs.AngleRange
import Interchange.Proofs.AngleReading
import Interchange.Proofs.AngleText
import Interchange.Proofs.BoundLowering
import Interchange.Proofs.CircuitComparison
import Interchange.Proofs.CircuitHistory
import Interchange.Proofs.CircuitMatrix
import Interchange.Proofs.CircuitReading
import Interchange.Proofs.CirqExpression
import Interchange.Proofs.CirqPassage
import Interchange.Proofs.CirqPower
import Interchange.Proofs.CirqRoundTrip
import Interchange.Proofs.ClosedForm
import Interchange.Proofs.ComparisonSymmetry
import Interchange.Proofs.Construction
import Interchange.Proofs.ControlledBlock
import Interchange.Proofs.DecimalRounding
import Interchange.Proofs.DeclaredInputs
import Interchange.Proofs.DecodedCircuit
import Interchange.Proofs.DenseLayout
import Interchange.Proofs.DependencyChain
import Interchange.Proofs.Determinant
import Interchange.Proofs.DisjointExchange
import Interchange.Proofs.DoubleRange
import Interchange.Proofs.DoubleRounding
import Interchange.Proofs.DoubleValue
import Interchange.Proofs.Embedding
import Interchange.Proofs.EulerSynthesis
import Interchange.Proofs.ExactScalar
import Interchange.Proofs.ExpressionGrammar
import Interchange.Proofs.ExpressionParsing
import Interchange.Proofs.ExpressionText
import Interchange.Proofs.ExpressionValue
import Interchange.Proofs.FirstUnbound
import Interchange.Proofs.GateInlining
import Interchange.Proofs.GateInvariant
import Interchange.Proofs.GateListPassage
import Interchange.Proofs.GateMatrix
import Interchange.Proofs.GateUnitarity
import Interchange.Proofs.Histogram
import Interchange.Proofs.IdentityPadding
import Interchange.Proofs.InPlaceProduct
import Interchange.Proofs.InputNames
import Interchange.Proofs.JobLifecycle
import Interchange.Proofs.KakFactors
import Interchange.Proofs.LayoutMarker
import Interchange.Proofs.LocalFactor
import Interchange.Proofs.LoweredParameters
import Interchange.Proofs.LoweringCoverage
import Interchange.Proofs.LoweringMeaning
import Interchange.Proofs.LoweringOrder
import Interchange.Proofs.LoweringSteps
import Interchange.Proofs.LoweringTarget
import Interchange.Proofs.MagicBasis
import Interchange.Proofs.MeasurementKeys
import Interchange.Proofs.Memoization
import Interchange.Proofs.NormalParam
import Interchange.Proofs.NumericGate
import Interchange.Proofs.NumericPassage
import Interchange.Proofs.OperatorMatrix
import Interchange.Proofs.Outcome
import Interchange.Proofs.ParamOutcome
import Interchange.Proofs.ParamReading
import Interchange.Proofs.ParamRereading
import Interchange.Proofs.ParamText
import Interchange.Proofs.ParamValue
import Interchange.Proofs.ParameterNames
import Interchange.Proofs.ParameterPassage
import Interchange.Proofs.ParameterRegistry
import Interchange.Proofs.ParsedParameters
import Interchange.Proofs.PhaseSymmetry
import Interchange.Proofs.ProgramCircuit
import Interchange.Proofs.ProgramReading
import Interchange.Proofs.ProgramText
import Interchange.Proofs.QiskitPassage
import Interchange.Proofs.QubitRelabeling
import Interchange.Proofs.QubitReversal
import Interchange.Proofs.RegisterClash
import Interchange.Proofs.RegisterLayout
import Interchange.Proofs.RegisteredCircuit
import Interchange.Proofs.RegularParser
import Interchange.Proofs.RepeatedCompression
import Interchange.Proofs.RepeatedLowering
import Interchange.Proofs.RepeatedSimplification
import Interchange.Proofs.Replacement
import Interchange.Proofs.ReportedMatrix
import Interchange.Proofs.RuleProduct
import Interchange.Proofs.RuleTarget
import Interchange.Proofs.SettledParam
import Interchange.Proofs.ShortestDecimal
import Interchange.Proofs.SourceLayout
import Interchange.Proofs.StandardGate
import Interchange.Proofs.StandardLowering
import Interchange.Proofs.StatementReading
import Interchange.Proofs.TableIndex
import Interchange.Proofs.TensorSplit
import Interchange.Proofs.TokenText
import Interchange.Proofs.TranspileEquivalence
import Interchange.Proofs.UnboundParameter
import Interchange.Proofs.UnplacedParsing
import Interchange.Proofs.VersionReading
import Interchange.Proofs.WrittenNames
import Interchange.Qasm.Circuit
import Interchange.Qasm.Convert
import Interchange.Qasm.Error
import Interchange.Qasm.Lexer
import Interchange.Qasm.Parser.Basic
import Interchange.Qasm.Parser.Expression
import Interchange.Qasm.Parser.Statement
import Interchange.Qasm.Printer
import Interchange.Qasm.Program
import Interchange.Qasm.Scope
import Interchange.Qasm.Token
import Interchange.Qasm.Version
import Interchange.Qiskit.Circuit
import Interchange.Qiskit.Document
import Interchange.Scalar.Basic
import Interchange.Scalar.Double
import Interchange.Synthesis.Decompose
import Interchange.Synthesis.Eigenbasis
import Interchange.Synthesis.Error
import Interchange.Synthesis.Euler
import Interchange.Synthesis.Kak
import Interchange.Synthesis.Rules
import Interchange.Synthesis.Substitute
import Interchange.Synthesis.Unitary2
import Interchange.Text.Blank
import Interchange.Text.Letter
import Interchange.Text.Numeric
import Interchange.Transpile.Basic
import Interchange.Transpile.Error
import Interchange.Transpile.Options
import Interchange.Yaml.Basic
import Interchange.Yaml.Block
import Interchange.Yaml.Directive
import Interchange.Yaml.Document
import Interchange.Yaml.Glyph
import Interchange.Yaml.Layout
import Interchange.Yaml.Plain
import Interchange.Yaml.Quoted
import Interchange.Yaml.Record
import Interchange.Yaml.Scan
import Interchange.Yaml.Tag
