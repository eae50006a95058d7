import Pds1.Assembly.Basic
import Pds1.Assembly.Directive
import Pds1.Assembly.Instruction
import Pds1.Assembly.PassOne
import Pds1.Assembly.PassTwo
import Pds1.Assembly.Pool
import Pds1.Assembly.Statement
import Pds1.Assembly.Vector
import Pds1.Command.Assemble
import Pds1.Command.Directory
import Pds1.Command.Dump
import Pds1.Command.Options
import Pds1.Command.Outcome
import Pds1.Command.Path
import Pds1.Command.SharedFile
import Pds1.Cursor
import Pds1.Diagnostic
import Pds1.Dialect
import Pds1.Directive
import Pds1.Event
import Pds1.Expr.Basic
import Pds1.Expr.Render
import Pds1.Expr.Value
import Pds1.Image.Basic
import Pds1.Image.Dump
import Pds1.Image.Reader
import Pds1.Image.Writer
import Pds1.Line
import Pds1.Listing
import Pds1.Main
import Pds1.Mnemonic
import Pds1.Name
import Pds1.Number
import Pds1.Octal
import Pds1.Operand
import Pds1.Sink
import Pds1.Symbol
import Pds1.Proofs.ImageLayout
import Pds1.Proofs.ImageWriting
import Pds1.Proofs.ImageRoundTrip
import Pds1.Proofs.Evaluation
import Pds1.Proofs.PageCheck
import Pds1.Proofs.CodeOrder
import Pds1.Proofs.SecondPass
import Pds1.Proofs.Soundness
import Pds1.Proofs.OperandGrowth
import Pds1.Proofs.LiteralQueue
import Pds1.Proofs.Tasks
import Pds1.Proofs.Session
import Pds1.Proofs.LiteralPools
import Pds1.Proofs.EvaluationFailures
import Pds1.Proofs.LiteralAddress
import Pds1.Proofs.Truncation
import Pds1.Proofs.LoaderImage
import Pds1.Proofs.OpenBlocks
import Pds1.Proofs.Retry
import Pds1.Proofs.Bindings
import Pds1.Proofs.DuplicateLabels
import Pds1.Proofs.LineDiagnostics
import Pds1.Proofs.LabelBinding
import Pds1.Proofs.ImageDamage
import Pds1.Proofs.UnbrokenReading
import Pds1.Proofs.FreshRun
import Pds1.Proofs.ListingAccount
import Pds1.Proofs.OperandTerms
import Pds1.Proofs.DataPrograms
import Pds1.Proofs.ImageCutting
import Pds1.Proofs.ImageRewriting
import Pds1.Proofs.LineNumbers
import Pds1.Proofs.ProgramEnd
import Pds1.Proofs.InertLines
import Pds1.Proofs.LiteralTable
import Pds1.Proofs.IndexSafety
import Pds1.Proofs.SymbolicMarks
import Pds1.Proofs.Traces
import Pds1.Proofs.SymbolicFlags
import Pds1.Proofs.PoolTermination
import Pds1.Proofs.LeftToRight
import Pds1.Proofs.OperandComplaints
import Pds1.Proofs.StatementWidth
import Pds1.Proofs.LocationCounter
import Pds1.Proofs.DefinedNames
import Pds1.Proofs.NumberGrammar
import Pds1.Proofs.InstructionFields
import Pds1.Proofs.PlainOrders
import Pds1.Proofs.Deposits
import Pds1.Proofs.OperateCombination
import Pds1.Proofs.CursorPlace
import Pds1.Proofs.TextBytes
import Pds1.Proofs.ByteCursor
import Pds1.Proofs.JoinedStatements
import Pds1.Proofs.DisplayTag
import Pds1.Proofs.LabelGrammar
import Pds1.Proofs.ByteReaders
import Pds1.Proofs.CharacterBoundaries
import Pds1.Proofs.LongVectors
import Pds1.Proofs.GraphicWidth
import Pds1.Proofs.TabStops
import Pds1.Proofs.DumpReading
import Pds1.Proofs.LiteralBrackets
import Pds1.Proofs.OperandErrors
import Pds1.Proofs.StoreConstruction
