import Pds1.Expr.Value
import Pds1.Octal

/-!
# Diagnostics

Every complaint that the listing shows under a line, as a cause. The wording stands in one place,
`Diagnostic.message`.
-/

namespace Pds1

inductive Diagnostic where
  | warning (cause : Warning)
  | evaluation (cause : EvalError)
  -- operands
  | operandSyntax (found : Char)
  | operandMissing
  | termMissing
  | secondOperandMissing (op : Operator)
  | unterminatedLiteral
  -- instructions
  | displayTag (name : String)
  | indirectMode (name : String)
  | indirectTag (name : String)
  | missingOperand (name : String)
  | notImplemented (name : String)
  | missingCombination (separator : Char)
  | cannotCombine (next first : String)
  | combinedHalt
  -- directives
  | ignored (name : String)
  | operandNotFound (name : String)
  | operandMalformed (name : String)
  | unimplemented (name : String)
  | missingOperands (name : String)
  | unreadableOperands (name : String)
  | invalidBeam (found : Option Char)
  | commaExpected (found : Option Char)
  | unreadableMovement (axis : String)
  | incrementUnavailable
  | incrementTooWide (value : Int32)
  | misplacedEscape
  | invalidIncrement
  -- lines
  | textAfterFormFeed (rest : String)
  | invalidAssignment (name : String)
  | undefinedAssignment
  | duplicateLabel (name : String)
  | labelNotTerminated (name : String)
  | labelExpected
  | notParsed (text : String)
  -- literal pools
  | poolInsideLiteral
  | valuelessLiteral (text : String)
  -- second pass
  | operandNotEvaluated
  | startNotEvaluated
  deriving DecidableEq

namespace Diagnostic

def describe : Option Char → String
  | some c => "'" ++ String.singleton c ++ "'"
  | none => "end of line"

def message : Diagnostic → String
  | warning cause => cause.message
  | evaluation cause => cause.message
  | operandSyntax found => "Operand syntax error '" ++ String.singleton found ++ "'"
  | operandMissing => "Operand syntax error at end of line"
  | termMissing => "Term missing after unary minus"
  | secondOperandMissing op =>
    "Second operand for '" ++ String.singleton op.symbol ++ "' operator is missing"
  | unterminatedLiteral => "Unterminated literal"
  | displayTag name => "Display tag is not compatible with " ++ name
  | indirectMode name => "Indirect mode is not compatible with " ++ name
  | indirectTag name => "Indirect is not compatible with " ++ name
  | missingOperand name => "Missing operand for " ++ name
  | notImplemented name => name ++ " is not implemented"
  | missingCombination separator => "Missing mnemonic after '" ++ String.singleton separator ++ "'"
  | cannotCombine next first => "Cannot combine " ++ next ++ " with " ++ first
  | combinedHalt => "Combining HLT is not supported"
  | ignored name => name ++ " ignored"
  | operandNotFound name => "Failed to find operand for " ++ name
  | operandMalformed name => "Syntax error in operand of " ++ name
  | unimplemented name => "Unimplemented pseudo-op " ++ name
  | missingOperands name => "Missing operands for " ++ name
  | unreadableOperands name => "Mnemonic " ++ name ++ " failed to parse its operand(s)"
  | invalidBeam found => "Beam indicator " ++ describe found ++ " is invalid in DLV"
  | commaExpected found => "Found " ++ describe found ++ " where comma was expected"
  | unreadableMovement axis => "Unable to parse " ++ axis ++ " movement in DLV"
  | incrementUnavailable => "INC is not implemented for this style yet"
  | incrementTooWide value =>
    "Warning: INC byte " ++ Octal.pattern value ++ " is wider than 8 bits"
  | misplacedEscape => "Escape code E is only allowed in the first byte of INC"
  | invalidIncrement => "Invalid INC byte"
  | textAfterFormFeed rest => "Text after form feed ignored: " ++ rest
  | invalidAssignment name => "Invalid assignment of symbol " ++ name
  | undefinedAssignment => "Assignment to undefined value"
  | duplicateLabel name => "Duplicate label: " ++ name
  | labelNotTerminated name => "Label \"" ++ name ++ "\" not terminated by space"
  | labelExpected => "Something other than a label in the first column"
  | notParsed text => "Failed to parse: " ++ text
  | poolInsideLiteral => "Literal pool cannot be flushed from inside a literal"
  | valuelessLiteral text => "Literal did not produce a value: " ++ text
  | operandNotEvaluated => "Operand failed to evaluate"
  | startNotEvaluated => "Failed to evaluate starting address on END statement"

end Diagnostic

/-- What an evaluation that had to succeed leaves on its line. -/
def Evaluation.warningDiagnostics (e : Evaluation) : List Diagnostic :=
  e.warnings.map .warning

end Pds1
