import Pds1.Event
import Pds1.Line
import Pds1.Operand

/-!
# The state of an assembly run

The first pass fills the tables and the code list; the second only reads them. The fields about
the current line are emptied when the line is done. A later first pass on the same state starts
again at location zero and keeps everything else.
-/

namespace Pds1

structure Assembly extends Tables where
  dialect : Dialect
  code : Array Cell := #[]
  /-- The statements of the literal pools placed so far. -/
  poolLines : Array Line := #[]
  location : Int32 := 0
  relocatable : Bool := false
  /-- Set for good by the directive that ends a program. -/
  ended : Bool := false
  /-- The starting address given with the end. -/
  start : Option ExprId := none
  /-- Number of the line that new cells belong to. -/
  lineNumber : Nat := 0
  /-- Cells generated by the current line. -/
  lineCode : List Nat := []
  comments : Nat := 0
  log : Array Event := #[]
  deriving DecidableEq

namespace Assembly

/-- A fresh run. -/
def init (dialect : Dialect) : Assembly := { dialect := dialect }

/-- Queues a diagnostic for the current line. -/
def note (a : Assembly) (d : Diagnostic) : Assembly :=
  { a with diagnostics := a.diagnostics ++ [d] }

def noteIf (a : Assembly) (condition : Bool) (d : Diagnostic) : Assembly :=
  if condition then a.note d else a

/-- Adds a cell at the location counter and moves the counter on. -/
def emit (a : Assembly) (content : Cell.Content) : Assembly :=
  { a with
    code := a.code.push ⟨a.lineNumber, a.location, content⟩
    lineCode := a.lineCode ++ [a.code.size]
    location := a.location + 1 }

def emitWord (a : Assembly) (value : Int32) : Assembly := a.emit (.word value)

def emitExpr (a : Assembly) (id : ExprId) : Assembly := a.emit (.expr id)

/-- Reads an operand at the location counter. -/
def operand (a : Assembly) (c : Cursor) : ExprId × Cursor × Assembly :=
  let r := Operand.read a.dialect a.location c a.toTables
  (r.expr, r.cursor, { a with toTables := r.tables })

/-- Emits an instruction whose field is made from an operand, or a zero word if the operand could
not be read. -/
def emitField (a : Assembly) (op : Operator) (right code : Int32) (operand : ExprId) :
    Assembly :=
  if a.exprs.isInvalid operand then a.emitWord 0
  else
    let (id, exprs) := a.exprs.field op right code operand
    { a with exprs := exprs }.emitExpr id

/-- Evaluates an operand that has to be known in the first pass. -/
def valueNow (a : Assembly) (id : ExprId) : Except EvalError Int32 × Assembly :=
  let e := a.exprs.evaluate a.symbols id
  (e.value, { a with diagnostics := a.diagnostics ++ e.warningDiagnostics })

theorem operand_suffix (a : Assembly) (c : Cursor) : (a.operand c).2.1.rest <:+ c.rest :=
  Operand.read_suffix _ _ _ _

end Assembly

end Pds1
