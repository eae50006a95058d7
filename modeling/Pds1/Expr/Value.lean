import Pds1.Expr.Basic
import Pds1.Symbol

/-!
# Values of expressions

Evaluation goes from left to right and stops at the first failure; warnings raised before it are
kept. Arithmetic wraps at 32 bits and division truncates toward zero. The page checks compare a
signed difference pattern, so addresses of opposite sign raise no warning.
-/

namespace Pds1

/-- Bits in which two addresses of one 4K page may differ. -/
def page4K : Int32 := 0o7777

inductive EvalError where
  /-- The label was named but never bound. -/
  | undefinedLabel (name : String)
  /-- No label has the number. -/
  | unknownLabel (name : String)
  | undefinedLiteral (text : String)
  | divisionByZero
  /-- The operand could not be read. -/
  | malformed
  deriving DecidableEq

def EvalError.message : EvalError → String
  | undefinedLabel name => "Reference to undefined label " ++ name
  | unknownLabel name => "Label " ++ name ++ " has not been defined"
  | undefinedLiteral text => "Reference to undefined literal [" ++ text ++ "]"
  | divisionByZero => "Division by zero"
  | malformed => "Operand syntax error"

inductive Warning where
  | fieldOverflow
  | outside2K
  | outside4K
  deriving DecidableEq

def Warning.message : Warning → String
  | fieldOverflow => "Warning: operand size exceeds corresponding instruction field size"
  | outside2K => "Warning: attempt to reference outside 2K page"
  | outside4K => "Warning: attempt to reference outside 4K page"

/-- A value or the first failure, with the warnings raised on the way. -/
structure Evaluation where
  value : Except EvalError Int32
  warnings : List Warning

namespace Evaluation

def pure (value : Int32) : Evaluation := ⟨.ok value, []⟩

def fail (error : EvalError) : Evaluation := ⟨.error error, []⟩

def warnIf (condition : Bool) (warning : Warning) (value : Int32) : Evaluation :=
  ⟨.ok value, if condition then [warning] else []⟩

/-- Goes on with the value, if there is one. -/
def andThen (x : Evaluation) (next : Int32 → Evaluation) : Evaluation :=
  match x.value with
  | .ok v => ⟨(next v).value, x.warnings ++ (next v).warnings⟩
  | .error _ => x

end Evaluation

/-- The value of an operator; `symbolic` tells whether the left operand is. -/
def Operator.apply (op : Operator) (symbolic : Bool) (x y : Int32) : Evaluation :=
  match op with
  | add => .pure (x + y)
  | sub => .pure (x - y)
  | mul => .pure (x * y)
  | div => if y = 0 then .fail .divisionByZero else .pure (x / y)
  | and => .pure (x &&& y)
  | or => .pure (x ||| y)
  | mask => .warnIf ((x &&& 0xFFFF) > y) .fieldOverflow (x &&& y)
  | page11 => .warnIf (symbolic && (x ^^^ y) > page2K) .outside2K (x &&& page2K)
  | page12 => .warnIf (symbolic && (x ^^^ y) > page4K) .outside4K (x &&& page4K)

def SymbolTable.labelValue (t : SymbolTable) (id : LabelId) : Evaluation :=
  match t.label? id with
  | some label =>
    if label.defined then .pure label.value else .fail (.undefinedLabel (t.labelName id))
  | none => .fail (.unknownLabel (t.labelName id))

def SymbolTable.literalValue (t : SymbolTable) (id : LiteralId) : Evaluation :=
  match (t.literal? id).bind Literal.address with
  | some address => .pure address
  | none => .fail (.undefinedLiteral (t.literalText id))

/-- Evaluates an expression under a symbol table. Operands have smaller numbers than the node that
uses them; one that has not counts as malformed. -/
def ExprStore.evaluate (s : ExprStore) (t : SymbolTable) (id : ExprId) : Evaluation :=
  match s.nodes[id]?.map Expr.node with
  | some (.const v) => .pure v
  | some (.location v) => .pure v
  | some (.label l) => t.labelValue l
  | some (.literal l) => t.literalValue l
  | some (.neg a) =>
    if _h : a < id then (s.evaluate t a).andThen fun x => .pure (-x) else .fail .malformed
  | some (.binary op a b) =>
    if _h : a < id ∧ b < id then
      (s.evaluate t a).andThen fun x =>
        (s.evaluate t b).andThen fun y => op.apply (s.symbolic a) x y
    else .fail .malformed
  | some .invalid => .fail .malformed
  | none => .fail .malformed
termination_by id
decreasing_by
  · exact _h
  · exact _h.1
  · exact _h.2

end Pds1
