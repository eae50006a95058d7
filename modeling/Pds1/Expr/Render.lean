import Pds1.Expr.Basic
import Pds1.Octal
import Pds1.Symbol

/-!
# Expressions as text

Constants are shown in octal, the location counter after a point, a literal in its brackets, and
a binary node in parentheses.
-/

namespace Pds1

def Operator.render (op : Operator) (a b : String) : String :=
  match op with
  | page11 => "page11(" ++ a ++ ", " ++ b ++ ")"
  | page12 => "page12(" ++ a ++ ", " ++ b ++ ")"
  | op => "(" ++ a ++ " " ++ String.singleton op.symbol ++ " " ++ b ++ ")"

/-- The text of an expression. -/
def ExprStore.render (s : ExprStore) (t : SymbolTable) (id : ExprId) : String :=
  match s.nodes[id]?.map Expr.node with
  | some (.const v) => Octal.pattern v
  | some (.location v) => "." ++ Octal.pattern v
  | some (.label l) => t.labelName l
  | some (.literal l) => "[" ++ t.literalText l ++ "]"
  | some (.neg a) => if _h : a < id then "-" ++ s.render t a else "<error>"
  | some (.binary op a b) =>
    if _h : a < id ∧ b < id then op.render (s.render t a) (s.render t b) else "<error>"
  | some .invalid => "<error>"
  | none => "<error>"
termination_by id
decreasing_by
  · exact _h
  · exact _h.1
  · exact _h.2

end Pds1
