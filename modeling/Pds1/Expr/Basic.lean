/-!
# Expressions of one assembly run

Expressions live in an append-only store and are named by their position. An operand is built
before the node that uses it, so operands have smaller numbers. Each node records whether some
leaf resolves through a symbol that is not a constant.
-/

namespace Pds1

abbrev ExprId := Nat

inductive Operator where
  | add
  | sub
  | mul
  | div
  | and
  | or
  /-- Conjunction that warns when the left operand is wider than the right. -/
  | mask
  /-- The low 11 bits, checked against the 2K page of the right operand. -/
  | page11
  /-- The low 12 bits, checked against the 4K page of the right operand. -/
  | page12
  deriving DecidableEq

def Operator.symbol : Operator → Char
  | add => '+'
  | sub => '-'
  | mul => '*'
  | div => '/'
  | and | mask | page11 | page12 => '&'
  | or => '|'

/-- The operators that may be written in an operand. -/
def Operator.ofChar? : Char → Option Operator
  | '+' => some add
  | '-' => some sub
  | '*' => some mul
  | '/' => some div
  | _ => none

inductive Node where
  | const (value : Int32)
  | label (id : Nat)
  /-- The location counter where the expression was read. -/
  | location (value : Int32)
  | literal (id : Nat)
  | neg (a : ExprId)
  | binary (op : Operator) (a b : ExprId)
  /-- Left behind by an operand that could not be read. -/
  | invalid
  deriving DecidableEq

structure Expr where
  node : Node
  /-- Some leaf is a literal or a label that is not a constant. -/
  symbolic : Bool
  deriving DecidableEq

structure ExprStore where
  nodes : Array Expr := #[]
  deriving DecidableEq

namespace ExprStore

def size (s : ExprStore) : Nat := s.nodes.size

def isEmpty (s : ExprStore) : Bool := s.nodes.isEmpty

def symbolic (s : ExprStore) (id : ExprId) : Bool := s.nodes[id]?.any Expr.symbolic

def isInvalid (s : ExprStore) (id : ExprId) : Bool := s.nodes[id]?.any (·.node = .invalid)

/-- Adds a node and hands back its number. -/
def push (s : ExprStore) (node : Node) (symbolic : Bool) : ExprId × ExprStore :=
  (s.nodes.size, ⟨s.nodes.push ⟨node, symbolic⟩⟩)

def const (s : ExprStore) (value : Int32) : ExprId × ExprStore := s.push (.const value) false

def invalid (s : ExprStore) : ExprId × ExprStore := s.push .invalid false

def neg (s : ExprStore) (a : ExprId) : ExprId × ExprStore := s.push (.neg a) (s.symbolic a)

def binary (s : ExprStore) (op : Operator) (a b : ExprId) : ExprId × ExprStore :=
  s.push (.binary op a b) (s.symbolic a || s.symbolic b)

/-- An instruction `code` whose field is `op` applied to the operand and the constant `right`. -/
def field (s : ExprStore) (op : Operator) (right code : Int32) (operand : ExprId) :
    ExprId × ExprStore :=
  let (rightId, s) := s.const right
  let (fieldId, s) := s.binary op operand rightId
  let (codeId, s) := s.const code
  s.binary .or codeId fieldId

/-- An instruction with the operand in the bits of `mask`. -/
def masked (s : ExprStore) (code mask : Int32) (operand : ExprId) : ExprId × ExprStore :=
  s.field .mask mask code operand

/-- An instruction at `location` with an 11-bit address. -/
def address11 (s : ExprStore) (location code : Int32) (operand : ExprId) : ExprId × ExprStore :=
  s.field .page11 location code operand

/-- An instruction at `location` with a 12-bit address. -/
def address12 (s : ExprStore) (location code : Int32) (operand : ExprId) : ExprId × ExprStore :=
  s.field .page12 location code operand

@[simp] theorem size_push (s : ExprStore) (node : Node) (symbolic : Bool) :
    (s.push node symbolic).2.size = s.size + 1 := by
  simp [push, size]

end ExprStore

end Pds1
