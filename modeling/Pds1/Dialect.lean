/-!
# Source dialects

Five dialects share one instruction set. They differ in how a label, a number, a comment and an
indirect operand are written; the grammars themselves stand where they are read.
-/

namespace Pds1

inductive Dialect where
  | unknown
  | imlac
  | oldAmes
  | newAmes
  | midas
  deriving DecidableEq

namespace Dialect

instance : Inhabited Dialect := ⟨midas⟩

def all : List Dialect := [unknown, imlac, oldAmes, newAmes, midas]

def name : Dialect → String
  | unknown => "unknown"
  | imlac => "imlac"
  | oldAmes => "oldames"
  | newAmes => "newames"
  | midas => "midas"

/-- A name that no dialect has. -/
structure Unrecognized where
  name : String
  deriving DecidableEq

def Unrecognized.message (e : Unrecognized) : String :=
  "unknown style '" ++ e.name ++ "', expected one of imlac, oldames, newames, midas"

/-- Dialect names are read without regard to ASCII case. -/
def ofName (text : String) : Except Unrecognized Dialect :=
  match all.find? fun d => d.name == text.toLower with
  | some d => .ok d
  | none => .error ⟨text⟩

def isMidas (d : Dialect) : Bool := d = midas

/-- Radix of a number with neither a suffix nor a leading zero. -/
def radix : Dialect → Nat
  | midas | newAmes => 8
  | unknown | imlac | oldAmes => 10

/-- Whether a line whose first non-blank character is `first` is a comment. A star counts only in
column one. -/
def isComment (d : Dialect) (first : Char) (indented : Bool) : Bool :=
  match first with
  | '*' => !indented && (d = oldAmes || d = newAmes || d = unknown)
  | '/' => d = imlac || d = unknown
  | ';' => d = midas || d = unknown
  | _ => false

/-- Whether `c` in front of an operand asks for indirect addressing. -/
def isIndirectMarker (d : Dialect) (c : Char) : Bool :=
  match d with
  | imlac => false
  | midas => c = '*' || c = '@'
  | _ => c = '*'

end Dialect

end Pds1
