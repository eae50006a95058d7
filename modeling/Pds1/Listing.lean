import Pds1.Octal
import Pds1.Sink

/-!
# The listing

Each entry is one line of fixed columns: three blanks, a five-digit location, two blanks, a
six-digit word and five blanks; then the line number in eleven columns, a separator and the source
text with tabs expanded. A line of a literal pool has no number and a plus sign for separator.
-/

namespace Pds1.Listing

/-- Replaces each tab by blanks up to the next multiple of `width`, starting in a given column. -/
def expandTabs (width : Nat) : Nat → List Char → List Char
  | _, [] => []
  | column, '\t' :: r =>
    let next := (column / width + 1) * width
    List.replicate (next - column) ' ' ++ expandTabs width next r
  | column, c :: r => c :: expandTabs width (column + 1) r

def tabWidth : Nat := 8

/-- Starts a line that holds a diagnostic. -/
def diagnosticMark : String := "###################    "

/-- The location and word columns without the blanks after them. -/
def codeText (location word : Int32) : String :=
  "   " ++ String.ofList (Octal.column 5 (location.toUInt32.toNat % 0o40000)) ++ "  " ++
    Octal.word word

/-- The location and word columns. -/
def codeColumns (location word : Int32) : String := codeText location word ++ "     "

def blankColumns : String := String.ofList (List.replicate 21 ' ')

/-- The number and text columns. Lines of literal pools have no number. -/
def textColumns (number : Option Nat) (text : String) : String :=
  let expanded := String.ofList (expandTabs tabWidth 0 text.toList)
  match number with
  | some n => String.ofList (List.leftpad 11 ' ' n.repr.toList) ++ " " ++ expanded
  | none => String.ofList (List.replicate 11 ' ') ++ "+" ++ expanded

inductive Entry where
  /-- A line that generated no word. -/
  | source (number : Option Nat) (text : String)
  /-- The first word of a line, with its text. -/
  | code (location word : Int32) (number : Option Nat) (text : String)
  /-- A further word of the same line. -/
  | word (location word : Int32)
  | diagnostic (message : String)
  deriving DecidableEq

namespace Entry

/-- The text of an entry, its line end included. -/
def render : Entry → String
  | source number text => blankColumns ++ textColumns number text ++ "\n"
  | code location value number text =>
    codeColumns location value ++ textColumns number text ++ "\n"
  | word location value => codeText location value ++ "\n"
  | diagnostic message => diagnosticMark ++ message ++ "\n"

/-- The pieces in which the text of an entry is written. -/
def pieces : Entry → List String
  | source number text => List.replicate 21 " " ++ [textColumns number text, "\n"]
  | code location value number text =>
    [codeColumns location value, textColumns number text, "\n"]
  | word location value => [codeText location value, "\n"]
  | diagnostic message => [diagnosticMark, message, "\n"]

theorem join_blanks : String.join (List.replicate 21 " ") = blankColumns := by decide +kernel

theorem join_pieces (e : Entry) : String.join e.pieces = e.render := by
  cases e with
  | source number text =>
    simp only [pieces, String.join_append, join_blanks]
    simp [render, String.append_assoc]
  | code | word | diagnostic => simp [pieces, render, String.append_assoc]

def isDiagnostic : Entry → Bool
  | diagnostic _ => true
  | _ => false

end Entry

end Pds1.Listing
