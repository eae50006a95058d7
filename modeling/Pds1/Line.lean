import Pds1.Diagnostic
import Pds1.Mnemonic

/-!
# Source lines and what they generate

A cell of the code list holds a word, an expression to be evaluated later, or a note that a literal
pool is listed at this place. Cells are named by their position in the code list.
-/

namespace Pds1

inductive Line.Kind where
  | unclassified
  | blank
  | pageBreak
  | comment
  | labelOnly
  | definition
  | data
  | code
  | directive
  deriving DecidableEq

structure Line where
  text : String
  /-- Counted from one. Lines of literal pools have a count of their own. -/
  number : Nat
  kind : Line.Kind := .unclassified
  /-- Positions in the code list. -/
  code : List Nat := []
  diagnostics : List Diagnostic := []
  deriving DecidableEq

inductive Cell.Content where
  | word (value : Int32)
  | expr (id : ExprId)
  /-- The lines of a literal pool; the first is counted from one. -/
  | pool (first count : Nat)
  deriving DecidableEq

structure Cell where
  /-- Zero for a literal pool. -/
  line : Nat
  location : Int32
  content : Cell.Content
  deriving DecidableEq

def Cell.isPool (c : Cell) : Bool :=
  match c.content with
  | .pool _ _ => true
  | _ => false

/-- The kind of a line whose first order is `m`. -/
def Mnemonic.lineKind (m : Mnemonic) : Line.Kind :=
  match m.group with
  | .directive d => if d.isData then .data else .directive
  | _ => .code

structure Source where
  name : String
  lines : List Line
  deriving DecidableEq

namespace Source

/-- Splits a text at line feeds. `done` is the current line read so far, backwards. A carriage
return before a line feed belongs to the line end, and an empty last piece is no line. -/
def splitLines (done : List Char) : List Char → List (List Char)
  | [] => if done.isEmpty then [] else [done.reverse]
  | '\n' :: r =>
    (match done with
      | '\r' :: before => before.reverse
      | _ => done.reverse) :: splitLines [] r
  | c :: r => splitLines (c :: done) r

def ofText (name text : String) : Source :=
  ⟨name, (splitLines [] text.toList).zipIdx.map fun entry =>
    { text := String.ofList entry.1, number := entry.2 + 1 }⟩

theorem text_ofText (name text : String) : (ofText name text).lines.map Line.text =
    (splitLines [] text.toList).map String.ofList := by
  calc (ofText name text).lines.map Line.text
      = (splitLines [] text.toList).zipIdx.map (fun entry => String.ofList entry.1) := by
        rw [ofText, List.map_map]
        rfl
    _ = ((splitLines [] text.toList).zipIdx.map Prod.fst).map String.ofList := by
        rw [List.map_map]
        rfl
    _ = (splitLines [] text.toList).map String.ofList := by rw [List.zipIdx_map_fst]

theorem numbers_ofText (name text : String) :
    ((ofText name text).lines.map Line.number).Nodup := by
  have numbers : (ofText name text).lines.map Line.number =
      List.range' 1 (splitLines [] text.toList).length := by
    rw [List.range'_eq_map_range, List.range_eq_range', ← List.zipIdx_map_snd 0, ofText,
      List.map_map, List.map_map]
    exact List.map_congr_left fun entry _ => Nat.add_comm entry.2 1
  rw [numbers]
  exact List.nodup_range'

/-- A line that was not yet read has no cells. -/
theorem code_ofText {name text : String} {line : Line} (member : line ∈ (ofText name text).lines) :
    line.code = [] := by
  obtain ⟨entry, -, rfl⟩ := List.mem_map.mp member
  rfl

/-- Nor has it diagnostics. -/
theorem diagnostics_ofText {name text : String} {line : Line}
    (member : line ∈ (ofText name text).lines) : line.diagnostics = [] := by
  obtain ⟨entry, -, rfl⟩ := List.mem_map.mp member
  rfl

end Source

end Pds1
