import Pds1.Assembly.Pool

/-!
# First pass

Every line is classified, labels are bound, and the code list is built. Reading stops after the
line that ends the program. Literals still waiting are placed at the last line read.
-/

namespace Pds1

namespace Assembly

/-- Reads `name = operand`, or nothing if the line is no assignment. The value must be known. -/
def definition? (c : Cursor) (a : Assembly) : Option Assembly :=
  match Name.read? a.dialect true c with
  | none => none
  | some (name, d) =>
    match d.dropBlanks.accept? '=' with
    | none => none
    | some e =>
      let (operand, _, a) := a.operand (e.skip '=').dropBlanks
      if a.exprs.isInvalid operand then some (a.note (.invalidAssignment name))
      else
        match a.valueNow operand with
        | (.ok value, a) =>
          let label := Label.bound value a.relocatable (!a.exprs.symbolic operand)
          some { a with symbols := a.symbols.bind name label }
        | (.error e, a) => some ((a.note (.evaluation e)).note .undefinedAssignment)

/-- Reads a line and tells its kind. -/
def readText (text : String) (a : Assembly) : Line.Kind × Assembly :=
  let start := Cursor.ofText text
  let c := start.dropBlanks
  match c.rest with
  | [] => (.blank, a)
  | x :: rest =>
    if x = '\x0c' then
      (.pageBreak, a.noteIf (!rest.isEmpty) (.textAfterFormFeed (String.ofList rest)))
    else if a.dialect.isComment x start.onBlank then
      (.comment, { a with comments := a.comments + 1 })
    else
      match definition? c a with
      | some a => (.definition, a)
      | none => statement placePool .unclassified false start a

/-- Hands the cells and diagnostics of the current line over to it. -/
def fileInto (line : Line) (a : Assembly) : Line × Assembly :=
  ({ line with
      code := line.code ++ a.lineCode
      diagnostics := line.diagnostics ++ a.diagnostics },
    { a with lineCode := [], diagnostics := [] })

/-- Reads one source line. A line that came to nothing at least gets a diagnostic. -/
def readLine (line : Line) (a : Assembly) : Line × Assembly :=
  let (kind, a) := readText line.text { a with lineNumber := line.number }
  let a := a.noteIf (kind = .unclassified && a.diagnostics.isEmpty) (.notParsed line.text)
  fileInto { line with kind := kind } a

/-- Reads lines up to the end of the program and places the last pool. -/
def readLines : List Line → Assembly → List Line × Assembly
  | [], a => ([], a)
  | line :: rest, a =>
    let (line, a) := readLine line a
    if a.ended || rest.isEmpty then
      let (line, a) := fileInto line a.placePool
      (line :: rest, a)
    else
      let (rest, a) := readLines rest a
      (line :: rest, a)

/-- Number of cells that hold a word. -/
def wordCount (a : Assembly) : Nat := a.code.countP (!·.isPool)

/-- The first pass over a source. -/
def passOne (source : Source) (a : Assembly) : Source × Assembly :=
  let (lines, a) := readLines source.lines { a with location := 0 }
  let log := a.log.push (.finishedPass source.lines.length a.wordCount a.symbols.labelCount)
  ({ source with lines := lines },
    { a with log := log.push (.countedComments a.comments a.dialect) })

end Assembly

end Pds1
