import Pds1.Assembly.Statement

/-!
# Literal pools

A pool assembles every waiting literal as a statement on a line of its own, in the order in which
the literals were first referred to. Literals met on the way join the same pool. Each of them is a
bracketed part of the text being assembled, so the brackets still to be opened bound the work.
-/

namespace Pds1

namespace Assembly

/-- What a literal answers when asked to place a pool. -/
def refusePool (a : Assembly) : Assembly := a.note .poolInsideLiteral

/-- Assembles the text of a literal at the location counter and gives the literal that address. A
text that leaves the counter where it was yields a zero word. -/
def placeLiteral (id : LiteralId) (a : Assembly) : Assembly :=
  let text := a.symbols.literalText id
  let start := a.location
  let number := a.poolLines.size + 1
  let (kind, a) := statement refusePool .unclassified false (.ofText text)
    { a with lineNumber := number }
  let a := if a.location = start then (a.note (.valuelessLiteral text)).emitWord 0 else a
  { a with
    symbols := a.symbols.place id start a.relocatable
    poolLines := a.poolLines.push ⟨text, number, kind, a.lineCode, a.diagnostics⟩
    lineCode := []
    diagnostics := [] }

/-- One for each waiting literal and one for each bracket in its text. -/
def poolWeight (a : Assembly) : Nat :=
  a.symbols.queue.foldr (fun id n => 1 + (a.symbols.literalText id).toList.count '[' + n) 0

/-- Places waiting literals until none is left. -/
def placeLiterals (a : Assembly) : Assembly :=
  match a.symbols.nextWaiting? with
  | none => a
  | some id =>
    let b := placeLiteral id a
    if _h : b.poolWeight < a.poolWeight then placeLiterals b else b
termination_by a.poolWeight

/-- Places a pool at the location counter and leaves a cell that tells where to list it. Without
waiting literals there is no pool. -/
def placePool (a : Assembly) : Assembly :=
  if a.symbols.hasWaiting then
    let b := placeLiterals { a with lineCode := [], diagnostics := [] }
    let first := a.poolLines.size + 1
    let count := b.poolLines.size - a.poolLines.size
    { b with
      code := b.code.push ⟨0, Int32.ofNat first, .pool first count⟩
      lineCode := a.lineCode ++ [b.code.size]
      diagnostics := a.diagnostics
      lineNumber := a.lineNumber
      log := b.log.push (.placedPool count a.location) }
  else a

end Assembly

end Pds1
