import Pds1.Image.Basic
import Pds1.Octal

/-!
# Octal dumps

Bytes are shown as words, eight to a row, each row behind its word address.
-/

namespace Pds1

namespace Image

/-- Rows of `width + 1` items; the last one may be shorter. -/
def rows {α : Type} (width : Nat) : List α → List (List α)
  | [] => []
  | x :: r => (x :: r.take width) :: rows width (r.drop width)
termination_by l => l.length

/-- The words of a byte string, a last single byte filled up with zero. -/
def paddedWords : List UInt8 → List UInt16
  | high :: low :: rest => wordOfBytes high low :: paddedWords rest
  | [high] => [wordOfBytes high 0]
  | [] => []

def dumpRow (row : Nat) (words : List UInt16) : String :=
  Octal.address (Int32.ofNat (row * 8)) ++ " " ++
    String.join (words.map fun w => " " ++ Octal.ofWord w)

/-- The rows of a dump. -/
def dumpRows (bytes : List UInt8) : List String :=
  (rows 7 (paddedWords bytes)).zipIdx.map fun entry => dumpRow entry.2 entry.1

def dump (bytes : List UInt8) : String := "\n".intercalate (dumpRows bytes)

/-- The lines that describe a block: its heading, then eight words to a row. -/
def Block.describe (b : Block) : List String :=
  ("block at " ++ Octal.address (Int32.ofNat b.address.toNat) ++ " with " ++
      b.words.length.repr ++ " words") ::
    (rows 7 b.words).zipIdx.map fun entry =>
      "  " ++ Octal.address (Int32.ofNat (b.address.toNat + entry.2 * 8)) ++ "  " ++
        " ".intercalate (entry.1.map Octal.ofWord)

end Image

/-- The lines that describe an image. -/
def Image.describe (i : Image) : List String :=
  i.blocks.flatMap Image.Block.describe ++
    [match i.start with
      | some start => "start at " ++ Octal.address (Int32.ofNat start.toNat)
      | none => "no start address"]

end Pds1
