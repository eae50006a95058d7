import Pds1.Cursor
import Pds1.Dialect

/-!
# Unsigned numbers

Forms in order of preference: octal digits closed by an apostrophe, `B` or `b`; decimal digits
closed by a point; octal digits after a leading zero; digits in the radix of the dialect. Values
wrap at 32 bits.
-/

namespace Pds1.Number

def isOctalDigit (c : Char) : Bool := '0' ≤ c && c ≤ '7'

def digitValue (c : Char) : Int32 := Int32.ofNat (c.toNat - 48)

/-- Positional value of a run of digits. -/
def value (radix : Nat) (digits : List Char) : Int32 :=
  digits.foldl (fun acc d => acc * Int32.ofNat radix + digitValue d) 0

/-- Closes an octal number in any dialect. -/
def isOctalMark (c : Char) : Bool := c = '\x27' || c = 'B' || c = 'b'

/-- The digits of a dialect's default radix. -/
def isPlainDigit (dialect : Dialect) (c : Char) : Bool :=
  if dialect.radix = 8 then isOctalDigit c else c.isDigit

/-- Reads a number at the cursor. -/
def read? (dialect : Dialect) (c : Cursor) : Option (Int32 × Cursor) :=
  let octal := c.run isOctalDigit
  let decimal := c.run Char.isDigit
  if !octal.isEmpty && (c.drop octal.length).next?.any isOctalMark then
    some (value 8 octal, c.drop (octal.length + 1))
  else if !decimal.isEmpty && (c.drop decimal.length).next? == some '.' then
    some (value 10 decimal, c.drop (decimal.length + 1))
  else if c.next? == some '0' then
    some (value 8 octal, c.drop octal.length)
  else
    let plain := c.run (isPlainDigit dialect)
    if plain.isEmpty then none
    else some (value dialect.radix plain, c.drop plain.length)

theorem read?_suffix {dialect : Dialect} {c d : Cursor} {v : Int32}
    (h : read? dialect c = some (v, d)) : d.rest <:+ c.rest := by
  rw [read?] at h
  simp only at h
  split at h
  · cases h
    exact c.drop_suffix _
  · split at h
    · cases h
      exact c.drop_suffix _
    · split at h
      · cases h
        exact c.drop_suffix _
      · split at h
        · cases h
        · cases h
          exact c.drop_suffix _

end Pds1.Number
