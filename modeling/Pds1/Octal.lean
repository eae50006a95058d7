/-!
# Octal text

Addresses and words are printed in fixed octal columns. A column keeps the low digits of a
number; nothing here says how wide the number was.
-/

namespace Pds1.Octal

/-- The lowest octal digit of `n`. -/
def digit (n : Nat) : Char := Char.ofNat (48 + n % 8)

/-- The low `width` octal digits of `n`, leading zeros kept. -/
def column : Nat → Nat → List Char
  | 0, _ => []
  | width + 1, n => column width (n / 8) ++ [digit n]

/-- The octal digits of `n` without leading zeros. -/
def digits (n : Nat) : List Char := Nat.toDigits 8 n

/-- The bit pattern of a signed value in octal, so a negative one shows all 32 bits. -/
def pattern (value : Int32) : String := String.ofList (digits value.toUInt32.toNat)

/-- Five digits: a fifteen-bit address. -/
def address (value : Int32) : String := String.ofList (column 5 (value.toUInt32.toNat % 0o100000))

/-- Six digits: a sixteen-bit word. -/
def word (value : Int32) : String := String.ofList (column 6 (value.toUInt32.toNat % 0o200000))

/-- Six digits of an unsigned word. -/
def ofWord (value : UInt16) : String := String.ofList (column 6 value.toNat)

@[simp] theorem length_column (width n : Nat) : (column width n).length = width := by
  induction width generalizing n with
  | zero => rfl
  | succ width ih => simp [column, ih]

end Pds1.Octal
