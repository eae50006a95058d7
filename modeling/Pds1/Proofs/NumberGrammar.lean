import Mathlib.Data.Nat.Bitwise
import Pds1.Proofs.DefinedNames

/-!
# The grammar of numbers

What may be read as a number. Octal and decimal digits overlap, so the forms have an order: octal
digits closed by an apostrophe or the letter B come first, then decimal digits closed by a point,
then octal digits after a leading zero, then the digits of the dialect's own radix. Runs of digits
are as long as they can be. Reading accepts exactly these texts, takes exactly the number, and gives
its positional value, wrapped to a signed word of 32 bits.
-/

namespace Pds1.Number

/-- The text begins with `digits`, all of them from `alphabet`, and the run does not go on. -/
structure Longest (alphabet text digits after : List Char) : Prop where
  parts : text = digits ++ after
  inside : ∀ x ∈ digits, x ∈ alphabet
  stop : ∀ x ∈ after.head?, x ∉ alphabet

/-- The text begins with a run of digits and a mark that closes it, and goes on with `after`. -/
def Closed (alphabet marks text digits after : List Char) : Prop :=
  digits ≠ [] ∧ ∃ x ∈ marks, Longest alphabet text digits (x :: after)

def octalMarks : List Char := ['\x27', 'B', 'b']

/-- Octal digits closed by an apostrophe or the letter B. -/
abbrev MarkedOctal (text digits after : List Char) : Prop :=
  Closed octalDigits octalMarks text digits after

/-- Decimal digits closed by a point. -/
abbrev PointedDecimal (text digits after : List Char) : Prop :=
  Closed decimalDigits ['.'] text digits after

/-- No run of digits is closed. -/
structure Unclosed (text : List Char) : Prop where
  octal : ∀ digits after, ¬MarkedOctal text digits after
  decimal : ∀ digits after, ¬PointedDecimal text digits after

/-- Radix and digits of a number with neither a mark nor a leading zero. -/
inductive Plain : Dialect → Nat → List Char → Prop where
  | midas : Plain .midas 8 octalDigits
  | newAmes : Plain .newAmes 8 octalDigits
  | unknown : Plain .unknown 10 decimalDigits
  | imlac : Plain .imlac 10 decimalDigits
  | oldAmes : Plain .oldAmes 10 decimalDigits

/-- What is taken from the beginning of a text: the radix and the digits of a number, or nothing;
and the text that is left. -/
inductive Takes (dialect : Dialect) (text : List Char) :
    Option (Nat × List Char) → List Char → Prop where
  | octal {digits after : List Char} (closed : MarkedOctal text digits after) :
    Takes dialect text (some (8, digits)) after
  | decimal {digits after : List Char} (unmarked : ∀ ds r, ¬MarkedOctal text ds r)
    (closed : PointedDecimal text digits after) : Takes dialect text (some (10, digits)) after
  | zero {digits after : List Char} (unclosed : Unclosed text) (first : text.head? = some '0')
    (run : Longest octalDigits text digits after) : Takes dialect text (some (8, digits)) after
  | plain {radix : Nat} {alphabet digits after : List Char} (unclosed : Unclosed text)
    (first : text.head? ≠ some '0') (plain : Plain dialect radix alphabet) (nonempty : digits ≠ [])
    (run : Longest alphabet text digits after) : Takes dialect text (some (radix, digits)) after
  | nothing {radix : Nat} {alphabet : List Char} (unclosed : Unclosed text)
    (first : text.head? ≠ some '0') (plain : Plain dialect radix alphabet)
    (empty : Longest alphabet text [] text) : Takes dialect text none text

theorem exists_plain (dialect : Dialect) : ∃ radix alphabet, Plain dialect radix alphabet := by
  cases dialect with
  | midas => exact ⟨_, _, .midas⟩
  | newAmes => exact ⟨_, _, .newAmes⟩
  | unknown => exact ⟨_, _, .unknown⟩
  | imlac => exact ⟨_, _, .imlac⟩
  | oldAmes => exact ⟨_, _, .oldAmes⟩

/-- The dialect reads plain numbers by the table. -/
theorem Plain.reads {dialect : Dialect} {radix : Nat} {alphabet : List Char}
    (h : Plain dialect radix alphabet) :
    dialect.radix = radix ∧ isPlainDigit dialect = alphabet.contains := by
  cases h with
  | midas | newAmes => exact ⟨rfl, contains_octalDigits.symm⟩
  | unknown | imlac | oldAmes => exact ⟨rfl, contains_decimalDigits.symm⟩

theorem longest_iff {alphabet text digits after : List Char} :
    Longest alphabet text digits after ↔
      text.takeWhile alphabet.contains = digits ∧ text.dropWhile alphabet.contains = after := by
  constructor
  · rintro ⟨rfl, inside, stop⟩
    have taken : (digits ++ after).takeWhile alphabet.contains = digits :=
      Name.takeWhile_before (by simpa using inside) (by simpa using stop)
    have whole := List.takeWhile_append_dropWhile (p := alphabet.contains) (l := digits ++ after)
    rw [taken] at whole
    exact ⟨taken, List.append_cancel_left whole⟩
  · rintro ⟨rfl, rfl⟩
    refine ⟨List.takeWhile_append_dropWhile.symm, fun x member => ?_, fun x first => ?_⟩
    · exact List.contains_iff_mem.mp (List.all_eq_true.mp List.all_takeWhile x member)
    · have stop := List.head?_dropWhile_not alphabet.contains text
      rw [Option.mem_def.mp first] at stop
      simpa using stop

theorem longest_run (alphabet text : List Char) :
    Longest alphabet text (text.takeWhile alphabet.contains)
      (text.dropWhile alphabet.contains) := longest_iff.mpr ⟨rfl, rfl⟩

/-- Every text is of one of the forms, or begins with no number. -/
theorem exists_takes (dialect : Dialect) (text : List Char) :
    ∃ taken after, Takes dialect text taken after := by
  by_cases octal : ∃ ds r, MarkedOctal text ds r
  · obtain ⟨ds, r, closed⟩ := octal
    exact ⟨_, _, .octal closed⟩
  have unmarked : ∀ ds r, ¬MarkedOctal text ds r := fun ds r closed => octal ⟨ds, r, closed⟩
  by_cases decimal : ∃ ds r, PointedDecimal text ds r
  · obtain ⟨ds, r, closed⟩ := decimal
    exact ⟨_, _, .decimal unmarked closed⟩
  have unclosed : Unclosed text := ⟨unmarked, fun ds r closed => decimal ⟨ds, r, closed⟩⟩
  by_cases first : text.head? = some '0'
  · exact ⟨_, _, .zero unclosed first (longest_run octalDigits text)⟩
  obtain ⟨radix, alphabet, plain⟩ := exists_plain dialect
  have run := longest_run alphabet text
  by_cases empty : text.takeWhile alphabet.contains = []
  · rw [empty] at run
    have whole : text = text.dropWhile alphabet.contains := run.parts
    rw [← whole] at run
    exact ⟨_, _, .nothing unclosed first plain run⟩
  · exact ⟨_, _, .plain unclosed first plain empty run⟩

theorem Takes.after_of_none {dialect : Dialect} {text after : List Char}
    (h : Takes dialect text none after) : after = text := by
  cases h
  rfl

section Reading

/-- Whether a run of digits is closed shows in the character behind it. -/
def closes (p mark : Char → Bool) (c : Cursor) : Bool :=
  !(c.run p).isEmpty && (c.drop (c.run p).length).next?.any mark

def isPoint (x : Char) : Bool := x = '.'

/-- The forms in the order in which they are tried. -/
theorem read?_eq (dialect : Dialect) (c : Cursor) :
    read? dialect c =
      if closes isOctalDigit isOctalMark c then
        some (value 8 (c.run isOctalDigit), c.drop ((c.run isOctalDigit).length + 1))
      else if closes Char.isDigit isPoint c then
        some (value 10 (c.run Char.isDigit), c.drop ((c.run Char.isDigit).length + 1))
      else if c.next? == some '0' then
        some (value 8 (c.run isOctalDigit), c.drop (c.run isOctalDigit).length)
      else if (c.run (isPlainDigit dialect)).isEmpty then none
      else some (value dialect.radix (c.run (isPlainDigit dialect)),
        c.drop (c.run (isPlainDigit dialect)).length) := by
  have octal : (!(c.run isOctalDigit).isEmpty &&
      (c.drop (c.run isOctalDigit).length).next?.any isOctalMark) =
        closes isOctalDigit isOctalMark c := rfl
  have decimal : (!(c.run Char.isDigit).isEmpty &&
      (c.drop (c.run Char.isDigit).length).next? == some '.') = closes Char.isDigit isPoint c := by
    rw [closes]
    cases (c.drop (c.run Char.isDigit).length).next? with
    | none => rfl
    | some x => rfl
  simp only [read?, octal, decimal]

theorem contains_octalMarks : octalMarks.contains = isOctalMark := by
  funext x
  rw [Bool.eq_iff_iff, List.contains_iff_mem]
  simp [octalMarks, isOctalMark, or_assoc]

theorem contains_point : ['.'].contains = isPoint := by
  funext x
  rw [Bool.eq_iff_iff, List.contains_iff_mem]
  simp [isPoint]

variable {c : Cursor} {alphabet marks digits after : List Char}

theorem Longest.run (h : Longest alphabet c.rest digits after) :
    c.run alphabet.contains = digits := (longest_iff.mp h).1

theorem Longest.drop (h : Longest alphabet c.rest digits after) :
    c.drop digits.length = c.moveTo after := by
  rw [Cursor.drop, h.parts, List.drop_left]

theorem Longest.drop_succ {x : Char} (h : Longest alphabet c.rest digits (x :: after)) :
    c.drop (digits.length + 1) = c.moveTo after := by
  rw [Cursor.drop, h.parts, ← List.drop_drop, List.drop_left, List.drop_one, List.tail_cons]

theorem Closed.closes (h : Closed alphabet marks c.rest digits after) :
    closes alphabet.contains marks.contains c = true := by
  obtain ⟨nonempty, x, closed, run⟩ := h
  rw [Number.closes, run.run, run.drop, Bool.and_eq_true]
  exact ⟨by simpa using nonempty, List.contains_iff_mem.mpr closed⟩

theorem closes_eq_false (h : ∀ ds r, ¬Closed alphabet marks c.rest ds r) :
    closes alphabet.contains marks.contains c = false := by
  refine Bool.eq_false_iff.mpr fun closed => ?_
  rw [closes, next?_drop_run, Bool.and_eq_true] at closed
  obtain ⟨nonempty, marked⟩ := closed
  have run := longest_run alphabet c.rest
  cases behind : c.rest.dropWhile alphabet.contains with
  | nil => simp [behind] at marked
  | cons x r =>
    rw [behind] at run marked
    exact h _ r ⟨by simpa [Cursor.run] using nonempty, x, List.contains_iff_mem.mp marked, run⟩

/-- The forms with their characters, where plain numbers have this radix and these digits. -/
theorem read?_of_plain {dialect : Dialect} {radix : Nat} (plain : Plain dialect radix alphabet)
    (c : Cursor) : read? dialect c =
      if closes octalDigits.contains octalMarks.contains c then
        some (value 8 (c.run octalDigits.contains),
          c.drop ((c.run octalDigits.contains).length + 1))
      else if closes decimalDigits.contains ['.'].contains c then
        some (value 10 (c.run decimalDigits.contains),
          c.drop ((c.run decimalDigits.contains).length + 1))
      else if c.next? == some '0' then
        some (value 8 (c.run octalDigits.contains), c.drop (c.run octalDigits.contains).length)
      else if (c.run alphabet.contains).isEmpty then none
      else some (value radix (c.run alphabet.contains),
        c.drop (c.run alphabet.contains).length) := by
  obtain ⟨radix, digits⟩ := plain.reads
  rw [read?_eq, radix, digits, contains_octalDigits, contains_decimalDigits, contains_octalMarks,
    contains_point]

theorem read?_of_unclosed {dialect : Dialect} {radix : Nat} (plain : Plain dialect radix alphabet)
    (unclosed : Unclosed c.rest) : read? dialect c =
      if c.rest.head? = some '0' then
        some (value 8 (c.run octalDigits.contains), c.drop (c.run octalDigits.contains).length)
      else if c.run alphabet.contains = [] then none
      else some (value radix (c.run alphabet.contains),
        c.drop (c.run alphabet.contains).length) := by
  rw [read?_of_plain plain, closes_eq_false unclosed.octal, closes_eq_false unclosed.decimal]
  simp [Cursor.next?]

/-- A text of one of the forms is read as its number. -/
theorem read?_of_takes {dialect : Dialect} {taken : Option (Nat × List Char)}
    (h : Takes dialect c.rest taken after) :
    read? dialect c = taken.map fun number => (value number.1 number.2, c.moveTo after) := by
  obtain ⟨_, _, table⟩ := exists_plain dialect
  cases h with
  | octal closed =>
    have closes := closed.closes
    obtain ⟨-, x, -, run⟩ := closed
    rw [read?_of_plain table, if_pos closes, run.run, run.drop_succ]
    rfl
  | decimal unmarked closed =>
    have closes := closed.closes
    obtain ⟨-, x, -, run⟩ := closed
    rw [read?_of_plain table, closes_eq_false unmarked, if_neg Bool.false_ne_true, if_pos closes,
      run.run, run.drop_succ]
    rfl
  | zero unclosed first run =>
    rw [read?_of_unclosed table unclosed, if_pos first, run.run, run.drop]
    rfl
  | plain unclosed first plain nonempty run =>
    rw [read?_of_unclosed plain unclosed, if_neg first, run.run, if_neg nonempty, run.drop]
    rfl
  | nothing unclosed first plain empty =>
    rw [read?_of_unclosed plain unclosed, if_neg first, empty.run, if_pos rfl]
    rfl

end Reading

theorem eq_value_iff {v : Int32} {radix : Nat} {digits : List Char} :
    v = value radix digits ↔ v.toInt = (Nat.ofDigitChars radix digits 0 : Int).bmod (2 ^ 32) := by
  rw [value_eq, ← Int32.toInt_inj, Int32.toInt_ofNat']
  rfl

/-- Reading takes exactly the number that a text begins with, in the first form that fits, and
gives the positional value of its digits wrapped to 32 bits. Where there is no number, nothing is
read and all of the text is left. -/
theorem reads_exactly_numbers (dialect : Dialect) (c : Cursor) :
    (∀ v d, read? dialect c = some (v, d) ↔
      ∃ radix digits after, Takes dialect c.rest (some (radix, digits)) after ∧
        v.toInt = (Nat.ofDigitChars radix digits 0 : Int).bmod (2 ^ 32) ∧ d = c.moveTo after) ∧
    (read? dialect c = none ↔ Takes dialect c.rest none c.rest) := by
  obtain ⟨taken, after, takes⟩ := exists_takes dialect c.rest
  have read := read?_of_takes takes
  constructor
  · intro v d
    constructor
    · intro result
      rw [read] at result
      obtain ⟨⟨radix, digits⟩, rfl, pair⟩ := Option.map_eq_some_iff.mp result
      obtain ⟨rfl, rfl⟩ := Prod.mk.inj pair
      exact ⟨radix, digits, after, takes, eq_value_iff.mp rfl, rfl⟩
    · rintro ⟨radix, digits, after, takes, valued, rfl⟩
      rw [read?_of_takes takes, eq_value_iff.mpr valued]
      rfl
  · constructor
    · intro result
      rw [read, Option.map_eq_none_iff] at result
      subst result
      rw [takes.after_of_none] at takes
      exact takes
    · exact fun takes => read?_of_takes takes

end Pds1.Number
