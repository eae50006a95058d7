import Mathlib.Data.Nat.Bitwise
import Pds1.Listing
import Pds1.Number
import Pds1.Proofs.UnbrokenText

/-!
# Reading a listing back

A listing is read row by row from its columns alone: which rows carry a word and which, which rows
show a source line and its number, which a line of a literal pool, and which are diagnostics. The
row of an entry reads back as that entry, for every number, text and message; if no text holds a
line end, the rows of a listing are those of its entries.
-/

namespace Pds1

namespace Octal

theorem isOctalDigit_digit (n : Nat) : Number.isOctalDigit (digit n) = true := by
  have all : ∀ k < 8, Number.isOctalDigit (Char.ofNat (48 + k)) = true := by decide
  exact all (n % 8) (Nat.mod_lt n (by decide))

theorem toNat_digit (n : Nat) : (digit n).toNat - '0'.toNat = n % 8 := by
  have all : ∀ k < 8, (Char.ofNat (48 + k)).toNat - '0'.toNat = k := by decide
  exact all (n % 8) (Nat.mod_lt n (by decide))

theorem all_column (width n : Nat) : (column width n).all Number.isOctalDigit = true := by
  induction width generalizing n with
  | zero => rfl
  | succ width ih => simp [column, ih, isOctalDigit_digit]

/-- A column reads as the number modulo what fits in it. -/
theorem ofDigitChars_column (width n : Nat) :
    Nat.ofDigitChars 8 (column width n) 0 = n % 8 ^ width := by
  induction width generalizing n with
  | zero => simp [column, Nat.mod_one]
  | succ width ih =>
    rw [column, Nat.ofDigitChars_append, ih, Nat.ofDigitChars_cons, toNat_digit,
      Nat.ofDigitChars_nil, Nat.pow_succ', Nat.mod_mul]
    exact Nat.add_comm ..

end Octal

namespace Listing

/-- The rows of a listing: what stands before each line end. -/
def rows (text : List Char) : List (List Char) := (text.splitOn '\n').dropLast

/-- What the location and word columns of a row say, if they hold digits. -/
def codeOf? (row : List Char) : Option (Nat × Nat) :=
  let location := (row.drop 3).take 5
  let word := (row.drop 10).take 6
  if location.length = 5 && word.length = 6 && (location ++ word).all Number.isOctalDigit then
    some (Nat.ofDigitChars 8 location 0, Nat.ofDigitChars 8 word 0)
  else none

def isDiagnosticRow (row : List Char) : Bool := diagnosticMark.toList.isPrefixOf row

/-- What the number and text columns say. A plus sign stands for the number on the lines of
literal pools. -/
def lineColumns? (columns : List Char) : Option (Option Nat × List Char) :=
  let columns := columns.dropWhile (· = ' ')
  let digits := columns.takeWhile Char.isDigit
  match columns.dropWhile Char.isDigit with
  | '+' :: text => if digits.isEmpty then some (none, text) else none
  | ' ' :: text =>
    if digits.isEmpty then none else some (some (Nat.ofDigitChars 10 digits 0), text)
  | _ => none

/-- The number and the text of a row that shows a line. -/
def textOf? (row : List Char) : Option (Option Nat × List Char) :=
  if isDiagnosticRow row then none else lineColumns? (row.drop 21)

/-- A source line that a row shows. -/
def sourceOf? (row : List Char) : Option (Nat × List Char) :=
  (textOf? row).bind fun shown => shown.1.map fun number => (number, shown.2)

/-- A line of a literal pool that a row shows. -/
def literalOf? (row : List Char) : Option (List Char) :=
  (textOf? row).bind fun shown => if shown.1.isNone then some shown.2 else none

/-- A text as the listing shows it. -/
def shown (text : String) : List Char := expandTabs tabWidth 0 text.toList

/-- A word as the listing shows it: fourteen bits of its location, and the word. -/
def columnsOf (p : Int32 × Int32) : Nat × Nat :=
  (p.1.toUInt32.toNat % 2 ^ 14, p.2.toUInt32.toNat % 2 ^ 16)

namespace Entry

/-- The row of an entry. -/
def row : Entry → List Char
  | source number text => blankColumns.toList ++ (textColumns number text).toList
  | code location value number text =>
    (codeColumns location value).toList ++ (textColumns number text).toList
  | word location value => (codeText location value).toList
  | diagnostic message => diagnosticMark.toList ++ message.toList

theorem toList_render (e : Entry) : e.render.toList = e.row ++ ['\n'] := by
  cases e with
  | source | code | word | diagnostic => simp [render, row]

/-- The word that an entry lists. -/
def word? : Entry → Option (Int32 × Int32)
  | code location value _ _ | word location value => some (location, value)
  | source _ _ | diagnostic _ => none

/-- The line that an entry shows. -/
def line? : Entry → Option (Option Nat × String)
  | source number text | code _ _ number text => some (number, text)
  | word _ _ | diagnostic _ => none

end Entry

theorem toList_codeText (location value : Int32) :
    (codeText location value).toList =
      [' ', ' ', ' '] ++ Octal.column 5 (location.toUInt32.toNat % 0o40000) ++ [' ', ' '] ++
        Octal.column 6 (value.toUInt32.toNat % 0o200000) := by
  simp [codeText, Octal.word]

/-- The columns of a word are read back, whatever follows them. -/
theorem codeOf?_codeText (location value : Int32) (after : List Char) :
    codeOf? ((codeText location value).toList ++ after) = some (columnsOf (location, value)) := by
  rw [toList_codeText]
  generalize hl : Octal.column 5 (location.toUInt32.toNat % 0o40000) = l
  generalize hw : Octal.column 6 (value.toUInt32.toNat % 0o200000) = w
  have length_l : l.length = 5 := hl ▸ Octal.length_column ..
  have length_w : w.length = 6 := hw ▸ Octal.length_column ..
  have first : (([' ', ' ', ' '] ++ l ++ [' ', ' '] ++ w ++ after).drop 3).take 5 = l := by
    rw [List.append_assoc, List.append_assoc, List.append_assoc]
    exact List.take_left' length_l
  have second : (([' ', ' ', ' '] ++ l ++ [' ', ' '] ++ w ++ after).drop 10).take 6 = w := by
    rw [List.append_assoc, List.drop_left' (by simp [length_l]), List.take_left' length_w]
  have digits : (l ++ w).all Number.isOctalDigit = true := by
    rw [List.all_append, ← hl, ← hw, Octal.all_column, Octal.all_column]
    rfl
  have location_fits : location.toUInt32.toNat % 0o40000 % 8 ^ 5 =
      location.toUInt32.toNat % 2 ^ 14 := by
    omega
  have value_fits : value.toUInt32.toNat % 0o200000 % 8 ^ 6 = value.toUInt32.toNat % 2 ^ 16 := by
    omega
  simp only [codeOf?, first, second, digits, length_l, length_w, decide_true, Bool.and_self,
    if_true]
  rw [← hl, ← hw, Octal.ofDigitChars_column, Octal.ofDigitChars_column, location_fits, value_fits,
    columnsOf]

theorem toList_blankColumns : blankColumns.toList = List.replicate 21 ' ' := String.toList_ofList

theorem toList_diagnosticMark :
    diagnosticMark.toList = List.replicate 19 '#' ++ List.replicate 4 ' ' :=
  String.toList_ofList

theorem codeOf?_row (e : Entry) : codeOf? e.row = e.word?.map columnsOf := by
  cases e with
  | source number text =>
    rw [Entry.row, toList_blankColumns]
    rfl
  | code location value number text =>
    rw [Entry.row, codeColumns, String.toList_append, List.append_assoc, codeOf?_codeText]
    rfl
  | word location value =>
    have read := codeOf?_codeText location value []
    rw [List.append_nil] at read
    exact read
  | diagnostic message =>
    rw [Entry.row, toList_diagnosticMark]
    rfl

theorem isDiagnosticRow_row (e : Entry) : isDiagnosticRow e.row = e.isDiagnostic := by
  rw [isDiagnosticRow, toList_diagnosticMark]
  cases e with
  | source number text =>
    rw [Entry.row, toList_blankColumns]
    rfl
  | code location value number text =>
    rw [Entry.row, codeColumns, String.toList_append, toList_codeText]
    rfl
  | word location value =>
    rw [Entry.row, toList_codeText]
    rfl
  | diagnostic message =>
    rw [Entry.row, toList_diagnosticMark]
    exact List.isPrefixOf_iff_prefix.mpr (List.prefix_append ..)

/-- The number and text columns are read back, however long the number is. -/
theorem lineColumns?_textColumns (number : Option Nat) (text : String) :
    lineColumns? (textColumns number text).toList = some (number, shown text) := by
  cases number with
  | none =>
    have columns : (textColumns none text).toList = List.replicate 11 ' ' ++ '+' :: shown text := by
      simp [textColumns, shown]
    rw [columns]
    rfl
  | some n =>
    have repr : n.repr.toList = Nat.toDigits 10 n := by
      rw [Nat.repr_eq_ofList_toDigits, String.toList_ofList]
    have columns : (textColumns (some n) text).toList =
        List.replicate (11 - (Nat.toDigits 10 n).length) ' ' ++
          (Nat.toDigits 10 n ++ ' ' :: shown text) := by
      simp [textColumns, shown, List.leftpad, repr]
    have digit : ∀ c ∈ Nat.toDigits 10 n, c.isDigit = true := fun c =>
      Nat.isDigit_of_mem_toDigits (by decide) (by decide)
    have trimmed : (List.replicate (11 - (Nat.toDigits 10 n).length) ' ' ++
        (Nat.toDigits 10 n ++ ' ' :: shown text)).dropWhile (· = ' ') =
          Nat.toDigits 10 n ++ ' ' :: shown text := by
      rw [List.dropWhile_append_of_pos (by simp)]
      obtain ⟨d, ds, cons⟩ := List.exists_cons_of_ne_nil (Nat.toDigits_ne_nil (b := 10) (n := n))
      have other : d ≠ ' ' := by
        rintro rfl
        exact absurd (digit ' ' (cons ▸ List.mem_cons_self)) (by decide)
      simp [cons, other]
    rw [columns, lineColumns?, trimmed]
    simp only [List.takeWhile_append_of_pos digit, List.dropWhile_append_of_pos digit]
    have stops : ' '.isDigit = false := rfl
    simp [stops, Nat.ofDigitChars_toDigits, Nat.toDigits_ne_nil]

theorem textOf?_row (e : Entry) :
    textOf? e.row = e.line?.map fun line => (line.1, shown line.2) := by
  have length (location value : Int32) : (codeText location value).toList.length = 16 := by
    simp [toList_codeText]
  rw [textOf?, isDiagnosticRow_row]
  cases e with
  | source number text =>
    rw [Entry.row, toList_blankColumns, List.drop_left' (by simp)]
    exact lineColumns?_textColumns number text
  | code location value number text =>
    have width : (codeColumns location value).toList.length = 21 := by
      simp [codeColumns, length]
    rw [Entry.row, List.drop_left' width]
    exact lineColumns?_textColumns number text
  | word location value =>
    rw [Entry.row, List.drop_eq_nil_of_le (by simp [length])]
    rfl
  | diagnostic message => rfl

/-- The rows of a text that consists of rows, each ended by a line feed. -/
theorem rows_flatMap {entries : List (List Char)} (h : ∀ row ∈ entries, OneLine row) :
    rows (entries.flatMap (· ++ ['\n'])) = entries := by
  have split : (entries.flatMap (· ++ ['\n'])).splitOn '\n' = entries ++ [[]] := by
    induction entries with
    | nil => rfl
    | cons row rest ih =>
      obtain ⟨first, later⟩ := List.forall_mem_cons.mp h
      rw [List.flatMap_cons, List.append_assoc, List.singleton_append,
        List.splitOn_append_cons_self_of_not_mem first, ih later]
      rfl
  rw [rows, split, List.dropLast_concat]

theorem oneLine_expandTabs (width column : Nat) {cs : List Char} (h : OneLine cs) :
    OneLine (expandTabs width column cs) := by
  fun_induction expandTabs width column cs with
  | case1 => exact h
  | case2 column r next ih =>
    have blanks : OneLine (List.replicate (next - column) ' ') := by simp [OneLine]
    exact blanks.append (ih (h.suffix (List.suffix_cons _ _)))
  | case3 column c r _ ih =>
    have own : OneLine [c] := h.of_subset (by simp)
    exact own.append (ih (h.suffix (List.suffix_cons _ _)))

theorem oneLine_textColumns (number : Option Nat) {text : String} (h : OneLine text.toList) :
    OneLine (textColumns number text).toList := by
  have text : OneLine (shown text) := oneLine_expandTabs _ _ h
  cases number with
  | none => simpa [textColumns, OneLine, shown] using text
  | some n =>
    have digits : OneLine n.repr.toList := by
      rw [Nat.repr_eq_ofList_toDigits, String.toList_ofList]
      intro member
      exact absurd (Nat.isDigit_of_mem_toDigits (by decide) (by decide) member) (by decide)
    have padded : OneLine (List.leftpad 11 ' ' n.repr.toList) := by
      simpa [List.leftpad, OneLine] using digits
    simpa [textColumns, OneLine, shown] using And.intro padded text

theorem oneLine_codeText (location value : Int32) : OneLine (codeText location value).toList := by
  have column (width n : Nat) : OneLine (Octal.column width n) := fun member =>
    absurd (List.all_eq_true.mp (Octal.all_column width n) _ member) (by decide)
  rw [toList_codeText]
  exact ((OneLine.append (by decide) (column 5 _)).append (by decide)).append (column 6 _)

/-- What an entry shows is on one line. -/
def Entry.Unbroken : Entry → Prop
  | source _ text | code _ _ _ text => OneLine text.toList
  | word _ _ => True
  | diagnostic message => OneLine message.toList

theorem Entry.Unbroken.row {e : Entry} (h : e.Unbroken) : OneLine e.row := by
  cases e with
  | source number text =>
    have blanks : OneLine blankColumns.toList := by
      rw [toList_blankColumns]
      decide
    exact blanks.append (oneLine_textColumns number h)
  | code location value number text =>
    have columns : OneLine (codeColumns location value).toList :=
      OneLine.followed (oneLine_codeText location value) (by decide)
    exact columns.append (oneLine_textColumns number h)
  | word location value => exact oneLine_codeText location value
  | diagnostic message =>
    have mark : OneLine diagnosticMark.toList := by
      rw [toList_diagnosticMark]
      decide
    exact mark.append h

/-- The text of some entries. -/
def textOf (entries : List Entry) : String := String.join (entries.map Entry.render)

/-- The rows of a listing are those of its entries. -/
theorem rows_textOf {entries : List Entry} (h : ∀ e ∈ entries, e.Unbroken) :
    rows (textOf entries).toList = entries.map Entry.row := by
  have text : (textOf entries).toList = (entries.map Entry.row).flatMap (· ++ ['\n']) := by
    rw [textOf, String.toList_join, List.flatMap_map, List.flatMap_map]
    simp only [Entry.toList_render]
  rw [text]
  refine rows_flatMap fun row member => ?_
  obtain ⟨e, listed, rfl⟩ := List.mem_map.mp member
  exact (h e listed).row

end Listing

end Pds1
