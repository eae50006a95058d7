import Pds1.Image.Dump
import Pds1.Proofs.ImageGrammar
import Pds1.Proofs.ListingRows

/-!
# Reading a dump back

A dump is read from its text alone: rows end at line feeds, fields at blanks, a row begins with an
address of five octal digits, and every field of six octal digits is a word. Of any bytes this gives
back the words, eight to a row, whatever the length of the bytes.
-/

namespace Pds1.Image

/-- The rows of a text; the empty text has none. -/
def textRows (text : List Char) : List (List Char) :=
  if text.isEmpty then [] else text.splitOn '\n'

/-- The number in an octal field of a given width. -/
def octalField? (width : Nat) (field : List Char) : Option Nat :=
  if field.length = width && field.all Number.isOctalDigit then some (Nat.ofDigitChars 8 field 0)
  else none

/-- The address that a row begins with. -/
def rowAddress? (row : List Char) : Option Nat := octalField? 5 (row.take 5)

/-- The words of a row. -/
def rowWords (row : List Char) : List Nat := (row.splitOn ' ').filterMap (octalField? 6)

/-- The words of a byte string, high byte first. Behind the last byte there are zeros. -/
def bigEndian (bytes : List UInt8) : List Nat :=
  (List.range ((bytes.length + 1) / 2)).map fun i =>
    256 * (bytes.getD (2 * i) 0).toNat + (bytes.getD (2 * i + 1) 0).toNat

section Rows

variable {α : Type} (width : Nat)

theorem flatten_rows (l : List α) : (rows width l).flatten = l := by
  fun_induction rows width l with
  | case1 => rfl
  | case2 x r ih => rw [List.flatten_cons, ih, List.cons_append, List.take_append_drop]

theorem length_rows (l : List α) : (rows width l).length = (l.length + width) / (width + 1) := by
  fun_induction rows width l with
  | case1 => exact (Nat.div_eq_of_lt (by simp)).symm
  | case2 x r ih =>
    rw [List.length_cons, ih, List.length_drop, List.length_cons]
    by_cases short : r.length ≤ width
    · have first : (r.length - width + width) / (width + 1) = 0 := Nat.div_eq_of_lt (by omega)
      have second : (r.length + 1 + width) / (width + 1) = 1 :=
        Nat.div_eq_of_lt_le (by omega) (by omega)
      rw [first, second]
    · have more : r.length + 1 + width = r.length - width + width + (width + 1) := by omega
      rw [more, Nat.add_div_right _ (Nat.succ_pos width)]

/-- A row is full unless the items run out. -/
theorem length_of_getElem?_rows {l : List α} {i : Nat} {row : List α}
    (h : (rows width l)[i]? = some row) :
    row.length = min (width + 1) (l.length - (width + 1) * i) := by
  fun_induction rows width l generalizing i with
  | case1 => simp at h
  | case2 x r ih =>
    cases i with
    | zero =>
      obtain rfl : x :: r.take width = row := by simpa using h
      simp only [List.length_cons, List.length_take]
      omega
    | succ i =>
      have later := ih (by simpa using h)
      rw [List.length_drop] at later
      rw [later, List.length_cons, Nat.mul_add]
      omega

end Rows

/-- The words of a dump are those of its bytes. -/
theorem map_toNat_paddedWords (bytes : List UInt8) :
    (paddedWords bytes).map UInt16.toNat = bigEndian bytes := by
  fun_induction paddedWords bytes with
  | case1 high low rest ih =>
    have more : ((high :: low :: rest).length + 1) / 2 = (rest.length + 1) / 2 + 1 := by
      simp only [List.length_cons]
      omega
    rw [List.map_cons, ih, toNat_wordOfBytes, bigEndian, bigEndian, more, List.range_succ_eq_map,
      List.map_cons, List.map_map]
    refine congrArg₂ List.cons ?_ (List.map_congr_left fun i _ => ?_)
    · simp [Nat.mul_comm]
    · have even : 2 * (i + 1) = 2 * i + 1 + 1 := by omega
      simp [Function.comp, even]
  | case2 high => simp [bigEndian, toNat_wordOfBytes, Nat.mul_comm]
  | case3 => rfl

/-- Items between separators: the separator before every item but the first. -/
theorem intercalate_eq_flatMap (x : Char) (first : List Char) (rest : List (List Char)) :
    [x].intercalate (first :: rest) = first ++ rest.flatMap (x :: ·) := by
  induction rest generalizing first with
  | nil => simp
  | cons second rest ih => rw [List.intercalate_cons_cons, ih]; simp

/-- The fields of a row: its address, an empty one, and its words. -/
def fields (row : Nat) (words : List UInt16) : List (List Char) :=
  Octal.column 5 (8 * row % 2 ^ 15) :: [] :: words.map fun w => Octal.column 6 w.toNat

theorem toList_dumpRow (row : Nat) (words : List UInt16) :
    (dumpRow row words).toList = [' '].intercalate (fields row words) := by
  have address : (Octal.address (Int32.ofNat (row * 8))).toList =
      Octal.column 5 (8 * row % 2 ^ 15) := by
    have wraps : (Int32.ofNat (row * 8)).toUInt32.toNat = row * 8 % 2 ^ 32 := rfl
    have low : (Int32.ofNat (row * 8)).toUInt32.toNat % 0o100000 = 8 * row % 2 ^ 15 := by omega
    rw [Octal.address, String.toList_ofList, low]
  rw [fields, intercalate_eq_flatMap, dumpRow, String.toList_append, String.toList_append, address]
  simp [Octal.ofWord, List.flatMap_map]

theorem not_mem_column {x : Char} (other : Number.isOctalDigit x = false) (width n : Nat) :
    x ∉ Octal.column width n := by
  intro member
  have digit := List.all_eq_true.mp (Octal.all_column width n) x member
  exact absurd digit (by simp [other])

theorem not_mem_fields {x : Char} (other : Number.isOctalDigit x = false) (row : Nat)
    (words : List UInt16) : ∀ field ∈ fields row words, x ∉ field := by
  intro field member
  simp only [fields, List.mem_cons, List.mem_map] at member
  obtain rfl | rfl | ⟨w, -, rfl⟩ := member
  · exact not_mem_column other _ _
  · exact List.not_mem_nil
  · exact not_mem_column other _ _

theorem octalField?_column (width n : Nat) :
    octalField? width (Octal.column width n) = some (n % 8 ^ width) := by
  simp [octalField?, Octal.all_column, Octal.ofDigitChars_column]

theorem octalField?_of_length {width : Nat} {field : List Char} (other : field.length ≠ width) :
    octalField? width field = none := by
  simp [octalField?, other]

theorem rowAddress?_dumpRow (row : Nat) (words : List UInt16) :
    rowAddress? (dumpRow row words).toList = some (8 * row % 2 ^ 15) := by
  rw [toList_dumpRow, fields, intercalate_eq_flatMap, rowAddress?,
    List.take_left' (Octal.length_column 5 _), octalField?_column]
  congr 1
  omega

theorem rowWords_dumpRow (row : Nat) (words : List UInt16) :
    rowWords (dumpRow row words).toList = words.map UInt16.toNat := by
  have split : ((dumpRow row words).toList).splitOn ' ' = fields row words := by
    rw [toList_dumpRow]
    exact List.splitOn_intercalate ' ' (not_mem_fields rfl row words) (List.cons_ne_nil _ _)
  have word (w : UInt16) : octalField? 6 (Octal.column 6 w.toNat) = some w.toNat := by
    have bound := w.toNat_lt
    rw [octalField?_column, Nat.mod_eq_of_lt (by omega)]
  rw [rowWords, split, fields, List.filterMap_cons_none (octalField?_of_length (by simp)),
    List.filterMap_cons_none (octalField?_of_length (by simp)), List.filterMap_map]
  have each : (octalField? 6 ∘ fun w : UInt16 => Octal.column 6 w.toNat) = some ∘ UInt16.toNat :=
    funext word
  rw [each, List.filterMap_eq_map]

theorem newline_not_mem_dumpRow (row : Nat) (words : List UInt16) :
    '\n' ∉ (dumpRow row words).toList := by
  have apart := not_mem_fields (x := '\n') rfl row words
  rw [toList_dumpRow, fields, intercalate_eq_flatMap, List.mem_append, List.mem_flatMap]
  rintro (own | ⟨field, among, own⟩)
  · exact apart _ List.mem_cons_self own
  · rcases List.mem_cons.mp own with newline | inside
    · exact absurd newline (by decide)
    · exact apart field (List.mem_cons_of_mem _ among) inside

theorem length_dumpRow (row : Nat) (words : List UInt16) :
    5 ≤ (dumpRow row words).toList.length := by
  rw [toList_dumpRow, fields, intercalate_eq_flatMap, List.length_append, Octal.length_column]
  exact Nat.le_add_right 5 _

/-- The rows of the text are those of the dump. -/
theorem textRows_dump (bytes : List UInt8) :
    textRows (dump bytes).toList = (dumpRows bytes).map String.toList := by
  have text : (dump bytes).toList = ['\n'].intercalate ((dumpRows bytes).map String.toList) := by
    rw [dump, String.toList_intercalate]
    rfl
  have row_of_mem : ∀ row ∈ dumpRows bytes, ∃ i words, row = dumpRow i words := by
    intro row member
    obtain ⟨⟨words, i⟩, -, rfl⟩ := List.mem_map.mp member
    exact ⟨i, words, rfl⟩
  rw [textRows, text]
  cases rows : dumpRows bytes with
  | nil => rfl
  | cons first rest =>
    rw [rows] at row_of_mem
    have nonempty : (['\n'].intercalate ((first :: rest).map String.toList)).isEmpty = false := by
      obtain ⟨i, words, rfl⟩ := row_of_mem first List.mem_cons_self
      have long := length_dumpRow i words
      rw [List.map_cons, intercalate_eq_flatMap, List.isEmpty_eq_false_iff, ← List.length_pos_iff,
        List.length_append]
      omega
    rw [nonempty, if_neg Bool.false_ne_true]
    refine List.splitOn_intercalate '\n' ?_ (by simp)
    intro row member
    obtain ⟨shown, listed, rfl⟩ := List.mem_map.mp member
    obtain ⟨i, words, rfl⟩ := row_of_mem shown listed
    exact newline_not_mem_dumpRow i words

/-- A dump has a row for every sixteen bytes or part of them. A row begins with the five low octal
digits of the address of its first word, and its words follow, eight of them unless they run out.
All words together are those of the bytes. -/
theorem dump_reads_back (bytes : List UInt8) :
    (textRows (dump bytes).toList).length = (bytes.length + 15) / 16 ∧
    (∀ r row, (textRows (dump bytes).toList)[r]? = some row →
      rowAddress? row = some (8 * r % 2 ^ 15) ∧
        (rowWords row).length = min 8 ((bytes.length + 1) / 2 - 8 * r)) ∧
    (textRows (dump bytes).toList).flatMap rowWords = bigEndian bytes := by
  have words := map_toNat_paddedWords bytes
  have count : (paddedWords bytes).length = (bytes.length + 1) / 2 := by
    simpa [bigEndian] using congrArg List.length words
  rw [textRows_dump]
  refine ⟨?_, ?_, ?_⟩
  · rw [List.length_map, dumpRows, List.length_map, List.length_zipIdx, length_rows, count]
    omega
  · intro r row found
    rw [dumpRows, List.map_map, List.getElem?_map, List.getElem?_zipIdx, Option.map_map,
      Option.map_eq_some_iff] at found
    obtain ⟨shown, there, rfl⟩ := found
    have full := length_of_getElem?_rows 7 there
    have numbered : 0 + r = r := Nat.zero_add r
    simp only [Function.comp, numbered, rowAddress?_dumpRow, rowWords_dumpRow, List.length_map,
      true_and]
    rw [full, count]
  · rw [dumpRows, List.map_map, List.flatMap_map, ← words]
    simp only [Function.comp, rowWords_dumpRow]
    calc (rows 7 (paddedWords bytes)).zipIdx.flatMap (fun entry => entry.1.map UInt16.toNat)
      _ = ((rows 7 (paddedWords bytes)).zipIdx.map Prod.fst).flatMap (List.map UInt16.toNat) := by
        rw [List.flatMap_map]
      _ = (rows 7 (paddedWords bytes)).flatten.map UInt16.toNat := by
        rw [List.zipIdx_map_fst, List.map_flatten, List.flatMap_def]
      _ = (paddedWords bytes).map UInt16.toNat := by rw [flatten_rows]

end Pds1.Image
