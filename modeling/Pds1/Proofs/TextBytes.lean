import Pds1.Proofs.CursorPlace

/-!
# Texts in UTF-8

A text can be cut at an offset in bytes only where a character ends. ASCII characters are one byte
each and no byte of a longer character is ASCII, so a class of ASCII characters can be counted and
looked for byte by byte, and what was counted can be cut off.
-/

namespace Pds1

/-- The text between two byte offsets, both of which must be ends of characters. -/
def slice? (text : String) (start stop : Nat) : Option String :=
  if h : start ≤ stop ∧ String.Pos.Raw.IsValid text ⟨start⟩ ∧
      String.Pos.Raw.IsValid text ⟨stop⟩ then
    some (text.extract (text.pos ⟨start⟩ h.2.1) (text.pos ⟨stop⟩ h.2.2))
  else none

theorem Cursor.byteSize_eq (cs : List Char) : byteSize cs = (String.ofList cs).utf8ByteSize := by
  induction cs with
  | nil => rfl
  | cons x r ih =>
    have parts : String.ofList (x :: r) = String.singleton x ++ String.ofList r := by
      rw [String.singleton_eq_ofList, ← String.ofList_append]
      rfl
    rw [parts, String.utf8ByteSize_append, String.utf8ByteSize_singleton, ← ih]
    rfl

open Cursor (byteSize byteSize_eq byteSize_append)

/-- The end of any first part of a text is the end of a character. -/
theorem isValid_byteSize (before after : List Char) :
    String.Pos.Raw.IsValid (String.ofList (before ++ after)) ⟨byteSize before⟩ := by
  rw [String.Pos.Raw.isValid_iff_exists_append]
  refine ⟨String.ofList before, String.ofList after, String.ofList_append, ?_⟩
  rw [byteSize_eq]
  rfl

/-- A part of a text is cut out by the sizes of what is before it and of itself. -/
theorem slice?_parts (before inside after : List Char) :
    slice? (String.ofList (before ++ (inside ++ after))) (byteSize before)
      (byteSize before + byteSize inside) = some (String.ofList inside) := by
  have start := isValid_byteSize before (inside ++ after)
  have stop := isValid_byteSize (before ++ inside) after
  rw [List.append_assoc, byteSize_append] at stop
  rw [slice?, dif_pos ⟨Nat.le_add_right _ _, start, stop⟩, Option.some_inj,
    ← String.toByteArray_inj, String.toByteArray_extract, String.offset_pos, String.offset_pos,
    String.ofList_append, String.ofList_append, String.toByteArray_append,
    String.toByteArray_append]
  have first : byteSize before = (String.ofList before).toByteArray.size := byteSize_eq before
  have second : byteSize inside = (String.ofList inside).toByteArray.size := byteSize_eq inside
  exact (ByteArray.extract_append_size_add' (i := 0) first).trans
    (ByteArray.extract_append_eq_left second)

theorem utf8ByteSize_of_slice? {text part : String} {start stop : Nat}
    (h : slice? text start stop = some part) : part.utf8ByteSize ≤ stop - start := by
  rw [slice?] at h
  split at h
  · cases h
    rw [← String.size_toByteArray, String.toByteArray_extract, ByteArray.size_extract]
    exact Nat.sub_le_sub_right (Nat.min_le_left _ _) _
  · cases h

/-- The UTF-8 bytes of a text. -/
def utf8Bytes (text : String) : List UInt8 := text.toByteArray.data.toList

/-- A class of characters on single bytes. A byte of a longer character is in none. -/
def onByte (p : Char → Bool) (b : UInt8) : Bool := b.toNat < 128 && p (Char.ofNat b.toNat)

/-- A class of ASCII characters. -/
def Ascii (p : Char → Bool) : Prop := ∀ x, p x = true → x.toNat < 128

/-- How many bytes at the beginning of a text are in a class. -/
def leading (p : Char → Bool) (text : String) : Nat :=
  ((utf8Bytes text).takeWhile (onByte p)).length

/-- Whether the byte at an offset is in a class. -/
def byteIn (p : Char → Bool) (text : String) (i : Nat) : Bool :=
  ((utf8Bytes text)[i]?).any (onByte p)

section Bytes

theorem utf8Bytes_ofList (cs : List Char) :
    utf8Bytes (String.ofList cs) = cs.flatMap String.utf8EncodeChar := by
  rw [utf8Bytes, String.toByteArray_ofList, List.utf8Encode]
  simp

/-- An ASCII character is one byte, and other characters begin with a byte that is no character. -/
theorem utf8EncodeChar_cases (x : Char) :
    (x.toNat < 128 ∧ String.utf8EncodeChar x = [UInt8.ofNat x.toNat]) ∨
      (128 ≤ x.toNat ∧ ∃ b bs, String.utf8EncodeChar x = b :: bs ∧ 128 ≤ b.toNat) := by
  have value : x.val.toNat = x.toNat := rfl
  by_cases one : x.toNat < 128
  · refine .inl ⟨one, ?_⟩
    simp only [String.utf8EncodeChar, value]
    rw [if_pos (by omega)]
  · refine .inr ⟨by omega, ?_⟩
    simp only [String.utf8EncodeChar, value]
    rw [if_neg (by omega)]
    split
    · exact ⟨_, _, rfl, by simp; omega⟩
    · split
      · exact ⟨_, _, rfl, by simp; omega⟩
      · exact ⟨_, _, rfl, by simp; omega⟩

theorem onByte_ofNat (p : Char → Bool) {x : Char} (one : x.toNat < 128) :
    onByte p (UInt8.ofNat x.toNat) = p x := by
  have value : (UInt8.ofNat x.toNat).toNat = x.toNat := by
    rw [UInt8.toNat_ofNat', Nat.mod_eq_of_lt (by omega)]
  rw [onByte, value, Char.ofNat_toNat, decide_eq_true one, Bool.true_and]

variable {p : Char → Bool} {u v : List Char}

/-- The first byte of a character tells whether the character is in a class of ASCII characters. -/
theorem Ascii.first_byte (ascii : Ascii p) (x : Char) :
    ∃ b bs, String.utf8EncodeChar x = b :: bs ∧ onByte p b = p x := by
  rcases utf8EncodeChar_cases x with ⟨one, bytes⟩ | ⟨long, b, bs, bytes, high⟩
  · exact ⟨_, _, bytes, onByte_ofNat p one⟩
  · refine ⟨b, bs, bytes, ?_⟩
    have outside : p x = false := Bool.eq_false_iff.mpr fun inside => by
      have := ascii x inside
      omega
    have low : decide (b.toNat < 128) = false := decide_eq_false (by omega)
    rw [outside, onByte, low, Bool.false_and]

/-- ASCII characters are one byte each. -/
theorem utf8Bytes_append (ascii : ∀ x ∈ u, x.toNat < 128) (v : List Char) :
    utf8Bytes (String.ofList (u ++ v)) =
      u.map (fun x => UInt8.ofNat x.toNat) ++ utf8Bytes (String.ofList v) := by
  rw [utf8Bytes_ofList, utf8Bytes_ofList, List.flatMap_append]
  congr 1
  induction u with
  | nil => rfl
  | cons x r ih =>
    obtain ⟨first, later⟩ := List.forall_mem_cons.mp ascii
    rcases utf8EncodeChar_cases x with ⟨-, bytes⟩ | ⟨long, -⟩
    · rw [List.flatMap_cons, bytes, ih later]
      rfl
    · omega

theorem byteSize_of_ascii (ascii : ∀ x ∈ u, x.toNat < 128) : byteSize u = u.length := by
  have size := utf8Bytes_append ascii []
  have bytes : (utf8Bytes (String.ofList u)).length = byteSize u := by
    rw [byteSize_eq]
    rfl
  rw [List.append_nil] at size
  rw [← bytes, size]
  simp [utf8Bytes]

/-- The byte behind some ASCII characters belongs to the next character. -/
theorem byteIn_length (single : Ascii p) (ascii : ∀ x ∈ u, x.toNat < 128) :
    byteIn p (String.ofList (u ++ v)) u.length = v.head?.any p := by
  rw [byteIn, utf8Bytes_append ascii, List.getElem?_append_right (by simp), List.length_map,
    Nat.sub_self, utf8Bytes_ofList]
  cases v with
  | nil => rfl
  | cons x r =>
    obtain ⟨b, bs, bytes, same⟩ := single.first_byte x
    rw [List.flatMap_cons, bytes]
    exact same

/-- Counting bytes of a class is counting its characters. -/
theorem leading_ofList (single : Ascii p) (cs : List Char) :
    leading p (String.ofList cs) = (cs.takeWhile p).length := by
  induction cs with
  | nil =>
    rw [leading, utf8Bytes_ofList]
    rfl
  | cons x r ih =>
    cases inside : p x with
    | true =>
      have one := single x inside
      have bytes := utf8Bytes_append (u := [x]) (by simpa using one) r
      rw [leading] at ih ⊢
      rw [← List.singleton_append, bytes, List.map_singleton, List.singleton_append,
        List.takeWhile_cons_of_pos (by rw [onByte_ofNat p one, inside]), List.length_cons, ih,
        List.singleton_append, List.takeWhile_cons_of_pos inside, List.length_cons]
    | false =>
      obtain ⟨b, bs, bytes, same⟩ := single.first_byte x
      rw [leading, utf8Bytes_ofList, List.flatMap_cons, bytes, List.cons_append,
        List.takeWhile_cons_of_neg (by simp [same, inside]),
        List.takeWhile_cons_of_neg (by simp [inside])]
      rfl

theorem ascii_takeWhile (single : Ascii p) (cs : List Char) :
    ∀ x ∈ cs.takeWhile p, x.toNat < 128 := fun x member =>
  single x (List.all_eq_true.mp List.all_takeWhile x member)

/-- The byte behind the bytes of a class tells what comes behind its characters. -/
theorem byteIn_leading {q : Char → Bool} (single : Ascii p) (single' : Ascii q) (cs : List Char) :
    byteIn q (String.ofList cs) (leading p (String.ofList cs)) = (cs.dropWhile p).head?.any q := by
  have behind := byteIn_length (v := cs.dropWhile p) single' (ascii_takeWhile single cs)
  rw [List.takeWhile_append_dropWhile] at behind
  rw [leading_ofList single, behind]

theorem slice?_start (u v : List Char) :
    slice? (String.ofList (u ++ v)) 0 (byteSize u) = some (String.ofList u) := by
  simpa [byteSize] using slice?_parts [] u v

/-- ASCII characters at the beginning of a text are cut off by their number. -/
theorem slice?_first (ascii : ∀ x ∈ u, x.toNat < 128) (v : List Char) :
    slice? (String.ofList (u ++ v)) 0 u.length = some (String.ofList u) := by
  rw [← byteSize_of_ascii ascii]
  exact slice?_start u v

theorem slice?_after (ascii : ∀ x ∈ u, x.toNat < 128) (v : List Char) :
    slice? (String.ofList (u ++ v)) u.length (String.ofList (u ++ v)).utf8ByteSize =
      some (String.ofList v) := by
  have cut := slice?_parts u v []
  rw [List.append_nil, ← byteSize_append, byteSize_eq (u ++ v), byteSize_of_ascii ascii] at cut
  exact cut

end Bytes

end Pds1
