import Pds1.Proofs.ByteCursor
import Pds1.Proofs.LabelGrammar
import Pds1.Proofs.NumberGrammar

/-!
# Readers that measure in bytes

Numbers, names, mnemonics, increment vectors and literals read from a cursor on bytes: the bytes at
the cursor are counted and compared, texts are cut out by byte offsets, and the cursor then moves by
characters. The two measures agree because what is counted in bytes is ASCII. So no cut is refused,
and each reader does what the reader on characters does.
-/

namespace Pds1

open Cursor (byteSize byteSize_eq byteSize_append)

namespace Increment

/-- The digits of a step. -/
def isUnits (x : Char) : Bool := '0' ≤ x && x ≤ '3'

end Increment

namespace ByteCursor

/-- Takes digits that were measured in bytes, and moves over a number of characters. -/
def takeNumber? (rest : String) (digits radix length : Nat) (b : ByteCursor) :
    Option (Option Int32 × ByteCursor) := do
  let text ← slice? rest 0 digits
  let b ← b.drop? length
  return (some (Number.value radix text.toList), b)

/-- Reads a number. -/
def number? (dialect : Dialect) (b : ByteCursor) : Option (Option Int32 × ByteCursor) := do
  let rest ← b.rest?
  let octal := leading Number.isOctalDigit rest
  let decimal := leading Char.isDigit rest
  if octal > 0 && byteIn Number.isOctalMark rest octal then
    b.takeNumber? rest octal 8 (octal + 1)
  else if decimal > 0 && byteIn Number.isPoint rest decimal then
    b.takeNumber? rest decimal 10 (decimal + 1)
  else if rest.toList.head? == some '0' then b.takeNumber? rest octal 8 octal
  else
    let plain := if dialect.radix = 8 then octal else decimal
    if plain = 0 then return (none, b) else b.takeNumber? rest plain dialect.radix plain

/-- The length of a name of a capital letter and at most one octal digit, zero if there is none. -/
def imlacLength (rest : String) : Nat :=
  if byteIn Char.isUpper rest 0 then if byteIn Number.isOctalDigit rest 1 then 2 else 1 else 0

/-- Tries to read a Midas name, and goes back to the place saved before if there is none. -/
def midasName? (inOperand : Bool) (b : ByteCursor) : Option (Option String × ByteCursor) := do
  let (_, d) ← b.save.takeWhile? Cursor.isBlank
  let (name, e) ← d.takeWhile? Name.isMidasChar
  if name.toList.isEmpty ||
      (!name.toList.any Name.isMidasLetter && name.toList.count '.' < 2) then
    return (none, e.release false)
  else if inOperand then return (some name, e.release true)
  else
    let (closed, f) ← e.skip? ':'
    if closed then
      let (_, g) ← f.skip? ':'
      return (some name, g.release true)
    else return (none, f.release false)

/-- Reads a name. -/
def name? (dialect : Dialect) (inOperand : Bool) (b : ByteCursor) :
    Option (Option String × ByteCursor) :=
  match dialect with
  | .midas => b.midasName? inOperand
  | .imlac =>
    if !inOperand && b.position != 0 then some (none, b)
    else do
      let rest ← b.rest?
      let length := imlacLength rest
      if length = 0 then return (none, b)
      else
        let d ← b.drop? length
        let name ← slice? rest 0 length
        return (some name, d)
  | _ =>
    if !inOperand && b.position != 0 then some (none, b)
    else do
      let next ← b.next?
      if next.any Name.isAmesStart then
        let (name, d) ← b.takeWhile? Name.isAmesChar
        return (some name, d)
      else return (none, b)

/-- Reads a mnemonic. -/
def mnemonic? (display : Bool) (b : ByteCursor) : Option (Option Mnemonic × ByteCursor) := do
  let rest ← b.rest?
  let length := leading Char.isAlpha rest
  if length = 0 then return (none, b)
  else
    let after ← slice? rest length rest.utf8ByteSize
    if Mnemonic.endsName after.toList.head? then
      let word ← slice? rest 0 length
      match Mnemonic.find? (if display then "D" ++ word else word) with
      | none => return (none, b)
      | some m =>
        let d ← b.drop? length
        return (some m, d)
    else return (none, b)

/-- The digit of a step, and the offset behind it: the vector byte with the step added. -/
def unitsAt? (text : String) (shift byte : UInt8) (i : Nat) : Option (UInt8 × Nat) :=
  match (utf8Bytes text)[i]? with
  | none => none
  | some d =>
    if onByte Increment.isUnits d then some (byte ||| ((d - 48) <<< shift), i + 1) else none

/-- A step of an increment vector, from an offset on. -/
def stepAt? (text : String) (shift byte : UInt8) (i : Nat) : Option (UInt8 × Nat) :=
  if byteIn (· = 'M') text i then unitsAt? text shift (byte ||| (4 <<< shift)) (i + 1)
  else unitsAt? text shift byte i

/-- The vector byte of the beam letter. -/
def beamAt? (text : String) : Option UInt8 :=
  if byteIn (· = 'B') text 0 then some 0o300
  else if byteIn (· = 'D') text 0 then some 0o200
  else none

def vectorAt? (text : String) : Option (UInt8 × Nat) := do
  let beam ← beamAt? text
  let (byte, i) ← stepAt? text 3 beam 1
  stepAt? text 0 byte i

/-- Reads an increment vector. -/
def vector? (b : ByteCursor) : Option (Option UInt8 × ByteCursor) := do
  let rest ← b.rest?
  match vectorAt? rest with
  | none => return (none, b)
  | some (byte, length) =>
    let d ← b.drop? length
    return (some byte, d)

/-- The offset of the bracket that closes `depth` open brackets and one more. -/
def closingAt? : Nat → Nat → List Char → Option Nat
  | _, _, [] => none
  | depth, i, '[' :: r => closingAt? (depth + 1) (i + '['.utf8Size) r
  | 0, i, ']' :: _ => some i
  | depth + 1, i, ']' :: r => closingAt? depth (i + ']'.utf8Size) r
  | depth, i, x :: r => closingAt? depth (i + x.utf8Size) r

/-- Reads the text of a literal whose opening bracket has been read. -/
def literal? (b : ByteCursor) : Option (Option String × ByteCursor) := do
  let rest ← b.rest?
  match closingAt? 0 0 rest.toList with
  | none => return (none, b)
  | some close =>
    let text ← slice? rest 0 close
    let whole ← slice? rest 0 (close + 1)
    let d ← b.drop? whole.length
    return (some (String.ofList (Operand.dropComma text.toList)), d)

end ByteCursor

section Classes

theorem ascii_isDigit : Ascii Char.isDigit := by
  intro x digit
  have range : x.isDigit = (decide (x.val ≥ 48) && decide (x.val ≤ 57)) := rfl
  rw [range, Bool.and_eq_true, decide_eq_true_eq, decide_eq_true_eq] at digit
  exact Nat.lt_of_le_of_lt digit.2 (by decide)

theorem ascii_isUpper : Ascii Char.isUpper := by
  intro x upper
  have range : x.val ≥ 65 ∧ x.val ≤ 90 := of_decide_eq_true upper
  exact Nat.lt_of_le_of_lt range.2 (by decide)

theorem ascii_isAlpha : Ascii Char.isAlpha := by
  intro x alpha
  have range : x.isAlpha = (x.isUpper || (decide (x.val ≥ 97) && decide (x.val ≤ 122))) := rfl
  rw [range, Bool.or_eq_true, Bool.and_eq_true, decide_eq_true_eq, decide_eq_true_eq] at alpha
  rcases alpha with upper | lower
  · exact ascii_isUpper x upper
  · exact Nat.lt_of_le_of_lt lower.2 (by decide)

theorem ascii_isOctalDigit : Ascii Number.isOctalDigit := fun x octal =>
  ascii_isDigit x (Number.isDigit_of_isOctalDigit octal)

theorem ascii_isOctalMark : Ascii Number.isOctalMark := by
  intro x mark
  simp only [Number.isOctalMark, Bool.or_eq_true, decide_eq_true_eq] at mark
  rcases mark with (rfl | rfl) | rfl <;> decide

theorem ascii_eq (y : Char) (one : y.toNat < 128) : Ascii (· = y) := by
  intro x same
  rw [of_decide_eq_true same]
  exact one

theorem ascii_isPoint : Ascii Number.isPoint := ascii_eq '.' (by decide)

end Classes

namespace Cursor

/-- What a reader hands back, and where the cursor stands then: if nothing is read, where it was. -/
def after {α : Type} (c : Cursor) : Option (α × Cursor) → Option α × Cursor
  | none => (none, c)
  | some (a, d) => (some a, d)

/-- The same in bytes. -/
def paired {α : Type} (o : α × Cursor) : α × ByteCursor := (o.1, o.2.inBytes)

variable {c : Cursor}

theorem closes_eq {p mark : Char → Bool} (single : Ascii p) (single' : Ascii mark) :
    (decide (leading p (String.ofList c.rest) > 0) &&
      byteIn mark (String.ofList c.rest) (leading p (String.ofList c.rest))) =
        Number.closes p mark c := by
  rw [byteIn_leading single single', leading_ofList single, Number.closes, Number.next?_drop_run,
    ← run]
  cases c.run p with
  | nil => rfl
  | cons x r => simp

theorem OnLine.takeNumber?_inBytes (h : c.OnLine) {p : Char → Bool} (single : Ascii p)
    (radix length : Nat) :
    c.inBytes.takeNumber? (String.ofList c.rest) (leading p (String.ofList c.rest)) radix length =
      some (paired (some (Number.value radix (c.run p)), c.drop length)) := by
  have cut := slice?_first (ascii_takeWhile single c.rest) (c.rest.dropWhile p)
  rw [List.takeWhile_append_dropWhile, ← leading_ofList single] at cut
  simp [ByteCursor.takeNumber?, cut, h.drop?_inBytes, paired, run]

theorem leading_isPlainDigit (dialect : Dialect) (text : String) :
    (if dialect.radix = 8 then leading Number.isOctalDigit text else leading Char.isDigit text) =
      leading (Number.isPlainDigit dialect) text := by
  by_cases octal : dialect.radix = 8
  · have plain : Number.isPlainDigit dialect = Number.isOctalDigit := funext fun _ => if_pos octal
    rw [if_pos octal, plain]
  · have plain : Number.isPlainDigit dialect = Char.isDigit := funext fun _ => if_neg octal
    rw [if_neg octal, plain]

theorem ascii_isPlainDigit (dialect : Dialect) : Ascii (Number.isPlainDigit dialect) := by
  intro x digit
  rw [Number.isPlainDigit] at digit
  split at digit
  · exact ascii_isOctalDigit x digit
  · exact ascii_isDigit x digit

/-- Numbers are measured in bytes and taken by characters. -/
theorem OnLine.number?_inBytes (h : c.OnLine) (dialect : Dialect) :
    c.inBytes.number? dialect = some (paired (c.after (Number.read? dialect c))) := by
  have octal := closes_eq (c := c) ascii_isOctalDigit ascii_isOctalMark
  have decimal := closes_eq (c := c) ascii_isDigit ascii_isPoint
  have empty : (leading (Number.isPlainDigit dialect) (String.ofList c.rest) = 0) ↔
      (c.run (Number.isPlainDigit dialect)).isEmpty = true := by
    rw [leading_ofList (ascii_isPlainDigit dialect), List.length_eq_zero_iff, List.isEmpty_iff, run]
  have taken {p : Char → Bool} (single : Ascii p) := h.takeNumber?_inBytes single
  have size {p : Char → Bool} (single : Ascii p) :
    leading p (String.ofList c.rest) = (c.run p).length := leading_ofList single c.rest
  simp only [ByteCursor.number?, h.rest?_inBytes, Option.bind_eq_bind, Option.bind_some, octal,
    decimal, leading_isPlainDigit, String.toList_ofList, taken ascii_isOctalDigit,
    taken ascii_isDigit, taken (ascii_isPlainDigit dialect), Number.read?_eq]
  -- the forms in the order in which they are tried; both readers decide each of them alike
  by_cases marked : Number.closes Number.isOctalDigit Number.isOctalMark c = true
  · rw [if_pos marked, if_pos marked, size ascii_isOctalDigit]
    rfl
  rw [if_neg marked, if_neg marked]
  by_cases pointed : Number.closes Char.isDigit Number.isPoint c = true
  · rw [if_pos pointed, if_pos pointed, size ascii_isDigit]
    rfl
  rw [if_neg pointed, if_neg pointed]
  by_cases zero : (c.next? == some '0') = true
  · rw [if_pos zero, if_pos (show (c.rest.head? == some '0') = true from zero),
      size ascii_isOctalDigit]
    rfl
  rw [if_neg zero, if_neg (show ¬(c.rest.head? == some '0') = true from zero)]
  by_cases none : (c.run (Number.isPlainDigit dialect)).isEmpty = true
  · rw [if_pos none, if_pos (empty.mpr none)]
    rfl
  · rw [if_neg none, if_neg (mt empty.mp none), size (ascii_isPlainDigit dialect)]
    rfl

/-- The trial with a saved place goes the same way in bytes. -/
theorem OnLine.midasName?_inBytes (h : c.OnLine) (inOperand : Bool) :
    c.inBytes.midasName? inOperand = some (paired (Name.tryMidas inOperand c)) := by
  have blanks := h.save.takeWhile?_inBytes isBlank
  have start : c.save.dropBlanks.OnLine := h.save.dropWhile isBlank
  have taken := start.takeWhile?_inBytes Name.isMidasChar
  have behind := start.dropWhile Name.isMidasChar
  have colon := behind.skip?_inBytes ':'
  have second := (behind.skip ':').skip?_inBytes ':'
  rw [← dropBlanks] at blanks
  simp only [ByteCursor.midasName?, Name.tryMidas, save_inBytes, blanks, Option.bind_eq_bind,
    Option.bind_some, taken, colon, second, String.toList_ofList, release_inBytes]
  split
  · rfl
  · split
    · rfl
    · cases accepted : (c.save.dropBlanks.dropWhile Name.isMidasChar).accept? ':' with
      | none =>
        have stays : (c.save.dropBlanks.dropWhile Name.isMidasChar).skip ':' =
            c.save.dropBlanks.dropWhile Name.isMidasChar := by
          rw [Cursor.skip, accepted, Option.getD_none]
        rw [stays]
        rfl
      | some f =>
        have moved : (c.save.dropBlanks.dropWhile Name.isMidasChar).skip ':' = f := by
          rw [Cursor.skip, accepted, Option.getD_some]
        rw [moved]
        rfl

theorem imlacLength_ofList (cs : List Char) :
    ByteCursor.imlacLength (String.ofList cs) = (Name.imlacName cs).length := by
  have first := byteIn_length (u := []) (v := cs) ascii_isUpper (by simp)
  rw [List.nil_append, List.length_nil] at first
  rw [ByteCursor.imlacLength, first]
  rcases cs with _ | ⟨x, r⟩
  · rfl
  cases upper : x.isUpper with
  | false => cases r <;> simp [Name.imlacName, upper]
  | true =>
    have second := byteIn_length (u := [x]) (v := r) ascii_isOctalDigit
      (by simpa using ascii_isUpper x upper)
    rw [List.singleton_append, List.length_singleton] at second
    rw [second]
    rcases r with _ | ⟨y, s⟩
    · simp [Name.imlacName, upper]
    · cases octal : Number.isOctalDigit y <;> simp [Name.imlacName, upper, octal]

theorem ascii_of_spelled {name : List Char} (spelled : Name.Spelled .imlac name) :
    ∀ x ∈ name, x.toNat < 128 := by
  obtain ⟨x, digits, rfl⟩ := List.exists_cons_of_ne_nil spelled.ne_nil
  obtain ⟨upper, -, octal⟩ := Name.spelled_imlac_iff.mp spelled
  refine List.forall_mem_cons.mpr ⟨ascii_isUpper x upper, fun y member => ?_⟩
  exact ascii_isOctalDigit y (List.all_eq_true.mp octal y member)

/-- The name is cut out by its length, which is the same in bytes and in characters. -/
theorem slice?_imlacName {cs : List Char} (nonempty : Name.imlacName cs ≠ []) :
    slice? (String.ofList cs) 0 (Name.imlacName cs).length =
      some (String.ofList (Name.imlacName cs)) := by
  have named : Name.nameAt .imlac cs ≠ [] := nonempty
  obtain ⟨after, parts, spelled, -⟩ := Name.nameAt_parts named
  have cut := slice?_first (ascii_of_spelled spelled) after
  rw [← parts] at cut
  exact cut

theorem OnLine.imlacName?_inBytes (h : c.OnLine) (inOperand : Bool) :
    c.inBytes.name? .imlac inOperand = some (paired (Name.attempt .imlac inOperand c)) := by
  have start : (c.inBytes.position != 0) = !c.atStart := rfl
  simp only [ByteCursor.name?, Name.attempt, Name.nameAt, start, h.rest?_inBytes,
    Option.bind_eq_bind, Option.bind_some, imlacLength_ofList, h.drop?_inBytes]
  by_cases elsewhere : (!inOperand && !c.atStart) = true
  · simp [elsewhere, paired]
  · by_cases empty : Name.imlacName c.rest = []
    · simp [elsewhere, empty, paired]
    · simp [elsewhere, empty, paired, slice?_imlacName empty]

theorem OnLine.amesName?_inBytes (h : c.OnLine) (inOperand : Bool) :
    c.inBytes.name? .newAmes inOperand = some (paired (Name.attempt .newAmes inOperand c)) := by
  have start : (c.inBytes.position != 0) = !c.atStart := rfl
  have taken := h.takeWhile?_inBytes Name.isAmesChar
  simp only [ByteCursor.name?, Name.attempt, Name.nameAt, start, h.next?_inBytes,
    Option.bind_eq_bind, Option.bind_some, taken, Name.amesName]
  by_cases elsewhere : (!inOperand && !c.atStart) = true
  · simp [elsewhere, paired]
  by_cases first : c.rest.head?.any Name.isAmesStart = true
  · have nonempty : c.run Name.isAmesChar ≠ [] := by
      obtain ⟨x, head, begins⟩ := (Option.any_eq_true _ _).mp first
      obtain ⟨r, rest⟩ := List.head?_eq_some_iff.mp head
      simp [run, rest, Name.isAmesChar_of_isAmesStart begins]
    have moved := Name.drop_length_run c Name.isAmesChar
    rw [run] at nonempty moved
    simp [elsewhere, next?, first, run, nonempty, moved, paired]
  · simp [elsewhere, next?, first, paired]

theorem OnLine.attempt_inBytes (h : c.OnLine) (dialect : Dialect) (inOperand : Bool) :
    c.inBytes.name? dialect inOperand = some (paired (Name.attempt dialect inOperand c)) := by
  cases dialect with
  | midas => exact h.midasName?_inBytes inOperand
  | imlac => exact h.imlacName?_inBytes inOperand
  | unknown | oldAmes | newAmes => exact h.amesName?_inBytes inOperand

theorem OnLine.name?_inBytes (h : c.OnLine) (dialect : Dialect) (inOperand : Bool) :
    c.inBytes.name? dialect inOperand =
      some (paired (c.after (Name.read? dialect inOperand c))) := by
  rw [h.attempt_inBytes, Name.attempt_eq]
  cases Name.read? dialect inOperand c <;> rfl

theorem OnLine.mnemonic?_inBytes (h : c.OnLine) (display : Bool) :
    c.inBytes.mnemonic? display = some (paired (c.after (Mnemonic.read? display c))) := by
  have parts : c.run Char.isAlpha ++ c.rest.dropWhile Char.isAlpha = c.rest :=
    List.takeWhile_append_dropWhile
  have size : leading Char.isAlpha (String.ofList c.rest) = (c.run Char.isAlpha).length :=
    leading_ofList ascii_isAlpha c.rest
  have ascii : ∀ x ∈ c.run Char.isAlpha, x.toNat < 128 := ascii_takeWhile ascii_isAlpha c.rest
  have word := slice?_first ascii (c.rest.dropWhile Char.isAlpha)
  have behind := slice?_after ascii (c.rest.dropWhile Char.isAlpha)
  rw [parts] at word behind
  have next : (c.drop (c.run Char.isAlpha).length).next? =
      (c.rest.dropWhile Char.isAlpha).head? := by
    rw [Name.drop_length_run]
    rfl
  have folded : "D" ++ String.ofList (c.run Char.isAlpha) =
      String.ofList ('D' :: c.run Char.isAlpha) := by
    rw [← List.singleton_append, String.ofList_append]
  simp only [ByteCursor.mnemonic?, h.rest?_inBytes, Option.bind_eq_bind, Option.bind_some, size,
    behind, word, String.toList_ofList, folded, h.drop?_inBytes, Mnemonic.read?, next]
  by_cases empty : c.run Char.isAlpha = []
  · simp [empty, after, paired]
  by_cases ends : Mnemonic.endsName (c.rest.dropWhile Char.isAlpha).head? = true
  · have spelled : (if display then String.ofList ('D' :: c.run Char.isAlpha)
        else String.ofList (c.run Char.isAlpha)) =
        String.ofList (if display then 'D' :: c.run Char.isAlpha else c.run Char.isAlpha) := by
      cases display <;> rfl
    rw [spelled]
    cases found : Mnemonic.find? (String.ofList (if display then 'D' :: c.run Char.isAlpha
      else c.run Char.isAlpha)) <;> simp [empty, ends, after, paired]
  · simp [empty, ends, after, paired]

end Cursor

namespace Increment

theorem eq_of_isUnits {x : Char} (units : isUnits x = true) :
    x = '0' ∨ x = '1' ∨ x = '2' ∨ x = '3' := by
  rw [isUnits, Bool.and_eq_true, decide_eq_true_eq, decide_eq_true_eq] at units
  have low : 48 ≤ x.toNat := units.1
  have high : x.toNat ≤ 51 := units.2
  have value : x.toNat = 48 ∨ x.toNat = 49 ∨ x.toNat = 50 ∨ x.toNat = 51 := by omega
  have same {y : Char} (equal : x.toNat = y.toNat) : x = y := Char.toNat_inj.mp equal
  exact value.imp same (Or.imp same (Or.imp same same))

theorem ascii_isUnits : Ascii isUnits := by
  intro x units
  rcases eq_of_isUnits units with rfl | rfl | rfl | rfl <;> decide

/-- The digit of a step. -/
def units? : List Char → Option (UInt8 × List Char)
  | [] => none
  | x :: r => if isUnits x then some (UInt8.ofNat (x.toNat - 48), r) else none

theorem step?_eq (x : Char) (r : List Char) :
    step? (x :: r) =
      if x = 'M' then (units? r).map fun s => (4 + s.1, s.2) else units? (x :: r) := by
  by_cases backwards : x = 'M'
  · subst backwards
    cases r with
    | nil => rfl
    | cons d s =>
      rw [step?, if_pos rfl, units?, isUnits]
      split <;> rfl
  · rw [if_neg backwards, units?, isUnits]
    cases r with
    | nil => simp [step?]
    | cons d s => simp [step?, backwards]

theorem vector?_cons (x : Char) (r : List Char) :
    vector? (x :: r) =
      (if x = 'B' then some 0o300 else if x = 'D' then some 0o200 else none : Option UInt8).bind
        fun beam =>
        (step? r).bind fun s => (step? s.2).map fun t => (beam ||| (s.1 <<< 3) ||| t.1, t.2) := by
  rw [vector?]
  split
  · next none => rw [none, Option.bind_none]
  · next beam some =>
    rw [some, Option.bind_some]
    cases step? r with
    | none => rfl
    | some s => cases second : step? s.2 <;> simp [second]

theorem exists_of_units? {cs : List Char} {s : UInt8 × List Char} (h : units? cs = some s) :
    ∃ x, isUnits x = true ∧ cs = x :: s.2 ∧ s.1 = UInt8.ofNat (x.toNat - 48) := by
  cases cs with
  | nil => cases h
  | cons x r =>
    rw [units?] at h
    split at h
    · next units =>
      cases h
      exact ⟨x, units, rfl, rfl⟩
    · cases h

/-- What a step passes is ASCII. -/
theorem step?_parts {cs r : List Char} {k : UInt8} (h : step? cs = some (k, r)) :
    ∃ u, cs = u ++ r ∧ ∀ x ∈ u, x.toNat < 128 := by
  cases cs with
  | nil => cases h
  | cons x cs =>
    rw [step?_eq] at h
    split at h
    · next backwards =>
      obtain ⟨s, read, same⟩ := Option.map_eq_some_iff.mp h
      cases same
      obtain ⟨y, units, rfl, -⟩ := exists_of_units? read
      exact ⟨[x, y], rfl, by simp [backwards, ascii_isUnits y units]⟩
    · obtain ⟨y, units, parts, -⟩ := exists_of_units? h
      exact ⟨[y], parts, by simpa using ascii_isUnits y units⟩

/-- The sign is a bit of its own above the digit. -/
theorem or_backwards {cs : List Char} {s : UInt8 × List Char} (h : units? cs = some s)
    (shift byte : UInt8) :
    byte ||| (4 <<< shift) ||| (s.1 <<< shift) = byte ||| ((4 + s.1) <<< shift) := by
  obtain ⟨x, units, -, value⟩ := exists_of_units? h
  have apart : 4 + s.1 = 4 ||| s.1 := by
    rw [value]
    rcases eq_of_isUnits units with rfl | rfl | rfl | rfl <;> decide
  have shifted : (4 ||| s.1) <<< shift = (4 <<< shift) ||| (s.1 <<< shift) := by
    apply UInt8.toBitVec_inj.mp
    simp [BitVec.shiftLeft_or_distrib]
  rw [apart, shifted, UInt8.or_assoc]

end Increment

namespace ByteCursor

variable {u : List Char}

open Increment (units? step?)

theorem unitsAt?_append (ascii : ∀ x ∈ u, x.toNat < 128) (v : List Char) (shift byte : UInt8) :
    unitsAt? (String.ofList (u ++ v)) shift byte u.length =
      (units? v).map fun s => (byte ||| (s.1 <<< shift), u.length + 1) := by
  have behind : (utf8Bytes (String.ofList (u ++ v)))[u.length]? =
      (utf8Bytes (String.ofList v))[0]? := by
    rw [utf8Bytes_append ascii, List.getElem?_append_right (by simp), List.length_map, Nat.sub_self]
  rw [unitsAt?, behind, utf8Bytes_ofList]
  cases v with
  | nil => rfl
  | cons x r =>
    obtain ⟨b, bs, bytes, same⟩ := Increment.ascii_isUnits.first_byte x
    rw [List.flatMap_cons, bytes, units?]
    cases units : Increment.isUnits x with
    | false => simp [same, units]
    | true =>
      rcases Increment.eq_of_isUnits units with rfl | rfl | rfl | rfl <;>
      · cases bytes
        rfl

theorem stepAt?_append (ascii : ∀ x ∈ u, x.toNat < 128) (v : List Char) (shift byte : UInt8) :
    stepAt? (String.ofList (u ++ v)) shift byte u.length =
      (Increment.step? v).map fun s =>
        (byte ||| (s.1 <<< shift), (u ++ v).length - s.2.length) := by
  have sign := byteIn_length (v := v) (ascii_eq 'M' (by decide)) ascii
  rw [stepAt?, sign]
  cases v with
  | nil => exact unitsAt?_append ascii [] shift byte
  | cons x r =>
    rw [Increment.step?_eq]
    by_cases backwards : x = 'M'
    · have passed : ∀ y ∈ u ++ [x], y.toNat < 128 := by
        simpa [or_imp, forall_and, backwards] using ascii
      have digit := unitsAt?_append passed r shift (byte ||| (4 <<< shift))
      rw [List.append_assoc, List.singleton_append, List.length_append,
        List.length_singleton] at digit
      rw [if_pos (by simp [backwards]), if_pos backwards, digit]
      cases read : units? r with
      | none => rfl
      | some s =>
        obtain ⟨y, -, rfl, -⟩ := Increment.exists_of_units? read
        have passed : (u ++ x :: y :: s.2).length - s.2.length = u.length + 1 + 1 := by
          simp only [List.length_append, List.length_cons]
          omega
        simp only [Option.map_some, Increment.or_backwards read, passed]
    · rw [if_neg (by simp [backwards]), if_neg backwards, unitsAt?_append ascii]
      cases read : units? (x :: r) with
      | none => rfl
      | some s =>
        obtain ⟨y, -, parts, -⟩ := Increment.exists_of_units? read
        have passed : (u ++ x :: r).length - s.2.length = u.length + 1 := by
          rw [parts, List.length_append, List.length_cons]
          omega
        simp only [Option.map_some, passed]

/-- Both steps behind a beam letter. -/
theorem stepsAt?_cons {x : Char} (one : x.toNat < 128) (r : List Char) (beam : UInt8) :
    ((stepAt? (String.ofList (x :: r)) 3 beam 1).bind fun s =>
      stepAt? (String.ofList (x :: r)) 0 s.1 s.2) =
    (Increment.step? r).bind fun s => (Increment.step? s.2).map fun t =>
      (beam ||| (s.1 <<< 3) ||| t.1, (x :: r).length - t.2.length) := by
  have first := stepAt?_append (u := [x]) (by simpa using one) r 3 beam
  rw [List.singleton_append, List.length_singleton] at first
  rw [first]
  cases read : Increment.step? r with
  | none => rfl
  | some s =>
    obtain ⟨w, rfl, ascii⟩ := Increment.step?_parts read
    have second := stepAt?_append (u := x :: w) (List.forall_mem_cons.mpr ⟨one, ascii⟩) s.2 0
      (beam ||| (s.1 <<< 3))
    have offset : (x :: (w ++ s.2)).length - s.2.length = (x :: w).length := by
      rw [← List.cons_append, List.length_append, Nat.add_sub_cancel]
    rw [Option.map_some, Option.bind_some, Option.bind_some, offset, ← List.cons_append, second]
    simp

theorem vectorAt?_ofList (cs : List Char) :
    vectorAt? (String.ofList cs) =
      (Increment.vector? cs).map fun s => (s.1, cs.length - s.2.length) := by
  have first (y : Char) (one : y.toNat < 128) :
      byteIn (· = y) (String.ofList cs) 0 = cs.head?.any (· = y) :=
    byteIn_length (u := []) (ascii_eq y one) (by simp)
  rw [vectorAt?, beamAt?, first 'B' (by decide), first 'D' (by decide)]
  cases cs with
  | nil => rfl
  | cons x r =>
    simp only [Option.bind_eq_bind, List.head?_cons, Option.any_some, decide_eq_true_eq,
      Increment.vector?_cons]
    cases lit : (if x = 'B' then some 0o300 else if x = 'D' then some 0o200 else none :
      Option UInt8) with
    | none => rfl
    | some beam =>
      -- a beam letter is one byte, so the steps begin at offset one
      have one : x.toNat < 128 := by
        split at lit
        · next on => simp [on]
        · split at lit
          · next off => simp [off]
          · cases lit
      rw [Option.bind_some, Option.bind_some, Option.map_bind]
      refine (stepsAt?_cons one r beam).trans (congrArg _ (funext fun s => ?_))
      rw [Function.comp_apply, Option.map_map]
      rfl

/-- The brackets are met in the same order, and the offset counts the bytes before the last. -/
theorem closingAt?_eq (depth i : Nat) (cs : List Char) :
    closingAt? depth i cs = (Operand.closing? depth cs).map fun s => i + byteSize s.1 := by
  fun_induction closingAt? depth i cs with
  | case1 => rfl
  | case2 depth i r ih =>
    rw [ih, Operand.closing?, Option.map_map]
    simp [Function.comp_def, byteSize, Nat.add_assoc]
  | case3 i r => rfl
  | case4 depth i r ih =>
    rw [ih, Operand.closing?, Option.map_map]
    simp [Function.comp_def, byteSize, Nat.add_assoc]
  | case5 depth i x r opens closes deeper ih =>
    rw [ih, Operand.closing?, Option.map_map]
    · simp [Function.comp_def, byteSize, Nat.add_assoc]
    · exact opens
    · exact closes
    · exact deeper

end ByteCursor

namespace Cursor

variable {c : Cursor}

theorem OnLine.vector?_inBytes (h : c.OnLine) :
    c.inBytes.vector? = some (paired (c.after
      ((Increment.vector? c.rest).map fun s => (s.1, c.moveTo s.2)))) := by
  simp only [ByteCursor.vector?, h.rest?_inBytes, Option.bind_eq_bind, Option.bind_some,
    ByteCursor.vectorAt?_ofList]
  cases read : Increment.vector? c.rest with
  | none => rfl
  | some s =>
    have moved : c.drop (c.rest.length - s.2.length) = c.moveTo s.2 :=
      congrArg c.moveTo (List.suffix_iff_eq_drop.mp (Increment.vector?_suffix read)).symm
    simp [h.drop?_inBytes, moved, after, paired]

theorem OnLine.literal?_inBytes (h : c.OnLine) :
    c.inBytes.literal? = some (paired (c.after
      ((Operand.closing? 0 c.rest).map fun s =>
        (String.ofList (Operand.dropComma s.1), c.moveTo s.2)))) := by
  simp only [ByteCursor.literal?, h.rest?_inBytes, Option.bind_eq_bind, Option.bind_some,
    String.toList_ofList, ByteCursor.closingAt?_eq]
  cases read : Operand.closing? 0 c.rest with
  | none => rfl
  | some s =>
    have parts := Operand.closing?_eq read
    have text := slice?_start s.1 (']' :: s.2)
    have whole := slice?_start (s.1 ++ [']']) s.2
    rw [List.append_assoc, List.singleton_append, byteSize_append] at whole
    rw [← parts] at text whole
    have moved : c.drop (s.1 ++ [']']).length = c.moveTo s.2 := by
      rw [drop, parts]
      simp
    have bracket : byteSize s.1 + 1 = byteSize s.1 + byteSize [']'] := rfl
    simp only [Option.map_some, Nat.zero_add, text, Option.bind_some, bracket, whole,
      String.length_ofList, h.drop?_inBytes, moved, String.toList_ofList]
    rfl

end Cursor

end Pds1
