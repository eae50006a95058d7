import Pds1.Proofs.Evaluation
import Pds1.Operand

/-!
# The terms of an operand

What the reader of terms does with each way of writing one: octal digits closed by an apostrophe, a
name, a point for the location counter, and a minus sign in front of any of these. A number or name
goes on as long as its characters do, so what stands behind a term matters; a blank or an operator
ends it in every dialect.
-/

namespace Pds1

theorem Cursor.isBlank_iff {x : Char} : isBlank x = true ↔ x = ' ' ∨ x = '\t' := by
  simp [isBlank]

theorem Cursor.eq_of_isBlank {x : Char} (blank : isBlank x = true) : x = ' ' ∨ x = '\t' :=
  isBlank_iff.mp blank

namespace Number

def octalDigits : List Char := ['0', '1', '2', '3', '4', '5', '6', '7']

def decimalDigits : List Char := ['0', '1', '2', '3', '4', '5', '6', '7', '8', '9']

/-- A class of characters below a bound is told by going through their codes. -/
theorem iff_mem_of_below {p : Char → Bool} {alphabet : List Char} (bound : Nat)
    (below : ∀ x, p x = true → x.toNat < bound)
    (listed : ∀ n < bound, p (Char.ofNat n) = true → Char.ofNat n ∈ alphabet)
    (classed : alphabet.all p = true) (x : Char) : p x = true ↔ x ∈ alphabet := by
  refine ⟨fun inside => ?_, List.all_eq_true.mp classed x⟩
  have found := listed x.toNat (below x inside)
  rw [Char.ofNat_toNat] at found
  exact found inside

theorem isOctalDigit_iff {x : Char} : isOctalDigit x = true ↔ x ∈ octalDigits := by
  refine iff_mem_of_below 56 (fun y digit => ?_) (by decide) (by decide) x
  simp only [isOctalDigit, Bool.and_eq_true, decide_eq_true_eq] at digit
  exact Nat.lt_succ_of_le digit.2

theorem isDigit_iff {x : Char} : x.isDigit = true ↔ x ∈ decimalDigits := by
  refine iff_mem_of_below 58 (fun y digit => ?_) (by decide) (by decide) x
  simp only [Char.isDigit, Bool.and_eq_true, decide_eq_true_eq] at digit
  exact Nat.lt_succ_of_le digit.2

theorem all_isOctalDigit_iff {digits : List Char} :
    digits.all isOctalDigit = true ↔ ∀ x ∈ digits, x ∈ octalDigits := by
  simp only [List.all_eq_true, isOctalDigit_iff]

theorem contains_octalDigits : octalDigits.contains = isOctalDigit := by
  funext x
  rw [Bool.eq_iff_iff, List.contains_iff_mem, isOctalDigit_iff]

theorem contains_decimalDigits : decimalDigits.contains = Char.isDigit := by
  funext x
  rw [Bool.eq_iff_iff, List.contains_iff_mem, isDigit_iff]

theorem value_eq (radix : Nat) (digits : List Char) :
    value radix digits = Int32.ofNat (Nat.ofDigitChars radix digits 0) := by
  have from_any (n : Nat) : digits.foldl (fun acc d => acc * Int32.ofNat radix + digitValue d)
      (Int32.ofNat n) = Int32.ofNat (Nat.ofDigitChars radix digits n) := by
    induction digits generalizing n with
    | nil => rfl
    | cons d rest ih =>
      have step : Int32.ofNat n * Int32.ofNat radix + digitValue d =
          Int32.ofNat (radix * n + (d.toNat - '0'.toNat)) := by
        rw [Int32.ofNat_add, Int32.ofNat_mul, Int32.mul_comm]
        rfl
      rw [List.foldl_cons, step, ih, Nat.ofDigitChars_cons]
  exact from_any 0

/-- Octal digits closed by an apostrophe are read in every dialect. -/
theorem read?_octal (dialect : Dialect) {c : Cursor} {digits after : List Char}
    (nonempty : digits ≠ []) (octal : ∀ d ∈ digits, isOctalDigit d = true)
    (h : c.rest = digits ++ '\x27' :: after) :
    read? dialect c = some (Int32.ofNat (Nat.ofDigitChars 8 digits 0), c.moveTo after) := by
  have run : c.run isOctalDigit = digits := by
    rw [Cursor.run, h, List.takeWhile_append_of_pos octal]
    simp [isOctalDigit]
  have nonempty : digits.isEmpty = false := by simpa using nonempty
  have mark : (c.drop digits.length).next? = some '\x27' := by
    simp [Cursor.drop, Cursor.next?, h]
  have rest : c.drop (digits.length + 1) = c.moveTo after := by
    simp [Cursor.drop, h]
  simp only [read?, run, nonempty, mark, rest, value_eq]
  rfl

theorem isDigit_of_isOctalDigit {x : Char} (octal : isOctalDigit x = true) : x.isDigit = true := by
  simp only [isOctalDigit, Bool.and_eq_true, decide_eq_true_eq] at octal
  simp only [Char.isDigit, Bool.and_eq_true, decide_eq_true_eq]
  exact ⟨octal.1, UInt32.le_trans octal.2 (by decide)⟩

/-- A number begins with a digit. -/
theorem read?_of_not_digit (dialect : Dialect) {c : Cursor} {x : Char} {r : List Char}
    (h : c.rest = x :: r) (other : x.isDigit = false) : read? dialect c = none := by
  have octal : isOctalDigit x = false :=
    Bool.eq_false_iff.mpr fun digit => by simp [isDigit_of_isOctalDigit digit] at other
  have plain : isPlainDigit dialect x = false := by
    simp only [isPlainDigit, octal, other, ite_self]
  have zero : (some x == some '0') = false := by
    rw [beq_eq_false_iff_ne]
    rintro ⟨⟩
    exact absurd other (by decide)
  simp [read?, Cursor.run, Cursor.next?, h, octal, other, plain, zero]

end Number

/-- What ends a term in every dialect. -/
def termBreaks : List Char := [' ', '\t', '+', '-', '*', '/']

/-- A term may end before `after`. -/
def Breaks (after : List Char) : Prop := ∀ x ∈ after.head?, x ∈ termBreaks

namespace Name

theorem isMidasChar_iff {x : Char} :
    isMidasChar x = true ↔ x.isAlphanum = true ∨ x ∈ ['$', '%', '.'] := by
  simp [isMidasChar, or_assoc]

theorem isMidasLetter_iff {x : Char} :
    isMidasLetter x = true ↔ x.isAlpha = true ∨ x ∈ ['$', '%'] := by
  simp [isMidasLetter, or_assoc]

theorem isAmesStart_iff {x : Char} :
    isAmesStart x = true ↔ x.isAlpha = true ∨ x ∈ ['$', '_'] := by
  simp [isAmesStart, or_assoc]

theorem isAmesChar_iff {x : Char} :
    isAmesChar x = true ↔ x.isAlphanum = true ∨ x ∈ ['$', '_'] := by
  simp [isAmesChar, or_assoc]

/-- The names that may stand in an operand. -/
def Spelled : Dialect → List Char → Prop
  | .midas, name => (∀ x ∈ name, x.isAlphanum = true ∨ x ∈ ['$', '%', '.']) ∧
      ((∃ x ∈ name, x.isAlpha = true ∨ x ∈ ['$', '%']) ∨ 2 ≤ name.count '.')
  | .imlac, name => (∃ x ∈ name.head?, x.isUpper = true) ∧ name.tail.length ≤ 1 ∧
      ∀ x ∈ name.tail, x ∈ Number.octalDigits
  | .unknown, name | .oldAmes, name | .newAmes, name =>
      (∃ x ∈ name.head?, x.isAlpha = true ∨ x ∈ ['$', '_']) ∧
        ∀ x ∈ name, x.isAlphanum = true ∨ x ∈ ['$', '_']

theorem spelled_midas_iff {name : List Char} : Spelled .midas name ↔
    name.all isMidasChar = true ∧ (name.any isMidasLetter = true ∨ 2 ≤ name.count '.') := by
  simp only [Spelled, List.all_eq_true, List.any_eq_true, isMidasChar_iff, isMidasLetter_iff]

theorem spelled_imlac_iff {x : Char} {digits : List Char} : Spelled .imlac (x :: digits) ↔
    x.isUpper = true ∧ digits.length ≤ 1 ∧ digits.all Number.isOctalDigit = true := by
  simp [Spelled, Number.isOctalDigit_iff]

theorem spelled_ames_iff {name : List Char} : Spelled .newAmes name ↔
    name.head?.any isAmesStart = true ∧ name.all isAmesChar = true := by
  simp only [Spelled, Option.any_eq_true, List.all_eq_true, isAmesStart_iff, isAmesChar_iff]
  rfl

instance (dialect : Dialect) : DecidablePred (Spelled dialect) := fun name =>
  match dialect, name with
  | .midas, _ => decidable_of_iff _ spelled_midas_iff.symm
  | .imlac, [] => isFalse (by simp [Spelled])
  | .imlac, _ :: _ => decidable_of_iff _ spelled_imlac_iff.symm
  | .unknown, _ | .oldAmes, _ | .newAmes, _ => decidable_of_iff _ spelled_ames_iff.symm

theorem Spelled.ne_nil {dialect : Dialect} {name : List Char} (spelled : Spelled dialect name) :
    name ≠ [] := by
  rintro rfl
  cases dialect <;> simp [Spelled] at spelled

theorem take?_append {c : Cursor} {name after : List Char} (nonempty : name ≠ [])
    (h : c.rest = name ++ after) : take? name c = some (String.ofList name, c.moveTo after) := by
  simp [take?, nonempty, Cursor.drop, h]

theorem takeWhile_before {p : Char → Bool} {name after : List Char} (inside : name.all p = true)
    (stop : ∀ x ∈ after.head?, p x = false) : (name ++ after).takeWhile p = name := by
  rw [List.takeWhile_append_of_pos (List.all_eq_true.mp inside)]
  cases after with
  | nil => simp
  | cons y r => simp [stop y rfl]

theorem takeWhile_breaks {p : Char → Bool} {name after : List Char}
    (inside : name.all p = true) (breaks : termBreaks.any p = false) (follow : Breaks after) :
    (name ++ after).takeWhile p = name :=
  takeWhile_before inside fun x first => by
    simpa using List.any_eq_false.mp breaks x (follow x first)

theorem dropBlanks_append {c : Cursor} {blanks : List Char} {x : Char} {r : List Char}
    (blank : blanks.all Cursor.isBlank = true) (h : c.rest = blanks ++ x :: r)
    (other : Cursor.isBlank x = false) : c.dropBlanks = c.moveTo (x :: r) := by
  rw [Cursor.dropBlanks, Cursor.dropWhile, h,
    List.dropWhile_append_of_pos (List.all_eq_true.mp blank)]
  simp [other]

theorem dropBlanks_of_not_blank {c : Cursor} {x : Char} {r : List Char} (h : c.rest = x :: r)
    (other : Cursor.isBlank x = false) : c.dropBlanks = c := by
  rw [@dropBlanks_append c [] x r rfl h other, ← h]
  rfl

theorem not_isBlank_of_isMidasChar {x : Char} (inside : isMidasChar x = true) :
    Cursor.isBlank x = false := by
  apply Bool.eq_false_iff.mpr
  intro blank
  rcases Cursor.eq_of_isBlank blank with rfl | rfl
  all_goals exact absurd inside (by decide)

/-- A name is read up to the break behind it. -/
theorem read?_spelled {dialect : Dialect} {c : Cursor} {name after : List Char}
    (spelled : Spelled dialect name) (follow : Breaks after) (h : c.rest = name ++ after) :
    read? dialect true c = some (String.ofList name, c.moveTo after) := by
  have nonempty := spelled.ne_nil
  cases dialect with
  | midas =>
    obtain ⟨inside, letter⟩ := spelled_midas_iff.mp spelled
    obtain ⟨x, r, rfl⟩ := List.exists_cons_of_ne_nil nonempty
    have other : Cursor.isBlank x = false :=
      not_isBlank_of_isMidasChar (List.all_eq_true.mp inside x List.mem_cons_self)
    have taken : midasName (x :: r ++ after) = x :: r := by
      rw [midasName, takeWhile_breaks inside rfl follow]
      exact if_pos (by simpa using letter)
    simp only [read?, dropBlanks_of_not_blank h other, h, taken, take?_append nonempty h, if_true]
  | imlac =>
    obtain ⟨x, digits, rfl⟩ := List.exists_cons_of_ne_nil nonempty
    obtain ⟨upper, short, octal⟩ := spelled_imlac_iff.mp spelled
    have breaks : termBreaks.any Number.isOctalDigit = false := rfl
    have taken : imlacName (x :: digits ++ after) = x :: digits := by
      cases digits with
      | nil =>
        cases after with
        | nil => simp [imlacName, upper]
        | cons y r =>
          simp [imlacName, upper, List.any_eq_false.mp breaks y (follow y rfl)]
      | cons d ds =>
        have alone : ds = [] := by simpa using short
        simp [imlacName, upper, alone, List.all_eq_true.mp octal d List.mem_cons_self]
    simp only [read?, h, taken, take?_append nonempty h, Bool.true_or, if_true]
  | unknown | oldAmes | newAmes =>
    obtain ⟨start, inside⟩ := spelled_ames_iff.mp spelled
    have taken : amesName (name ++ after) = name := by
      obtain ⟨x, r, rfl⟩ := List.exists_cons_of_ne_nil nonempty
      rw [amesName, takeWhile_breaks inside rfl follow]
      exact if_pos start
    simp only [read?, h, taken, take?_append nonempty h, Bool.true_or, if_true]

theorem read?_minus (dialect : Dialect) {c : Cursor} {r : List Char} (h : c.rest = '-' :: r) :
    read? dialect true c = none := by
  cases dialect with
  | midas =>
    simp only [read?, dropBlanks_of_not_blank h rfl, h]
    rfl
  | imlac =>
    have none : imlacName ('-' :: r) = [] := by cases r <;> rfl
    simp [read?, h, none, take?]
  | unknown | oldAmes | newAmes =>
    have other : isAmesStart '-' = false := rfl
    simp [read?, h, amesName, other, take?]

/-- A point with nothing more of a name behind it is not a name. -/
theorem read?_point (dialect : Dialect) {c : Cursor} {after : List Char} (follow : Breaks after)
    (h : c.rest = '.' :: after) : read? dialect true c = none := by
  cases dialect with
  | midas =>
    have alone : midasName ('.' :: after) = [] := by
      rw [midasName, ← List.singleton_append, takeWhile_breaks rfl rfl follow]
      rfl
    simp only [read?, dropBlanks_of_not_blank h rfl, h, alone]
    rfl
  | imlac =>
    have none : imlacName ('.' :: after) = [] := by cases after <;> rfl
    simp [read?, h, none, take?]
  | unknown | oldAmes | newAmes =>
    have other : isAmesStart '.' = false := rfl
    simp [read?, h, amesName, other, take?]

end Name

namespace Operand

variable (dialect : Dialect) (location : Int32) {c : Cursor} (t : Tables)

theorem term_octal {digits after : List Char} (nonempty : digits ≠ [])
    (octal : ∀ d ∈ digits, Number.isOctalDigit d = true)
    (h : c.rest = digits ++ '\x27' :: after) :
    term dialect location c t =
      .of (t.push (.const (Int32.ofNat (Nat.ofDigitChars 8 digits 0))) false) (c.moveTo after) := by
  rw [term, Number.read?_octal dialect nonempty octal h]

/-- A name that could begin a number would be read as one. -/
theorem term_name {text after : List Char} (spelled : Name.Spelled dialect text)
    (other : ∀ x ∈ text.head?, x.isDigit = false) (follow : Breaks after)
    (h : c.rest = text ++ after) :
    term dialect location c t = name (String.ofList text) (c.moveTo after) t := by
  have named := Name.read?_spelled spelled follow h
  obtain ⟨x, r, rfl⟩ := List.exists_cons_of_ne_nil spelled.ne_nil
  rw [term, Number.read?_of_not_digit dialect h (other x rfl), named]

theorem term_of_end (number : Number.read? dialect c = none)
    (named : Name.read? dialect true c = none) (h : c.rest = []) :
    term dialect location c t = .of (t.reject .operandMissing) c := by
  rw [term]
  simp only [number, named]
  split
  · rfl
  · next cons => simp [cons] at h

/-- What is neither a number nor a name is told by its first character. -/
theorem term_cons {x : Char} {r : List Char} (number : Number.read? dialect c = none)
    (named : Name.read? dialect true c = none) (h : c.rest = x :: r) :
    term dialect location c t =
      if x = '.' then .of (t.push (.location location) false) (c.moveTo r)
      else if x = '[' && dialect.isMidas then literal location (c.moveTo r) t
      else if x = '-' then negate (term dialect location (c.moveTo r) t)
      else .of (t.reject (.operandSyntax x)) c := by
  rw [term]
  simp only [number, named]
  split
  · next empty => simp [empty] at h
  · next x' r' cons =>
    obtain ⟨rfl, rfl⟩ := List.cons.inj (cons.symm.trans h)
    rfl

theorem term_minus {r : List Char} (h : c.rest = '-' :: r) :
    term dialect location c t = negate (term dialect location (c.moveTo r) t) := by
  have number := Number.read?_of_not_digit dialect h rfl
  rw [term_cons dialect location t number (Name.read?_minus dialect h) h]
  simp

theorem term_point {after : List Char} (follow : Breaks after) (h : c.rest = '.' :: after) :
    term dialect location c t = .of (t.push (.location location) false) (c.moveTo after) := by
  have number := Number.read?_of_not_digit dialect h rfl
  rw [term_cons dialect location t number (Name.read?_point dialect follow h) h, if_pos rfl]

/-- No operator follows, so the operand ends. -/
theorem extend_of_rest {left : Reading}
    (h : ∀ x ∈ left.cursor.rest.head?, Operator.ofChar? x = none) :
    extend dialect location left = left := by
  rw [extend]
  split
  · rfl
  · split
    · rfl
    · next x r cons =>
      have none : Operator.ofChar? x = none := h x (by simp [cons])
      simp only [none]

/-- After an operator stands another term, if anything. -/
theorem extend_cons {left : Reading} {x : Char} {r : List Char} {op : Operator}
    (valid : left.isInvalid = false) (h : left.cursor.rest = x :: r)
    (operator : Operator.ofChar? x = some op) :
    extend dialect location left =
      if r.isEmpty then .of (left.tables.reject (.secondOperandMissing op)) (left.cursor.moveTo r)
      else
        let right := term dialect location (left.cursor.moveTo r) left.tables
        if right.isInvalid then right
        else extend dialect location
          (.of (right.tables.push (.binary op left.expr right.expr)
            (right.tables.exprs.symbolic left.expr || right.tables.exprs.symbolic right.expr))
            right.cursor) := by
  rw [extend]
  simp only [valid, Bool.false_eq_true, if_false]
  split
  · next empty => simp [empty] at h
  · next y r' cons =>
    obtain ⟨rfl, rfl⟩ := List.cons.inj (cons.symm.trans h)
    simp only [operator]

end Operand

end Pds1
