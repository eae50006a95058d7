import Pds1.Proofs.LabelTable
import Pds1.Proofs.OperandTerms

/-!
# Defined names in operands

Where a label is defined the grammar of names alone decides. An operand tries the grammar of numbers
first, so it refers to a label only if no number can be read at the beginning of the name. The names
of the Imlac and Ames dialects begin with no digit and can always be referred to. A Midas name may
begin with digits. It is out of reach if the first one is octal, or if a point closes the digits it
begins with: the operand is then a number, and nothing complains.
-/

namespace Pds1

namespace Number

/-- The text begins with an octal digit, or with decimal digits closed by a point. -/
def leads (text : List Char) : Bool :=
  text.head?.any octalDigits.contains ||
    (text.head?.any decimalDigits.contains &&
      (text.dropWhile decimalDigits.contains).head? == some '.')

theorem isEmpty_takeWhile (p : Char → Bool) (cs : List Char) :
    (cs.takeWhile p).isEmpty = !cs.head?.any p := by
  cases cs with
  | nil => rfl
  | cons x r =>
    cases h : p x with
    | true => simp [h]
    | false => simp [h]

/-- Behind a run of characters stands the first one that is not of its kind. -/
theorem next?_drop_run (c : Cursor) (p : Char → Bool) :
    (c.drop (c.run p).length).next? = (c.rest.dropWhile p).head? := by
  rw [Cursor.drop, Cursor.next?, Cursor.rest_moveTo, Cursor.run]
  generalize c.rest = cs
  induction cs with
  | nil => rfl
  | cons x r ih =>
    cases h : p x with
    | true => simpa [h] using ih
    | false => simp [h]

/-- Where plain numbers are octal, what a text begins with decides whether it begins with a
number. -/
theorem isSome_read? {dialect : Dialect} (octal : dialect.radix = 8) (c : Cursor) :
    (read? dialect c).isSome = leads c.rest := by
  have plain : isPlainDigit dialect = isOctalDigit := by
    funext x
    simp [isPlainDigit, octal]
  have zero : (c.next? == some '0') = true → c.rest.head?.any isOctalDigit = true := by
    intro first
    have head : c.rest.head? = some '0' := by simpa [Cursor.next?] using first
    rw [head]
    rfl
  have empty (p : Char → Bool) : (c.run p).isEmpty = !c.rest.head?.any p := isEmpty_takeWhile p _
  simp only [read?, plain, leads, contains_octalDigits, contains_decimalDigits, next?_drop_run,
    empty, Bool.not_not]
  cases first : c.rest.head?.any isOctalDigit with
  | true =>
    split
    · rfl
    · split
      · rfl
      · split
        · rfl
        · simp
  | false =>
    have other : (c.next? == some '0') = false :=
      Bool.eq_false_iff.mpr fun found => by simp [zero found] at first
    simp only [other, Bool.false_and, Bool.false_eq_true, if_false, Bool.false_or]
    split
    · next point => simp [point]
    · next point => simp [point]

end Number

namespace Name

theorem toList_of_take? {name : List Char} {c d : Cursor} {text : String}
    (h : take? name c = some (text, d)) : text.toList = name ∧ name ≠ [] := by
  rw [take?] at h
  split at h
  · cases h
  · next nonempty =>
    cases h
    exact ⟨String.toList_ofList, by simpa using nonempty⟩

theorem spelled_midasName {cs : List Char} (nonempty : midasName cs ≠ []) :
    Spelled .midas (midasName cs) := by
  rw [midasName] at nonempty ⊢
  split at nonempty
  · next letter =>
    rw [if_pos letter]
    exact spelled_midas_iff.mpr ⟨List.all_takeWhile, by simpa using letter⟩
  · exact absurd rfl nonempty

theorem spelled_imlacName {cs : List Char} (nonempty : imlacName cs ≠ []) :
    Spelled .imlac (imlacName cs) := by
  rw [imlacName.eq_def] at nonempty ⊢
  split at nonempty
  · next x y r =>
    by_cases upper : x.isUpper = true
    · by_cases octal : Number.isOctalDigit y = true
      · simp [spelled_imlac_iff, upper, octal]
      · simp [spelled_imlac_iff, upper, octal]
    · simp [upper] at nonempty
  · next x =>
    by_cases upper : x.isUpper = true
    · simp [spelled_imlac_iff, upper]
    · simp [upper] at nonempty
  · exact absurd rfl nonempty

theorem isAmesChar_of_isAmesStart {x : Char} (start : isAmesStart x = true) :
    isAmesChar x = true := by
  have letter : x.isAlphanum = (x.isAlpha || x.isDigit) := rfl
  simp only [isAmesStart, isAmesChar, letter, Bool.or_eq_true] at start ⊢
  rcases start with (alpha | dollar) | underscore
  · exact .inl (.inl (.inl alpha))
  · exact .inl (.inr dollar)
  · exact .inr underscore

theorem spelled_amesName {cs : List Char} (nonempty : amesName cs ≠ []) :
    Spelled .newAmes (amesName cs) := by
  rw [amesName] at nonempty ⊢
  split at nonempty
  · next start =>
    rw [if_pos start]
    refine spelled_ames_iff.mpr ⟨?_, List.all_takeWhile⟩
    cases cs with
    | nil => cases start
    | cons x r =>
      have first : isAmesStart x = true := start
      simp [isAmesChar_of_isAmesStart first, first]
  · exact absurd rfl nonempty

/-- A name that was read is spelled by the rules of its dialect, in an operand or where it is
defined. -/
theorem spelled_of_read? {dialect : Dialect} {inOperand : Bool} {c d : Cursor} {text : String}
    (h : read? dialect inOperand c = some (text, d)) : Spelled dialect text.toList := by
  cases dialect with
  | midas =>
    simp only [read?] at h
    split at h
    · cases h
    · next name e taken =>
      obtain ⟨chars, nonempty⟩ := toList_of_take? taken
      have same : text = name := by
        split at h
        · cases h
          rfl
        · obtain ⟨_, -, pair⟩ := Option.map_eq_some_iff.mp h
          cases pair
          rfl
      rw [same, chars]
      exact spelled_midasName nonempty
  | imlac =>
    simp only [read?] at h
    split at h
    · obtain ⟨chars, nonempty⟩ := toList_of_take? h
      rw [chars]
      exact spelled_imlacName nonempty
    · cases h
  | unknown | oldAmes | newAmes =>
    simp only [read?] at h
    split at h
    · obtain ⟨chars, nonempty⟩ := toList_of_take? h
      rw [chars]
      exact spelled_amesName nonempty
    · cases h

/-- A letter is no digit. -/
theorem not_isDigit_of_isAlpha {x : Char} (letter : x.isAlpha = true) : x.isDigit = false := by
  apply Bool.eq_false_iff.mpr
  intro digit
  have digit : (decide (x.val ≥ 48) && decide (x.val ≤ 57)) = true := digit
  have letter : (decide (x.val ≥ 65 ∧ x.val ≤ 90) ||
      (decide (x.val ≥ 97) && decide (x.val ≤ 122))) = true := letter
  simp only [Bool.and_eq_true, Bool.or_eq_true, decide_eq_true_eq, ge_iff_le,
    UInt32.le_iff_toNat_le] at digit letter
  change 48 ≤ _ ∧ _ ≤ 57 at digit
  change 65 ≤ _ ∧ _ ≤ 90 ∨ 97 ≤ _ ∧ _ ≤ 122 at letter
  omega

/-- Only Midas names may begin with a digit. -/
theorem Spelled.not_isDigit {dialect : Dialect} (other : dialect ≠ .midas) {x : Char}
    {r : List Char} (spelled : Spelled dialect (x :: r)) : x.isDigit = false := by
  cases dialect with
  | midas => exact absurd rfl other
  | imlac =>
    have upper := (spelled_imlac_iff.mp spelled).1
    have letter : x.isAlpha = (x.isUpper || x.isLower) := rfl
    exact not_isDigit_of_isAlpha (by rw [letter, upper, Bool.true_or])
  | unknown | oldAmes | newAmes =>
    have start : isAmesStart x = true := (spelled_ames_iff.mp spelled).1
    simp only [isAmesStart, Bool.or_eq_true, decide_eq_true_eq] at start
    rcases start with (letter | rfl) | rfl
    · exact not_isDigit_of_isAlpha letter
    · rfl
    · rfl

/-- A number can be read at the beginning of a name if and only if the name begins like one. -/
theorem Spelled.isSome_number {dialect : Dialect} {name : List Char}
    (spelled : Spelled dialect name) {c : Cursor} (h : c.rest = name) :
    (Number.read? dialect c).isSome = Number.leads name := by
  by_cases midas : dialect = .midas
  · subst midas
    rw [Number.isSome_read? rfl, h]
  · obtain ⟨x, r, rfl⟩ := List.exists_cons_of_ne_nil spelled.ne_nil
    have other := spelled.not_isDigit midas
    have octal : Number.isOctalDigit x = false :=
      Bool.eq_false_iff.mpr fun digit => by simp [Number.isDigit_of_isOctalDigit digit] at other
    rw [Number.read?_of_not_digit dialect h other]
    simp [Number.leads, Number.contains_octalDigits, Number.contains_decimalDigits, other, octal]

end Name

namespace Operand

/-- All the text was taken, for a reference to the label of this name. -/
structure Reading.Refers (r : Reading) (text : String) : Prop where
  finished : r.cursor.rest = []
  label : ∃ id symbolic, r.tables.exprs.nodes[r.expr]? = some ⟨.label id, symbolic⟩ ∧
    r.tables.symbols.name? id = some text

theorem refers_name (text : String) (c : Cursor) (finished : c.rest = []) (t : Tables) :
    (name text c t).Refers text :=
  ⟨finished, _, _, ExprStore.getElem?_push_size _ _ _, SymbolTable.name?_reference t.symbols text⟩

/-- A number is no reference. -/
theorem not_refers_const (t : Tables) (v : Int32) (c : Cursor) (text : String) :
    ¬ (Reading.of (t.push (.const v) false) c).Refers text := by
  rintro ⟨-, id, symbolic, found, -⟩
  cases found.symm.trans (ExprStore.getElem?_push_size t.exprs (.const v) false)

/-- What becomes of a name that stands alone as an operand: a number if it begins like one, and a
reference otherwise. -/
theorem term_spelled {dialect : Dialect} {text : String}
    (spelled : Name.Spelled dialect text.toList) (location : Int32) (t : Tables) :
    (Number.leads text.toList = true ∧ ∃ v d, Number.read? dialect (.ofText text) = some (v, d) ∧
        term dialect location (.ofText text) t = .of (t.push (.const v) false) d) ∨
      (Number.leads text.toList = false ∧
        term dialect location (.ofText text) t = name text ((Cursor.ofText text).moveTo []) t) := by
  have begins := spelled.isSome_number (c := .ofText text) rfl
  cases number : Number.read? dialect (.ofText text) with
  | some read =>
    obtain ⟨v, d⟩ := read
    refine .inl ⟨by rw [← begins, number]; rfl, v, d, rfl, ?_⟩
    rw [term, number]
  | none =>
    have whole : (Cursor.ofText text).rest = text.toList ++ [] := (List.append_nil _).symm
    have named := Name.read?_spelled spelled (by simp [Breaks]) whole
    refine .inr ⟨by rw [← begins, number]; rfl, ?_⟩
    rw [term, number, named, String.ofList_toList]

/-- A name read in the defining position refers to its label, as a term, exactly if it does not
begin like a number, which only happens in the Midas dialect. Otherwise the term is a number. -/
theorem defined_name_refers_iff {dialect : Dialect} {c d : Cursor} {text : String}
    (defined : Name.read? dialect false c = some (text, d)) (location : Int32) (t : Tables) :
    let r := term dialect location (.ofText text) t
    (r.Refers text ↔ Number.leads text.toList = false) ∧
      (dialect ≠ .midas → r.Refers text) ∧
      (Number.leads text.toList = true →
        ∃ v e, Number.read? dialect (.ofText text) = some (v, e) ∧
          r = .of (t.push (.const v) false) e) := by
  intro r
  have spelled := Name.spelled_of_read? defined
  rcases term_spelled spelled location t with ⟨begins, v, e, number, read⟩ | ⟨plain, read⟩
  · have lost : ¬ r.Refers text := by
      simp only [r, read]
      exact not_refers_const t v e text
    refine ⟨?_, ?_, fun _ => ⟨v, e, number, read⟩⟩
    · simp [lost, begins]
    · intro other
      obtain ⟨x, rest, chars⟩ := List.exists_cons_of_ne_nil spelled.ne_nil
      have first := (chars ▸ spelled).not_isDigit other
      cases (Number.read?_of_not_digit dialect chars first).symm.trans number
  · have refers : r.Refers text := by
      simp only [r, read]
      exact refers_name text _ rfl t
    exact ⟨by simp [refers, plain], fun _ => refers, by simp [plain]⟩

/-- A Midas name may begin with a digit that is not octal. -/
theorem defined_name_refers_after_digit :
    let c := Cursor.ofText "8A::7"
    Name.read? .midas false c = some ("8A", c.moveTo ['7']) ∧
      (term .midas 0 (.ofText "8A") {}).Refers "8A" := by
  intro c
  have defined : Name.read? .midas false c = some ("8A", c.moveTo ['7']) := by decide +kernel
  exact ⟨defined, (defined_name_refers_iff defined 0 {}).1.mpr (by decide +kernel)⟩

/-- The label `1A` can be defined, but `1A` in an operand is the number one. -/
theorem defined_name_read_as_number :
    let c := Cursor.ofText "1A:"
    Name.read? .midas false c = some ("1A", c.moveTo []) ∧
      ¬ (term .midas 0 (.ofText "1A") {}).Refers "1A" := by
  intro c
  have number : Number.read? .midas (.ofText "1A") =
      some (1, (Cursor.ofText "1A").moveTo ['A']) := by decide +kernel
  refine ⟨by decide +kernel, ?_⟩
  rw [term, number]
  exact not_refers_const {} 1 _ "1A"

end Operand

end Pds1
