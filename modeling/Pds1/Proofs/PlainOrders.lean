import Pds1.Proofs.DefinedNames
import Pds1.Proofs.LineNumbers

/-!
# Orders without operands

An order that takes no operand is a word by itself. Where its name stands behind blanks or a
question mark, no dialect takes it for a label, an assignment, a comment or a tag. What stands right
behind the name decides how the name is read: as the order if that character may follow a mnemonic,
and as an operand otherwise.
-/

namespace Pds1

namespace Mnemonic

/-- Orders that are a word by themselves. -/
def isPlain (m : Mnemonic) : Bool :=
  match m.group with
  | .iot | .operate | .skip => true
  | .displayOperate => m.field?.isNone
  | .processor | .display | .shift | .directive _ => false

end Mnemonic

/-- An order that is a word by itself. -/
structure PlainOrder extends Mnemonic where
  listed : toMnemonic ∈ Mnemonic.all
  plain : toMnemonic.isPlain = true

/-- Spaces and tabs. -/
structure Blanks where
  chars : List Char
  blank : chars.all Cursor.isBlank = true

/-- What stands before an indented statement. -/
structure Indent extends Blanks where
  nonempty : chars ≠ []

/-- What may stand right behind the name of such an order. -/
def nameStops : List Char := [' ', '\t', '?', '\\', '|']

/-- The name of an order may end before `after`. -/
def Stops (after : List Char) : Prop := ∀ x ∈ after.head?, x ∈ nameStops

theorem Stops.head {after : List Char} (stops : Stops after) {p : Char → Bool}
    (outside : nameStops.any p = false) : ∀ x ∈ after.head?, p x = false := by
  intro x first
  simpa using List.any_eq_false.mp outside x (stops x first)

/-- What a dialect takes of a word of capital letters as a name. -/
def Dialect.nameIn (dialect : Dialect) (word : List Char) : List Char :=
  if dialect = .imlac then word.take 1 else word

/-- What a dialect leaves of it. -/
def Dialect.leftOf (dialect : Dialect) (word : List Char) : List Char :=
  if dialect = .imlac then word.drop 1 else []

theorem Name.isAlpha_of_isUpper {x : Char} (upper : x.isUpper = true) : x.isAlpha = true := by
  have letter : x.isAlpha = (x.isUpper || x.isLower) := rfl
  rw [letter, upper, Bool.true_or]

theorem Name.not_isOctalDigit_of_isUpper {x : Char} (upper : x.isUpper = true) :
    Number.isOctalDigit x = false := by
  have digit := not_isDigit_of_isAlpha (isAlpha_of_isUpper upper)
  exact Bool.eq_false_iff.mpr fun octal => by simp [Number.isDigit_of_isOctalDigit octal] at digit

theorem Cursor.not_isBlank_of_isUpper {x : Char} (upper : x.isUpper = true) :
    isBlank x = false := by
  apply Bool.eq_false_iff.mpr
  intro blank
  rcases eq_of_isBlank blank with rfl | rfl
  · cases upper
  · cases upper

namespace Name

/-- Outside the Midas dialect no name stands behind a blank. -/
theorem read?_of_blank {dialect : Dialect} (other : dialect ≠ .midas) (inOperand : Bool)
    {c : Cursor} {x : Char} {r : List Char} (h : c.rest = x :: r)
    (blank : Cursor.isBlank x = true) : read? dialect inOperand c = none := by
  cases dialect with
  | midas => exact absurd rfl other
  | imlac =>
    have lower : x.isUpper = false := by
      rcases Cursor.eq_of_isBlank blank with rfl | rfl
      · rfl
      · rfl
    have empty : imlacName (x :: r) = [] := by
      cases r with
      | nil => simp [imlacName, lower]
      | cons y r => simp [imlacName, lower]
    simp [read?, h, empty, take?]
  | unknown | oldAmes | newAmes =>
    have start : isAmesStart x = false := by
      rcases Cursor.eq_of_isBlank blank with rfl | rfl
      · rfl
      · rfl
    simp [read?, h, amesName, start, take?]

end Name

/-- A word of letters is looked up as a whole, if what stands behind it may follow a mnemonic. -/
theorem Mnemonic.read?_of_run (display : Bool) {c : Cursor} {word after : List Char}
    (nonempty : word ≠ []) (letters : word.all Char.isAlpha = true)
    (stop : ∀ x ∈ after.head?, x.isAlpha = false) (h : c.rest = word ++ after) :
    read? display c = if endsName after.head? then
      (find? (String.ofList (if display then 'D' :: word else word))).map
        fun m => (m, c.moveTo after)
    else none := by
  have run : c.run Char.isAlpha = word := by
    rw [Cursor.run, h]
    exact Name.takeWhile_before letters stop
  have rest : c.drop word.length = c.moveTo after := by simp [Cursor.drop, h]
  have nonempty : word.isEmpty = false := by simpa using nonempty
  simp only [read?, run, rest, nonempty]
  rfl

/-- Two capital letters or more, as in the names of orders. -/
structure Capitals (word : List Char) : Prop where
  upper : word.all Char.isUpper = true
  long : 2 ≤ word.length

namespace Capitals

variable {word : List Char}

theorem cons (w : Capitals word) :
    ∃ x y r, word = x :: y :: r ∧ x.isUpper = true ∧ y.isUpper = true := by
  obtain ⟨upper, long⟩ := w
  rw [List.all_eq_true] at upper
  rcases word with _ | ⟨x, _ | ⟨y, r⟩⟩
  · simp at long
  · simp at long
  · exact ⟨x, y, r, rfl, upper x (by simp), upper y (by simp)⟩

theorem all_of_isUpper (w : Capitals word) {p : Char → Bool}
    (upper : ∀ x : Char, x.isUpper = true → p x = true) : word.all p = true :=
  List.all_eq_true.mpr fun x member => upper x (List.all_eq_true.mp w.upper x member)

variable (w : Capitals word) {c : Cursor} {after : List Char}
include w

theorem dropBlanks_of_rest (h : c.rest = word ++ after) : c.dropBlanks = c := by
  obtain ⟨x, y, r, letters, upper, -⟩ := w.cons
  rw [letters] at h
  exact Name.dropBlanks_of_not_blank h (Cursor.not_isBlank_of_isUpper upper)

/-- A name of the table is read as its order if what stands behind it may follow a mnemonic. -/
theorem read?_of_rest {m : Mnemonic} (known : Mnemonic.find? (String.ofList word) = some m)
    (stops : Stops after) (h : c.rest = word ++ after) :
    Mnemonic.read? false c =
      if Mnemonic.endsName after.head? then some (m, c.moveTo after) else none := by
  have nonempty : word ≠ [] := by
    obtain ⟨x, y, r, letters, -⟩ := w.cons
    simp [letters]
  rw [Mnemonic.read?_of_run false nonempty (w.all_of_isUpper fun _ => Name.isAlpha_of_isUpper)
    (stops.head rfl) h]
  simp only [Bool.false_eq_true, if_false, known, Option.map_some]

/-- A tag is a single letter, and a second one follows here. -/
theorem readTag_of_rest (dialect : Dialect) (h : c.rest = word ++ after) :
    Assembly.readTag dialect c = (none, c) := by
  obtain ⟨x, y, r, letters, -, upper⟩ := w.cons
  have second : Cursor.isBlank c.lookahead = false := by
    rw [Cursor.lookahead, h, letters]
    exact Cursor.not_isBlank_of_isUpper upper
  rw [Assembly.readTag, second, Bool.and_false]
  rfl

/-- The name is carried out if what stands behind it may follow a mnemonic. -/
theorem order_of_rest {m : Mnemonic} (known : Mnemonic.find? (String.ofList word) = some m)
    (stops : Stops after) (ends : Mnemonic.endsName after.head? = true)
    (h : c.rest = word ++ after) (pool : Assembly → Assembly) (a : Assembly) :
    Assembly.order pool c a = (m.lineKind, Assembly.carryOut pool m none (c.moveTo after) a) := by
  have named : Mnemonic.read? (decide ((none : Option Tag) = some .display)) c =
      some (m, c.moveTo after) :=
    (w.read?_of_rest known stops h).trans (if_pos ends)
  simp only [Assembly.order, w.readTag_of_rest a.dialect h, named]
  rfl

theorem midasName_append (stops : Stops after) :
    Name.midasName (word ++ after) = word := by
  obtain ⟨x, y, r, letters, upper, -⟩ := w.cons
  have inside : word.all Name.isMidasChar = true := w.all_of_isUpper fun x upper => by
    have letter : x.isAlphanum = (x.isAlpha || x.isDigit) := rfl
    simp [Name.isMidasChar, letter, Name.isAlpha_of_isUpper upper]
  rw [Name.midasName, Name.takeWhile_before inside (stops.head rfl)]
  exact if_pos (by simp [letters, Name.isMidasLetter, Name.isAlpha_of_isUpper upper])

/-- In an operand, a dialect takes the whole name or its first letter. -/
theorem name_of_rest (dialect : Dialect) (stops : Stops after) (h : c.rest = word ++ after) :
    Name.read? dialect true c = some (String.ofList (dialect.nameIn word),
      c.moveTo (dialect.leftOf word ++ after)) := by
  obtain ⟨x, y, r, letters, upper, upper'⟩ := w.cons
  have nonempty : word ≠ [] := by simp [letters]
  cases dialect with
  | midas =>
    simp only [Name.read?, w.dropBlanks_of_rest h, h, w.midasName_append stops,
      Name.take?_append nonempty h, if_true]
    rfl
  | imlac =>
    have taken : Name.imlacName (word ++ after) = [x] := by
      simp [letters, Name.imlacName, upper, Name.not_isOctalDigit_of_isUpper upper']
    have rest : c.rest = [x] ++ (y :: r ++ after) := by simp [h, letters]
    simp only [Name.read?, h, taken, Bool.true_or, if_true,
      Name.take?_append (List.cons_ne_nil x []) rest]
    simp [Dialect.nameIn, Dialect.leftOf, letters]
  | unknown | oldAmes | newAmes =>
    have inside : word.all Name.isAmesChar = true := w.all_of_isUpper fun x upper => by
      have letter : x.isAlphanum = (x.isAlpha || x.isDigit) := rfl
      simp [Name.isAmesChar, letter, Name.isAlpha_of_isUpper upper]
    have taken : Name.amesName (word ++ after) = word := by
      rw [Name.amesName, Name.takeWhile_before inside (stops.head rfl)]
      exact if_pos (by simp [letters, Name.isAmesStart, Name.isAlpha_of_isUpper upper])
    simp only [Name.read?, h, taken, Name.take?_append nonempty h, Bool.true_or, if_true]
    rfl

/-- Where a line could be an assignment, no equals sign follows the name. -/
theorem definition?_of_rest (stops : Stops after) (h : c.rest = word ++ after)
    (other : (after.dropWhile Cursor.isBlank).head? ≠ some '=') (a : Assembly) :
    Assembly.definition? c a = none := by
  have plain : (c.moveTo (a.dialect.leftOf word ++ after)).dropBlanks.accept? '=' = none := by
    obtain ⟨x, y, r, letters, -, upper⟩ := w.cons
    by_cases imlac : a.dialect = .imlac
    · have rest : (c.moveTo (a.dialect.leftOf word ++ after)).rest = y :: (r ++ after) := by
        simp [Dialect.leftOf, imlac, letters]
      have letter : y ≠ '=' := by
        rintro rfl
        cases upper
      rw [Name.dropBlanks_of_not_blank rest (Cursor.not_isBlank_of_isUpper upper), Cursor.accept?,
        Cursor.next?, rest]
      exact if_neg (by simpa using letter)
    · simp only [Dialect.leftOf, imlac, if_false, List.nil_append]
      exact if_neg other
  simp only [Assembly.definition?, w.name_of_rest a.dialect stops h, plain]

section Line

variable {blanks : List Char} (blank : blanks.all Cursor.isBlank = true)
  (h : c.rest = blanks ++ (word ++ after))
include blank h

theorem dropBlanks_of_blanks : c.dropBlanks = c.moveTo (word ++ after) := by
  obtain ⟨x, y, r, letters, upper, -⟩ := w.cons
  rw [letters] at h ⊢
  exact Name.dropBlanks_append blank h (Cursor.not_isBlank_of_isUpper upper)

/-- A name behind blanks is no label: it is not closed by a colon, and column one is blank or lies
behind. -/
theorem unlabelled (stops : Stops after) (placed : c.atStart = true → blanks ≠ [])
    (dialect : Dialect) : Name.read? dialect false c = none := by
  -- outside the Midas dialect a label stands in column one, where there is a blank
  have first : c.atStart = true → ∃ x r, c.rest = x :: r ∧ Cursor.isBlank x = true := by
    intro start
    obtain ⟨x, r, rfl⟩ := List.exists_cons_of_ne_nil (placed start)
    exact ⟨x, r ++ (word ++ after), h, List.all_eq_true.mp blank x List.mem_cons_self⟩
  by_cases midas : dialect = .midas
  · subst midas
    have nonempty : word ≠ [] := by
      obtain ⟨x, y, r, letters, -⟩ := w.cons
      simp [letters]
    have unclosed : Name.colons? (c.moveTo after) = none := by
      have colon : (c.moveTo after).next? ≠ some ':' := by
        intro colon
        cases stops.head (p := (· == ':')) rfl ':' colon
      rw [Name.colons?, Cursor.accept?, if_neg colon]
      rfl
    simp only [Name.read?, w.dropBlanks_of_blanks blank h, Cursor.rest_moveTo,
      w.midasName_append stops,
      Name.take?_append nonempty (Cursor.rest_moveTo c (word ++ after))]
    exact congrArg (Option.map _) unclosed
  · by_cases start : c.atStart = true
    · obtain ⟨x, r, rest, own⟩ := first start
      exact Name.read?_of_blank midas false rest own
    · cases dialect with
      | midas => exact absurd rfl midas
      | unknown | imlac | oldAmes | newAmes => simp [Name.read?, start]

/-- A statement that begins with the name is told by its order; behind a question mark another one
follows. -/
theorem statement_of_rest (stops : Stops after) (placed : c.atStart = true → blanks ≠ [])
    {continued : Bool} (apart : continued = true ∨ blanks ≠ []) {pool : Assembly → Assembly}
    {a b : Assembly} {kind' : Line.Kind} {d : Cursor}
    (ordered : Assembly.order pool (c.moveTo (word ++ after)) a = (kind', d, b))
    (kind : Line.Kind) :
    (d.dropBlanks.accept? '?' = none → Assembly.statement pool kind continued c a =
        (if kind = .unclassified then kind' else kind, b)) ∧
      ∀ e, d.dropBlanks.accept? '?' = some e → Assembly.statement pool kind continued c a =
        Assembly.statement pool (if kind = .unclassified then kind' else kind) true e b := by
  have labels : Assembly.readLabels none c a = (none, c, a) := by
    rw [Assembly.readLabels_eq, w.unlabelled blank h stops placed]
  have more : (c.moveTo (word ++ after)).atEnd = false := by
    obtain ⟨x, y, r, letters, -⟩ := w.cons
    simp [Cursor.atEnd, letters]
  have separate : (c.onBlank || a.dialect.isMidas || continued) = true := by
    rcases apart with rfl | nonempty
    · simp
    · obtain ⟨x, r, rfl⟩ := List.exists_cons_of_ne_nil nonempty
      have onBlank : c.onBlank = true := by
        rw [Cursor.onBlank, Cursor.next?, h]
        exact List.all_eq_true.mp blank x List.mem_cons_self
      rw [onBlank, Bool.true_or, Bool.true_or]
  rw [Assembly.statement_eq, labels]
  simp only [w.dropBlanks_of_blanks blank h, more, separate, ordered, Bool.false_eq_true, if_false,
    Bool.not_true]
  constructor
  · intro last
    simp only [last]
  · intro e mark
    simp only [mark]

end Line

/-- An indented line that begins with the name is read as a statement. -/
theorem readText_of_indent {indent : List Char} (blank : indent.all Cursor.isBlank = true)
    (stops : Stops after) (other : (after.dropWhile Cursor.isBlank).head? ≠ some '=')
    (a : Assembly) :
    Assembly.readText (String.ofList (indent ++ (word ++ after))) a =
      Assembly.statement Assembly.placePool .unclassified false
        (.ofList (indent ++ (word ++ after))) a := by
  obtain ⟨x, y, r, letters, upper, -⟩ := w.cons
  have start : Cursor.ofText (String.ofList (indent ++ (word ++ after))) =
      .ofList (indent ++ (word ++ after)) := by
    rw [Cursor.ofText, String.toList_ofList]
  generalize whole : Cursor.ofList (indent ++ (word ++ after)) = c at start ⊢
  have rest : c.rest = indent ++ (word ++ after) := by rw [← whole]; rfl
  have first : (c.moveTo (word ++ after)).rest = x :: (y :: r ++ after) := by
    simp [letters]
  have page : x ≠ '\x0c' := by
    rintro rfl
    cases upper
  have comment : a.dialect.isComment x c.onBlank = false := by
    rw [Dialect.isComment.eq_def]
    split
    · cases upper
    · cases upper
    · cases upper
    · rfl
  have unassigned := w.definition?_of_rest stops (Cursor.rest_moveTo c (word ++ after)) other a
  simp only [Assembly.readText, start, w.dropBlanks_of_blanks blank rest, first, page, if_false,
    comment, Bool.false_eq_true, unassigned]

end Capitals

namespace PlainOrder

/-- The letters of the name. -/
def letters (m : PlainOrder) : List Char := m.name.toList

theorem table {m : Mnemonic} (listed : m ∈ Mnemonic.all) (plain : m.isPlain = true) :
    m.name.toList.all Char.isUpper = true ∧ 2 ≤ m.name.toList.length ∧
      Mnemonic.find? m.name = some m := by
  have all : ∀ m ∈ Mnemonic.all, m.isPlain = true → m.name.toList.all Char.isUpper = true ∧
      2 ≤ m.name.toList.length ∧ Mnemonic.find? m.name = some m := by decide +kernel
  exact all m listed plain

theorem capitals (m : PlainOrder) : Capitals m.letters :=
  ⟨(table m.listed m.plain).1, (table m.listed m.plain).2.1⟩

theorem find?_letters (m : PlainOrder) :
    Mnemonic.find? (String.ofList m.letters) = some m.toMnemonic := by
  rw [letters, String.ofList_toList]
  exact (table m.listed m.plain).2.2

variable {m : PlainOrder} {c : Cursor} {after : List Char}

theorem lineKind_eq : m.lineKind = .code := by
  have plain := m.plain
  rw [Mnemonic.lineKind]
  split
  · next d group => simp [Mnemonic.isPlain, group] at plain
  · rfl

theorem order_of_rest (stops : Stops after) (ends : Mnemonic.endsName after.head? = true)
    (h : c.rest = m.letters ++ after) (pool : Assembly → Assembly) (a : Assembly) :
    Assembly.order pool c a =
      (.code, Assembly.carryOut pool m.toMnemonic none (c.moveTo after) a) := by
  rw [m.capitals.order_of_rest m.find?_letters stops ends h, lineKind_eq]

theorem combine_alone {d : Cursor} (alone : ∀ x ∈ d.rest.head?, x ≠ '\\' ∧ x ≠ '|')
    (name : String) (code : Int32) (a : Assembly) :
    Assembly.combine name code d a = (code, d, a) := by
  rw [Assembly.combine_eq]
  cases rest : d.rest with
  | nil => rfl
  | cons x r =>
    obtain ⟨backslash, bar⟩ := alone x (by simp [rest])
    simp [backslash, bar]

/-- A plain order emits its code and reads nothing more, unless another order is to be joined. -/
theorem carryOut_eq {d : Cursor} (alone : ∀ x ∈ d.rest.head?, x ≠ '\\' ∧ x ≠ '|')
    (pool : Assembly → Assembly) (a : Assembly) :
    Assembly.carryOut pool m.toMnemonic none d a = (d, a.emitWord m.code) := by
  have plain := m.plain
  cases group : m.group with
  | iot => simp [Assembly.carryOut, group, Assembly.iot, Assembly.noteIf]
  | operate => simp only [Assembly.carryOut, group, Assembly.operate, combine_alone alone]
  | skip => simp only [Assembly.carryOut, group]
  | displayOperate =>
    have bare : m.field? = none := by simpa [Mnemonic.isPlain, group] using plain
    simp only [Assembly.carryOut, group, Assembly.displayOperate, bare]
  | processor | display | shift | directive => simp [Mnemonic.isPlain, group] at plain

end PlainOrder

end Pds1
