import Pds1.Proofs.CursorPlace
import Pds1.Proofs.DefinedNames

/-!
# The grammar of labels

What may be read as a label, dialect by dialect: the name is as long as its characters go on, and in
the defining position it stands in column one or, in the Midas dialect, is closed by one or two
colons. Reading accepts exactly these texts and takes exactly the label. A Midas label is found on
trial, with the place saved before and given back when the trial fails; the trial leaves nothing
behind.
-/

namespace Pds1

theorem Cursor.byteSize_eq_zero_iff {cs : List Char} : byteSize cs = 0 ↔ cs = [] := by
  cases cs with
  | nil => simp [byteSize]
  | cons x r =>
    have first := x.utf8Size_pos
    simp only [byteSize, List.foldr_cons, List.cons_ne_nil, iff_false]
    omega

/-- Column one has nothing before it. -/
theorem Cursor.atStart_iff (before rest : List Char) (saved : List (List Char)) :
    atStart ⟨before ++ rest, rest, saved⟩ = true ↔ before = [] := by
  rw [atStart, beq_iff_eq, position, byteSize_append, Nat.add_sub_cancel]
  exact byteSize_eq_zero_iff

namespace Name

/-- A name goes on with this character. -/
def GoesOn : Dialect → List Char → Char → Prop
  | .midas, _, x => x.isAlphanum = true ∨ x ∈ ['$', '%', '.']
  | .imlac, name, x => name.length < 2 ∧ x ∈ Number.octalDigits
  | .unknown, _, x | .oldAmes, _, x | .newAmes, _, x => x.isAlphanum = true ∨ x ∈ ['$', '_']

/-- The name does not go on behind its last character. -/
def Whole (dialect : Dialect) (name after : List Char) : Prop :=
  ∀ x ∈ after.head?, ¬GoesOn dialect name x

theorem whole_midas_iff {name after : List Char} :
    Whole .midas name after ↔ ∀ x ∈ after.head?, isMidasChar x = false := by
  simp only [Whole, GoesOn, ← isMidasChar_iff, Bool.not_eq_true]

theorem whole_imlac_iff {name after : List Char} : Whole .imlac name after ↔
    ∀ x ∈ after.head?, name.length < 2 → Number.isOctalDigit x = false := by
  simp only [Whole, GoesOn, ← Number.isOctalDigit_iff, not_and, Bool.not_eq_true]

theorem whole_ames_iff (name : List Char) {after : List Char} :
    Whole .newAmes name after ↔ ∀ x ∈ after.head?, isAmesChar x = false := by
  simp only [Whole, GoesOn, ← isAmesChar_iff, Bool.not_eq_true]

/-- The colons that close a Midas label: two if there are two. -/
def Closes (colons after : List Char) : Prop :=
  (colons = [':'] ∧ after.head? ≠ some ':') ∨ colons = [':', ':']

/-- A text that starts with a label, in an operand or in the defining position. What stands before
it on the line is `before`. -/
structure Leading (dialect : Dialect) (inOperand : Bool) (before : List Char) where
  blanks : List Char
  name : List Char
  colons : List Char
  after : List Char
  blank : ∀ x ∈ blanks, x = ' ' ∨ x = '\t'
  unindented : dialect ≠ .midas → blanks = []
  spelled : Spelled dialect name
  whole : Whole dialect name (colons ++ after)
  column : inOperand = false → dialect ≠ .midas → before = []
  closed : if inOperand = false ∧ dialect = .midas then Closes colons after else colons = []

def Leading.text {dialect : Dialect} {inOperand : Bool} {before : List Char}
    (l : Leading dialect inOperand before) : List Char :=
  l.blanks ++ (l.name ++ (l.colons ++ l.after))

/-- The name that a dialect takes at the beginning of a text, empty if there is none. -/
def nameAt : Dialect → List Char → List Char
  | .midas => midasName
  | .imlac => imlacName
  | .unknown | .oldAmes | .newAmes => amesName

/-- A name that does not go on is taken whole. -/
theorem nameAt_append {dialect : Dialect} {name after : List Char} (spelled : Spelled dialect name)
    (whole : Whole dialect name after) : nameAt dialect (name ++ after) = name := by
  cases dialect with
  | midas =>
    obtain ⟨inside, letter⟩ := spelled_midas_iff.mp spelled
    rw [nameAt, midasName, takeWhile_before inside (whole_midas_iff.mp whole)]
    exact if_pos (by simpa using letter)
  | imlac =>
    obtain ⟨x, digits, rfl⟩ := List.exists_cons_of_ne_nil spelled.ne_nil
    obtain ⟨upper, short, octal⟩ := spelled_imlac_iff.mp spelled
    rcases digits with _ | ⟨d, _ | ⟨e, ds⟩⟩
    · cases after with
      | nil => simp [nameAt, imlacName, upper]
      | cons y r =>
        have other : Number.isOctalDigit y = false :=
          whole_imlac_iff.mp whole y rfl Nat.one_lt_two
        simp [nameAt, imlacName, upper, other]
    · have octal : Number.isOctalDigit d = true := by simpa using octal
      simp [nameAt, imlacName, upper, octal]
    · simp at short
  | unknown | oldAmes | newAmes =>
    obtain ⟨x, r, rfl⟩ := List.exists_cons_of_ne_nil spelled.ne_nil
    obtain ⟨start, inside⟩ := spelled_ames_iff.mp spelled
    rw [nameAt, amesName, takeWhile_before inside ((whole_ames_iff (x :: r)).mp whole)]
    exact if_pos start

/-- A run of characters, if it is taken at all, does not go on. -/
theorem run_parts {p : Char → Bool} {cs : List Char} {condition : Prop} [Decidable condition]
    (nonempty : (if condition then cs.takeWhile p else []) ≠ []) :
    ∃ after, cs = (if condition then cs.takeWhile p else []) ++ after ∧
      ∀ x ∈ after.head?, p x = false := by
  split at nonempty
  · next holds =>
    refine ⟨cs.dropWhile p, ?_, ?_⟩
    · rw [if_pos holds, List.takeWhile_append_dropWhile]
    · intro x first
      have stop := List.head?_dropWhile_not p cs
      rw [Option.mem_def.mp first] at stop
      simpa using stop
  · exact absurd rfl nonempty

/-- What is taken is spelled by the rules and does not go on. -/
theorem nameAt_parts {dialect : Dialect} {cs : List Char} (nonempty : nameAt dialect cs ≠ []) :
    ∃ after, cs = nameAt dialect cs ++ after ∧ Spelled dialect (nameAt dialect cs) ∧
      Whole dialect (nameAt dialect cs) after := by
  cases dialect with
  | midas =>
    obtain ⟨after, parts, whole⟩ := run_parts nonempty
    exact ⟨after, parts, spelled_midasName nonempty, whole_midas_iff.mpr whole⟩
  | imlac =>
    have spelled := spelled_imlacName nonempty
    rw [nameAt, imlacName.eq_def] at nonempty ⊢
    rw [imlacName.eq_def] at spelled
    split at nonempty
    · next x y r =>
      by_cases upper : x.isUpper = true
      · by_cases octal : Number.isOctalDigit y = true
        · refine ⟨r, ?_, spelled, ?_⟩
          · simp [upper, octal]
          · simp [whole_imlac_iff, upper, octal]
        · refine ⟨y :: r, ?_, spelled, ?_⟩
          · simp [upper, octal]
          · simp [whole_imlac_iff, upper, octal]
      · simp [upper] at nonempty
    · next x =>
      by_cases upper : x.isUpper = true
      · exact ⟨[], by simp [upper], spelled, by simp [Whole]⟩
      · simp [upper] at nonempty
    · exact absurd rfl nonempty
  | unknown | oldAmes | newAmes =>
    obtain ⟨after, parts, whole⟩ := run_parts nonempty
    exact ⟨after, parts, spelled_amesName nonempty, (whole_ames_iff (amesName cs)).mpr whole⟩

theorem take?_eq_some_iff {name : List Char} {c d : Cursor} {text : String} :
    take? name c = some (text, d) ↔
      name ≠ [] ∧ text = String.ofList name ∧ d = c.drop name.length := by
  rw [take?]
  by_cases empty : name.isEmpty = true
  · simp [List.isEmpty_iff.mp empty]
  · rw [if_neg empty]
    constructor
    · rintro ⟨⟩
      exact ⟨by simpa using empty, rfl, rfl⟩
    · rintro ⟨-, rfl, rfl⟩
      rfl

/-- A dialect takes a name exactly if there is one, and then all of it. -/
theorem take?_nameAt_iff {dialect : Dialect} {c d : Cursor} {text : String} :
    take? (nameAt dialect c.rest) c = some (text, d) ↔
      ∃ name after, Spelled dialect name ∧ Whole dialect name after ∧ c.rest = name ++ after ∧
        text = String.ofList name ∧ d = c.moveTo after := by
  rw [take?_eq_some_iff]
  constructor
  · rintro ⟨nonempty, rfl, rfl⟩
    obtain ⟨after, parts, spelled, whole⟩ := nameAt_parts nonempty
    generalize nameAt dialect c.rest = name at parts spelled whole ⊢
    exact ⟨name, after, spelled, whole, parts, rfl, by simp [Cursor.drop, parts]⟩
  · rintro ⟨name, after, spelled, whole, parts, rfl, rfl⟩
    rw [parts, nameAt_append spelled whole]
    exact ⟨spelled.ne_nil, rfl, by simp [Cursor.drop, parts]⟩

/-- One or two colons are moved over. -/
theorem colons?_eq_some_iff {c d : Cursor} : colons? c = some d ↔
    ∃ colons after, Closes colons after ∧ c.rest = colons ++ after ∧ d = c.moveTo after := by
  simp only [colons?, Option.map_eq_some_iff, Cursor.accept?_eq_some_iff]
  constructor
  · rintro ⟨e, ⟨r, rest, rfl⟩, rfl⟩
    by_cases second : r.head? = some ':'
    · obtain ⟨s, rfl⟩ := List.head?_eq_some_iff.mp second
      exact ⟨[':', ':'], s, .inr rfl, rest, rfl⟩
    · exact ⟨[':'], r, .inl ⟨rfl, second⟩, rest, Cursor.skip_of_head?_ne second⟩
  · rintro ⟨colons, after, ⟨rfl, single⟩ | rfl, rest, rfl⟩
    · exact ⟨_, ⟨after, rest, rfl⟩, Cursor.skip_of_head?_ne single⟩
    · exact ⟨_, ⟨':' :: after, rest, rfl⟩, rfl⟩

theorem read?_of_ne {dialect : Dialect} (other : dialect ≠ .midas) (inOperand : Bool)
    (c : Cursor) : read? dialect inOperand c =
      if inOperand || c.atStart then take? (nameAt dialect c.rest) c else none := by
  cases dialect with
  | midas => exact absurd rfl other
  | unknown | imlac | oldAmes | newAmes => rfl

/-- Outside the Midas dialect a label begins at the cursor. -/
theorem read?_eq_some_iff_of_ne {dialect : Dialect} (other : dialect ≠ .midas) {inOperand : Bool}
    {c d : Cursor} {text : String} : read? dialect inOperand c = some (text, d) ↔
      (inOperand = false → c.atStart = true) ∧
        take? (nameAt dialect c.rest) c = some (text, d) := by
  rw [read?_of_ne other]
  cases inOperand <;> simp

/-- A Midas label stands behind blanks and is closed outside operands. -/
theorem read?_midas_eq_some_iff {inOperand : Bool} {c d : Cursor} {text : String} :
    read? .midas inOperand c = some (text, d) ↔
      ∃ e, take? (nameAt .midas c.dropBlanks.rest) c.dropBlanks = some (text, e) ∧
        if inOperand then d = e else colons? e = some d := by
  rw [read?, nameAt]
  cases take? (midasName c.dropBlanks.rest) c.dropBlanks with
  | none => simp
  | some taken =>
    obtain ⟨name, e⟩ := taken
    cases inOperand with
    | true => simp [eq_comm]
    | false =>
      simp only [Bool.false_eq_true, if_false, Option.map_eq_some_iff, Option.some.injEq,
        Prod.mk.injEq]
      constructor
      · rintro ⟨f, closed, rfl, rfl⟩
        exact ⟨e, ⟨rfl, rfl⟩, closed⟩
      · rintro ⟨_, ⟨rfl, rfl⟩, closed⟩
        exact ⟨d, closed, rfl, rfl⟩

section Reading

variable {inOperand : Bool} {before rest : List Char} {saved : List (List Char)} {text : String}
  {d : Cursor}

theorem read?_iff_of_ne {dialect : Dialect} (other : dialect ≠ .midas) :
    read? dialect inOperand ⟨before ++ rest, rest, saved⟩ = some (text, d) ↔
      ∃ l : Leading dialect inOperand before, l.text = rest ∧ text = String.ofList l.name ∧
        d = ⟨before ++ rest, l.after, saved⟩ := by
  rw [read?_eq_some_iff_of_ne other, take?_nameAt_iff, Cursor.atStart_iff]
  constructor
  · rintro ⟨column, name, after, spelled, whole, parts, rfl, rfl⟩
    exact ⟨⟨[], name, [], after, nofun, fun _ => rfl, spelled, whole, fun out _ => column out,
      by simp [other]⟩, parts.symm, rfl, rfl⟩
  · rintro ⟨l, parts, rfl, rfl⟩
    have blanks := l.unindented other
    have colons : l.colons = [] := by simpa [other] using l.closed
    refine ⟨fun out => l.column out other, l.name, l.after, l.spelled, ?_, ?_, rfl, rfl⟩
    · simpa [colons] using l.whole
    · simpa [Leading.text, blanks, colons] using parts.symm

theorem read?_iff_midas :
    read? .midas inOperand ⟨before ++ rest, rest, saved⟩ = some (text, d) ↔
      ∃ l : Leading .midas inOperand before, l.text = rest ∧ text = String.ofList l.name ∧
        d = ⟨before ++ rest, l.after, saved⟩ := by
  rw [read?_midas_eq_some_iff]
  constructor
  · rintro ⟨e, taken, ended⟩
    obtain ⟨name, after, spelled, whole, parts, rfl, rfl⟩ := take?_nameAt_iff.mp taken
    have blank : ∀ x ∈ rest.takeWhile Cursor.isBlank, x = ' ' ∨ x = '\t' := fun x member =>
      Cursor.eq_of_isBlank (List.all_eq_true.mp List.all_takeWhile x member)
    have whole_text : rest.takeWhile Cursor.isBlank ++ (name ++ after) = rest := by
      rw [← parts]
      exact List.takeWhile_append_dropWhile
    cases inOperand with
    | true =>
      exact ⟨⟨rest.takeWhile Cursor.isBlank, name, [], after, blank, absurd rfl, spelled, whole,
        nofun, by simp⟩, whole_text, rfl, ended⟩
    | false =>
      obtain ⟨colons, behind, closes, rfl, rfl⟩ := colons?_eq_some_iff.mp ended
      exact ⟨⟨rest.takeWhile Cursor.isBlank, name, colons, behind, blank, absurd rfl, spelled,
        whole, fun _ => absurd rfl, by simpa using closes⟩, whole_text, rfl, rfl⟩
  · rintro ⟨l, rfl, rfl, rfl⟩
    obtain ⟨x, r, cons⟩ := List.exists_cons_of_ne_nil l.spelled.ne_nil
    have inside := (spelled_midas_iff.mp l.spelled).1
    have first : Cursor.isBlank x = false :=
      not_isBlank_of_isMidasChar (List.all_eq_true.mp inside x (by simp [cons]))
    have blank : l.blanks.all Cursor.isBlank = true :=
      List.all_eq_true.mpr fun y member => Cursor.isBlank_iff.mpr (l.blank y member)
    have behind : Cursor.dropBlanks ⟨before ++ l.text, l.text, saved⟩ =
        ⟨before ++ l.text, l.name ++ (l.colons ++ l.after), saved⟩ := by
      rw [cons]
      have text : l.text = l.blanks ++ x :: (r ++ (l.colons ++ l.after)) := by
        simp [Leading.text, cons]
      exact dropBlanks_append blank text first
    rw [behind]
    refine ⟨⟨before ++ l.text, l.colons ++ l.after, saved⟩, ?_, ?_⟩
    · exact take?_nameAt_iff.mpr ⟨l.name, _, l.spelled, l.whole, rfl, rfl, rfl⟩
    · have closed := l.closed
      cases inOperand with
      | true =>
        have colons : l.colons = [] := by simpa using closed
        simp [colons]
      | false =>
        exact colons?_eq_some_iff.mpr ⟨l.colons, l.after, by simpa using closed, rfl, rfl⟩

end Reading

/-- Tries to read a Midas label in place: the place is saved, and given back if the trial fails. -/
def tryMidas (inOperand : Bool) (c : Cursor) : Option String × Cursor :=
  let d := c.save.dropBlanks
  let name := d.run isMidasChar
  let e := d.dropWhile isMidasChar
  if name.isEmpty || (!name.any isMidasLetter && name.count '.' < 2) then (none, e.release false)
  else if inOperand then (some (String.ofList name), e.release true)
  else match e.accept? ':' with
    | none => (none, e.release false)
    | some f => (some (String.ofList name), (f.skip ':').release true)

/-- Tries to read a label in place. -/
def attempt (dialect : Dialect) (inOperand : Bool) (c : Cursor) : Option String × Cursor :=
  match dialect with
  | .midas => tryMidas inOperand c
  | _ =>
    let name := nameAt dialect c.rest
    if !inOperand && !c.atStart || name.isEmpty then (none, c)
    else (some (String.ofList name), c.drop name.length)

theorem drop_length_run (c : Cursor) (p : Char → Bool) :
    c.drop (c.run p).length = c.dropWhile p := by
  have parts : c.run p ++ c.rest.dropWhile p = c.rest := List.takeWhile_append_dropWhile
  have dropped : c.rest.drop (c.run p).length = c.rest.dropWhile p :=
    calc c.rest.drop (c.run p).length
      _ = (c.run p ++ c.rest.dropWhile p).drop (c.run p).length := by rw [parts]
      _ = c.rest.dropWhile p := List.drop_left
  rw [Cursor.drop, dropped]
  rfl

/-- A run with neither a letter nor two points is refused, and so is the empty one. -/
theorem refuses_eq (name : List Char) :
    (name.isEmpty || (!name.any isMidasLetter && decide (name.count '.' < 2))) =
      !(name.any isMidasLetter || decide (2 ≤ name.count '.')) := by
  cases name with
  | nil => rfl
  | cons x r =>
    have few : decide ((x :: r).count '.' < 2) = !decide (2 ≤ (x :: r).count '.') := by
      rw [← decide_not]
      exact decide_eq_decide.mpr Nat.not_le.symm
    rw [few, List.isEmpty_cons, Bool.false_or, Bool.not_or]

theorem take?_midasName (d : Cursor) : take? (midasName d.rest) d =
    if (d.run isMidasChar).any isMidasLetter || 2 ≤ (d.run isMidasChar).count '.' then
      some (String.ofList (d.run isMidasChar), d.dropWhile isMidasChar)
    else none := by
  rw [← drop_length_run, midasName, ← Cursor.run]
  split
  · next named =>
    have nonempty : d.run isMidasChar ≠ [] := by
      intro empty
      simp [empty] at named
    simp [take?, nonempty]
  · rfl

/-- The trial gives what reading gives, and leaves neither a move nor a saved place behind when it
fails. -/
theorem tryMidas_eq (inOperand : Bool) (c : Cursor) :
    tryMidas inOperand c =
      match read? .midas inOperand c with
      | none => (none, c)
      | some (name, d) => (some name, d) := by
  -- the trial reads on a cursor that differs from `c` in one more saved place
  have trial : c.save.dropBlanks.dropWhile isMidasChar =
    (c.dropBlanks.dropWhile isMidasChar).along c.save := rfl
  have given : c.save.dropBlanks.run isMidasChar = c.dropBlanks.run isMidasChar := rfl
  rw [tryMidas, read?, trial, given, refuses_eq, take?_midasName, Cursor.accept?_along]
  by_cases named : ((c.dropBlanks.run isMidasChar).any isMidasLetter ||
      decide (2 ≤ (c.dropBlanks.run isMidasChar).count '.')) = true
  · simp only [named, Bool.not_true, Bool.false_eq_true, if_false, if_true]
    cases inOperand with
    | true => rfl
    | false =>
      cases colon : (c.dropBlanks.dropWhile isMidasChar).accept? ':' with
      | none =>
        simp only [colons?, colon]
        rfl
      | some f =>
        obtain ⟨r, -, rfl⟩ := Cursor.accept?_eq_some_iff.mp colon
        simp only [colons?, colon, Option.map_some]
        rw [Cursor.skip_along]
        exact congrArg (Prod.mk _) (Cursor.skip_along _ c ':').symm
  · simp only [named]
    rfl

theorem attempt_eq (dialect : Dialect) (inOperand : Bool) (c : Cursor) :
    attempt dialect inOperand c =
      match read? dialect inOperand c with
      | none => (none, c)
      | some (name, d) => (some name, d) := by
  by_cases midas : dialect = .midas
  · rw [midas]
    exact tryMidas_eq inOperand c
  · have plain : attempt dialect inOperand c =
        if !inOperand && !c.atStart || (nameAt dialect c.rest).isEmpty then (none, c)
        else (some (String.ofList (nameAt dialect c.rest)),
          c.drop (nameAt dialect c.rest).length) := by
      cases dialect with
      | midas => exact absurd rfl midas
      | unknown | imlac | oldAmes | newAmes => rfl
    rw [plain, read?_of_ne midas, take?]
    cases inOperand <;> cases c.atStart <;> cases (nameAt dialect c.rest).isEmpty <;> rfl

/-- Reading accepts exactly the texts that start with a label of the dialect, and takes exactly the
label: its blanks, its name and its colons. Where it is done on trial, nothing is left behind: the
cursor does not move on failure, and the saved places are the same in any case. -/
theorem reads_exactly_labels (dialect : Dialect) (inOperand : Bool) (before rest : List Char)
    (saved : List (List Char)) :
    (∀ name d, read? dialect inOperand ⟨before ++ rest, rest, saved⟩ = some (name, d) ↔
      ∃ l : Leading dialect inOperand before, l.text = rest ∧ name = String.ofList l.name ∧
        d = ⟨before ++ rest, l.after, saved⟩) ∧
    attempt dialect inOperand ⟨before ++ rest, rest, saved⟩ =
      match read? dialect inOperand ⟨before ++ rest, rest, saved⟩ with
      | none => (none, ⟨before ++ rest, rest, saved⟩)
      | some (name, d) => (some name, d) := by
  refine ⟨fun name d => ?_, attempt_eq dialect inOperand _⟩
  by_cases midas : dialect = .midas
  · subst midas
    exact read?_iff_midas
  · exact read?_iff_of_ne midas

end Name

end Pds1
