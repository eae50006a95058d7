import Pds1.Proofs.CursorPlace
import Pds1.Proofs.PlainOrders

/-!
# Display tags

A `D` with blanks behind it is a tag: it completes the name of the mnemonic that follows and is used
up by it. So a display order may be written apart or together. The two ways leave the cursor at the
same rest, on lines that differ before it, with no tag left over; from there on nothing can tell
them apart.
-/

namespace Pds1

namespace Mnemonic

/-- A mnemonic may end before `after`. -/
def Ends (after : List Char) : Prop :=
  ∀ x ∈ after.head?, Cursor.isBlank x = true ∨ x = '*' ∨ x = '|' ∨ x = '\\'

theorem Ends.endsName {after : List Char} (ends : Ends after) :
    endsName after.head? = true := by
  cases after with
  | nil => rfl
  | cons x r =>
    rcases ends x rfl with blank | rfl | rfl | rfl
    · rcases Cursor.eq_of_isBlank blank with rfl | rfl
      · rfl
      · rfl
    · rfl
    · rfl
    · rfl

theorem Ends.not_isAlpha {after : List Char} (ends : Ends after) :
    ∀ x ∈ after.head?, x.isAlpha = false := by
  intro x first
  rcases ends x first with blank | rfl | rfl | rfl
  · rcases Cursor.eq_of_isBlank blank with rfl | rfl
    · rfl
    · rfl
  · rfl
  · rfl
  · rfl

/-- A word of letters is looked up as a whole. -/
theorem read?_of_word (display : Bool) {c : Cursor} {word after : List Char} (nonempty : word ≠ [])
    (letters : word.all Char.isAlpha = true) (ends : Ends after) (h : c.rest = word ++ after) :
    read? display c = (find? (String.ofList (if display then 'D' :: word else word))).map
      fun m => (m, c.moveTo after) := by
  rw [read?_of_run display nonempty letters ends.not_isAlpha h, if_pos ends.endsName]

/-- What is left of a name behind its `D`. -/
theorem letters_of_find? {word : List Char} {m : Mnemonic}
    (known : find? (String.ofList ('D' :: word)) = some m) :
    word ≠ [] ∧ word.all Char.isAlpha = true := by
  have table : ∀ m ∈ all, m.name.toList.head? = some 'D' →
      m.name.toList.tail ≠ [] ∧ m.name.toList.tail.all Char.isAlpha = true := by decide +kernel
  have name : m.name = String.ofList ('D' :: word) := by simpa using List.find?_some known
  have own := table m (List.mem_of_find?_eq_some known)
  rw [name, String.toList_ofList] at own
  exact own rfl

end Mnemonic

namespace Assembly

section Tags

variable {c : Cursor} {word after : List Char} {m : Mnemonic}
  (known : Mnemonic.find? (String.ofList ('D' :: word)) = some m) (ends : Mnemonic.Ends after)

include known

theorem word_cons : ∃ x r, word = x :: r ∧ Cursor.isBlank x = false := by
  obtain ⟨nonempty, letters⟩ := Mnemonic.letters_of_find? known
  obtain ⟨x, r, rfl⟩ := List.exists_cons_of_ne_nil nonempty
  refine ⟨x, r, rfl, ?_⟩
  have letter := List.all_eq_true.mp letters x List.mem_cons_self
  apply Bool.eq_false_iff.mpr
  intro blank
  rcases Cursor.eq_of_isBlank blank with rfl | rfl
  · cases letter
  · cases letter

include ends

/-- Written together, the name is read as it stands. -/
theorem order_of_name (pool : Assembly → Assembly) (h : c.rest = 'D' :: (word ++ after))
    (a : Assembly) :
    order pool c a = (m.lineKind, carryOut pool m none (c.moveTo after) a) := by
  obtain ⟨-, letters⟩ := Mnemonic.letters_of_find? known
  obtain ⟨x, r, rfl, other⟩ := word_cons known
  have untagged : readTag a.dialect c = (none, c) := by
    have second : Cursor.isBlank c.lookahead = false := by
      rw [Cursor.lookahead, h]
      exact other
    rw [readTag, second, Bool.and_false]
    rfl
  have whole : ('D' :: x :: r).all Char.isAlpha = true := by
    rw [List.all_cons, letters]
    rfl
  have named : Mnemonic.read? (decide ((none : Option Tag) = some .display)) c =
      some (m, c.moveTo after) := by
    rw [Mnemonic.read?_of_word _ (List.cons_ne_nil 'D' (x :: r)) whole ends h]
    exact congrArg (Option.map _) known
  simp only [order, untagged, named]
  rfl

/-- Written apart, the tag completes the name and is used up. -/
theorem order_of_tag (pool : Assembly → Assembly) {gap : Indent}
    (h : c.rest = 'D' :: (gap.chars ++ (word ++ after))) {a : Assembly}
    (other : a.dialect ≠ .midas) :
    order pool c a = (m.lineKind, carryOut pool m none (c.moveTo after) a) := by
  obtain ⟨nonempty, letters⟩ := Mnemonic.letters_of_find? known
  have blank := List.all_eq_true.mp gap.blank
  have behind : c.step.dropBlanks = c.moveTo (word ++ after) := by
    obtain ⟨x, r, rfl, letter⟩ := word_cons known
    have rest : c.step.rest = gap.chars ++ (x :: r ++ after) := by
      simp [Cursor.step, Cursor.drop, h]
    exact Name.dropBlanks_append gap.blank rest letter
  have tagged : readTag a.dialect c = (some .display, c.moveTo (word ++ after)) := by
    obtain ⟨y, s, cons⟩ := List.exists_cons_of_ne_nil gap.nonempty
    have second : Cursor.isBlank c.lookahead = true := by
      rw [Cursor.lookahead, h, cons]
      exact blank y (by simp [cons])
    have first : c.current = 'D' := by
      rw [Cursor.current, Cursor.next?, h]
      rfl
    have midas : a.dialect.isMidas = false := decide_eq_false other
    rw [readTag, midas, second, first, behind]
    rfl
  have named : Mnemonic.read? true (c.moveTo (word ++ after)) = some (m, c.moveTo after) := by
    rw [Mnemonic.read?_of_word true nonempty letters ends (Cursor.rest_moveTo c _)]
    exact congrArg (Option.map _) known
  simp only [order, tagged, decide_true, named, if_true]

end Tags

/-- Outside the Midas dialect, an indented line begins with an order. -/
theorem statement_of_indent {a : Assembly} (other : a.dialect ≠ .midas) {c : Cursor}
    {indent : Indent} {x : Char} {r : List Char} (h : c.rest = indent.chars ++ x :: r)
    (letter : Cursor.isBlank x = false) {pool : Assembly → Assembly} {kind' : Line.Kind}
    {d : Cursor} {b : Assembly} (ordered : order pool (c.moveTo (x :: r)) a = (kind', d, b))
    (kind : Line.Kind) (continued : Bool) :
    statement pool kind continued c a =
      let kind := if kind = .unclassified then kind' else kind
      match d.dropBlanks.accept? '?' with
      | none => (kind, b)
      | some e => statement pool kind true e b := by
  obtain ⟨y, s, cons⟩ := List.exists_cons_of_ne_nil indent.nonempty
  have blank := List.all_eq_true.mp indent.blank
  have first : c.rest = y :: (s ++ x :: r) := by rw [h, cons]; rfl
  have own : Cursor.isBlank y = true := blank y (by simp [cons])
  have labels : readLabels none c a = (none, c, a) := by
    rw [readLabels_eq, Name.read?_of_blank other false first own]
  have behind : c.dropBlanks = c.moveTo (x :: r) :=
    Name.dropBlanks_append indent.blank h letter
  have onBlank : c.onBlank = true := by
    rw [Cursor.onBlank, Cursor.next?, first]
    exact own
  rw [statement_eq, labels]
  simp only [behind, ordered, onBlank, Bool.true_or, Bool.not_true, Bool.false_eq_true, if_false]
  rfl

/-- An indented line is longer than what stands behind its order. -/
theorem away_of_indent {indent text after : List Char} (nonempty : indent ≠ [])
    (h : after <:+ text) : ((Cursor.ofList (indent ++ text)).moveTo after).Away := by
  obtain ⟨x, r, rfl⟩ := List.exists_cons_of_ne_nil nonempty
  have shorter := Cursor.byteSize_le_of_suffix (h.trans (List.suffix_append r text))
  have first := x.utf8Size_pos
  change Cursor.byteSize after < x.utf8Size + Cursor.byteSize (r ++ text)
  omega

/-- Outside the Midas dialect an indented `D`, blanks and a word that make up the name of an order
read as the name written together, with the same kind of line and the same state after it. -/
theorem display_tag_folds (pool : Assembly → Assembly) (kind : Line.Kind) (continued : Bool)
    {a : Assembly} (other : a.dialect ≠ .midas) (indent indent' gap : Indent)
    {word after : List Char} {m : Mnemonic}
    (known : Mnemonic.find? (String.ofList ('D' :: word)) = some m) (ends : Mnemonic.Ends after) :
    statement pool kind continued
        (.ofList (indent.chars ++ 'D' :: (gap.chars ++ (word ++ after)))) a =
      statement pool kind continued (.ofList (indent'.chars ++ 'D' :: (word ++ after))) a := by
  generalize apart : Cursor.ofList (indent.chars ++ 'D' :: (gap.chars ++ (word ++ after))) = c
  generalize together : Cursor.ofList (indent'.chars ++ 'D' :: (word ++ after)) = d
  have rest : c.rest = indent.chars ++ 'D' :: (gap.chars ++ (word ++ after)) := by rw [← apart]; rfl
  have rest' : d.rest = indent'.chars ++ 'D' :: (word ++ after) := by rw [← together]; rfl
  have away : (c.moveTo after).Away := by
    rw [← apart]
    exact away_of_indent indent.nonempty ⟨'D' :: (gap.chars ++ word), by simp⟩
  have away' : (d.moveTo after).Away := by
    rw [← together]
    exact away_of_indent indent'.nonempty ⟨'D' :: word, by simp⟩
  -- both come to carrying out the order at the same rest, each on its own line
  have tagged : order pool (c.moveTo ('D' :: (gap.chars ++ (word ++ after)))) a =
      (m.lineKind, carryOut pool m none (c.moveTo after) a) :=
    order_of_tag known ends pool (Cursor.rest_moveTo c _) other
  have named : order pool (d.moveTo ('D' :: (word ++ after))) a =
      (m.lineKind, carryOut pool m none (d.moveTo after) a) :=
    order_of_name known ends pool (Cursor.rest_moveTo d _) a
  have carried : carryOut pool m none (c.moveTo after) a =
      ((carryOut pool m none (d.moveTo after) a).1.along c,
        (carryOut pool m none (d.moveTo after) a).2) :=
    carryOut_along pool (d.moveTo after) c a m none
  have stays := along_of_carryOut pool (d.moveTo after) a m none
  have further := carryOut_suffix pool m none (d.moveTo after) a
  rw [carried] at tagged
  generalize carryOut pool m none (d.moveTo after) a = r at tagged named stays further
  obtain ⟨f, b⟩ := r
  rw [statement_of_indent other rest rfl tagged, statement_of_indent other rest' rfl named]
  simp only [Cursor.dropBlanks_along, Cursor.accept?_along]
  cases more : f.dropBlanks.accept? '?' with
  | none => rfl
  | some e =>
    have onward : e.rest <:+ after :=
      ((Cursor.accept?_suffix more).trans f.dropBlanks_suffix).trans further
    have same : e.along (d.moveTo after) = e :=
      Cursor.along_trans stays (Cursor.along_of_accept? more)
    exact statement_along pool (same ▸ away'.of_suffix onward) (away.of_suffix onward) _ true b

/-- A tag, a folded name and a second statement behind a question mark. -/
theorem display_tag_folds_jump :
    let a : Assembly := { init .imlac with location := 0o100 }
    Mnemonic.find? "DJMP" = some ⟨"DJMP", 0o060000, .display⟩ ∧
      statement placePool .unclassified false (.ofText "\tD \tJMP 7?I JMP A") a =
        statement placePool .unclassified false (.ofText "\tDJMP 7?I JMP A") a ∧
      (statement placePool .unclassified false (.ofText "\tDJMP 7?I JMP A") a).2.code.size = 2 := by
  intro a
  let indent : Indent := ⟨⟨['\t'], rfl⟩, by decide⟩
  let gap : Indent := ⟨⟨[' ', '\t'], rfl⟩, by decide⟩
  have known : Mnemonic.find? "DJMP" = some ⟨"DJMP", 0o060000, .display⟩ := by decide +kernel
  have folded : Mnemonic.find? (String.ofList ('D' :: "JMP".toList)) =
    some ⟨"DJMP", 0o060000, .display⟩ := known
  have ends : Mnemonic.Ends " 7?I JMP A".toList := by
    rintro _ ⟨⟩
    exact .inl rfl
  have folds := display_tag_folds placePool .unclassified false (a := a) (by decide) indent indent
    gap folded ends
  exact ⟨known, folds, by decide +kernel⟩

end Assembly

end Pds1
