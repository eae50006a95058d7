import Pds1.Assembly.Directive
import Pds1.Assembly.Instruction

/-!
# Statements

A statement is any labels of its own, then an order or a bare operand. A question mark starts
another statement on the same line. Every statement after the first begins further on in the line,
which is why reading a line ends.
-/

namespace Pds1

namespace Assembly

/-- Binds a label to the location counter. -/
def bindLabel (a : Assembly) (name : String) : Assembly :=
  let twice := (a.symbols.binding? name).isSome
  { a with symbols := a.symbols.bind name (.bound a.location a.relocatable false) }.noteIf twice
    (.duplicateLabel name)

@[simp] theorem dialect_bindLabel (a : Assembly) (name : String) :
    (a.bindLabel name).dialect = a.dialect := by
  unfold bindLabel noteIf
  simp only
  split <;> rfl

end Assembly

namespace Name

theorem take?_length_lt {name : List Char} {c d : Cursor} {s : String} (hc : c.rest ≠ [])
    (h : take? name c = some (s, d)) : d.rest.length < c.rest.length := by
  rw [take?] at h
  split at h
  · cases h
  · next hn =>
    cases h
    have h₁ : 0 < name.length := by
      cases name with
      | nil => simp at hn
      | cons => simp
    have h₂ := List.length_pos_iff.2 hc
    simp only [Cursor.drop, Cursor.rest_moveTo, List.length_drop]
    omega

/-- A name takes at least one character. -/
theorem read?_length_lt {dialect : Dialect} {inOperand : Bool} {c d : Cursor} {s : String}
    (h : read? dialect inOperand c = some (s, d)) : d.rest.length < c.rest.length := by
  simp only [read?] at h
  split at h
  · split at h
    · cases h
    · next name e he =>
      have hb : c.dropBlanks.rest ≠ [] := by
        intro hnil
        simp [hnil, midasName, take?] at he
      have hl := take?_length_lt hb he
      have hs := c.dropBlanks_suffix.length_le
      split at h
      · cases h
        omega
      · cases hc : colons? e with
        | none => simp [hc] at h
        | some f =>
          simp only [hc, Option.map_some, Option.some.injEq, Prod.mk.injEq] at h
          obtain ⟨-, rfl⟩ := h
          have := colons?_length_lt hc
          omega
  · split at h
    · refine take?_length_lt (fun hnil => ?_) h
      simp [hnil, imlacName, take?] at h
    · cases h
  · split at h
    · refine take?_length_lt (fun hnil => ?_) h
      simp [hnil, amesName, take?] at h
    · cases h

end Name

namespace Assembly

/-- Reads the labels of a statement and hands back the last one. Only the Midas dialect allows more
than one. -/
def readLabels (label : Option String) (c : Cursor) (a : Assembly) :
    Option String × Cursor × Assembly :=
  match _h : Name.read? a.dialect false c with
  | none => (label, c, a)
  | some (name, d) =>
    if a.dialect.isMidas then readLabels (some name) d.dropBlanks (a.bindLabel name)
    else (some name, d, a.bindLabel name)
termination_by c.rest.length
decreasing_by
  have h₁ := Name.read?_length_lt _h
  have h₂ := d.dropBlanks_suffix.length_le
  omega

/-- A tag and the blanks after it. The Midas dialect has none. -/
def readTag (dialect : Dialect) (c : Cursor) : Option Tag × Cursor :=
  if !dialect.isMidas && Cursor.isBlank c.lookahead then
    if c.current = 'I' || c.current = 'i' || c.current = '*' then
      (some .indirect, c.step.dropBlanks)
    else if c.current = 'D' || c.current = 'd' then (some .display, c.step.dropBlanks)
    else (none, c)
  else (none, c)

/-- Reads the operands of an order and emits its words. -/
def carryOut (pool : Assembly → Assembly) (m : Mnemonic) (tag : Option Tag) (c : Cursor)
    (a : Assembly) : Cursor × Assembly :=
  match m.group with
  | .processor => processor m tag c a
  | .display => display m tag c a
  | .displayOperate => displayOperate m c a
  | .iot => iot m tag c a
  | .operate => operate m c a
  | .shift => shift m tag c a
  | .skip => (c, a.emitWord m.code)
  | .directive d => directive pool d c a

/-- One order or bare operand, and the kind of line it makes. A display tag is used up by the name
that it completes. -/
def order (pool : Assembly → Assembly) (c : Cursor) (a : Assembly) :
    Line.Kind × Cursor × Assembly :=
  let (tag, c) := readTag a.dialect c
  match Mnemonic.read? (tag = some .display) c with
  | some (m, d) =>
    let (d, a) := carryOut pool m (if tag = some .display then none else tag) d a
    (m.lineKind, d, a)
  | none =>
    let (operand, c, a) := a.operand c
    (.data, c, if a.exprs.isInvalid operand then a.emitWord 0 else a.emitExpr operand)

theorem readLabels_suffix (label : Option String) (c : Cursor) (a : Assembly) :
    (readLabels label c a).2.1.rest <:+ c.rest := by
  fun_induction readLabels label c a with
  | case1 => exact List.suffix_refl _
  | case2 label c a name d h _ ih =>
    exact (ih.trans d.dropBlanks_suffix).trans (Name.read?_suffix h)
  | case3 label c a name d h => exact Name.read?_suffix h

theorem readTag_suffix (dialect : Dialect) (c : Cursor) :
    (readTag dialect c).2.rest <:+ c.rest := by
  have hs := (Cursor.dropBlanks_suffix c.step).trans c.step_suffix
  rw [readTag]
  split
  · split
    · exact hs
    · split
      · exact hs
      · exact List.suffix_refl _
  · exact List.suffix_refl _

theorem carryOut_suffix (pool : Assembly → Assembly) (m : Mnemonic) (tag : Option Tag)
    (c : Cursor) (a : Assembly) : (carryOut pool m tag c a).1.rest <:+ c.rest := by
  rw [carryOut]
  split
  · exact processor_suffix _ _ _ _
  · exact display_suffix _ _ _ _
  · exact displayOperate_suffix _ _ _
  · exact List.suffix_refl _
  · exact combine_suffix _ _ _ _
  · exact shift_suffix _ _ _ _
  · exact List.suffix_refl _
  · exact directive_suffix _ _ _ _

theorem order_suffix (pool : Assembly → Assembly) (c : Cursor) (a : Assembly) :
    (order pool c a).2.1.rest <:+ c.rest := by
  have ht := readTag_suffix a.dialect c
  rw [order]
  simp only
  split
  · next m d h =>
    exact ((carryOut_suffix _ _ _ _ _).trans (Mnemonic.read?_suffix h)).trans ht
  · exact (operand_suffix _ _).trans ht

/-- The kind of a line that ends before another order. -/
def finalKind (kind : Line.Kind) (label : Option String) : Line.Kind :=
  if kind = .unclassified then (if label.isSome then .labelOnly else .blank) else kind

/-- Reads statements to the end of the line. `kind` is what earlier statements made of it, and
`continued` is set after a question mark. -/
def statement (pool : Assembly → Assembly) (kind : Line.Kind) (continued : Bool) (c : Cursor)
    (a : Assembly) : Line.Kind × Assembly :=
  let labels := readLabels none c a
  let d := labels.2.1
  if d.dropBlanks.atEnd then (finalKind kind labels.1, labels.2.2)
  else if !(d.onBlank || a.dialect.isMidas || continued) then
    (kind, labels.2.2.note ((labels.1.map Diagnostic.labelNotTerminated).getD .labelExpected))
  else
    let this := order pool d.dropBlanks labels.2.2
    let kind := if kind = .unclassified then this.1 else kind
    match _h : this.2.1.dropBlanks.accept? '?' with
    | none => (kind, this.2.2)
    | some e => statement pool kind true e this.2.2
termination_by c.rest.length
decreasing_by
  have h₁ := Cursor.accept?_length_lt _h
  have h₂ := (Cursor.dropBlanks_suffix this.2.1).length_le
  have h₃ : this.2.1.rest.length ≤ d.dropBlanks.rest.length :=
    (order_suffix pool d.dropBlanks labels.2.2).length_le
  have h₄ := d.dropBlanks_suffix.length_le
  have h₅ : d.rest.length ≤ c.rest.length := (readLabels_suffix none c a).length_le
  omega

end Assembly

end Pds1
