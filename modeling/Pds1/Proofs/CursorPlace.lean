import Pds1.Proofs.LineNumbers
import Pds1.Proofs.OperandTerms

/-!
# What stands before the cursor makes no difference

Reading looks at what is still to be read. What the line holds before the cursor, and which places
are saved, only matters to a label, which may have to stand in column one. So a reader that starts
at the same rest on another line does the same, and stops at the same rest of that line. For labels
this holds as soon as both cursors have left column one, and then it holds of all the statements
that follow on the line.
-/

namespace Pds1

namespace Cursor

/-- The same rest on the line of another cursor, with the places saved there. -/
def along (c b : Cursor) : Cursor := b.moveTo c.rest

theorem along_self (c : Cursor) : c.along c = c := rfl

/-- Going on from a cursor of the same line. -/
theorem along_trans {c d e : Cursor} (h : d.along c = d) (h' : e.along d = e) : e.along c = e := by
  rw [← h] at h'
  exact h'

theorem accept?_eq_some_iff {c d : Cursor} {x : Char} :
    c.accept? x = some d ↔ ∃ r, c.rest = x :: r ∧ c.moveTo r = d := by
  rw [accept?, next?]
  rcases rest : c.rest with _ | ⟨y, r⟩
  · simp
  · by_cases same : y = x
    · simp [same, step, drop, rest]
    · simp [same]

theorem skip_of_head?_ne {c : Cursor} {x : Char} (other : c.rest.head? ≠ some x) :
    c.skip x = c := by
  rw [skip, accept?, next?, if_neg other]
  rfl

section Moves

variable (c b : Cursor)

theorem rest_along : (c.along b).rest = c.rest := rfl

theorem moveTo_along (r : List Char) : (c.along b).moveTo r = (c.moveTo r).along b := rfl

theorem step_along : (c.along b).step = c.step.along b := rfl

theorem dropBlanks_along : (c.along b).dropBlanks = c.dropBlanks.along b := rfl

theorem next?_along : (c.along b).next? = c.next? := congrArg List.head? (rest_along c b)

theorem current_along : (c.along b).current = c.current :=
  congrArg (·.getD endOfLine) (next?_along c b)

theorem lookahead_along : (c.along b).lookahead = c.lookahead :=
  congrArg (·.tail.head?.getD endOfLine) (rest_along c b)

theorem atEnd_along : (c.along b).atEnd = c.atEnd := congrArg List.isEmpty (rest_along c b)

theorem onBlank_along : (c.along b).onBlank = c.onBlank :=
  congrArg (·.any isBlank) (next?_along c b)

theorem operandFollows_along : (c.along b).operandFollows = c.operandFollows := by
  rw [operandFollows, operandFollows, onBlank_along, dropBlanks_along, atEnd_along]

theorem accept?_along (x : Char) : (c.along b).accept? x = (c.accept? x).map (·.along b) := by
  rw [accept?, accept?, apply_ite (Option.map _)]
  rfl

variable {c b} in
theorem along_of_accept? {d : Cursor} {x : Char} (h : c.dropBlanks.accept? x = some d) :
    d.along c = d := by
  rw [accept?] at h
  split at h
  · cases h
    rfl
  · cases h

theorem skip_along (x : Char) : (c.along b).skip x = (c.skip x).along b := by
  simp only [skip, accept?_along]
  cases c.accept? x with
  | none => rfl
  | some d => rfl

end Moves

theorem byteSize_append (xs ys : List Char) : byteSize (xs ++ ys) = byteSize xs + byteSize ys := by
  induction xs with
  | nil => simp [byteSize]
  | cons x xs ih =>
    simp only [byteSize, List.cons_append, List.foldr_cons] at ih ⊢
    omega

theorem byteSize_le_of_suffix {r s : List Char} (h : r <:+ s) : byteSize r ≤ byteSize s := by
  obtain ⟨before, rfl⟩ := h
  rw [byteSize_append]
  omega

/-- The cursor has left column one. -/
def Away (c : Cursor) : Prop := byteSize c.rest < byteSize c.line

theorem Away.not_atStart {c : Cursor} (away : c.Away) : c.atStart = false := by
  rw [atStart, position, beq_eq_false_iff_ne]
  exact Nat.sub_ne_zero_of_lt away

/-- Reading on, along the same line, never leads back. -/
theorem Away.of_suffix {c d : Cursor} (away : c.Away) (h : d.rest <:+ c.rest) :
    (d.along c).Away :=
  Nat.lt_of_le_of_lt (byteSize_le_of_suffix h) away

end Cursor

namespace Number

theorem read?_along (dialect : Dialect) (c b : Cursor) :
    read? dialect (c.along b) = (read? dialect c).map fun p => (p.1, p.2.along b) := by
  simp only [read?, apply_ite (Option.map _), Option.map_some, Option.map_none]
  rfl

end Number

namespace Name

theorem take?_along (name : List Char) (c b : Cursor) :
    take? name (c.along b) = (take? name c).map fun p => (p.1, p.2.along b) := by
  rw [take?, take?, apply_ite (Option.map _)]
  rfl

theorem colons?_along (c b : Cursor) : colons? (c.along b) = (colons? c).map (·.along b) := by
  simp only [colons?, Cursor.accept?_along]
  cases c.accept? ':' with
  | none => rfl
  | some d => simp only [Option.map_some, Cursor.skip_along]

/-- In an operand a name is the same on every line. In the defining position both cursors must be in
column one, or neither. -/
theorem read?_along (dialect : Dialect) (inOperand : Bool) {c b : Cursor}
    (same : inOperand = true ∨ (c.along b).atStart = c.atStart) :
    read? dialect inOperand (c.along b) =
      (read? dialect inOperand c).map fun p => (p.1, p.2.along b) := by
  have column : (inOperand || (c.along b).atStart) = (inOperand || c.atStart) := by
    rcases same with operand | start
    · rw [operand, Bool.true_or, Bool.true_or]
    · rw [start]
  have rest : (c.along b).rest = c.rest := rfl
  have rest' : (c.dropBlanks.along b).rest = c.dropBlanks.rest := rfl
  cases dialect with
  | midas =>
    simp only [read?, Cursor.dropBlanks_along, rest', take?_along]
    cases take? (midasName c.dropBlanks.rest) c.dropBlanks with
    | none => rfl
    | some taken =>
      obtain ⟨name, d⟩ := taken
      cases inOperand with
      | true => rfl
      | false =>
        simp only [Option.map_some, colons?_along]
        cases colons? d with
        | none => rfl
        | some e => rfl
  | imlac | unknown | oldAmes | newAmes =>
    simp only [read?, column, rest, take?_along, apply_ite (Option.map _), Option.map_none]

/-- A name stays on its line. -/
theorem along_of_read? {dialect : Dialect} {inOperand : Bool} {c d : Cursor} {text : String}
    (h : read? dialect inOperand c = some (text, d)) : d.along c = d := by
  have same := read?_along dialect inOperand (c := c) (b := c) (.inr rfl)
  rw [Cursor.along_self, h] at same
  exact (Prod.mk.inj (Option.some.inj same)).2.symm

end Name

namespace Mnemonic

theorem read?_along (display : Bool) (c b : Cursor) :
    read? display (c.along b) = (read? display c).map fun p => (p.1, p.2.along b) := by
  simp only [read?, apply_ite (Option.map _), Option.map_map, Option.map_none]
  rfl

end Mnemonic

namespace Operand

/-- The same reading on another line. -/
def Reading.along (r : Reading) (b : Cursor) : Reading := { r with cursor := r.cursor.along b }

theorem literal_along (location : Int32) (c b : Cursor) (t : Tables) :
    literal location (c.along b) t = (literal location c t).along b := by
  have rest : (c.along b).rest = c.rest := rfl
  simp only [literal, rest]
  cases closing? 0 c.rest with
  | none => rfl
  | some parts => rfl

theorem negate_along (r : Reading) (b : Cursor) : negate (r.along b) = (negate r).along b := by
  rw [negate, negate, apply_ite (Reading.along · b)]
  rfl

variable (dialect : Dialect) (location : Int32)

theorem term_along (c b : Cursor) (t : Tables) :
    term dialect location (c.along b) t = (term dialect location c t).along b := by
  have number (c : Cursor) := Number.read?_along dialect c b
  have name (c : Cursor) := Name.read?_along (c := c) (b := b) dialect true (.inl rfl)
  fun_induction term dialect location c t with
  | case1 c value d found => rw [term, number, found]; rfl
  | case2 c none text d found => rw [term, number, none, name, found]; rfl
  | case3 c none unnamed empty =>
    exact term_of_end dialect location t (by rw [number, none]; rfl) (by rw [name, unnamed]; rfl)
      empty
  | case4 c none unnamed r point =>
    rw [term_cons dialect location t (by rw [number, none]; rfl) (by rw [name, unnamed]; rfl)
      (show (c.along b).rest = _ from point), if_pos rfl]
    rfl
  | case5 c none unnamed x r bracket other isLiteral =>
    rw [term_cons dialect location t (by rw [number, none]; rfl) (by rw [name, unnamed]; rfl)
      (show (c.along b).rest = _ from bracket), if_neg other, if_pos isLiteral]
    exact literal_along location (c.moveTo r) b t
  | case6 c none unnamed r minus other other' ih =>
    rw [term_minus dialect location t (show (c.along b).rest = _ from minus)]
    exact (congrArg negate ih).trans (negate_along _ b)
  | case7 c none unnamed x r cons point bracket minus =>
    rw [term_cons dialect location t (by rw [number, none]; rfl) (by rw [name, unnamed]; rfl)
      (show (c.along b).rest = _ from cons), if_neg point, if_neg bracket, if_neg minus]
    rfl

theorem extend_along (left : Reading) (b : Cursor) :
    extend dialect location (left.along b) = (extend dialect location left).along b := by
  fun_induction extend dialect location left with
  | case1 left invalid =>
    rw [extend, if_pos (show (left.along b).isInvalid = true from invalid)]
  | case2 left valid empty =>
    exact extend_of_rest dialect location fun x first => by
      cases (show left.cursor.rest.head? = some x from first).symm.trans (congrArg List.head? empty)
  | case3 left valid x r cons none =>
    refine extend_of_rest dialect location fun y first => ?_
    cases (show left.cursor.rest.head? = some y from first).symm.trans (congrArg List.head? cons)
    exact none
  | case4 left valid x r cons op operator alone =>
    have valid : (left.along b).isInvalid = false := Bool.eq_false_iff.mpr valid
    rw [extend_cons dialect location valid cons operator, if_pos alone]
    rfl
  | case5 left valid x r cons op operator more right invalid =>
    have valid : (left.along b).isInvalid = false := Bool.eq_false_iff.mpr valid
    have read : term dialect location ((left.along b).cursor.moveTo r) (left.along b).tables =
        right.along b := term_along dialect location (left.cursor.moveTo r) b left.tables
    rw [extend_cons dialect location valid cons operator, if_neg more]
    simp only [read]
    exact if_pos invalid
  | case6 left valid x r cons op operator more right valid' exprs ih =>
    have valid : (left.along b).isInvalid = false := Bool.eq_false_iff.mpr valid
    have read : term dialect location ((left.along b).cursor.moveTo r) (left.along b).tables =
        right.along b := term_along dialect location (left.cursor.moveTo r) b left.tables
    rw [extend_cons dialect location valid cons operator, if_neg more]
    simp only [read]
    exact (if_neg valid').trans ih

theorem read_along (c b : Cursor) (t : Tables) :
    read dialect location (c.along b) t = (read dialect location c t).along b := by
  rw [read, term_along, extend_along]
  rfl

end Operand

namespace Assembly

theorem operand_along (a : Assembly) (c b : Cursor) : a.operand (c.along b) =
    ((a.operand c).1, (a.operand c).2.1.along b, (a.operand c).2.2) := by
  simp only [operand, Operand.read_along]
  rfl

section Orders

variable (m : Mnemonic) (tag : Option Tag) (c b : Cursor) (a : Assembly)

theorem indirect_along : indirect m tag (c.along b) a =
    ((indirect m tag c a).1, (indirect m tag c a).2.1.along b, (indirect m tag c a).2.2) := by
  simp only [indirect, Cursor.dropBlanks_along, Cursor.current_along]
  split
  · rfl
  · rfl

theorem processor_along : processor m tag (c.along b) a =
    ((processor m tag c a).1.along b, (processor m tag c a).2) := by
  simp only [processor, indirect_along, operand_along]
  split
  · rfl
  · rfl

theorem requiredOperand_along (next : ExprId → Assembly → Assembly) :
    requiredOperand m (c.along b) a next =
      ((requiredOperand m c a next).1.along b, (requiredOperand m c a next).2) := by
  simp only [requiredOperand, Cursor.operandFollows_along, Cursor.dropBlanks_along, operand_along]
  split
  · rfl
  · rfl

theorem display_along : display m tag (c.along b) a =
    ((display m tag c a).1.along b, (display m tag c a).2) := by
  simp only [display, requiredOperand_along]
  split
  · rfl
  · rfl

theorem displayOperate_along : displayOperate m (c.along b) a =
    ((displayOperate m c a).1.along b, (displayOperate m c a).2) := by
  simp only [displayOperate, requiredOperand_along]
  split
  · rfl
  · rfl

theorem combine_along (first : String) (code : Int32) : combine first code (c.along b) a =
    ((combine first code c a).1, (combine first code c a).2.1.along b,
      (combine first code c a).2.2) := by
  have mnemonic (c : Cursor) := Mnemonic.read?_along false c b
  have rest (c : Cursor) : (c.along b).rest = c.rest := rfl
  fun_induction combine first code c a with
  | case1 code c empty => rw [combine_eq, rest, empty]
  | case2 code c x r cons joint none =>
    rw [combine_eq, rest, cons]
    simp only [joint, if_true, Cursor.moveTo_along, mnemonic, none, Option.map_none]
  | case3 code c x r cons joint next d found other =>
    rw [combine_eq, rest, cons]
    simp only [joint, if_true, Cursor.moveTo_along, mnemonic, found, Option.map_some]
    rw [if_pos other]
  | case4 code c x r cons joint next d found same halt =>
    rw [combine_eq, rest, cons]
    simp only [joint, if_true, Cursor.moveTo_along, mnemonic, found, Option.map_some]
    rw [if_neg same, if_pos halt]
  | case5 code c x r cons joint next d found same more ih =>
    rw [combine_eq, rest, cons]
    simp only [joint, if_true, Cursor.moveTo_along, mnemonic, found, Option.map_some]
    rw [if_neg same, if_neg more, ih]
  | case6 code c x r cons joint =>
    rw [combine_eq, rest, cons]
    simp only [if_neg joint]

theorem operate_along : operate m (c.along b) a =
    ((operate m c a).1.along b, (operate m c a).2) := by
  simp only [operate, combine_along]

theorem shift_along : shift m tag (c.along b) a =
    ((shift m tag c a).1.along b, (shift m tag c a).2) := by
  simp only [shift, indirect_along, operand_along]

end Orders

section Directives

variable (d : Directive) (c b : Cursor) (a : Assembly)

theorem movement_along (axis : String) : movement axis (c.along b) a =
    ((movement axis c a).1, (movement axis c a).2.1.along b, (movement axis c a).2.2) := by
  simp only [movement, Cursor.dropBlanks_along, Cursor.accept?_along, Cursor.next?_along]
  cases c.dropBlanks.accept? ',' with
  | none => rfl
  | some e =>
    simp only [Option.map_some, Cursor.dropBlanks_along, operand_along]
    obtain ⟨id, f, g⟩ := a.operand e.dropBlanks
    split
    · rfl
    · simp only
      obtain ⟨_ | _, g⟩ := g.valueNow id
      · rfl
      · rfl

theorem longVector_along : longVector (c.along b) a =
    ((longVector c a).1.along b, (longVector c a).2) := by
  simp only [longVector, Cursor.operandFollows_along, Cursor.dropBlanks_along, Cursor.next?_along,
    Cursor.step_along, movement_along]
  split
  · obtain ⟨_ | x, e, f⟩ := movement "X" c.dropBlanks.step
      (a.noteIf (c.dropBlanks.next?.bind Vector.beam?).isNone (.invalidBeam c.dropBlanks.next?))
    · rfl
    · simp only [movement_along]
      obtain ⟨_ | y, e, f⟩ := movement "Y" e f
      · rfl
      · rfl
  · rfl

theorem incrementByte_along (first : Bool) : incrementByte first (c.along b) a =
    ((incrementByte first c a).1, (incrementByte first c a).2.1.along b,
      (incrementByte first c a).2.2) := by
  have rest : (c.along b).rest = c.rest := rfl
  simp only [incrementByte, Number.read?_along, rest, Cursor.next?_along, Cursor.moveTo_along,
    Cursor.step_along]
  cases Number.read? a.dialect c with
  | some number => rfl
  | none =>
    simp only [Option.map_none]
    cases Increment.vector? c.rest with
    | some vector => rfl
    | none =>
      simp only
      split
      · split
        · rfl
        · rfl
      · cases c.next?.bind Increment.letter? with
        | none => rfl
        | some byte => rfl

theorem increments_along : increments (c.along b) a =
    ((increments c a).1.along b, (increments c a).2) := by
  simp only [increments, Cursor.operandFollows_along, Cursor.dropBlanks_along, incrementByte_along,
    Cursor.accept?_along, Cursor.next?_along]
  split
  · split
    · cases (incrementByte true c.dropBlanks a).2.1.dropBlanks.accept? ',' with
      | none => rfl
      | some e => simp only [Option.map_some, Cursor.dropBlanks_along, incrementByte_along]
    · rfl
  · rfl

theorem origin_along : origin d (c.along b) a =
    ((origin d c a).1.along b, (origin d c a).2) := by
  simp only [origin, Cursor.dropBlanks_along, operand_along]
  obtain ⟨id, e, f⟩ := a.operand c.dropBlanks
  split
  · rfl
  · simp only
    obtain ⟨_ | _, f⟩ := f.valueNow id
    · rfl
    · rfl

theorem data_along : data d (c.along b) a = ((data d c a).1.along b, (data d c a).2) := by
  simp only [data, Cursor.operandFollows_along, Cursor.dropBlanks_along, operand_along]
  split
  · split
    · rfl
    · rfl
  · rfl

theorem stop_along : stop (c.along b) a = ((stop c a).1.along b, (stop c a).2) := by
  simp only [stop, Cursor.operandFollows_along, Cursor.dropBlanks_along, Cursor.current_along,
    operand_along]
  split
  · rfl
  · rfl

theorem zero_along : zero (c.along b) a = ((zero c a).1.along b, (zero c a).2) := by
  simp only [zero, Cursor.dropBlanks_along, Cursor.accept?_along]
  cases c.dropBlanks.accept? '*' with
  | none => rfl
  | some e => simp only [Option.map_some, Cursor.skip_along]

theorem directive_along (pool : Assembly → Assembly) : directive pool d (c.along b) a =
    ((directive pool d c a).1.along b, (directive pool d c a).2) := by
  cases d with
  | block | bss | loc | org | rel => exact origin_along _ c b a
  | data | zro => exact data_along _ c b a
  | dlv => exact longVector_along c b a
  | stop => exact stop_along c b a
  | inc => exact increments_along c b a
  | zzz => exact zero_along c b a
  | _ => rfl

end Directives

section Statements

variable (pool : Assembly → Assembly) (c b : Cursor) (a : Assembly)

theorem carryOut_along (m : Mnemonic) (tag : Option Tag) : carryOut pool m tag (c.along b) a =
    ((carryOut pool m tag c a).1.along b, (carryOut pool m tag c a).2) := by
  rw [carryOut, carryOut]
  cases m.group with
  | processor => exact processor_along m tag c b a
  | display => exact display_along m tag c b a
  | displayOperate => exact displayOperate_along m c b a
  | iot => rfl
  | operate => exact operate_along m c b a
  | shift => exact shift_along m tag c b a
  | skip => rfl
  | directive d => exact directive_along d c b a pool

/-- Carrying out an order stays on its line. -/
theorem along_of_carryOut (m : Mnemonic) (tag : Option Tag) :
    (carryOut pool m tag c a).1.along c = (carryOut pool m tag c a).1 :=
  (congrArg Prod.fst (carryOut_along pool c c a m tag)).symm

theorem readTag_along (dialect : Dialect) : readTag dialect (c.along b) =
    ((readTag dialect c).1, (readTag dialect c).2.along b) := by
  simp only [readTag, Cursor.current_along, Cursor.lookahead_along]
  split
  · split
    · rfl
    · split
      · rfl
      · rfl
  · rfl

theorem order_along : order pool (c.along b) a =
    ((order pool c a).1, (order pool c a).2.1.along b, (order pool c a).2.2) := by
  rw [order, order, readTag_along]
  obtain ⟨tag, e⟩ := readTag a.dialect c
  simp only [Mnemonic.read?_along]
  cases Mnemonic.read? (tag = some .display) e with
  | none => simp only [Option.map_none, operand_along]
  | some found => simp only [Option.map_some, carryOut_along]

end Statements

section Lines

variable {c b : Cursor}

/-- Behind column one, labels are the same on every line. -/
theorem readLabels_along (away : c.Away) (away' : (c.along b).Away) (label : Option String)
    (a : Assembly) : readLabels label (c.along b) a =
      ((readLabels label c a).1, (readLabels label c a).2.1.along b,
        (readLabels label c a).2.2) := by
  have name {c : Cursor} (away : c.Away) (away' : (c.along b).Away) (dialect : Dialect) :=
    Name.read?_along dialect false (.inr (away'.not_atStart.trans away.not_atStart.symm))
  fun_induction readLabels label c a with
  | case1 label c a none =>
    rw [readLabels_eq, name away away', none]
    rfl
  | case2 label c a text d found midas ih =>
    have further : d.dropBlanks.rest <:+ c.rest :=
      d.dropBlanks_suffix.trans (Name.read?_suffix found)
    have stays : d.dropBlanks.along c = d.dropBlanks :=
      congrArg Cursor.dropBlanks (Name.along_of_read? found)
    rw [readLabels_eq, name away away', found]
    simp only [Option.map_some, midas, if_true, Cursor.dropBlanks_along]
    exact ih (stays ▸ away.of_suffix further) (away'.of_suffix further)
  | case3 label c a text d found other =>
    rw [readLabels_eq, name away away', found]
    simp only [Option.map_some, if_neg other]

/-- Labels stay on their line. -/
theorem along_of_readLabels (label : Option String) (c : Cursor) (a : Assembly) :
    (readLabels label c a).2.1.along c = (readLabels label c a).2.1 := by
  fun_induction readLabels label c a with
  | case1 => rfl
  | case2 label c a text d found midas ih =>
    rw [← Name.along_of_read? found] at ih ⊢
    exact ih
  | case3 label c a text d found other => exact Name.along_of_read? found

/-- An order stays on its line. -/
theorem along_of_order (pool : Assembly → Assembly) (c : Cursor) (a : Assembly) :
    (order pool c a).2.1.along c = (order pool c a).2.1 :=
  (congrArg (·.2.1) (order_along pool c c a)).symm

/-- Behind column one, the statements that follow are the same on every line. -/
theorem statement_along (pool : Assembly → Assembly) (away : c.Away) (away' : (c.along b).Away)
    (kind : Line.Kind) (continued : Bool) (a : Assembly) :
    statement pool kind continued (c.along b) a = statement pool kind continued c a := by
  fun_induction statement pool kind continued c a with
  | case1 kind continued c a labels d atEnd =>
    rw [statement_eq, readLabels_along away away']
    exact if_pos atEnd
  | case2 kind continued c a labels d atEnd unlabelled =>
    rw [statement_eq, readLabels_along away away']
    exact (if_neg atEnd).trans (if_pos unlabelled)
  | case3 kind continued c a labels d atEnd labelled this kind' last =>
    rw [statement_eq, readLabels_along away away']
    refine (if_neg atEnd).trans ((if_neg labelled).trans ?_)
    simp only [Cursor.dropBlanks_along, order_along, Cursor.accept?_along]
    simp only [this, d, labels] at last
    simp only [last, Option.map_none]
    rfl
  | case4 kind continued c a labels d atEnd labelled this kind' e more ih =>
    have further : e.rest <:+ c.rest :=
      ((((Cursor.accept?_suffix more).trans (Cursor.dropBlanks_suffix _)).trans
        (order_suffix pool d.dropBlanks labels.2.2)).trans d.dropBlanks_suffix).trans
        (readLabels_suffix none c a)
    have stays : e.along c = e := Cursor.along_trans (along_of_readLabels none c a)
      (Cursor.along_trans (along_of_order pool d.dropBlanks labels.2.2)
        (Cursor.along_of_accept? more))
    rw [statement_eq, readLabels_along away away']
    refine (if_neg atEnd).trans ((if_neg labelled).trans ?_)
    simp only [Cursor.dropBlanks_along, order_along, Cursor.accept?_along]
    simp only [this, d, labels] at more
    simp only [more, Option.map_some]
    exact ih (stays ▸ away.of_suffix further) (away'.of_suffix further)

end Lines

end Assembly

end Pds1
