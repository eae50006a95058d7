import Pds1.Proofs.LiteralQueue

/-!
# Line numbers make no difference

A cell remembers the line it came from, and the state counts comments, but no reader looks at
either. So reading commutes with forgetting them: a reader that starts from a state without line
numbers goes in lockstep with one that starts from the state itself. Only a literal pool numbers its
lines anew, so there the numbers are forgotten once more afterwards.
-/

namespace Pds1

/-- A cell without the number of its line. -/
def Cell.unnumbered (cell : Cell) : Cell := { cell with line := 0 }

namespace Assembly

/-- A state without the numbers of lines and the count of comments. -/
def unnumbered (a : Assembly) : Assembly :=
  { a with code := a.code.map Cell.unnumbered, lineNumber := 0, comments := 0 }

@[simp] theorem unnumbered_unnumbered (a : Assembly) : a.unnumbered.unnumbered = a.unnumbered := by
  have twice : Cell.unnumbered ∘ Cell.unnumbered = Cell.unnumbered := rfl
  simp only [unnumbered, Array.map_map, twice]

@[simp] theorem toTables_unnumbered (a : Assembly) : a.unnumbered.toTables = a.toTables := rfl

@[simp] theorem dialect_unnumbered (a : Assembly) : a.unnumbered.dialect = a.dialect := rfl

@[simp] theorem location_unnumbered (a : Assembly) : a.unnumbered.location = a.location := rfl

section Primitives

variable (a : Assembly)

theorem note_unnumbered (d : Diagnostic) : a.unnumbered.note d = (a.note d).unnumbered := rfl

theorem noteIf_unnumbered (condition : Bool) (d : Diagnostic) :
    a.unnumbered.noteIf condition d = (a.noteIf condition d).unnumbered := by
  cases condition with
  | false => rfl
  | true => rfl

theorem emit_unnumbered (content : Cell.Content) :
    a.unnumbered.emit content = (a.emit content).unnumbered := by
  simp [emit, unnumbered, Cell.unnumbered]

theorem emitWord_unnumbered (value : Int32) :
    a.unnumbered.emitWord value = (a.emitWord value).unnumbered :=
  a.emit_unnumbered (.word value)

theorem emitExpr_unnumbered (id : ExprId) :
    a.unnumbered.emitExpr id = (a.emitExpr id).unnumbered :=
  a.emit_unnumbered (.expr id)

theorem operand_unnumbered (c : Cursor) : a.unnumbered.operand c =
    ((a.operand c).1, (a.operand c).2.1, (a.operand c).2.2.unnumbered) :=
  Prod.ext rfl (Prod.ext rfl rfl)

theorem emitField_unnumbered (op : Operator) (right code : Int32) (id : ExprId) :
    a.unnumbered.emitField op right code id = (a.emitField op right code id).unnumbered := by
  by_cases invalid : a.exprs.isInvalid id = true
  · have same : a.unnumbered.exprs.isInvalid id = true := invalid
    rw [emitField, emitField, if_pos invalid, if_pos same, emitWord_unnumbered]
  · have same : ¬ a.unnumbered.exprs.isInvalid id = true := invalid
    rw [emitField, emitField, if_neg invalid, if_neg same]
    exact emitExpr_unnumbered { a with exprs := (a.exprs.field op right code id).2 } _

theorem valueNow_unnumbered (id : ExprId) : a.unnumbered.valueNow id =
    ((a.valueNow id).1, (a.valueNow id).2.unnumbered) :=
  Prod.ext rfl rfl

theorem bindLabel_unnumbered (name : String) :
    a.unnumbered.bindLabel name = (a.bindLabel name).unnumbered :=
  noteIf_unnumbered
    { a with symbols := a.symbols.bind name (.bound a.location a.relocatable false) } _ _

theorem moveOrigin_unnumbered (d : Directive) (value : Int32) :
    a.unnumbered.moveOrigin d value = (a.moveOrigin d value).unnumbered := by
  cases d <;> rfl

end Primitives

section Orders

variable (m : Mnemonic) (tag : Option Tag) (c : Cursor) (a : Assembly)

theorem indirect_unnumbered : indirect m tag c a.unnumbered =
    ((indirect m tag c a).1, (indirect m tag c a).2.1, (indirect m tag c a).2.2.unnumbered) := by
  simp only [indirect, noteIf_unnumbered, dialect_unnumbered]
  split
  · rfl
  · rfl

theorem processor_unnumbered : processor m tag c a.unnumbered =
    ((processor m tag c a).1, (processor m tag c a).2.unnumbered) := by
  simp only [processor, indirect_unnumbered, noteIf_unnumbered, operand_unnumbered,
    emitField_unnumbered, location_unnumbered]
  split
  · rfl
  · rfl

theorem requiredOperand_unnumbered {next : ExprId → Assembly → Assembly}
    (h : ∀ id b, next id b.unnumbered = (next id b).unnumbered) :
    requiredOperand m c a.unnumbered next =
      ((requiredOperand m c a next).1, (requiredOperand m c a next).2.unnumbered) := by
  simp only [requiredOperand, operand_unnumbered, h, note_unnumbered, emitWord_unnumbered]
  split
  · rfl
  · rfl

theorem display_unnumbered : display m tag c a.unnumbered =
    ((display m tag c a).1, (display m tag c a).2.unnumbered) := by
  simp only [display, noteIf_unnumbered]
  split
  · rfl
  · refine requiredOperand_unnumbered m c _ fun id b => ?_
    simp only [emitField_unnumbered, location_unnumbered]
    split
    · rfl
    · rfl

theorem displayOperate_unnumbered : displayOperate m c a.unnumbered =
    ((displayOperate m c a).1, (displayOperate m c a).2.unnumbered) := by
  simp only [displayOperate]
  split
  · rw [emitWord_unnumbered]
  · exact requiredOperand_unnumbered m c a fun id b => emitField_unnumbered b ..

theorem iot_unnumbered : iot m tag c a.unnumbered =
    ((iot m tag c a).1, (iot m tag c a).2.unnumbered) := by
  simp only [iot, noteIf_unnumbered, emitWord_unnumbered]

/-- One step of combining, without the reasons why it ends. -/
theorem combine_eq (first : String) (code : Int32) : combine first code c a =
    match c.rest with
    | [] => (code, c, a)
    | x :: r =>
      if x = '\\' || x = '|' then
        match Mnemonic.read? false (c.moveTo r) with
        | none => (code, c.moveTo r, a.note (.missingCombination x))
        | some (next, d) =>
          if next.group ≠ .operate then (code, d, a.note (.cannotCombine next.name first))
          else if code = 0 || next.code = 0 then (code, d, a.note .combinedHalt)
          else combine first (code ||| next.code) d a
      else (code, c, a) := by
  rw [combine]
  split
  · next h => simp only [h]
  · next x r h =>
    simp only [h]
    split
    · split
      · next none => simp only [none]
      · next found => simp only [found]
    · rfl

theorem combine_unnumbered (first : String) (code : Int32) :
    combine first code c a.unnumbered =
      ((combine first code c a).1, (combine first code c a).2.1,
        (combine first code c a).2.2.unnumbered) := by
  fun_induction combine first code c a with
  | case1 code c h => rw [combine_eq, h]
  | case2 code c x r h sep none =>
    rw [combine_eq, h]
    simp only [sep, none, if_true, note_unnumbered]
  | case3 code c x r h sep next d found other =>
    rw [combine_eq, h]
    simp only [sep, found, if_true]
    rw [if_pos other, note_unnumbered]
  | case4 code c x r h sep next d found same halt =>
    rw [combine_eq, h]
    simp only [sep, found, if_true]
    rw [if_neg same, if_pos halt, note_unnumbered]
  | case5 code c x r h sep next d found same more ih =>
    rw [combine_eq, h]
    simp only [sep, found, if_true]
    rw [if_neg same, if_neg more, ih]
  | case6 code c x r h sep =>
    rw [combine_eq, h]
    simp only [if_neg sep]

theorem operate_unnumbered : operate m c a.unnumbered =
    ((operate m c a).1, (operate m c a).2.unnumbered) := by
  simp only [operate, combine_unnumbered, emitWord_unnumbered]

theorem shift_unnumbered : shift m tag c a.unnumbered =
    ((shift m tag c a).1, (shift m tag c a).2.unnumbered) := by
  simp only [shift, indirect_unnumbered, noteIf_unnumbered, operand_unnumbered,
    emitField_unnumbered]

end Orders

section Directives

variable (d : Directive) (c : Cursor) (a : Assembly)

theorem movement_unnumbered (axis : String) : movement axis c a.unnumbered =
    ((movement axis c a).1, (movement axis c a).2.1, (movement axis c a).2.2.unnumbered) := by
  simp only [movement, operand_unnumbered, valueNow_unnumbered, note_unnumbered]
  split
  · rfl
  · next e _ =>
    obtain ⟨id, e, b⟩ := a.operand e.dropBlanks
    by_cases unreadable : (b.exprs.isInvalid id || b.exprs.symbolic id) = true
    · simp only [toTables_unnumbered, unreadable, if_true]
    · simp only [toTables_unnumbered, unreadable]
      obtain ⟨failed | value, b⟩ := b.valueNow id
      · rfl
      · rfl

theorem failVector_unnumbered : a.unnumbered.failVector = a.failVector.unnumbered := by
  simp only [failVector, emitWord_unnumbered, note_unnumbered]

theorem emitWords_unnumbered (values : List Int32) :
    values.foldl emitWord a.unnumbered = (values.foldl emitWord a).unnumbered := by
  induction values generalizing a with
  | nil => rfl
  | cons value rest ih => rw [List.foldl_cons, emitWord_unnumbered, ih, List.foldl_cons]

theorem longVector_unnumbered : longVector c a.unnumbered =
    ((longVector c a).1, (longVector c a).2.unnumbered) := by
  simp only [longVector, noteIf_unnumbered, movement_unnumbered, note_unnumbered,
    failVector_unnumbered]
  split
  · obtain ⟨_ | x, e, b⟩ := movement "X" c.dropBlanks.step
      (a.noteIf (c.dropBlanks.next?.bind Vector.beam?).isNone (.invalidBeam c.dropBlanks.next?))
    · simp only [failVector_unnumbered]
    · simp only [movement_unnumbered]
      obtain ⟨_ | y, e, b⟩ := movement "Y" e b
      · simp only [failVector_unnumbered]
      · simp only [emitWords_unnumbered]
  · rfl

theorem incrementByte_unnumbered (first : Bool) : incrementByte first c a.unnumbered =
    ((incrementByte first c a).1, (incrementByte first c a).2.1,
      (incrementByte first c a).2.2.unnumbered) := by
  simp only [incrementByte, noteIf_unnumbered, note_unnumbered, dialect_unnumbered]
  split
  · rfl
  · split
    · rfl
    · split
      · split
        · rfl
        · rfl
      · split
        · rfl
        · rfl

theorem increments_unnumbered : increments c a.unnumbered =
    ((increments c a).1, (increments c a).2.unnumbered) := by
  simp only [increments, incrementByte_unnumbered, note_unnumbered, emitWord_unnumbered,
    dialect_unnumbered]
  split
  · split
    · obtain ⟨high, e, b⟩ := incrementByte true c.dropBlanks a
      simp only
      split
      · rfl
      · rfl
    · rfl
  · rfl

theorem origin_unnumbered : origin d c a.unnumbered =
    ((origin d c a).1, (origin d c a).2.unnumbered) := by
  simp only [origin, operand_unnumbered, valueNow_unnumbered, note_unnumbered]
  obtain ⟨id, e, b⟩ := a.operand c.dropBlanks
  by_cases invalid : b.exprs.isInvalid id = true
  · simp only [toTables_unnumbered, invalid, if_true]
  · simp only [toTables_unnumbered, invalid]
    obtain ⟨failed | value, b⟩ := b.valueNow id
    · rfl
    · simp only [moveOrigin_unnumbered]
      rfl

theorem data_unnumbered : data d c a.unnumbered =
    ((data d c a).1, (data d c a).2.unnumbered) := by
  simp only [data, operand_unnumbered, note_unnumbered, emitWord_unnumbered, emitExpr_unnumbered]
  split
  · obtain ⟨id, e, b⟩ := a.operand c.dropBlanks
    by_cases invalid : b.exprs.isInvalid id = true
    · simp only [toTables_unnumbered, invalid, if_true]
    · simp only [toTables_unnumbered, invalid]
      rfl
  · rfl

theorem stop_unnumbered : stop c a.unnumbered = ((stop c a).1, (stop c a).2.unnumbered) := by
  simp only [stop]
  split
  · rfl
  · rfl

theorem zero_unnumbered : zero c a.unnumbered = ((zero c a).1, (zero c a).2.unnumbered) := by
  simp only [zero, emitWord_unnumbered]
  split
  · rfl
  · rfl

end Directives

/-- One label, without the reason why reading them ends. -/
theorem readLabels_eq (label : Option String) (c : Cursor) (a : Assembly) :
    readLabels label c a =
      match Name.read? a.dialect false c with
      | none => (label, c, a)
      | some (name, d) =>
        if a.dialect.isMidas then readLabels (some name) d.dropBlanks (a.bindLabel name)
        else (some name, d, a.bindLabel name) := by
  rw [readLabels]
  split
  · next none => simp only [none]
  · next found => simp only [found]

theorem readLabels_unnumbered (label : Option String) (c : Cursor) (a : Assembly) :
    readLabels label c a.unnumbered =
      ((readLabels label c a).1, (readLabels label c a).2.1,
        (readLabels label c a).2.2.unnumbered) := by
  fun_induction readLabels label c a with
  | case1 label c a none => rw [readLabels_eq, dialect_unnumbered, none]
  | case2 label c a name d found midas ih =>
    rw [readLabels_eq, dialect_unnumbered, found]
    simp only [midas, if_true, bindLabel_unnumbered, ih]
  | case3 label c a name d found other =>
    rw [readLabels_eq, dialect_unnumbered, found]
    simp only [if_neg other, bindLabel_unnumbered]

/-- One statement of a line, without the reason why the line ends. -/
theorem statement_eq (pool : Assembly → Assembly) (kind : Line.Kind) (continued : Bool)
    (c : Cursor) (a : Assembly) : statement pool kind continued c a =
      let (label, d, b) := readLabels none c a
      if d.dropBlanks.atEnd then (finalKind kind label, b)
      else if !(d.onBlank || a.dialect.isMidas || continued) then
        (kind, b.note ((label.map Diagnostic.labelNotTerminated).getD .labelExpected))
      else
        let (kind', d, b) := order pool d.dropBlanks b
        let kind := if kind = .unclassified then kind' else kind
        match d.dropBlanks.accept? '?' with
        | none => (kind, b)
        | some e => statement pool kind true e b := by
  rw [statement]
  simp only
  split
  · rfl
  · split
    · rfl
    · split
      · next none => simp only [none]
      · next found => simp only [found]

section Statements

variable {pool pool' : Assembly → Assembly}
  (pools : ∀ a, pool' a.unnumbered = (pool a).unnumbered)

include pools

theorem directive_unnumbered (d : Directive) (c : Cursor) (a : Assembly) :
    directive pool' d c a.unnumbered =
      ((directive pool d c a).1, (directive pool d c a).2.unnumbered) := by
  cases d with
  | block | bss | loc | org | rel => exact origin_unnumbered _ c a
  | constants | ltorg => simp only [directive, pools]
  | data | zro => exact data_unnumbered _ c a
  | dlv => exact longVector_unnumbered c a
  | stop => exact stop_unnumbered c a
  | inc => exact increments_unnumbered c a
  | zzz => exact zero_unnumbered c a
  | _ => rfl

theorem carryOut_unnumbered (m : Mnemonic) (tag : Option Tag) (c : Cursor) (a : Assembly) :
    carryOut pool' m tag c a.unnumbered =
      ((carryOut pool m tag c a).1, (carryOut pool m tag c a).2.unnumbered) := by
  rw [carryOut, carryOut]
  cases m.group with
  | processor => exact processor_unnumbered m tag c a
  | display => exact display_unnumbered m tag c a
  | displayOperate => exact displayOperate_unnumbered m c a
  | iot => exact iot_unnumbered m tag c a
  | operate => exact operate_unnumbered m c a
  | shift => exact shift_unnumbered m tag c a
  | skip => simp only [emitWord_unnumbered]
  | directive d => exact directive_unnumbered pools d c a

theorem order_unnumbered (c : Cursor) (a : Assembly) :
    order pool' c a.unnumbered =
      ((order pool c a).1, (order pool c a).2.1, (order pool c a).2.2.unnumbered) := by
  rw [order, order, dialect_unnumbered]
  obtain ⟨tag, e⟩ := readTag a.dialect c
  cases found : Mnemonic.read? (tag = some .display) e with
  | some order => simp only [found, carryOut_unnumbered pools]
  | none =>
    simp only [found, operand_unnumbered]
    obtain ⟨id, e, b⟩ := a.operand e
    by_cases invalid : b.exprs.isInvalid id = true
    · simp only [toTables_unnumbered, invalid, if_true, emitWord_unnumbered]
    · simp only [toTables_unnumbered, invalid, emitExpr_unnumbered]
      rfl

theorem statement_unnumbered (kind : Line.Kind) (continued : Bool) (c : Cursor) (a : Assembly) :
    statement pool' kind continued c a.unnumbered =
      ((statement pool kind continued c a).1,
        (statement pool kind continued c a).2.unnumbered) := by
  fun_induction statement pool kind continued c a with
  | case1 kind continued c a labels d atEnd =>
    rw [statement_eq, readLabels_unnumbered]
    exact if_pos atEnd
  | case2 kind continued c a labels d atEnd unlabelled =>
    rw [statement_eq, readLabels_unnumbered]
    exact (if_neg atEnd).trans (if_pos unlabelled)
  | case3 kind continued c a labels d atEnd labelled this kind' last =>
    rw [statement_eq, readLabels_unnumbered]
    refine (if_neg atEnd).trans ((if_neg labelled).trans ?_)
    rw [order_unnumbered pools]
    simp only [this, d, labels] at last
    simp only [last]
    rfl
  | case4 kind continued c a labels d atEnd labelled this kind' e more ih =>
    rw [statement_eq, readLabels_unnumbered]
    refine (if_neg atEnd).trans ((if_neg labelled).trans ?_)
    rw [order_unnumbered pools]
    simp only [this, d, labels] at more
    simp only [more]
    exact ih

/-- States that differ in line numbers only read a statement alike. -/
theorem statement_congr (kind : Line.Kind) (continued : Bool) (c : Cursor) {a b : Assembly}
    (alike : a.unnumbered = b.unnumbered) :
    (statement pool kind continued c a).1 = (statement pool kind continued c b).1 ∧
      (statement pool kind continued c a).2.unnumbered =
        (statement pool kind continued c b).2.unnumbered := by
  have left := statement_unnumbered pools kind continued c a
  have right := statement_unnumbered pools kind continued c b
  rw [alike, right] at left
  exact ⟨(congrArg Prod.fst left).symm, (congrArg Prod.snd left).symm⟩

end Statements

section Pools

variable {a b : Assembly}

theorem refusePool_unnumbered (a : Assembly) :
    refusePool a.unnumbered = (refusePool a).unnumbered :=
  note_unnumbered a _

/-- The number of the line that a literal is assembled on is forgotten with the others. -/
theorem literalStatement_unnumbered (id : LiteralId) (a : Assembly) :
    (literalStatement id a.unnumbered).1 = (literalStatement id a).1 ∧
      (literalStatement id a.unnumbered).2.unnumbered = (literalStatement id a).2.unnumbered := by
  exact statement_congr refusePool_unnumbered .unclassified false
    (.ofText (a.symbols.literalText id)) (unnumbered_unnumbered a)

theorem literalBody_unnumbered (id : LiteralId) (a : Assembly) :
    (literalBody id a.unnumbered).unnumbered = (literalBody id a).unnumbered := by
  obtain ⟨-, same⟩ := literalStatement_unnumbered id a
  have there : (literalStatement id a.unnumbered).2.location =
      (literalStatement id a).2.location :=
    (congrArg location same :)
  rw [literalBody, literalBody]
  by_cases stayed : (literalStatement id a).2.location = a.location
  · simp only [there, stayed, location_unnumbered, if_true, toTables_unnumbered,
      ← emitWord_unnumbered, ← note_unnumbered, same]
  · simp only [there, stayed, location_unnumbered, if_false, same]

theorem literalLine_unnumbered (id : LiteralId) (a : Assembly) :
    literalLine id a.unnumbered = literalLine id a := by
  have body := literalBody_unnumbered id a
  have code : (literalBody id a.unnumbered).lineCode = (literalBody id a).lineCode :=
    (congrArg lineCode body :)
  have diagnostics : (literalBody id a.unnumbered).diagnostics = (literalBody id a).diagnostics :=
    (congrArg (·.diagnostics) body :)
  rw [literalLine, (literalStatement_unnumbered id a).1, code, diagnostics]
  rfl

theorem placeLiteral_unnumbered (id : LiteralId) (a : Assembly) :
    (placeLiteral id a.unnumbered).unnumbered = (placeLiteral id a).unnumbered := by
  rw [placeLiteral_eq, placeLiteral_eq, literalLine_unnumbered]
  exact congrArg (fun b : Assembly => { b with
    symbols := b.symbols.place id a.location b.relocatable
    poolLines := b.poolLines.push (literalLine id a)
    lineCode := []
    diagnostics := [] }) (literalBody_unnumbered id a)

theorem placeLiteral_congr (id : LiteralId) (alike : a.unnumbered = b.unnumbered) :
    (placeLiteral id a).unnumbered = (placeLiteral id b).unnumbered := by
  rw [← placeLiteral_unnumbered id a, alike, placeLiteral_unnumbered]

theorem symbols_congr (alike : a.unnumbered = b.unnumbered) : a.symbols = b.symbols :=
  (congrArg (·.symbols) alike :)

theorem poolWeight_congr (alike : a.unnumbered = b.unnumbered) : a.poolWeight = b.poolWeight := by
  rw [poolWeight, poolWeight, symbols_congr alike]

theorem placeLiterals_congr (a : Assembly) : ∀ b, a.unnumbered = b.unnumbered →
    (placeLiterals a).unnumbered = (placeLiterals b).unnumbered := by
  fun_induction placeLiterals a with
  | case1 a none =>
    intro b alike
    rw [placeLiterals.eq_def b, ← symbols_congr alike, none]
    exact alike
  | case2 a id next _ less ih =>
    intro b alike
    have placed := placeLiteral_congr id alike
    have less' : (placeLiteral id b).poolWeight < b.poolWeight := by
      rw [← poolWeight_congr alike, ← poolWeight_congr placed]
      exact less
    rw [placeLiterals.eq_def b, ← symbols_congr alike, next]
    simp only [dif_pos less']
    exact ih _ placed
  | case3 a id next _ more =>
    intro b alike
    have placed := placeLiteral_congr id alike
    have more' : ¬ (placeLiteral id b).poolWeight < b.poolWeight := by
      rw [← poolWeight_congr alike, ← poolWeight_congr placed]
      exact more
    rw [placeLiterals.eq_def b, ← symbols_congr alike, next]
    simp only [dif_neg more']
    exact placed

/-- The state after the pool that led from `a` to `b`. -/
def markPool (a b : Assembly) : Assembly :=
  let first := a.poolLines.size + 1
  let count := b.poolLines.size - a.poolLines.size
  { b with
    code := b.code.push ⟨0, Int32.ofNat first, .pool first count⟩
    lineCode := a.lineCode ++ [b.code.size]
    diagnostics := a.diagnostics
    lineNumber := a.lineNumber
    log := b.log.push (.placedPool count a.location) }

theorem markPool_unnumbered (a b : Assembly) :
    markPool a.unnumbered b.unnumbered = (markPool a b).unnumbered := by
  simp [markPool, unnumbered, Cell.unnumbered]

theorem placePool_eq (a : Assembly) : placePool a =
    if a.symbols.hasWaiting then
      markPool a (placeLiterals { a with lineCode := [], diagnostics := [] })
    else a := rfl

theorem placePool_congr (alike : a.unnumbered = b.unnumbered) :
    (placePool a).unnumbered = (placePool b).unnumbered := by
  have cleared : ({ a with lineCode := [], diagnostics := [] } : Assembly).unnumbered =
      ({ b with lineCode := [], diagnostics := [] } : Assembly).unnumbered :=
    (congrArg (fun a : Assembly => { a with lineCode := [], diagnostics := [] }) alike :)
  have waiting : a.symbols.hasWaiting = b.symbols.hasWaiting :=
    congrArg _ (symbols_congr alike)
  rw [placePool_eq, placePool_eq, waiting]
  split
  · rw [← markPool_unnumbered, ← markPool_unnumbered, alike, placeLiterals_congr _ _ cleared]
  · exact alike

end Pools

section Lines

variable {a b : Assembly}

theorem definition?_unnumbered (c : Cursor) (a : Assembly) :
    definition? c a.unnumbered = (definition? c a).map unnumbered := by
  simp only [definition?, operand_unnumbered, valueNow_unnumbered, note_unnumbered,
    dialect_unnumbered]
  split
  · rfl
  · split
    · rfl
    · next e _ =>
      obtain ⟨id, e, b⟩ := a.operand (e.skip '=').dropBlanks
      by_cases invalid : b.exprs.isInvalid id = true
      · simp only [toTables_unnumbered, invalid, if_true, Option.map_some]
      · simp only [toTables_unnumbered, invalid]
        obtain ⟨failed | value, b⟩ := b.valueNow id
        · rfl
        · rfl

theorem readText_congr (text : String) (alike : a.unnumbered = b.unnumbered) :
    (readText text a).1 = (readText text b).1 ∧
      (readText text a).2.unnumbered = (readText text b).2.unnumbered := by
  have dialect : a.dialect = b.dialect := (congrArg Assembly.dialect alike :)
  have comment (x : Char) (onBlank : Bool) :
      a.dialect.isComment x onBlank = b.dialect.isComment x onBlank := by rw [dialect]
  have define : (definition? (Cursor.ofText text).dropBlanks a).map unnumbered =
      (definition? (Cursor.ofText text).dropBlanks b).map unnumbered := by
    rw [← definition?_unnumbered, alike, definition?_unnumbered]
  have pools (a : Assembly) : (unnumbered ∘ placePool) a.unnumbered = (placePool a).unnumbered :=
    placePool_congr (unnumbered_unnumbered a)
  simp only [readText, comment]
  split
  · exact ⟨rfl, alike⟩
  · split
    · refine ⟨rfl, ?_⟩
      rw [← noteIf_unnumbered, alike, noteIf_unnumbered]
    · split
      · exact ⟨rfl, alike⟩
      · cases read : definition? (Cursor.ofText text).dropBlanks a with
        | some a' =>
          rw [read, Option.map_some] at define
          obtain ⟨b', read', same⟩ := Option.map_eq_some_iff.mp define.symm
          rw [read']
          exact ⟨rfl, same.symm⟩
        | none =>
          rw [read, Option.map_none] at define
          rw [Option.map_eq_none_iff.mp define.symm]
          exact statement_congr pools .unclassified false (.ofText text) alike

theorem fileInto_congr (line line' : Line) (alike : a.unnumbered = b.unnumbered) :
    (fileInto line a).2.unnumbered = (fileInto line' b).2.unnumbered :=
  (congrArg (fun a : Assembly => { a with lineCode := [], diagnostics := [] }) alike :)

theorem readLine_congr {line line' : Line} (text : line.text = line'.text)
    (alike : a.unnumbered = b.unnumbered) :
    (readLine line a).2.unnumbered = (readLine line' b).2.unnumbered := by
  obtain ⟨kind, read⟩ := readText_congr (a := { a with lineNumber := line.number })
    (b := { b with lineNumber := line'.number }) line.text alike
  rw [readLine, readLine, ← text]
  generalize readText line.text { a with lineNumber := line.number } = r at kind read ⊢
  generalize readText line.text { b with lineNumber := line'.number } = r' at kind read ⊢
  have diagnostics : r.2.diagnostics = r'.2.diagnostics := (congrArg (·.diagnostics) read :)
  refine fileInto_congr _ _ ?_
  rw [← noteIf_unnumbered, ← noteIf_unnumbered, read, kind, diagnostics]

/-- What lines come to, apart from line numbers, is told by their texts. -/
theorem readLines_congr {lines lines' : List Line}
    (texts : lines.map Line.text = lines'.map Line.text) (alike : a.unnumbered = b.unnumbered) :
    (readLines lines a).2.unnumbered = (readLines lines' b).2.unnumbered := by
  induction lines generalizing lines' a b with
  | nil =>
    obtain rfl := List.map_eq_nil_iff.mp texts.symm
    exact alike
  | cons line rest ih =>
    obtain ⟨line', rest', rfl, text, texts⟩ := List.map_eq_cons_iff.mp texts.symm
    have here := readLine_congr text.symm alike
    have ended : (readLine line a).2.ended = (readLine line' b).2.ended :=
      (congrArg Assembly.ended here :)
    have last : rest.isEmpty = rest'.isEmpty := by
      simpa using (congrArg List.isEmpty texts).symm
    simp only [readLines, ended, last]
    split
    · exact fileInto_congr line line' (placePool_congr here)
    · exact ih texts.symm here

end Lines

end Assembly

end Pds1
