import Pds1.Proofs.CodeOrder
import Pds1.Proofs.UnbrokenText

/-!
# Reading leaves every text on one line

Each reader is followed once: from a clean position it comes to a clean one. From this, no source
line, no pool line and no diagnostic on them holds a line end after a first pass.
-/

namespace Pds1

namespace Assembly

variable {c : Cursor} {a : Assembly} {m : Mnemonic}

theorem clean_indirect (h : Clean (c, a)) (name : OneLine m.name.toList) (tag : Option Tag) :
    Clean (indirect m tag c a).2 := by
  have noted := (h.noteIf (tag = some .display) (d := .displayTag m.name) name).skip
    c.dropBlanks_suffix
  simp only [indirect]
  split
  · exact noted.skip c.dropBlanks.step_suffix
  · exact noted

theorem clean_processor (h : Clean (c, a)) (name : OneLine m.name.toList) (tag : Option Tag) :
    Clean (processor m tag c a) := by
  have marked := clean_indirect h name tag
  simp only [processor]
  split
  · exact (marked.noteIf _ (d := .indirectMode m.name) name).operand.field ..
  · exact marked.operand.field ..

theorem clean_requiredOperand (h : Clean (c, a)) (name : OneLine m.name.toList)
    {next : ExprId → Assembly → Assembly}
    (kept : ∀ d id b, Clean (d, b) → Clean (d, next id b)) :
    Clean (requiredOperand m c a next) := by
  have blanks := h.skip c.dropBlanks_suffix
  simp only [requiredOperand]
  split
  · exact kept _ _ _ blanks.operand
  · exact (blanks.note (d := .missingOperand m.name) name).word 0

theorem clean_display (h : Clean (c, a)) (name : OneLine m.name.toList) (tag : Option Tag) :
    Clean (display m tag c a) := by
  have noted := h.noteIf tag.isSome (d := .indirectTag m.name) name
  simp only [display]
  split
  · exact (noted.note (d := .notImplemented m.name) name).same rfl rfl rfl
  · refine clean_requiredOperand noted name fun d id b clean => ?_
    split
    · exact clean.field ..
    · exact clean.field ..

theorem clean_displayOperate (h : Clean (c, a)) (name : OneLine m.name.toList) :
    Clean (displayOperate m c a) := by
  simp only [displayOperate]
  split
  · exact h.word m.code
  · exact clean_requiredOperand h name fun d id b clean => clean.field ..

theorem clean_iot (h : Clean (c, a)) (name : OneLine m.name.toList) (tag : Option Tag) :
    Clean (iot m tag c a) :=
  (h.noteIf tag.isSome (d := .indirectTag m.name) name).word m.code

theorem clean_combine {first : String} (name : OneLine first.toList) (code : Int32)
    (h : Clean (c, a)) : Clean (combine first code c a).2 := by
  fun_induction combine first code c a with
  | case1 | case6 => exact h
  | case2 code c x r rest =>
    have passed : Clean (c.moveTo r, a) := h.skip (by simp [rest])
    refine passed.note (d := .missingCombination x) fun same => h.line ?_
    rw [rest, same]
    exact List.mem_cons_self
  | case3 code c x r rest _ next d read =>
    have forward : d.rest <:+ c.rest :=
      rest ▸ (Mnemonic.read?_suffix read).trans (List.suffix_cons x r)
    exact (h.skip forward).note (d := .cannotCombine next.name first)
      ⟨Mnemonic.oneLine_read? read, name⟩
  | case4 code c x r rest _ next d read =>
    exact (h.skip (rest ▸ (Mnemonic.read?_suffix read).trans (List.suffix_cons x r))).note trivial
  | case5 code c x r rest _ next d read _ _ ih =>
    exact ih (h.skip (rest ▸ (Mnemonic.read?_suffix read).trans (List.suffix_cons x r)))

theorem clean_operate (h : Clean (c, a)) (name : OneLine m.name.toList) :
    Clean (operate m c a) :=
  (clean_combine name m.code h).word _

theorem clean_shift (h : Clean (c, a)) (name : OneLine m.name.toList) (tag : Option Tag) :
    Clean (shift m tag c a) :=
  ((clean_indirect h name tag).noteIf _ (d := .indirectMode m.name) name).operand.field ..

theorem clean_movement (axis : String) (name : OneLine axis.toList) (h : Clean (c, a)) :
    Clean (movement axis c a).2 := by
  have blanks := h.skip c.dropBlanks_suffix
  simp only [movement]
  split
  · exact blanks.note (d := .commaExpected c.dropBlanks.next?) blanks.next?
  · next d comma =>
    have read := (blanks.skip (d.dropBlanks_suffix.trans (Cursor.accept?_suffix comma))).operand
    split
    · exact read.note (d := .unreadableMovement axis) name
    · split
      · next known => exact read.value known
      · next failed => exact (read.value failed).note (d := .unreadableMovement axis) name

theorem Clean.failVector (h : Clean (c, a)) : Clean (c, a.failVector) :=
  (((h.word 0).word 0).word 0).note (d := .unreadableOperands "DLV") (.ofList (by decide))

theorem clean_longVector (h : Clean (c, a)) : Clean (longVector c a) := by
  have blanks := h.skip c.dropBlanks_suffix
  simp only [longVector]
  split
  · have noted : Clean (c.dropBlanks.step,
        a.noteIf (c.dropBlanks.next?.bind Vector.beam?).isNone (.invalidBeam c.dropBlanks.next?)) :=
      (blanks.noteIf _ (d := .invalidBeam c.dropBlanks.next?) blanks.next?).skip
        c.dropBlanks.step_suffix
    have first := clean_movement "X" (.ofList (by decide)) noted
    split
    · next known =>
      rw [known] at first
      exact first.failVector
    · next x d b known =>
      rw [known] at first
      have second := clean_movement "Y" (.ofList (by decide)) first
      split
      · next known' =>
        rw [known'] at second
        exact second.failVector
      · next known' =>
        rw [known'] at second
        exact second.words _
  · exact (blanks.note (d := .missingOperands "DLV") (.ofList (by decide))).failVector

theorem clean_incrementByte (first : Bool) (h : Clean (c, a)) :
    Clean (incrementByte first c a).2 := by
  have stepped := h.skip c.step_suffix
  simp only [incrementByte]
  split
  · next read => exact (h.skip (Number.read?_suffix read)).noteIf _ trivial
  · split
    · next read => exact h.skip (Increment.vector?_suffix read)
    · split
      · split
        · exact stepped
        · exact stepped.note trivial
      · split
        · exact stepped
        · exact h.note trivial

theorem clean_increments (h : Clean (c, a)) : Clean (increments c a) := by
  have blanks := h.skip c.dropBlanks_suffix
  simp only [increments]
  split
  · split
    · have high := clean_incrementByte true blanks
      have next := high.skip (Cursor.dropBlanks_suffix _)
      split
      · exact (next.note (d := .commaExpected _) next.next?).word _
      · next d comma =>
        have low := next.skip (d.dropBlanks_suffix.trans (Cursor.accept?_suffix comma))
        exact (clean_incrementByte false low).word _
    · exact (blanks.note (d := .incrementUnavailable) trivial).word 0
  · exact (blanks.note (d := .missingOperands "INC") (.ofList (by decide))).word 0

theorem clean_origin (d : Directive) (h : Clean (c, a)) : Clean (origin d c a) := by
  have read := (h.skip c.dropBlanks_suffix).operand
  simp only [origin]
  split
  · exact read.note (d := .ignored d.name) d.oneLine_name
  · split
    · next known =>
      have clean := read.value known
      cases d <;> exact clean.same rfl rfl rfl
    · next e b failed =>
      have noted := (read.value failed).note (d := .evaluation e) (read.failure failed)
      exact noted.note (d := .ignored d.name) d.oneLine_name

theorem clean_data (d : Directive) (h : Clean (c, a)) : Clean (data d c a) := by
  have blanks := h.skip c.dropBlanks_suffix
  simp only [data]
  split
  · split
    · exact (blanks.operand.note (d := .operandMalformed d.name) d.oneLine_name).word 0
    · exact blanks.operand.expr _
  · exact (blanks.note (d := .operandNotFound d.name) d.oneLine_name).word 0

theorem clean_stop (h : Clean (c, a)) : Clean (stop c a) := by
  have blanks := h.skip c.dropBlanks_suffix
  simp only [stop]
  split
  · exact blanks.operand.same rfl rfl rfl
  · exact blanks.same rfl rfl rfl

theorem clean_zero (h : Clean (c, a)) : Clean (zero c a) := by
  have blanks := h.skip c.dropBlanks_suffix
  simp only [zero]
  split
  · next d star =>
    exact (blanks.skip ((d.skip_suffix '*').trans (Cursor.accept?_suffix star))).word 0
  · exact blanks.word 0

section Orders

variable {pool : Assembly → Assembly} (pooled : ∀ a : Assembly, a.Unbroken → (pool a).Unbroken)

include pooled

theorem clean_directive (d : Directive) (h : Clean (c, a)) : Clean (directive pool d c a) := by
  cases d with
  | block | bss | loc | org | rel => exact clean_origin _ h
  | constants | ltorg => exact ⟨h.line, pooled a h.state⟩
  | data | zro => exact clean_data _ h
  | dlv => exact clean_longVector h
  | stop => exact clean_stop h
  | inc => exact clean_increments h
  | zzz => exact clean_zero h
  | dadr | dup | equ | if1 | ife | ifn | ins | lvi | mcc | mcd | mce | oct | rep | repeated
  | svorg | title => exact h.note (Directive.oneLine_name _)

theorem clean_carryOut (h : Clean (c, a)) (name : OneLine m.name.toList) (tag : Option Tag) :
    Clean (carryOut pool m tag c a) := by
  simp only [carryOut]
  split
  · exact clean_processor h name tag
  · exact clean_display h name tag
  · exact clean_displayOperate h name
  · exact clean_iot h name tag
  · exact clean_operate h name
  · exact clean_shift h name tag
  · exact h.word m.code
  · exact clean_directive pooled _ h

theorem clean_order (h : Clean (c, a)) : Clean (order pool c a).2 := by
  have tagged := h.skip (readTag_suffix a.dialect c)
  simp only [order]
  split
  · next m d read =>
    exact clean_carryOut pooled (tagged.skip (Mnemonic.read?_suffix read))
      (Mnemonic.oneLine_read? read) _
  · simp only
    split
    · exact tagged.operand.word 0
    · exact tagged.operand.expr _

end Orders

theorem Clean.bindLabel (h : Clean (c, a)) {name : String} (fits : OneLine name.toList) :
    Clean (c, a.bindLabel name) := by
  have bound : Clean (c, { a with
      symbols := a.symbols.bind name (.bound a.location a.relocatable false) }) :=
    ⟨h.line, ⟨h.state.symbols.bind fits _, h.state.diagnostics⟩, h.state.poolLines⟩
  exact bound.noteIf _ (d := .duplicateLabel name) fits

theorem clean_readLabels (label : Option String) (fits : ∀ name ∈ label, OneLine name.toList)
    (h : Clean (c, a)) : (∀ name ∈ (readLabels label c a).1, OneLine name.toList) ∧
      Clean (readLabels label c a).2 := by
  fun_induction readLabels label c a with
  | case1 => exact ⟨fits, h⟩
  | case2 label c a name d read _ ih =>
    have own := Name.oneLine_read? h.line read
    have forward := d.dropBlanks_suffix.trans (Name.read?_suffix read)
    exact ih (by simpa using own) ((h.bindLabel own).skip forward)
  | case3 label c a name d read =>
    have own := Name.oneLine_read? h.line read
    exact ⟨by simpa using own, (h.bindLabel own).skip (Name.read?_suffix read)⟩

theorem unbroken_statement {pool : Assembly → Assembly}
    (pooled : ∀ a : Assembly, a.Unbroken → (pool a).Unbroken) (kind : Line.Kind)
    (continued : Bool) (h : Clean (c, a)) : (statement pool kind continued c a).2.Unbroken := by
  fun_induction statement pool kind continued c a with
  | case1 kind continued c a => exact (clean_readLabels none (by simp) h).2.state
  | case2 kind continued c a =>
    obtain ⟨names, labelled⟩ := clean_readLabels none (by simp) h
    refine (labelled.note ?_).state
    cases last : (readLabels none c a).1 with
    | none => trivial
    | some name => exact names name last
  | case3 kind continued c a labels d =>
    have labelled := (clean_readLabels none (by simp) h).2
    exact (clean_order pooled (labelled.skip d.dropBlanks_suffix)).state
  | case4 kind continued c a labels d _ _ this kind' e mark ih =>
    have labelled := (clean_readLabels none (by simp) h).2
    have ordered := clean_order pooled (labelled.skip d.dropBlanks_suffix)
    exact ih (ordered.skip ((Cursor.accept?_suffix mark).trans (Cursor.dropBlanks_suffix _)))

theorem unbroken_definition {b : Assembly} (h : Clean (c, a)) (read : definition? c a = some b) :
    b.Unbroken := by
  simp only [definition?] at read
  split at read
  · cases read
  · next name d named =>
    split at read
    · cases read
    · next e equals =>
      have own := Name.oneLine_read? h.line named
      have forward : (e.skip '=').dropBlanks.rest <:+ c.rest :=
        ((((Cursor.dropBlanks_suffix _).trans (e.skip_suffix '=')).trans
          (Cursor.accept?_suffix equals)).trans d.dropBlanks_suffix).trans (Name.read?_suffix named)
      have operand := (h.skip forward).operand
      split at read
      · cases read
        exact (operand.note (d := .invalidAssignment name) own).state
      · split at read
        · next known =>
          have known := operand.value known
          cases read
          exact ⟨⟨known.state.symbols.bind own _, known.state.diagnostics⟩, known.state.poolLines⟩
        · next e b failed =>
          have noted := (operand.value failed).note (d := .evaluation e) (operand.failure failed)
          cases read
          exact (noted.note (d := .undefinedAssignment) trivial).state

theorem unbroken_refusePool (h : a.Unbroken) : a.refusePool.Unbroken :=
  ⟨h.toUnbroken.note trivial, h.poolLines⟩

theorem unbroken_placeLiteral (id : LiteralId) (h : a.Unbroken) : (placeLiteral id a).Unbroken := by
  have text : OneLine (a.symbols.literalText id).toList := h.symbols.literalText id
  have body : (literalBody id a).Unbroken := by
    have start : Clean (.ofText (a.symbols.literalText id),
        { a with lineNumber := a.poolLines.size + 1 }) := ⟨text, h.toUnbroken, h.poolLines⟩
    have read : (literalStatement id a).2.Unbroken :=
      unbroken_statement (fun b => unbroken_refusePool) _ _ start
    simp only [literalBody]
    split
    · exact ⟨read.toUnbroken.note (d := .valuelessLiteral _) text, read.poolLines⟩
    · exact read
  rw [placeLiteral_eq]
  refine ⟨⟨body.symbols.place .., by simp⟩, fun line member => ?_⟩
  rcases Array.mem_push.mp member with old | rfl
  · exact body.poolLines line old
  · exact ⟨text, body.diagnostics⟩

theorem unbroken_placeLiterals (h : a.Unbroken) : a.placeLiterals.Unbroken := by
  fun_induction placeLiterals a with
  | case1 => exact h
  | case2 a id _ b _ ih => exact ih (unbroken_placeLiteral id h)
  | case3 a id => exact unbroken_placeLiteral id h

theorem unbroken_placePool (h : a.Unbroken) : a.placePool.Unbroken := by
  simp only [placePool]
  split
  · have emptied : ({ a with lineCode := [], diagnostics := [] } : Assembly).Unbroken :=
      ⟨⟨h.symbols, by simp⟩, h.poolLines⟩
    -- the diagnostics of the line are put back behind the pool
    have placed := unbroken_placeLiterals emptied
    exact ⟨⟨placed.symbols, h.diagnostics⟩, placed.poolLines⟩
  · exact h

theorem unbroken_readText {text : String} (line : OneLine text.toList) (h : a.Unbroken) :
    (readText text a).2.Unbroken := by
  have start : Clean (.ofText text, a) := ⟨line, h⟩
  have blanks := start.skip (Cursor.dropBlanks_suffix _)
  simp only [readText]
  split
  · exact h
  · next x rest here =>
    have after : OneLine rest := blanks.line.suffix (here ▸ List.suffix_cons x rest)
    split
    · exact (start.noteIf _ (d := .textAfterFormFeed (String.ofList rest)) (.ofList after)).state
    · split
      · exact ⟨h.toUnbroken, h.poolLines⟩
      · split
        · next read => exact unbroken_definition blanks read
        · exact unbroken_statement (fun b => unbroken_placePool) _ _ start

theorem unbroken_fileInto {line : Line} (own : line.Unbroken) (h : a.Unbroken) :
    (fileInto line a).1.Unbroken ∧ (fileInto line a).2.Unbroken := by
  refine ⟨⟨own.text, fun d member => ?_⟩, ⟨h.symbols, by simp [fileInto]⟩, h.poolLines⟩
  rcases List.mem_append.mp member with old | new
  · exact own.diagnostics d old
  · exact h.diagnostics d new

theorem unbroken_readLine {line : Line} (own : line.Unbroken) (h : a.Unbroken) :
    (readLine line a).1.Unbroken ∧ (readLine line a).2.Unbroken := by
  have numbered : ({ a with lineNumber := line.number } : Assembly).Unbroken :=
    ⟨h.toUnbroken, h.poolLines⟩
  have read : Clean (.ofText line.text,
      (readText line.text { a with lineNumber := line.number }).2) :=
    ⟨own.text, unbroken_readText own.text numbered⟩
  have kinded : ({ line with
      kind := (readText line.text { a with lineNumber := line.number }).1 } : Line).Unbroken :=
    ⟨own.text, own.diagnostics⟩
  exact unbroken_fileInto kinded (read.noteIf _ (d := .notParsed line.text) own.text).state

/-- What a first pass makes of clean lines is clean. -/
theorem unbroken_readLines {lines : List Line} (own : ∀ line ∈ lines, line.Unbroken)
    (h : a.Unbroken) :
    (∀ line ∈ (readLines lines a).1, line.Unbroken) ∧ (readLines lines a).2.Unbroken := by
  induction lines generalizing a with
  | nil => exact ⟨own, h⟩
  | cons line rest ih =>
    obtain ⟨first, others⟩ := List.forall_mem_cons.mp own
    obtain ⟨read, state⟩ := unbroken_readLine first h
    simp only [readLines]
    split
    -- the last line read takes the literals that still wait
    · obtain ⟨filed, state⟩ := unbroken_fileInto read (unbroken_placePool state)
      exact ⟨List.forall_mem_cons.mpr ⟨filed, others⟩, state⟩
    · obtain ⟨later, state⟩ := ih others state
      exact ⟨List.forall_mem_cons.mpr ⟨read, later⟩, state⟩

end Assembly

namespace Source

theorem oneLine_splitLines {done : List Char} (h : OneLine done) (cs : List Char) :
    ∀ line ∈ splitLines done cs, OneLine line := by
  fun_induction splitLines done cs with
  | case1 => simp
  | case2 done => simpa [OneLine] using h
  | case3 done r ih =>
    refine List.forall_mem_cons.mpr ⟨?_, ih (by decide)⟩
    split
    · next before =>
      have shorter : OneLine before := h.suffix (List.suffix_cons _ _)
      simpa [OneLine] using shorter
    · simpa [OneLine] using h
  | case4 done c r ordinary ih =>
    have other : OneLine [c] := by
      simpa [OneLine, eq_comm] using ordinary
    exact ih (other.append h)

theorem unbroken_ofText (name text : String) :
    ∀ line ∈ (ofText name text).lines, line.Unbroken := by
  intro line member
  obtain ⟨⟨cs, i⟩, entry, rfl⟩ := List.mem_map.mp member
  exact ⟨.ofList (oneLine_splitLines (by decide) _ cs (List.fst_mem_of_mem_zipIdx entry)), by simp⟩

end Source

namespace Assembly

/-- After a first pass over any text, no line of the source or of a pool holds a line end, and no
diagnostic on them does. -/
theorem unbroken_passOne (dialect : Dialect) (name text : String) :
    (∀ line ∈ ((init dialect).passOne (.ofText name text)).1.lines, line.Unbroken) ∧
      ((init dialect).passOne (.ofText name text)).2.Unbroken := by
  have fresh := unbroken_init dialect
  obtain ⟨lines, state⟩ := unbroken_readLines (a := { init dialect with location := 0 })
    (Source.unbroken_ofText name text) ⟨fresh.toUnbroken, fresh.poolLines⟩
  rw [passOne]
  generalize readLines (Source.ofText name text).lines { init dialect with location := 0 } = r
    at lines state ⊢
  exact ⟨lines, state.toUnbroken, state.poolLines⟩

end Assembly

end Pds1
