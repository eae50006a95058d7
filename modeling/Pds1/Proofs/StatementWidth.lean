import Pds1.Proofs.CodeOrder
import Pds1.Proofs.OperandComplaints

/-!
# How many words an order takes

The number of words is fixed by the mnemonic, whatever text follows and whatever goes wrong on the
way: a missing or unreadable operand still takes its words, so later labels stay where they are. The
words stand at consecutive locations from the location counter on. An operand that cannot be read
leaves a zero word and a complaint.
-/

namespace Pds1

/-- The words of a directive; those of a literal pool depend on what waits for it. -/
def Directive.width? : Directive → Option Nat
  | data | zro | zzz | inc => some 1
  | dlv => some 3
  | constants | ltorg => none
  | block | bss | loc | org | rel | stop => some 0
  | dadr | dup | equ | if1 | ife | ifn | ins | lvi | mcc | mcd | mce | oct | rep | repeated | svorg
  | title => some 0

/-- The words of an order. -/
def Mnemonic.width? (m : Mnemonic) : Option Nat :=
  match m.group with
  | .processor | .displayOperate | .iot | .operate | .shift | .skip => some 1
  | .display => if m.name = "DEIM" then some 0 else some 1
  | .directive d => d.width?

/-- An operand after blanks. -/
def Cursor.operandAfterBlanks? (c : Cursor) : Option Cursor :=
  if c.operandFollows then some c.dropBlanks else none

/-- An operand after blanks and at most one indirect marker. -/
def Cursor.operandAfterMarker (dialect : Dialect) (c : Cursor) : Cursor :=
  if dialect.isIndirectMarker c.dropBlanks.current then c.dropBlanks.step else c.dropBlanks

/-- Where the operand of an order of one word begins, if the order reads one. -/
def Mnemonic.operandAt? (m : Mnemonic) (dialect : Dialect) (c : Cursor) : Option Cursor :=
  match m.group with
  | .processor | .shift => some (c.operandAfterMarker dialect)
  | .display => c.operandAfterBlanks?
  | .displayOperate => if m.field?.isSome then c.operandAfterBlanks? else none
  | .directive .data | .directive .zro => c.operandAfterBlanks?
  | .iot | .operate | .skip | .directive _ => none

theorem Vector.length_words (beam x y : Int32) : (words beam x y).length = 3 := by
  simp only [words]
  split
  · rfl
  · rfl

theorem add_one_add_ofNat (location : Int32) (n : Nat) :
    location + 1 + Int32.ofNat n = location + Int32.ofNat (n + 1) := by
  rw [Int32.ofNat_add, Int32.add_assoc, Int32.add_comm 1]
  rfl

/-- Cells at consecutive locations. -/
def cellsFrom (line : Nat) (location : Int32) : List Cell.Content → List Cell
  | [] => []
  | content :: rest => ⟨line, location, content⟩ :: cellsFrom line (location + 1) rest

theorem cellsFrom_append (line : Nat) (location : Int32) (first rest : List Cell.Content) :
    cellsFrom line location (first ++ rest) =
      cellsFrom line location first ++
        cellsFrom line (location + Int32.ofNat first.length) rest := by
  induction first generalizing location with
  | nil => simp [cellsFrom]
  | cons content first ih =>
    simp only [List.cons_append, cellsFrom, ih, add_one_add_ofNat, List.length_cons]

namespace Assembly

/-- From `a` to `b` cells with these contents are added at the location counter, which moves on. -/
structure Lays (a : Assembly) (contents : List Cell.Content) (b : Assembly) : Prop where
  code : b.code = a.code ++ (cellsFrom a.lineNumber a.location contents).toArray
  location : b.location = a.location + Int32.ofNat contents.length
  lineNumber : b.lineNumber = a.lineNumber
  diagnostics : a.diagnostics <+: b.diagnostics

variable {a b : Assembly}

theorem lays_nil (code : b.code = a.code) (location : b.location = a.location)
    (lineNumber : b.lineNumber = a.lineNumber) (diagnostics : a.diagnostics <+: b.diagnostics) :
    Lays a [] b :=
  ⟨by simp [cellsFrom, code], by simp [location], lineNumber, diagnostics⟩

theorem lays_emit (a : Assembly) (content : Cell.Content) : Lays a [content] (a.emit content) :=
  ⟨by simp [emit, cellsFrom], by simp [emit], rfl, List.prefix_refl _⟩

theorem Lays.trans {c : Assembly} {contents contents' : List Cell.Content}
    (h : Lays a contents b) (h' : Lays b contents' c) : Lays a (contents ++ contents') c := by
  refine ⟨?_, ?_, h'.lineNumber.trans h.lineNumber, h.diagnostics.trans h'.diagnostics⟩
  · rw [h'.code, h.code, h.lineNumber, h.location, cellsFrom_append]
    simp
  · rw [h'.location, h.location, List.length_append, Int32.ofNat_add, Int32.add_assoc]

/-- Nothing but complaints is added. -/
def Notes (a b : Assembly) : Prop := ∃ said, b = { a with diagnostics := a.diagnostics ++ said }

theorem notes_refl (a : Assembly) : Notes a a := ⟨[], by simp⟩

theorem notes_note (a : Assembly) (d : Diagnostic) : Notes a (a.note d) := ⟨[d], rfl⟩

theorem notes_noteIf (a : Assembly) (condition : Bool) (d : Diagnostic) :
    Notes a (a.noteIf condition d) := by
  rw [noteIf]
  split
  · exact notes_note a d
  · exact notes_refl a

theorem Notes.trans {c : Assembly} (h : Notes a b) (h' : Notes b c) : Notes a c := by
  obtain ⟨said, rfl⟩ := h
  obtain ⟨said', rfl⟩ := h'
  exact ⟨said ++ said', by simp⟩

theorem Notes.lays (h : Notes a b) : Lays a [] b := by
  obtain ⟨said, rfl⟩ := h
  exact lays_nil rfl rfl rfl (List.prefix_append _ _)

/-- One word at the location counter. If the operand that begins at `place` cannot be read, the word
is zero and there is a complaint. -/
def LaysWord (a b : Assembly) (place : Option Cursor) : Prop :=
  ∃ content, Lays a [content] b ∧ ∀ c ∈ place,
    (Operand.read a.dialect a.location c a.toTables).isInvalid = true →
      content = .word 0 ∧ a.diagnostics.length < b.diagnostics.length

theorem laysWord_emit (h : Notes a b) (content : Cell.Content) :
    LaysWord a (b.emit content) none :=
  ⟨content, h.lays.trans (lays_emit b content), by simp⟩

/-- A word made from an operand, where an invalid operand makes it zero. -/
theorem laysWord_operand (h : Notes a b) (c : Cursor) {next : ExprId → Assembly → Assembly}
    (made : ∀ id d, ∃ content, Lays d [content] (next id d) ∧
      (d.exprs.isInvalid id = true → content = .word 0)) :
    LaysWord a (next (b.operand c).1 (b.operand c).2.2) (some c) := by
  obtain ⟨said, rfl⟩ := h
  obtain ⟨added, speaks⟩ := Operand.speaks_read a.dialect a.location c a.toTables
  let r := Operand.read a.dialect a.location c
    { a.toTables with diagnostics := a.diagnostics ++ said }
  have grown : r.tables.diagnostics = a.diagnostics ++ said ++ added := speaks.diagnostics _
  obtain ⟨content, lays, zero⟩ := made r.expr { a with toTables := r.tables }
  have read : Lays a [] { a with toTables := r.tables } :=
    lays_nil rfl rfl rfl (by simp [grown])
  refine ⟨content, read.trans lays, ?_⟩
  rintro _ ⟨⟩ invalid
  have spoken : added ≠ [] := (speaks.isInvalid a.diagnostics).mp invalid
  refine ⟨zero ((speaks.isInvalid _).mpr spoken), ?_⟩
  have more := lays.diagnostics.length_le
  have some := List.length_pos_iff.mpr spoken
  simp only [grown, List.length_append] at more
  exact Nat.lt_of_lt_of_le (by omega) more

theorem made_field (op : Operator) (right code : Int32) (id : ExprId) (d : Assembly) :
    ∃ content, Lays d [content] (d.emitField op right code id) ∧
      (d.exprs.isInvalid id = true → content = .word 0) := by
  rw [emitField]
  split
  · exact ⟨_, lays_emit d (.word 0), fun _ => rfl⟩
  · next valid =>
    have stored : Lays d [] { d with exprs := (d.exprs.field op right code id).2 } :=
      lays_nil rfl rfl rfl (List.prefix_refl _)
    exact ⟨_, stored.trans (lays_emit _ _), fun invalid => absurd invalid valid⟩

/-- A tag or a marker in front of the operand asks for indirect addressing. -/
def asksIndirect (dialect : Dialect) (tag : Option Tag) (c : Cursor) : Bool :=
  tag == some .indirect || dialect.isIndirectMarker c.dropBlanks.current

section Orders

variable (m : Mnemonic) (tag : Option Tag) (c : Cursor) (a : Assembly)

theorem indirect_eq : indirect m tag c a =
    (asksIndirect a.dialect tag c, c.operandAfterMarker a.dialect,
      a.noteIf (tag = some .display) (.displayTag m.name)) := by
  obtain ⟨said, noted⟩ := notes_noteIf a (tag = some .display) (.displayTag m.name)
  simp only [indirect, noted, asksIndirect, Cursor.operandAfterMarker]
  split
  · next marked => rw [marked, Bool.or_true]
  · next unmarked => rw [Bool.eq_false_iff.mpr unmarked, Bool.or_false]

theorem laysWord_processor :
    LaysWord a (processor m tag c a).2 (some (c.operandAfterMarker a.dialect)) := by
  have noted := notes_noteIf a (tag = some .display) (.displayTag m.name)
  simp only [processor, indirect_eq]
  split
  · exact laysWord_operand (noted.trans (notes_noteIf _ _ _)) _ (made_field _ _ _)
  · exact laysWord_operand noted _ fun id d => made_field _ _ _ id d

theorem laysWord_shift :
    LaysWord a (shift m tag c a).2 (some (c.operandAfterMarker a.dialect)) := by
  have noted := notes_noteIf a (tag = some .display) (.displayTag m.name)
  simp only [shift, indirect_eq]
  exact laysWord_operand (noted.trans (notes_noteIf _ _ _)) _ (made_field _ _ _)

variable {a} in
theorem laysWord_requiredOperand {b : Assembly} (h : Notes a b)
    {next : ExprId → Assembly → Assembly}
    (made : ∀ id d, ∃ content, Lays d [content] (next id d) ∧
      (d.exprs.isInvalid id = true → content = .word 0)) :
    LaysWord a (requiredOperand m c b next).2 c.operandAfterBlanks? := by
  rw [requiredOperand, Cursor.operandAfterBlanks?]
  split
  · exact laysWord_operand h _ made
  · exact laysWord_emit (h.trans (notes_note _ _)) _

theorem laysWord_display (other : m.code ≠ Mnemonic.deimCode) :
    LaysWord a (display m tag c a).2 c.operandAfterBlanks? := by
  simp only [display, other, if_false]
  refine laysWord_requiredOperand m c (notes_noteIf _ _ _) fun id d => ?_
  split
  · exact made_field _ _ _ id d
  · exact made_field _ _ _ id d

theorem code_display (ignored : m.code = Mnemonic.deimCode) :
    (display m tag c a).2.code = a.code := by
  obtain ⟨said, noted⟩ := notes_noteIf a tag.isSome (.indirectTag m.name)
  simp only [display, ignored, if_true, noted]
  rfl

theorem laysWord_displayOperate :
    LaysWord a (displayOperate m c a).2
      (if m.field?.isSome then c.operandAfterBlanks? else none) := by
  rw [displayOperate]
  cases m.field? with
  | none => exact laysWord_emit (notes_refl a) _
  | some mask => exact laysWord_requiredOperand m c (notes_refl a) (made_field _ _ _)

theorem notes_combine (first : String) (code : Int32) :
    Notes a (combine first code c a).2.2 := by
  fun_induction combine first code c a with
  | case1 | case6 => exact notes_refl a
  | case2 | case3 | case4 => exact notes_note a _
  | case5 _ _ _ _ _ _ _ _ _ _ _ ih => exact ih

theorem laysWord_data (d : Directive) :
    LaysWord a (data d c a).2 c.operandAfterBlanks? := by
  rw [data, Cursor.operandAfterBlanks?]
  split
  · simp only [apply_ite Prod.snd]
    refine @laysWord_operand _ _ (notes_refl a) c.dropBlanks
      (fun id b =>
        if b.exprs.isInvalid id then (b.note (.operandMalformed d.name)).emitWord 0
        else b.emitExpr id)
      fun id b => ?_
    split
    · exact ⟨_, (notes_note b _).lays.trans (lays_emit _ _), fun _ => rfl⟩
    · next valid => exact ⟨_, lays_emit b _, fun invalid => absurd invalid valid⟩
  · exact laysWord_emit (notes_note a _) _

theorem laysWord_zero : LaysWord a (zero c a).2 none := by
  rw [zero]
  split
  · exact laysWord_emit (notes_refl a) _
  · exact laysWord_emit (notes_refl a) _

theorem notes_incrementByte (first : Bool) : Notes a (incrementByte first c a).2.2 := by
  rw [incrementByte]
  split
  · exact notes_noteIf _ _ _
  · split
    · exact notes_refl a
    · split
      · split
        · exact notes_refl a
        · exact notes_note a _
      · split
        · exact notes_refl a
        · exact notes_note a _

theorem laysWord_increments : LaysWord a (increments c a).2 none := by
  rw [increments]
  split
  · simp only
    split
    · have high := notes_incrementByte c.dropBlanks a true
      split
      · exact laysWord_emit (high.trans (notes_note _ _)) _
      · exact laysWord_emit (high.trans (notes_incrementByte _ _ _)) _
    · exact laysWord_emit (notes_note a _) _
  · exact laysWord_emit (notes_note a _) _

theorem lays_operand : Lays a [] (a.operand c).2.2 := by
  obtain ⟨said, speaks⟩ := Operand.speaks_read a.dialect a.location c a.toTables
  have grown := speaks.diagnostics a.diagnostics
  exact lays_nil rfl rfl rfl ⟨said, grown.symm⟩

theorem lays_valueNow (id : ExprId) : Lays a [] (a.valueNow id).2 :=
  lays_nil rfl rfl rfl (List.prefix_append _ _)

theorem lays_movement (axis : String) : Lays a [] (movement axis c a).2.2 := by
  rw [movement]
  split
  · exact (notes_note a _).lays
  · next d comma =>
    have read := lays_operand d.dropBlanks a
    simp only
    split
    · exact read.trans (notes_note _ _).lays
    · have valued := read.trans (lays_valueNow _ (a.operand d.dropBlanks).1)
      split
      · next known =>
        rw [known] at valued
        exact valued
      · next known =>
        rw [known] at valued
        exact valued.trans (notes_note _ _).lays

theorem lays_words (ws : List Int32) : Lays a (ws.map .word) (ws.foldl emitWord a) := by
  induction ws generalizing a with
  | nil => exact (notes_refl a).lays
  | cons w ws ih => exact (lays_emit a (.word w)).trans (ih _)

theorem lays_failVector : Lays a [.word 0, .word 0, .word 0] a.failVector :=
  (lays_words a [0, 0, 0]).trans (notes_note _ _).lays

/-- A long vector takes three words, also where one of its displacements is missing. -/
theorem lays_longVector : ∃ contents, contents.length = 3 ∧ Lays a contents (longVector c a).2 := by
  rw [longVector]
  split
  · simp only
    have beam := (notes_noteIf a (c.dropBlanks.next?.bind Vector.beam?).isNone
      (.invalidBeam c.dropBlanks.next?)).lays
    have across := beam.trans (lays_movement c.dropBlanks.step _ "X")
    split
    · next failed =>
      rw [failed] at across
      exact ⟨_, rfl, across.trans (lays_failVector _)⟩
    · next x d b moved =>
      rw [moved] at across
      have up := across.trans (lays_movement d b "Y")
      split
      · next failed =>
        rw [failed] at up
        exact ⟨_, rfl, up.trans (lays_failVector _)⟩
      · next moved =>
        rw [moved] at up
        exact ⟨_, by simp [Vector.length_words], up.trans (lays_words _ _)⟩
  · exact ⟨_, rfl, (notes_note a _).lays.trans (lays_failVector _)⟩

end Orders

/-- The directives that take no word leave the code list alone. -/
theorem code_directive {d : Directive} (h : d.width? = some 0) (pool : Assembly → Assembly)
    (c : Cursor) (a : Assembly) : (directive pool d c a).2.code = a.code := by
  cases d with
  | block | bss | loc | org | rel => exact code_origin _ _ _
  | stop =>
    simp only [directive, stop]
    split
    · rfl
    · rfl
  | data | zro | zzz | inc | dlv | constants | ltorg => cases h
  | dadr | dup | equ | if1 | ife | ifn | ins | lvi | mcc | mcd | mce | oct | rep | repeated | svorg
  | title => rfl

/-- Of the display orders only one has the code that is not carried out. -/
theorem code_eq_deimCode_iff {m : Mnemonic} (listed : m ∈ Mnemonic.all)
    (group : m.group = .display) : m.code = Mnemonic.deimCode ↔ m.name = "DEIM" := by
  have table : ∀ m ∈ Mnemonic.all, m.group = .display →
      (m.code = Mnemonic.deimCode ↔ m.name = "DEIM") := by decide +kernel
  exact table m listed group

theorem laysWord_carryOut {m : Mnemonic} (listed : m ∈ Mnemonic.all) (one : m.width? = some 1)
    (pool : Assembly → Assembly) (tag : Option Tag) (c : Cursor) (a : Assembly) :
    LaysWord a (carryOut pool m tag c a).2 (m.operandAt? a.dialect c) := by
  cases group : m.group with
  | processor =>
    simp only [carryOut, Mnemonic.operandAt?, group]
    exact laysWord_processor m tag c a
  | display =>
    have other : m.code ≠ Mnemonic.deimCode := by
      rw [Ne, code_eq_deimCode_iff listed group]
      rintro deim
      simp [Mnemonic.width?, group, deim] at one
    simp only [carryOut, Mnemonic.operandAt?, group]
    exact laysWord_display m tag c a other
  | displayOperate =>
    simp only [carryOut, Mnemonic.operandAt?, group]
    exact laysWord_displayOperate m c a
  | iot =>
    simp only [carryOut, Mnemonic.operandAt?, group, iot]
    exact laysWord_emit (notes_noteIf _ _ _) _
  | operate =>
    simp only [carryOut, Mnemonic.operandAt?, group, operate]
    exact laysWord_emit (notes_combine c a _ _) _
  | shift =>
    simp only [carryOut, Mnemonic.operandAt?, group]
    exact laysWord_shift m tag c a
  | skip =>
    simp only [carryOut, Mnemonic.operandAt?, group]
    exact laysWord_emit (notes_refl a) _
  | directive d =>
    have one : d.width? = some 1 := by simpa [Mnemonic.width?, group] using one
    cases d with
    | data | zro =>
      simp only [carryOut, Mnemonic.operandAt?, group, directive]
      exact laysWord_data c a _
    | zzz =>
      simp only [carryOut, Mnemonic.operandAt?, group, directive]
      exact laysWord_zero c a
    | inc =>
      simp only [carryOut, Mnemonic.operandAt?, group, directive]
      exact laysWord_increments c a
    | dlv | constants | ltorg | block | bss | loc | org | rel | stop | dadr | dup | equ | if1 | ife
    | ifn | ins | lvi | mcc | mcd | mce | oct | rep | repeated | svorg | title => cases one

/-- Orders of another width than one word. -/
theorem width?_cases {m : Mnemonic} {n : Nat} (width : m.width? = some n) :
    n = 1 ∨ (m.group = .display ∧ m.name = "DEIM" ∧ n = 0) ∨
      (m.group = .directive .dlv ∧ n = 3) ∨
      ∃ d, m.group = .directive d ∧ d.width? = some 0 ∧ n = 0 := by
  cases group : m.group with
  | processor | displayOperate | iot | operate | shift | skip =>
    simp only [Mnemonic.width?, group, Option.some.injEq] at width
    exact .inl width.symm
  | display =>
    simp only [Mnemonic.width?, group] at width
    split at width
    · next deim => exact .inr (.inl ⟨rfl, deim, by simpa using width.symm⟩)
    · exact .inl (by simpa using width.symm)
  | directive d =>
    simp only [Mnemonic.width?, group] at width
    cases d with
    | data | zro | zzz | inc => exact .inl (Option.some.inj width).symm
    | dlv => exact .inr (.inr (.inl ⟨rfl, (Option.some.inj width).symm⟩))
    | constants | ltorg => cases width
    | block | bss | loc | org | rel | stop | dadr | dup | equ | if1 | ife | ifn | ins | lvi | mcc
    | mcd | mce | oct | rep | repeated | svorg | title =>
      exact .inr (.inr (.inr ⟨_, rfl, rfl, (Option.some.inj width).symm⟩))

/-- The words of an order depend on its mnemonic alone, not on the state, the tag or the text. They
stand at consecutive locations from the location counter on. If the operand of an order of one word
cannot be read, the word is zero and complaints are added to those of the line. -/
theorem width_depends_on_mnemonic {m : Mnemonic} (listed : m ∈ Mnemonic.all) {n : Nat}
    (width : m.width? = some n) (pool : Assembly → Assembly) (tag : Option Tag) (c : Cursor)
    (a : Assembly) :
    let b := (carryOut pool m tag c a).2
    ∃ contents, contents.length = n ∧
      b.code = a.code ++ (cellsFrom a.lineNumber a.location contents).toArray ∧
      (n = 1 → ∀ d ∈ m.operandAt? a.dialect c,
        (Operand.read a.dialect a.location d a.toTables).isInvalid = true →
          contents = [.word 0] ∧ a.diagnostics <+: b.diagnostics ∧
            a.diagnostics.length < b.diagnostics.length) := by
  intro b
  obtain one | ⟨display, deim, none⟩ | ⟨vector, three⟩ | ⟨d, other, zero, none⟩ :=
    width?_cases width
  · subst one
    obtain ⟨content, lays, invalid⟩ := laysWord_carryOut listed width pool tag c a
    refine ⟨[content], rfl, lays.code, ?_⟩
    rintro - d place unreadable
    obtain ⟨zero, more⟩ := invalid d place unreadable
    exact ⟨by rw [zero], lays.diagnostics, more⟩
  · refine ⟨[], none.symm, ?_, by simp [none]⟩
    have ignored := (code_eq_deimCode_iff listed display).mpr deim
    simp only [b, carryOut, display, code_display m tag c a ignored]
    simp [cellsFrom]
  · obtain ⟨contents, length, lays⟩ := lays_longVector c a
    refine ⟨contents, length.trans three.symm, ?_, by simp [three]⟩
    simp only [b, carryOut, vector, directive]
    exact lays.code
  · refine ⟨[], none.symm, ?_, by simp [none]⟩
    simp only [b, carryOut, other, code_directive zero pool c a]
    simp [cellsFrom]

/-- A bracket that is not closed leaves a zero word, although the tag is wrong as well. -/
theorem width_of_unclosed_literal :
    let m : Mnemonic := ⟨"LAC", 0o060000, .processor⟩
    let a : Assembly := { init .midas with location := 5 }
    let b := (carryOut placePool m (some .display) (.ofText " *[7") a).2
    m ∈ Mnemonic.all ∧ m.width? = some 1 ∧ b.code = #[⟨0, 5, .word 0⟩] ∧
      0 < b.diagnostics.length := by
  intro m a b
  have listed : m ∈ Mnemonic.all := by decide +kernel
  obtain ⟨contents, -, code, unreadable⟩ := width_depends_on_mnemonic listed (n := 1) rfl placePool
    (some .display) (.ofText " *[7") a
  obtain ⟨zero, -, more⟩ := unreadable rfl _ rfl (by decide +kernel)
  refine ⟨listed, rfl, ?_, more⟩
  rw [code, zero]
  rfl

end Assembly

end Pds1
