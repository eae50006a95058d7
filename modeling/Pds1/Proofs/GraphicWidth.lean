import Pds1.Proofs.LongVectors
import Pds1.Proofs.Traces

/-!
# Graphic data that does not fit

A number that is given as an increment byte is cut to eight bits, and the magnitudes of a long
vector are cut to twelve. A byte above the largest one is complained of, on whatever line it stands.
The comparison takes a number of 32 bits for a signed one, so a byte that has wrapped around is cut
in silence. A displacement is never compared with anything.
-/

namespace Pds1

namespace Number

theorem not_isBlank_of_isOctalDigit {x : Char} (digit : isOctalDigit x = true) :
    Cursor.isBlank x = false := by
  refine Bool.eq_false_iff.mpr fun blank => ?_
  rcases Cursor.eq_of_isBlank blank with rfl | rfl
  · exact absurd digit (by decide)
  · exact absurd digit (by decide)

/-- What may follow the digits of a number without being part of it. -/
def ends (x : Char) : Bool := !(x.isDigit || x = '.' || isOctalMark x)

/-- Octal digits are read as such where that is the radix of the dialect. -/
theorem read?_digits {dialect : Dialect} (radix : dialect.radix = 8) {c : Cursor} {n : Nat}
    {after : List Char} (h : c.rest = Octal.digits n ++ after)
    (stop : ∀ x ∈ after.head?, ends x = true) :
    read? dialect c = some (.ofNat n, c.moveTo after) := by
  have octal : (Octal.digits n).all isOctalDigit = true :=
    List.all_eq_true.mpr fun _ => Octal.isOctalDigit_of_mem_digits
  have nonempty : (Octal.digits n).isEmpty = false := by
    obtain ⟨d, ds, cons, -⟩ := Octal.digits_cons n
    rw [cons]
    rfl
  have parts (x : Char) (first : x ∈ after.head?) :
      x.isDigit = false ∧ x ≠ '.' ∧ isOctalMark x = false := by
    simpa [ends, and_assoc] using stop x first
  have run : c.run isOctalDigit = Octal.digits n := by
    rw [Cursor.run, h]
    refine Name.takeWhile_before octal fun x first => Bool.eq_false_iff.mpr fun digit => ?_
    exact absurd (isDigit_of_isOctalDigit digit) (by simp [(parts x first).1])
  have run' : c.run Char.isDigit = Octal.digits n := by
    rw [Cursor.run, h]
    refine Name.takeWhile_before ?_ fun x first => (parts x first).1
    exact List.all_eq_true.mpr fun x member =>
      isDigit_of_isOctalDigit (List.all_eq_true.mp octal x member)
  have plain : c.run (isPlainDigit dialect) = Octal.digits n := by
    rw [← run]
    exact congrArg c.run (funext fun x => if_pos radix)
  have rest : c.drop (Octal.digits n).length = c.moveTo after := by
    simp [Cursor.drop, h]
  have unmarked : (c.moveTo after).next?.any isOctalMark = false := by
    cases after with
    | nil => rfl
    | cons y r => exact (parts y rfl).2.2
  have pointless : ((c.moveTo after).next? == some '.') = false := by
    cases after with
    | nil => rfl
    | cons y r => simpa [Cursor.next?] using (parts y rfl).2.1
  have valued : value 8 (Octal.digits n) = .ofNat n := by
    rw [value_eq, Octal.digits, Nat.ofDigitChars_toDigits (by decide) (by decide)]
  simp only [read?, run, run', plain, rest, unmarked, pointless, nonempty, radix, valued,
    Bool.and_false, Bool.false_eq_true, if_false, ite_self]

end Number

namespace Increment

/-- A number is cut to its low eight bits. -/
theorem toNat_byte (v : Int32) : (v.toUInt32.toUInt8.toNat : Int) = v.toInt % 256 := by
  have sixteen := FieldBits.toInt_emod v
  have cut : v.toUInt32.toUInt8.toNat = v.toBitVec.toNat % 256 := UInt32.toNat_toUInt8 v.toUInt32
  omega

theorem toInt_pack (high low : UInt8) : (pack high low).toInt = high.toNat * 256 + low.toNat := by
  have above := high.toNat_lt
  have below := low.toNat_lt
  rw [pack, Int32.toInt_ofNat_of_lt (by omega)]
  omega

end Increment

namespace Assembly

/-- The number given as an increment byte, if it is a number. -/
def byteNumbers (dialect : Dialect) (c : Cursor) : List Int32 :=
  ((Number.read? dialect c).map Prod.fst).toList

/-- The numbers among the two bytes of an increment directive, which only the Midas dialect has. -/
def incrementNumbers (c : Cursor) (a : Assembly) : List Int32 :=
  if c.operandFollows && a.dialect.isMidas then
    byteNumbers a.dialect c.dropBlanks ++
      match (incrementByte true c.dropBlanks a).2.1.dropBlanks.accept? ',' with
      | none => []
      | some d => byteNumbers a.dialect d.dropBlanks
  else []

def orderIncrements (c : Cursor) (a : Assembly) : List Int32 :=
  match orderDirective? a.dialect c with
  | some (.inc, d) => incrementNumbers d a
  | _ => []

/-- The numbers that the statements of a line give as increment bytes, in order. -/
def statementIncrements (place : Assembly → Assembly) (c : Cursor) (a : Assembly) : List Int32 :=
  statementTrace (fun _ _ => []) orderIncrements place false c a

/-- The same for a source line, which may also be something else. -/
def textIncrements : String → Assembly → List Int32 :=
  lineTrace (fun _ _ => []) (statementIncrements placePool)

/-- The same for the statement of a literal. -/
def literalIncrements (id : LiteralId) (a : Assembly) : List Int32 :=
  statementIncrements refusePool (.ofText (a.symbols.literalText id))
    { a with lineNumber := a.poolLines.size + 1 }

/-- From `a` to `b` complaints are added, and every number that is above the largest byte is
complained of. -/
structure TellsWidth (a : Assembly) (numbers : List Int32) (b : Assembly) : Prop where
  grows : a.diagnostics <+: b.diagnostics
  told : ∀ v ∈ numbers, 0o377 < v → .incrementTooWide v ∈ b.diagnostics

variable {a b c : Assembly} {numbers numbers' : List Int32}

theorem tellsWidth_nil (grows : a.diagnostics <+: b.diagnostics) : TellsWidth a [] b :=
  ⟨grows, by simp⟩

theorem TellsWidth.trans (h : TellsWidth a numbers b) (h' : TellsWidth b numbers' c) :
    TellsWidth a (numbers ++ numbers') c := by
  constructor
  · exact h.grows.trans h'.grows
  · intro v member wide
    rcases List.mem_append.mp member with first | second
    · exact h'.grows.subset (h.told v first wide)
    · exact h'.told v second wide

theorem TellsWidth.after (h : TellsWidth a numbers b) (grows : b.diagnostics <+: c.diagnostics) :
    TellsWidth a numbers c := by
  simpa using h.trans (tellsWidth_nil grows)

theorem grows_noteIf (a : Assembly) (condition : Bool) (d : Diagnostic) :
    a.diagnostics <+: (a.noteIf condition d).diagnostics :=
  (notes_noteIf a condition d).lays.diagnostics

theorem grows_operand {d e : Cursor} {id : ExprId} (read : a.operand d = (id, e, b)) :
    a.diagnostics <+: b.diagnostics := by
  have grows := (lays_operand d a).diagnostics
  rw [read] at grows
  exact grows

theorem grows_valueNow {id : ExprId} {value : Except EvalError Int32}
    (known : a.valueNow id = (value, b)) : a.diagnostics <+: b.diagnostics := by
  have grows := (lays_valueNow a id).diagnostics
  rw [known] at grows
  exact grows

/-- Reading never takes a complaint back. -/
theorem Move.grows {place : Assembly → Assembly} {origins binds : Prop}
    (keeps : ∀ a, a.diagnostics <+: (place a).diagnostics) {p q : Position}
    (h : Move place origins binds p q) : p.2.diagnostics <+: q.2.diagnostics := by
  cases h with
  | skip | log | comment | word | stop => exact List.prefix_refl _
  | note => exact List.prefix_append _ _
  | label _ a name => exact grows_noteIf { a with symbols := a.symbols.bind name _ } _ _
  | pool => exact keeps _
  | operand read | expr read | stopAt read =>
    have grows := grows_operand read
    exact grows
  | field read =>
    refine (grows_operand read).trans ?_
    rw [emitField]
    split
    · exact List.prefix_refl _
    · exact List.prefix_refl _
  | value read => exact (grows_operand read).trans (lays_valueNow _ _).diagnostics
  | origin _ read _ known d =>
    refine ((grows_operand read).trans (grows_valueNow known)).trans ?_
    rw [moveOrigin.eq_def]
    split
    all_goals exact List.prefix_refl _
  | assign read _ known =>
    have grows := (grows_operand read).trans (grows_valueNow known)
    exact grows

theorem grows_of_reads {place : Assembly → Assembly} {origins binds : Prop}
    (keeps : ∀ a, a.diagnostics <+: (place a).diagnostics) {p q : Position}
    (h : Reads place origins binds p q) : p.2.diagnostics <+: q.2.diagnostics := by
  induction h with
  | refl => exact List.prefix_refl _
  | tail _ m ih => exact ih.trans (m.grows keeps)

theorem tellsWidth_incrementByte (first : Bool) (c : Cursor) (a : Assembly) :
    TellsWidth a (byteNumbers a.dialect c) (incrementByte first c a).2.2 := by
  refine ⟨(notes_incrementByte c a first).lays.diagnostics, ?_⟩
  rintro v member wide
  rw [byteNumbers] at member
  cases read : Number.read? a.dialect c with
  | none => simp [read] at member
  | some r =>
    obtain ⟨value, d⟩ := r
    obtain rfl : v = value := by simpa [read] using member
    simp [incrementByte, read, noteIf, wide, note]

theorem tellsWidth_increments (c : Cursor) (a : Assembly) :
    TellsWidth a (incrementNumbers c a) (increments c a).2 := by
  by_cases present : (c.operandFollows && a.dialect.isMidas) = true
  · obtain ⟨follows, midas⟩ := Bool.and_eq_true_iff.mp present
    have high := tellsWidth_incrementByte true c.dropBlanks a
    obtain ⟨said, noted⟩ := notes_incrementByte c.dropBlanks a true
    simp only [incrementNumbers, increments, follows, midas, Bool.and_self, if_true]
    generalize incrementByte true c.dropBlanks a = r at high noted ⊢
    obtain ⟨byte, d, b⟩ := r
    have same : b.dialect = a.dialect := by simpa using congrArg dialect noted
    simp only
    cases comma : d.dropBlanks.accept? ',' with
    | none =>
      rw [List.append_nil]
      exact high.after (List.prefix_append _ _)
    | some e =>
      have low := tellsWidth_incrementByte false e.dropBlanks b
      rw [same] at low
      exact (high.trans low).after (List.prefix_refl _)
  · obtain ⟨content, lays, -⟩ := laysWord_increments c a
    rw [incrementNumbers, if_neg present]
    exact tellsWidth_nil lays.diagnostics

section Statements

variable {place : Assembly → Assembly} (keeps : ∀ a, a.diagnostics <+: (place a).diagnostics)
include keeps

theorem tellsWidth_order (c : Cursor) (a : Assembly) :
    TellsWidth a (orderIncrements c a) (order place c a).2.2 := by
  rw [orderIncrements]
  split
  · next d named =>
    rw [order_of_directive named]
    exact tellsWidth_increments d a
  · have read : Reads place True True (c, a) (order place c a).2 :=
      reads_order c a fun _ _ _ _ => trivial
    exact tellsWidth_nil (grows_of_reads keeps read)

theorem tellsWidth_statement (kind : Line.Kind) (c : Cursor) (a : Assembly) :
    TellsWidth a (statementIncrements place c a) (statement place kind false c a).2 := by
  refine statementTrace_induction TellsWidth TellsWidth.trans ?_ ?_ (tellsWidth_order keeps) kind
    false c a
  · intro c a
    have read : Reads place True True (c, a) (readLabels none c a).2 :=
      reads_readLabels trivial none c a
    exact tellsWidth_nil (grows_of_reads keeps read)
  · intro a d _
    exact tellsWidth_nil (List.prefix_append _ _)

end Statements

theorem grows_placePool (a : Assembly) : a.diagnostics <+: a.placePool.diagnostics := by
  rw [placePool]
  split
  · exact List.prefix_refl _
  · exact List.prefix_refl _

theorem tellsWidth_readText (text : String) (a : Assembly) :
    TellsWidth a (textIncrements text a) (readText text a).2 := by
  refine lineTrace_cases TellsWidth (fun _ => tellsWidth_nil (List.prefix_refl _))
    (fun a condition d _ => tellsWidth_nil (grows_noteIf a condition d))
    (fun _ => tellsWidth_nil (List.prefix_refl _)) ?_
    (tellsWidth_statement grows_placePool .unclassified) text a
  intro c a b found
  obtain ⟨d, read⟩ : ∃ d, Reads placePool True True (c, a) (d, b) := reads_definition trivial found
  exact tellsWidth_nil (grows_of_reads grows_placePool read)

/-- What is complained of in a line is handed over to it. -/
theorem mem_diagnostics_readLine (line : Line) (a : Assembly) {v : Int32}
    (member : v ∈ textIncrements line.text { a with lineNumber := line.number })
    (wide : 0o377 < v) : .incrementTooWide v ∈ (readLine line a).1.diagnostics := by
  have told := (tellsWidth_readText line.text _).told v member wide
  simp only [readLine]
  generalize readText line.text { a with lineNumber := line.number } = r at told ⊢
  exact List.mem_append_right _ ((grows_noteIf r.2 _ _).subset told)

/-- From `a` to `b` two numbers are packed as increment bytes: both are cut to eight bits, and the
complaints are just those of the numbers above the largest byte. -/
structure PacksBytes (a : Assembly) (v v' : Int32) (b : Assembly) : Prop where
  packs : ∃ w : Int32, w.toInt = v.toInt % 256 * 256 + v'.toInt % 256 ∧
    b = ((a.noteIf (0o377 < v) (.incrementTooWide v)).noteIf (0o377 < v')
      (.incrementTooWide v')).emitWord w
  silent_iff : b.diagnostics = a.diagnostics ↔ v ≤ 0o377 ∧ v' ≤ 0o377

theorem diagnostics_noteIf (a : Assembly) (condition : Bool) (d : Diagnostic) :
    (a.noteIf condition d).diagnostics = a.diagnostics ++ if condition then [d] else [] := by
  cases condition with
  | false => exact (List.append_nil _).symm
  | true => rfl

theorem packsBytes_pack (a : Assembly) (v v' : Int32) :
    PacksBytes a v v' (((a.noteIf (0o377 < v) (.incrementTooWide v)).noteIf (0o377 < v')
      (.incrementTooWide v')).emitWord
        (Increment.pack v.toUInt32.toUInt8 v'.toUInt32.toUInt8)) := by
  refine ⟨⟨_, ?_, rfl⟩, ?_⟩
  · rw [Increment.toInt_pack, Increment.toNat_byte, Increment.toNat_byte]
  · change (noteIf _ _ _).diagnostics = a.diagnostics ↔ _
    rw [diagnostics_noteIf, diagnostics_noteIf, List.append_assoc, List.append_right_eq_self,
      List.append_eq_nil_iff]
    simp only [decide_eq_true_eq, ite_eq_right_iff, List.cons_ne_nil, imp_false, Int32.not_lt]

/-- Two numbers as increment bytes: what is emitted, and what is complained of. -/
theorem increments_of_numbers {c d e f : Cursor} {a : Assembly} {v v' : Int32}
    (midas : a.dialect = .midas) (follows : c.operandFollows = true)
    (first : Number.read? a.dialect c.dropBlanks = some (v, d))
    (comma : d.dropBlanks.accept? ',' = some e)
    (second : Number.read? a.dialect e.dropBlanks = some (v', f)) :
    ∃ b, increments c a = (f, b) ∧ PacksBytes a v v' b := by
  have same : (a.noteIf (0o377 < v) (.incrementTooWide v)).dialect = a.dialect := by
    rw [noteIf]
    split
    · rfl
    · rfl
  have high : incrementByte true c.dropBlanks a =
      (v.toUInt32.toUInt8, d, a.noteIf (0o377 < v) (.incrementTooWide v)) := by
    simp only [incrementByte, first]
  have low (b : Assembly) (same : b.dialect = a.dialect) : incrementByte false e.dropBlanks b =
      (v'.toUInt32.toUInt8, f, b.noteIf (0o377 < v') (.incrementTooWide v')) := by
    simp only [incrementByte, same, second]
  have isMidas : a.dialect.isMidas = true := by rw [midas]; rfl
  refine ⟨_, ?_, packsBytes_pack a v v'⟩
  simp only [increments, follows, isMidas, if_true, high, comma, low _ same]

/-- A line with two increment bytes in octal. -/
def incrementLine (indent gap : Indent) (n m : Nat) : List Char :=
  indent.chars ++ ("INC".toList ++ (gap.chars ++ (Octal.digits n ++ ',' :: Octal.digits m)))

/-- The bytes of the line may be any numbers; they wrap at 32 bits before they are looked at. -/
theorem packsBytes_incrementLine (indent gap : Indent) (n m : Nat) {a : Assembly}
    (midas : a.dialect = .midas) : PacksBytes a (.ofNat n) (.ofNat m)
      (readText (String.ofList (incrementLine indent gap n m)) a).2 := by
  have radix : a.dialect.radix = 8 := by rw [midas]; rfl
  have capitals : Capitals "INC".toList := ⟨by decide, by decide⟩
  have named : Mnemonic.find? (String.ofList "INC".toList) = some ⟨"INC", 0, .directive .inc⟩ := by
    decide +kernel
  obtain ⟨x, r, cons, digit⟩ := Octal.digits_cons n
  obtain ⟨y, s, cons', digit'⟩ := Octal.digits_cons m
  have unequal : x ≠ '=' := by
    rintro rfl
    exact absurd digit (by decide)
  have operands : Octal.digits n ++ ',' :: Octal.digits m = x :: (r ++ ',' :: Octal.digits m) := by
    rw [cons]
    rfl
  obtain ⟨c, rest, carried⟩ := capitals.exists_readText named indent gap
    (Number.not_isBlank_of_isOctalDigit digit) unequal (r ++ ',' :: Octal.digits m) a
  obtain ⟨follows, behind⟩ :=
    Cursor.operandFollows_of_gap rest (Number.not_isBlank_of_isOctalDigit digit)
  rw [← operands] at behind carried
  have first : Number.read? a.dialect c.dropBlanks =
      some (.ofNat n, c.moveTo (',' :: Octal.digits m)) := by
    rw [behind]
    exact Number.read?_digits radix rfl (by rintro _ ⟨⟩; rfl)
  have comma : (c.moveTo (',' :: Octal.digits m)).dropBlanks.accept? ',' =
      some (c.moveTo (Octal.digits m)) := rfl
  have second : Number.read? a.dialect (c.moveTo (Octal.digits m)).dropBlanks =
      some (.ofNat m, c.moveTo []) := by
    rw [Name.dropBlanks_of_not_blank cons' (Number.not_isBlank_of_isOctalDigit digit')]
    exact Number.read?_digits radix (List.append_nil _).symm (by simp)
  obtain ⟨b, read, packed⟩ := increments_of_numbers midas follows first comma second
  rw [incrementLine, carried b read]
  exact packed

/-- From `a` to `b` a long vector is laid down with its magnitudes cut to twelve bits, and nothing
is complained of. -/
structure CutsVector (a : Assembly) (x y : Int32) (b : Assembly) : Prop where
  cuts : ∃ (t : Tables) (w₀ w₁ w₂ : Int32),
    (w₁ &&& 0o7777).toInt = (Vector.longer x y).toInt % 4096 ∧
    (w₂ &&& 0o7777).toInt = (Vector.shorter x y).toInt % 4096 ∧
    b = (({ a with toTables := t }.emitWord w₀).emitWord w₁).emitWord w₂
  silent : b.diagnostics = a.diagnostics

theorem cutsVector_words {letter : Char} {bits : Int32} (known : Vector.beam? letter = some bits)
    (x y : Int32) {a : Assembly} {t : Tables} (silent : t.diagnostics = a.diagnostics) :
    CutsVector a x y ((Vector.words bits x y).foldl emitWord { a with toTables := t }) := by
  rw [Vector.words_eq]
  refine ⟨⟨t, _, _, _, ?_, ?_, rfl⟩, silent⟩
  · rw [FieldBits.or_and (Vector.beam?_apart known), Vector.low_twelve]
  · rw [FieldBits.or_and (Vector.corner_bits x y).1, Vector.low_twelve]

/-- Increment bytes are cut to eight bits, and numbers above the largest byte are complained of, but
no negative ones. Displacements of a long vector are cut to twelve bits in silence. -/
theorem graphic_data_is_cut (line : Line) (a : Assembly) :
    (∀ v ∈ textIncrements line.text { a with lineNumber := line.number },
      0o377 < v → .incrementTooWide v ∈ (readLine line a).1.diagnostics) ∧
    (∀ id, ∀ v ∈ literalIncrements id a,
      0o377 < v → .incrementTooWide v ∈ (literalStatement id a).2.diagnostics) ∧
    (∀ (c d e f : Cursor) (v v' : Int32), a.dialect = .midas → c.operandFollows = true →
      Number.read? a.dialect c.dropBlanks = some (v, d) → d.dropBlanks.accept? ',' = some e →
      Number.read? a.dialect e.dropBlanks = some (v', f) →
      ∃ b, increments c a = (f, b) ∧ PacksBytes a v v' b) ∧
    (∀ (c : Cursor) (letter : Char) (p : Displacement c.dropBlanks.step a)
      (q : Displacement p.reading.cursor p.after), c.operandFollows = true →
      c.dropBlanks.next? = some letter → letter ∈ ['B', 'X', 'D'] →
      ∃ b, longVector c a = (q.reading.cursor, b) ∧ CutsVector a p.value q.value b) ∧
    ∀ indent gap : Indent,
      (a.dialect = .midas → ∀ n m : Nat, PacksBytes a (.ofNat n) (.ofNat m)
        (readText (String.ofList (incrementLine indent gap n m)) a).2) ∧
      ∀ letter ∈ ['B', 'X', 'D'], ∀ x y : Int32, CutsVector a x y
        (readText (String.ofList (vectorLine indent gap letter x y)) a).2 := by
  refine ⟨fun v => mem_diagnostics_readLine line a, ?_, ?_, ?_, ?_⟩
  · intro id
    have refused (b : Assembly) : b.diagnostics <+: (refusePool b).diagnostics :=
      List.prefix_append _ _
    exact (tellsWidth_statement refused .unclassified _ _).told
  · intro c d e f v v' midas follows first comma second
    exact increments_of_numbers midas follows first comma second
  · intro c letter p q follows first beam
    obtain ⟨bits, known⟩ := Vector.exists_beam? beam
    exact ⟨_, longVector_eq follows first known p q,
      cutsVector_words known p.value q.value (q.diagnostics_after.trans p.diagnostics_after)⟩
  · intro indent gap
    refine ⟨fun midas n m => packsBytes_incrementLine indent gap n m midas, ?_⟩
    intro letter beam x y
    obtain ⟨bits, known⟩ := Vector.exists_beam? beam
    obtain ⟨t, silent, read⟩ := readText_vectorLine gap known x y indent a
    rw [read]
    exact cutsVector_words known x y silent

/-- In front of the operands of a vector that is too long. -/
def farVector : Cursor := .ofText " D,10000,-3"

/-- Its first displacement, of thirteen bits. -/
def farVectorRight : Displacement farVector.dropBlanks.step (init .midas) where
  value := 0o10000
  place := farVector.moveTo "10000,-3".toList
  comma := by decide +kernel
  valid := by decide +kernel
  constant := by decide +kernel
  known := by decide +kernel

/-- Its second one. -/
def farVectorDown : Displacement farVectorRight.reading.cursor farVectorRight.after where
  value := -3
  place := farVector.moveTo "-3".toList
  comma := by decide +kernel
  valid := by decide +kernel
  constant := by decide +kernel
  known := by decide +kernel

/-- A wide byte is told on a source line and in a literal, a wrapped one is not, and of the vector
that is too long the larger magnitude is lost. -/
theorem graphic_data_is_cut_apart :
    let source : Line := { number := 1, text := "\tINC 777,37777777777" }
    let literal : Assembly :=
      { init .midas with symbols := (({} : SymbolTable).intern "INC 1,400" 0).2 }
    let c := Cursor.ofText " 37777777777,5"
    .incrementTooWide 0o777 ∈ (readLine source (init .midas)).1.diagnostics ∧
      .incrementTooWide 0o400 ∈ (literalStatement 0 literal).2.diagnostics ∧
      (∃ b, increments c (init .midas) = (c.moveTo [], b) ∧
        PacksBytes (init .midas) (-1) 5 b) ∧
      (∃ b, longVector farVector (init .midas) = (farVectorDown.reading.cursor, b) ∧
        CutsVector (init .midas) 0o10000 (-3) b) ∧
      PacksBytes (init .midas) (-1) 5 (readText "\tINC 37777777777,5" (init .midas)).2 ∧
      CutsVector (init .midas) 0o10000 (-3) (readText "\tDLV D,10000',-3'" (init .midas)).2 := by
  intro source literal c
  obtain ⟨lines, -, bytes, vectors, written⟩ := graphic_data_is_cut source (init .midas)
  obtain ⟨-, literals, -⟩ := graphic_data_is_cut source literal
  let tab : Indent := ⟨⟨['\t'], by decide⟩, by decide⟩
  let space : Indent := ⟨⟨[' '], by decide⟩, by decide⟩
  obtain ⟨incremented, drawn⟩ := written tab space
  refine ⟨?_, ?_, ?_, ?_, ?_, ?_⟩
  · exact lines 0o777 (by decide +kernel) (by decide)
  · exact literals 0 0o400 (by decide +kernel) (by decide)
  · exact bytes c (c.moveTo ",5".toList) (c.moveTo "5".toList) (c.moveTo []) (-1) 5 rfl
      (by decide +kernel) (by decide +kernel) (by decide +kernel) (by decide +kernel)
  · exact vectors farVector 'D' farVectorRight farVectorDown (by decide +kernel)
      (by decide +kernel) (by decide)
  · have packed := incremented rfl 0o37777777777 5
    have text : String.ofList (incrementLine tab space 0o37777777777 5) =
        "\tINC 37777777777,5" := by decide +kernel
    rw [text] at packed
    exact packed
  · have cut := drawn 'D' (by decide) 0o10000 (-3)
    have text : String.ofList (vectorLine tab space 'D' 0o10000 (-3)) =
        "\tDLV D,10000',-3'" := by decide +kernel
    rw [text] at cut
    exact cut

/-- A byte with all 32 bits set, and a displacement of thirteen bits: neither is kept, and nothing
is complained of in either pass. -/
theorem wrapped_byte_is_silent :
    let source := Source.ofText "wrap" "\tINC 37777777777,0\n\tDLV D,10000,0\n"
    let run := assemble .midas source ⟨{}, .init {} .block⟩
    textIncrements "\tINC 37777777777,0" (init .midas) = [-1, 0] ∧
      run.2.1.lines.map Line.diagnostics = [[], []] ∧
      run.2.2.1.words = [(0, 0o177400), (1, 0o040000), (2, 0), (3, 0)] := by
  decide +kernel

end Assembly

end Pds1
