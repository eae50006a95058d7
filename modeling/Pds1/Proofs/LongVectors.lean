import Pds1.Proofs.CursorPlace
import Pds1.Proofs.DataPrograms
import Pds1.Proofs.InstructionFields
import Pds1.Proofs.OperandComplaints
import Pds1.Proofs.PlainOrders

/-!
# Long vectors can be taken apart

The three words of a long vector hold two magnitudes of twelve bits, the larger one first, with the
beam and the signs in the bits above them. As long as the displacements fit, the second and third
word tell the beam letter and both displacements, and the first holds the difference of the
magnitudes. This is so in every dialect and state, for all operands that are constant when they are
read.
-/

namespace Pds1

namespace Vector

/-- The larger of the two magnitudes. -/
def longer (x y : Int32) : Int32 := if magnitude y > magnitude x then magnitude y else magnitude x

/-- The smaller one. -/
def shorter (x y : Int32) : Int32 := if magnitude y > magnitude x then magnitude x else magnitude y

/-- What stands above the smaller magnitude: the signs, and whether the vertical displacement is the
larger one. -/
def corner (x y : Int32) : Int32 :=
  signBits x y ||| if magnitude y > magnitude x then 0o010000 else 0

theorem words_eq (beam x y : Int32) : words beam x y =
    [0o040000 ||| ((shorter x y - longer x y) &&& 0o7777), beam ||| (longer x y &&& 0o7777),
      corner x y ||| (shorter x y &&& 0o7777)] := by
  rw [words, longer, shorter, corner]
  by_cases steep : magnitude y > magnitude x
  · simp [steep, Int32.neg_sub]
  · simp [steep]

/-- The three words of a long vector that holds the letter and the displacements. -/
structure Holds (letter : Char) (x y w₀ w₁ w₂ : Int32) : Prop where
  longer : (w₁ &&& 0o7777).toInt = max x.toInt.natAbs y.toInt.natAbs
  shorter : (w₂ &&& 0o7777).toInt = min x.toInt.natAbs y.toInt.natAbs
  beam : beam? letter = some (w₁ &&& ~~~0o7777)
  left : w₂ &&& 0o040000 ≠ 0 ↔ x < 0
  down : w₂ &&& 0o020000 ≠ 0 ↔ y < 0
  steep : w₂ &&& 0o010000 ≠ 0 ↔ x.toInt.natAbs < y.toInt.natAbs
  /-- No other bit is set. -/
  clear : w₂ &&& ~~~0o77777 = 0
  difference : (w₀ &&& 0o7777).toInt =
    (min x.toInt.natAbs y.toInt.natAbs - max x.toInt.natAbs y.toInt.natAbs : Int) % 4096
  mark : w₀ &&& ~~~0o7777 = 0o040000

/-- The beam letter and the displacements that the second and third word tell. -/
def takeApart (w₁ w₂ : Int32) : Option (Char × Int32 × Int32) :=
  let large := w₁ &&& 0o7777
  let small := w₂ &&& 0o7777
  let x := if w₂ &&& 0o010000 ≠ 0 then small else large
  let y := if w₂ &&& 0o010000 ≠ 0 then large else small
  (['B', 'X', 'D'].find? (beam? · = some (w₁ &&& ~~~0o7777))).map fun letter =>
    (letter, if w₂ &&& 0o040000 ≠ 0 then -x else x, if w₂ &&& 0o020000 ≠ 0 then -y else y)

theorem low_twelve (v : Int32) : (v &&& 0o7777).toInt = v.toInt % 4096 := by
  have sixteen := FieldBits.toInt_emod v
  rw [FieldBits.toInt_and (n := 12) (by decide) rfl]
  omega

/-- A bit above the magnitude is a bit of what stands there. -/
theorem and_above {code bit : Int32} (apart : code &&& 0o7777 = 0)
    (above : ~~~0o7777 &&& bit = bit) (v : Int32) :
    (code ||| (v &&& 0o7777)) &&& bit = code &&& bit :=
  calc (code ||| (v &&& 0o7777)) &&& bit
    _ = (code ||| (v &&& 0o7777)) &&& (~~~0o7777 &&& bit) := by rw [above]
    _ = (code ||| (v &&& 0o7777)) &&& ~~~0o7777 &&& bit := (Int32.and_assoc ..).symm
    _ = code &&& bit := by rw [FieldBits.or_and_not apart]

theorem letter_of_beam? {letter : Char} {bits : Int32} (known : beam? letter = some bits) :
    letter = 'B' ∨ letter = 'X' ∨ letter = 'D' := by
  rw [beam?.eq_def] at known
  split at known
  · exact .inl rfl
  · exact .inr (.inl rfl)
  · exact .inr (.inr rfl)
  · cases known

theorem exists_beam? {letter : Char} (beam : letter ∈ ['B', 'X', 'D']) :
    ∃ bits, beam? letter = some bits := by
  have letters : letter = 'B' ∨ letter = 'X' ∨ letter = 'D' := by simpa using beam
  rcases letters with rfl | rfl | rfl
  all_goals exact ⟨_, rfl⟩

theorem beam?_apart {letter : Char} {bits : Int32} (known : beam? letter = some bits) :
    bits &&& 0o7777 = 0 := by
  rcases letter_of_beam? known with rfl | rfl | rfl
  all_goals
    cases known
    rfl

/-- Each bit above the smaller magnitude tells one thing. -/
theorem corner_bits (x y : Int32) : corner x y &&& 0o7777 = 0 ∧ corner x y &&& ~~~0o77777 = 0 ∧
    (corner x y &&& 0o040000 ≠ 0 ↔ x < 0) ∧ (corner x y &&& 0o020000 ≠ 0 ↔ y < 0) ∧
    (corner x y &&& 0o010000 ≠ 0 ↔ magnitude y > magnitude x) := by
  rw [corner, signBits]
  by_cases left : x < 0 <;> by_cases down : y < 0 <;> by_cases steep : magnitude y > magnitude x
  all_goals simp only [left, down, steep, if_true, if_false]
  all_goals decide

section Narrow

variable {x y : Int32}

theorem toInt_magnitude (narrow : x.toInt.natAbs ≤ 0o7777) :
    (magnitude x).toInt = x.toInt.natAbs := by
  rw [magnitude]
  have sign : x < 0 ↔ x.toInt < 0 := Int32.lt_iff_toInt_lt
  split
  · next negative =>
    have below := sign.mp negative
    rw [Int32.toInt_neg, Int.bmod_eq_of_le (by omega) (by omega)]
    omega
  · next positive =>
    have above := mt sign.mpr positive
    omega

variable (narrow : x.toInt.natAbs ≤ 0o7777) (narrow' : y.toInt.natAbs ≤ 0o7777)
include narrow narrow'

theorem steep_iff : magnitude y > magnitude x ↔ x.toInt.natAbs < y.toInt.natAbs := by
  rw [gt_iff_lt, Int32.lt_iff_toInt_lt, toInt_magnitude narrow, toInt_magnitude narrow',
    Int.ofNat_lt]

theorem toInt_sizes : (longer x y).toInt = max x.toInt.natAbs y.toInt.natAbs ∧
    (shorter x y).toInt = min x.toInt.natAbs y.toInt.natAbs := by
  have size := toInt_magnitude narrow
  have size' := toInt_magnitude narrow'
  have order := steep_iff narrow narrow'
  rw [longer, shorter]
  by_cases steep : magnitude y > magnitude x
  · have less := order.mp steep
    rw [if_pos steep, if_pos steep, size, size']
    omega
  · have more := mt order.mpr steep
    rw [if_neg steep, if_neg steep, size, size']
    omega

end Narrow

/-- Displacements that fit are held by the three words. -/
theorem holds_words {letter : Char} {beam x y : Int32} (known : beam? letter = some beam)
    (narrow : x.toInt.natAbs ≤ 0o7777) (narrow' : y.toInt.natAbs ≤ 0o7777) :
    Holds letter x y (0o040000 ||| ((shorter x y - longer x y) &&& 0o7777))
      (beam ||| (longer x y &&& 0o7777)) (corner x y ||| (shorter x y &&& 0o7777)) := by
  have apart := beam?_apart known
  obtain ⟨large, small⟩ := toInt_sizes narrow narrow'
  obtain ⟨apart', clear, left, down, steep⟩ := corner_bits x y
  constructor
  · rw [FieldBits.or_and apart, low_twelve, large]
    omega
  · rw [FieldBits.or_and apart', low_twelve, small]
    omega
  · rw [FieldBits.or_and_not apart, known]
  · rw [and_above apart' rfl, left]
  · rw [and_above apart' rfl, down]
  · rw [and_above apart' rfl, steep, steep_iff narrow narrow']
  · rw [and_above apart' rfl, clear]
  · -- both magnitudes have twelve bits, so their difference does not wrap around
    have exact : (shorter x y - longer x y).toInt = (shorter x y).toInt - (longer x y).toInt := by
      rw [Int32.toInt_sub, Int.bmod_eq_of_le (by omega) (by omega)]
    rw [FieldBits.or_and rfl, low_twelve, exact, large, small]
  · exact FieldBits.or_and_not rfl _

/-- No two letters have the same bits. -/
theorem find?_beam {letter : Char} {bits : Int32} (known : beam? letter = some bits) :
    ['B', 'X', 'D'].find? (beam? · = some bits) = some letter := by
  rcases letter_of_beam? known with rfl | rfl | rfl
  all_goals
    cases known
    rfl

/-- A number is given back by its magnitude and its sign. -/
theorem signed_eq {v m : Int32} (size : m.toInt = v.toInt.natAbs) :
    (if v < 0 then -m else m) = v := by
  have same : m = Int32.ofNat v.toInt.natAbs := by
    rw [← Int32.ofInt_toInt m, size, Int32.ofInt_eq_ofNat]
  rw [same]
  exact ofNat_natAbs v

/-- What the words hold can be taken from them. -/
theorem Holds.takeApart_eq {letter : Char} {x y w₀ w₁ w₂ : Int32}
    (h : Holds letter x y w₀ w₁ w₂) : takeApart w₁ w₂ = some (letter, x, y) := by
  have large := h.longer
  have small := h.shorter
  simp only [takeApart, find?_beam h.beam, h.left, h.down, h.steep, Option.map_some]
  by_cases steep : x.toInt.natAbs < y.toInt.natAbs
  · simp only [steep, if_true]
    rw [signed_eq (by omega), signed_eq (by omega)]
  · simp only [steep, if_false]
    rw [signed_eq (by omega), signed_eq (by omega)]

end Vector

section Operands

variable {gap : Indent} {x : Char} {r : List Char}

/-- Operands stand behind blanks. -/
theorem Cursor.operandFollows_of_gap {c : Cursor} (h : c.rest = gap.chars ++ x :: r)
    (other : isBlank x = false) : c.operandFollows = true ∧ c.dropBlanks = c.moveTo (x :: r) := by
  have behind := Name.dropBlanks_append gap.blank h other
  obtain ⟨z, s, cons⟩ := List.exists_cons_of_ne_nil gap.nonempty
  have onBlank : c.onBlank = true := by
    rw [onBlank, next?, h, cons]
    exact List.all_eq_true.mp gap.blank z (by simp [cons])
  exact ⟨by rw [operandFollows, onBlank, behind]; rfl, behind⟩

/-- An indented order with operands is read by carrying it out, if that reads to the end of the
line. -/
theorem Capitals.exists_readText {word : List Char} (w : Capitals word) {m : Mnemonic}
    (known : Mnemonic.find? (String.ofList word) = some m) (indent gap : Indent)
    (other : Cursor.isBlank x = false) (unequal : x ≠ '=') (r : List Char) (a : Assembly) :
    ∃ c : Cursor, c.rest = gap.chars ++ x :: r ∧ ∀ b,
      Assembly.carryOut Assembly.placePool m none c a = (c.moveTo [], b) →
      Assembly.readText (String.ofList (indent.chars ++ (word ++ (gap.chars ++ x :: r)))) a =
        (m.lineKind, b) := by
  obtain ⟨z, s, cons⟩ := List.exists_cons_of_ne_nil gap.nonempty
  have blank : Cursor.isBlank z = true :=
    List.all_eq_true.mp gap.blank z (by simp [cons])
  have stops : Stops (gap.chars ++ x :: r) := by
    rw [cons]
    rintro _ ⟨⟩
    rcases Cursor.eq_of_isBlank blank with rfl | rfl
    · decide
    · decide
  have ends : Mnemonic.endsName (gap.chars ++ x :: r).head? = true := by
    rw [cons]
    rcases Cursor.eq_of_isBlank blank with rfl | rfl
    · rfl
    · rfl
  have plain : ((gap.chars ++ x :: r).dropWhile Cursor.isBlank).head? ≠ some '=' := by
    rw [List.dropWhile_append_of_pos (List.all_eq_true.mp gap.blank)]
    simpa [other] using unequal
  rw [w.readText_of_indent indent.blank stops plain]
  generalize whole : Cursor.ofList (indent.chars ++ (word ++ (gap.chars ++ x :: r))) = c
  have rest : c.rest = indent.chars ++ (word ++ (gap.chars ++ x :: r)) := by
    rw [← whole]
    rfl
  refine ⟨c.moveTo (gap.chars ++ x :: r), rfl, ?_⟩
  intro b carried
  have ordered : Assembly.order Assembly.placePool (c.moveTo (word ++ (gap.chars ++ x :: r))) a =
      (m.lineKind, c.moveTo [], b) :=
    (w.order_of_rest known stops ends rfl Assembly.placePool a).trans
      (congrArg (m.lineKind, ·) carried)
  exact (w.statement_of_rest indent.blank rest stops (fun _ => indent.nonempty)
    (.inr indent.nonempty) ordered .unclassified).1 rfl

end Operands

namespace Assembly

/-- A constant displacement at a place: a comma, and an operand that has a value when it is read. -/
structure Displacement (c : Cursor) (a : Assembly) where
  value : Int32
  /-- Behind the comma. -/
  place : Cursor
  comma : c.dropBlanks.accept? ',' = some place
  valid : (Operand.read a.dialect a.location place.dropBlanks a.toTables).isInvalid = false
  constant : let r := Operand.read a.dialect a.location place.dropBlanks a.toTables
    r.tables.exprs.symbolic r.expr = false
  known : let r := Operand.read a.dialect a.location place.dropBlanks a.toTables
    (r.tables.exprs.evaluate r.tables.symbols r.expr).value = .ok value

namespace Displacement

variable {c : Cursor} {a : Assembly}

def reading (p : Displacement c a) : Operand.Reading :=
  Operand.read a.dialect a.location p.place.dropBlanks a.toTables

/-- The state after the displacement has been read. -/
def after (p : Displacement c a) : Assembly := { a with toTables := p.reading.tables }

theorem movement_eq (p : Displacement c a) (axis : String) :
    movement axis c a = (some p.value, p.reading.cursor, p.after) := by
  have quiet : (p.after.exprs.evaluate p.after.symbols p.reading.expr).warningDiagnostics = [] :=
    congrArg (List.map _)
      ((Operand.grown_read a.dialect a.location p.place.dropBlanks a.toTables).quiet _)
  have read : a.operand p.place.dropBlanks = (p.reading.expr, p.reading.cursor, p.after) := rfl
  have valid : p.after.exprs.isInvalid p.reading.expr = false := p.valid
  have constant : p.after.exprs.symbolic p.reading.expr = false := p.constant
  have evaluated : p.after.valueNow p.reading.expr = (.ok p.value, p.after) := by
    rw [valueNow, quiet, List.append_nil]
    exact congrArg (·, p.after) p.known
  simp only [movement, p.comma, read, valid, constant, evaluated, Bool.or_self, Bool.false_eq_true,
    if_false]

/-- Nothing is complained of. -/
theorem diagnostics_after (p : Displacement c a) : p.after.diagnostics = a.diagnostics := by
  obtain ⟨said, speaks⟩ :=
    Operand.speaks_read a.dialect a.location p.place.dropBlanks a.toTables
  have silent : said = [] := by
    by_contra spoken
    exact absurd p.valid (by simp [(speaks.isInvalid a.diagnostics).mpr spoken])
  have added := speaks.diagnostics a.diagnostics
  rw [silent, List.append_nil] at added
  exact added

/-- Any number can be written as a constant displacement. -/
theorem exists_written {v : Int32} {behind : List Char}
    (last : ∀ x ∈ behind.head?, Operator.ofChar? x = none)
    (h : c.rest = ',' :: (dataOperand v ++ behind)) (a : Assembly) :
    ∃ p : Displacement c a, p.value = v ∧ p.reading.cursor = c.moveTo behind := by
  obtain ⟨x, r, cons, -⟩ := dataOperand_cons v
  have comma : c.dropBlanks.accept? ',' = some (c.moveTo (dataOperand v ++ behind)) := by
    rw [Name.dropBlanks_of_not_blank h rfl, Cursor.accept?_eq_some_iff]
    exact ⟨_, h, rfl⟩
  have stay : (c.moveTo (dataOperand v ++ behind)).dropBlanks =
      c.moveTo (dataOperand v ++ behind) := by
    have space : x ≠ ' ' := ne_of_dataOperand cons (by decide) rfl
    have tab : x ≠ '\t' := ne_of_dataOperand cons (by decide) rfl
    rw [cons]
    exact Name.dropBlanks_of_not_blank rfl (by simp [Cursor.isBlank, space, tab])
  obtain ⟨id, exprs, read, plain, added⟩ := Operand.read_dataOperand a.dialect a.location
    a.toTables last (Cursor.rest_moveTo c (dataOperand v ++ behind))
  rw [← stay] at read
  refine ⟨⟨v, c.moveTo (dataOperand v ++ behind), comma, ?_, ?_, ?_⟩, rfl, ?_⟩
  · rw [read]
    exact (added {}).isInvalid
  · rw [read]
    exact plain
  · rw [read]
    exact congrArg Evaluation.value (added a.symbols).value
  · exact congrArg Operand.Reading.cursor read

end Displacement

/-- The directive for a long vector. -/
def vectorOrder : Mnemonic := ⟨"DLV", 0, .directive .dlv⟩

/-- With a beam letter and two constant displacements the words are those of the vector. -/
theorem longVector_eq {c : Cursor} {a : Assembly} {letter : Char} {bits : Int32}
    (follows : c.operandFollows = true) (first : c.dropBlanks.next? = some letter)
    (known : Vector.beam? letter = some bits) (p : Displacement c.dropBlanks.step a)
    (q : Displacement p.reading.cursor p.after) :
    longVector c a =
      (q.reading.cursor, (Vector.words bits p.value q.value).foldl emitWord q.after) := by
  simp only [longVector, follows, if_true, first, Option.bind_some, known, Option.isNone_some,
    noteIf, Bool.false_eq_true, if_false, p.movement_eq, q.movement_eq, Option.getD_some]

/-- What stands behind the name of the directive in a line with a long vector. -/
def vectorOperands (letter : Char) (x y : Int32) : List Char :=
  letter :: ',' :: (dataOperand x ++ ',' :: dataOperand y)

/-- A line with a long vector. -/
def vectorLine (indent gap : Indent) (letter : Char) (x y : Int32) : List Char :=
  indent.chars ++ ("DLV".toList ++ (gap.chars ++ vectorOperands letter x y))

section Lines

variable (gap : Indent) {letter : Char} {bits : Int32} (known : Vector.beam? letter = some bits)
  (x y : Int32)
include known

theorem letter_ne : Cursor.isBlank letter = false ∧ letter ≠ '=' := by
  rcases Vector.letter_of_beam? known with rfl | rfl | rfl
  all_goals decide

/-- The directive reads its operands to the end of the line. -/
theorem longVector_operands {c : Cursor} (h : c.rest = gap.chars ++ vectorOperands letter x y)
    (a : Assembly) : ∃ t : Tables, t.diagnostics = a.diagnostics ∧
      longVector c a =
        (c.moveTo [], (Vector.words bits x y).foldl emitWord { a with toTables := t }) := by
  obtain ⟨follows, behind⟩ := Cursor.operandFollows_of_gap h (letter_ne known).1
  have first : c.dropBlanks.next? = some letter := by rw [behind]; rfl
  have comma : c.dropBlanks.step = c.moveTo (',' :: (dataOperand x ++ ',' :: dataOperand y)) := by
    rw [behind]
    rfl
  have rest : c.dropBlanks.step.rest = ',' :: (dataOperand x ++ ',' :: dataOperand y) := by
    rw [comma]
    rfl
  obtain ⟨p, valued, reached⟩ := Displacement.exists_written (by rintro _ ⟨⟩; rfl) rest a
  have rest' : p.reading.cursor.rest = ',' :: (dataOperand y ++ []) := by
    rw [reached, List.append_nil]
    rfl
  obtain ⟨q, valued', reached'⟩ := Displacement.exists_written (by simp) rest' p.after
  refine ⟨q.reading.tables, ?_, ?_⟩
  · exact q.diagnostics_after.trans p.diagnostics_after
  · have ended : p.reading.cursor.moveTo [] = c.moveTo [] := by
      rw [reached, comma]
      rfl
    rw [longVector_eq follows first known p q, valued, valued', reached']
    exact congrArg (·, _) ended

/-- Every dialect reads the line as the words of the vector, without a complaint. -/
theorem readText_vectorLine (indent : Indent) (a : Assembly) :
    ∃ t : Tables, t.diagnostics = a.diagnostics ∧
      readText (String.ofList (vectorLine indent gap letter x y)) a =
        (.directive, (Vector.words bits x y).foldl emitWord { a with toTables := t }) := by
  have capitals : Capitals "DLV".toList := ⟨by decide, by decide⟩
  have named : Mnemonic.find? (String.ofList "DLV".toList) = some vectorOrder := by decide +kernel
  obtain ⟨other, unequal⟩ := letter_ne known
  obtain ⟨c, rest, carried⟩ := capitals.exists_readText named indent gap other unequal
    (',' :: (dataOperand x ++ ',' :: dataOperand y)) a
  obtain ⟨t, silent, read⟩ := longVector_operands gap known x y rest a
  exact ⟨t, silent, carried _ read⟩

end Lines

/-- A long vector whose displacements have at most twelve bits is three words, without a complaint,
from which the letter and the displacements can be told. -/
theorem long_vector_takes_apart {letter : Char} (beam : letter ∈ ['B', 'X', 'D']) {x y : Int32}
    (narrow : x.toInt.natAbs ≤ 0o7777) (narrow' : y.toInt.natAbs ≤ 0o7777) :
    ∃ w₀ w₁ w₂, Vector.Holds letter x y w₀ w₁ w₂ ∧
      Vector.takeApart w₁ w₂ = some (letter, x, y) ∧
      (∀ pool tag c a (p : Displacement c.dropBlanks.step a)
        (q : Displacement p.reading.cursor p.after), c.operandFollows = true →
        c.dropBlanks.next? = some letter → p.value = x → q.value = y →
        carryOut pool vectorOrder tag c a =
            (q.reading.cursor, ((q.after.emitWord w₀).emitWord w₁).emitWord w₂) ∧
          ∃ t : Tables, q.after = { a with toTables := t } ∧ t.diagnostics = a.diagnostics) ∧
      ∀ indent gap a, ∃ t : Tables, t.diagnostics = a.diagnostics ∧
        readText (String.ofList (vectorLine indent gap letter x y)) a =
          (.directive,
            ((({ a with toTables := t } : Assembly).emitWord w₀).emitWord w₁).emitWord w₂) := by
  obtain ⟨bits, known⟩ := Vector.exists_beam? beam
  have holds := Vector.holds_words known narrow narrow'
  refine ⟨_, _, _, holds, holds.takeApart_eq, ?_, ?_⟩
  · rintro pool tag c a p q follows first rfl rfl
    constructor
    · have read := longVector_eq follows first known p q
      rw [Vector.words_eq] at read
      exact read
    · exact ⟨q.reading.tables, rfl, q.diagnostics_after.trans p.diagnostics_after⟩
  · intro indent gap a
    obtain ⟨t, silent, read⟩ := readText_vectorLine gap known x y indent a
    rw [Vector.words_eq] at read
    exact ⟨t, silent, read⟩

/-- In front of the operands of a vector to the left and up, with a sum for a displacement. -/
def sumVector : Cursor := .ofText " X, 2'-7' ,7777'"

/-- The first displacement of it. -/
def sumVectorLeft : Displacement sumVector.dropBlanks.step (init .imlac) where
  value := -5
  place := sumVector.moveTo " 2'-7' ,7777'".toList
  comma := by decide +kernel
  valid := by decide +kernel
  constant := by decide +kernel
  known := by decide +kernel

/-- The second one. -/
def sumVectorUp : Displacement sumVectorLeft.reading.cursor sumVectorLeft.after where
  value := 0o7777
  place := sumVector.moveTo "7777'".toList
  comma := by decide +kernel
  valid := by decide +kernel
  constant := by decide +kernel
  known := by decide +kernel

/-- The words of this vector are those of the line that spells it out. -/
theorem long_vector_takes_apart_sum :
    let indent : Indent := ⟨⟨['\t'], rfl⟩, by decide⟩
    let gap : Indent := ⟨⟨[' '], rfl⟩, by decide⟩
    String.ofList (vectorLine indent gap 'X' (-5) 0o7777) = "\tDLV X,-5',7777'" ∧
      ∃ w₀ w₁ w₂, Vector.takeApart w₁ w₂ = some ('X', -5, 0o7777) ∧
        (carryOut placePool vectorOrder none sumVector (init .imlac)).2.code =
          #[⟨0, 0, .word w₀⟩, ⟨0, 1, .word w₁⟩, ⟨0, 2, .word w₂⟩] ∧
        (readText "\tDLV X,-5',7777'" (init .midas)).2.code =
          #[⟨0, 0, .word w₀⟩, ⟨0, 1, .word w₁⟩, ⟨0, 2, .word w₂⟩] ∧
        (readText "\tDLV X,-5',7777'" (init .midas)).2.diagnostics = [] := by
  intro indent gap
  have spelled : String.ofList (vectorLine indent gap 'X' (-5) 0o7777) = "\tDLV X,-5',7777'" := by
    decide +kernel
  obtain ⟨w₀, w₁, w₂, -, apart, general, line⟩ := long_vector_takes_apart
    (by decide : 'X' ∈ ['B', 'X', 'D']) (x := -5) (y := 0o7777) (by decide) (by decide)
  obtain ⟨carried, -⟩ := general placePool none sumVector (init .imlac) sumVectorLeft sumVectorUp
    (by decide +kernel) (by decide +kernel) rfl rfl
  obtain ⟨t, silent, read⟩ := line indent gap (init .midas)
  rw [spelled] at read
  refine ⟨spelled, w₀, w₁, w₂, apart, ?_, ?_, ?_⟩
  · rw [carried]
    rfl
  · rw [read]
    rfl
  · rw [read]
    exact silent

end Assembly

end Pds1
