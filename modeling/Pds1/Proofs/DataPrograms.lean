import Pds1.Proofs.ListingAccount
import Pds1.Proofs.OperandTerms

/-!
# Data programs

A program that only lists numbers, one to a line, is followed through every layer in every dialect:
its lines are told apart, read as data directives, their octal operands entered as expressions,
evaluated in the second pass, packed into blocks and decoded again. The image holds the numbers in
order from location zero.
-/

namespace Pds1

namespace Octal

theorem isOctalDigit_of_mem_digits {n : Nat} {c : Char} (member : c ∈ digits n) :
    Number.isOctalDigit c = true := by
  have all : ∀ k < 8, Number.isOctalDigit (Nat.digitChar k) = true := by decide
  induction n using Nat.strongRecOn with
  | ind n ih =>
    rw [digits, Nat.toDigits_eq_if (by decide)] at member
    split at member
    · next small =>
      rw [List.mem_singleton.mp member]
      exact all n small
    · next large =>
      rcases List.mem_append.mp member with high | low
      · exact ih (n / 8) (by omega) high
      · rw [List.mem_singleton.mp low]
        exact all (n % 8) (Nat.mod_lt n (by decide))

/-- There is always a first digit. -/
theorem digits_cons (n : Nat) :
    ∃ d ds, digits n = d :: ds ∧ Number.isOctalDigit d = true := by
  have nonempty : digits n ≠ [] := Nat.toDigits_ne_nil
  obtain ⟨d, ds, cons⟩ := List.exists_cons_of_ne_nil nonempty
  have first : d ∈ digits n := by
    rw [cons]
    exact List.mem_cons_self
  exact ⟨d, ds, cons, isOctalDigit_of_mem_digits first⟩

end Octal

/-- The operand of a data line: octal digits closed by an apostrophe, after a minus sign if the
number is negative. -/
def dataOperand (v : Int32) : List Char :=
  (if v < 0 then ['-'] else []) ++ (Octal.digits v.toInt.natAbs ++ ['\x27'])

def dataLine (v : Int32) : List Char := '\t' :: 'D' :: 'A' :: 'T' :: 'A' :: ' ' :: dataOperand v

/-- A number is the one with its magnitude, or minus that one; the most negative number is its own
negation. -/
theorem ofNat_natAbs (v : Int32) :
    (if v < 0 then -Int32.ofNat v.toInt.natAbs else Int32.ofNat v.toInt.natAbs) = v := by
  have sign : v < 0 ↔ v.toInt < 0 := Int32.lt_iff_toInt_lt
  have cast : Int32.ofNat v.toInt.natAbs = Int32.ofInt v.toInt.natAbs :=
    (Int32.ofInt_eq_ofNat ..).symm
  rw [cast]
  split
  · next negative =>
    have magnitude : -(v.toInt.natAbs : Int) = v.toInt := by
      have := sign.mp negative
      omega
    rw [← Int32.ofInt_neg, magnitude, Int32.ofInt_toInt]
  · next nonnegative =>
    have magnitude : (v.toInt.natAbs : Int) = v.toInt := by
      have := mt sign.mpr nonnegative
      omega
    rw [magnitude, Int32.ofInt_toInt]

namespace ExprStore

/-- A node with a value is valid. -/
theorem Adds.isInvalid {s : ExprStore} {t : SymbolTable} {added : ExprId × ExprStore} {v : Int32}
    (h : s.Adds t added (.pure v)) : added.2.isInvalid added.1 = false := by
  obtain ⟨⟨node, symbolic⟩, found⟩ : ∃ e, added.2.nodes[added.1]? = some e :=
    ⟨_, Array.getElem?_eq_getElem h.inside⟩
  have value := h.value
  rw [evaluate.eq_def, found] at value
  rw [ExprStore.isInvalid, found]
  cases node with
  | invalid => cases value
  | const | label | location | literal | neg | binary => rfl

end ExprStore

namespace Operand

theorem term_digits (dialect : Dialect) (location : Int32) {c : Cursor} (t : Tables) {n : Nat}
    {after : List Char} (h : c.rest = Octal.digits n ++ '\x27' :: after) :
    term dialect location c t = .of (t.push (.const (Int32.ofNat n)) false) (c.moveTo after) := by
  have nonempty : Octal.digits n ≠ [] := Nat.toDigits_ne_nil
  rw [term_octal dialect location t nonempty (fun _ => Octal.isOctalDigit_of_mem_digits) h,
    Octal.digits, Nat.ofDigitChars_toDigits (by decide) (by decide)]

/-- Reading a number in octal digits adds a node for it and nothing else, whatever but an operator
follows. -/
theorem read_dataOperand (dialect : Dialect) (location : Int32) {c : Cursor} (t : Tables)
    {v : Int32} {after : List Char} (last : ∀ x ∈ after.head?, Operator.ofChar? x = none)
    (h : c.rest = dataOperand v ++ after) :
    ∃ id exprs, read dialect location c t = ⟨id, c.moveTo after, { t with exprs := exprs }⟩ ∧
      exprs.symbolic id = false ∧ ∀ table, t.exprs.Adds table (id, exprs) (.pure v) := by
  let magnitude := Int32.ofNat v.toInt.natAbs
  let first := t.exprs.const magnitude
  have added (table : SymbolTable) : t.exprs.Adds table first (.pure magnitude) :=
    t.exprs.adds_const table magnitude
  have plain : first.2.symbolic first.1 = false := by
    simp [first, ExprStore.const, ExprStore.symbolic, ExprStore.push]
  have known := ofNat_natAbs v
  rw [dataOperand] at h
  by_cases negative : v < 0
  · rw [if_pos negative] at known
    rw [if_pos negative, List.singleton_append, List.cons_append, List.append_assoc,
      List.singleton_append] at h
    let second := first.2.neg first.1
    have digits : (c.moveTo (Octal.digits v.toInt.natAbs ++ '\x27' :: after)).rest = _ := rfl
    have valid : first.2.isInvalid first.1 = false := (added {}).isInvalid
    have negated : term dialect location c t =
        ⟨second.1, c.moveTo after, { t with exprs := second.2 }⟩ := by
      rw [term_minus dialect location t h, term_digits dialect location t digits, negate]
      exact if_neg (Bool.eq_false_iff.mp valid)
    refine ⟨second.1, second.2, ?_, ?_, ?_⟩
    · rw [read, negated]
      exact extend_of_rest dialect location last
    · simpa [second, ExprStore.neg, ExprStore.symbolic, ExprStore.push] using plain
    · intro table
      have outer := first.2.adds_neg table (added table).inside
      rw [(added table).value, Evaluation.pure_andThen, known] at outer
      exact ⟨(added table).grown.trans outer.grown, outer.inside, outer.value⟩
  · rw [if_neg negative] at h known
    refine ⟨first.1, first.2, ?_, plain, ?_⟩
    · rw [read, term_digits dialect location t (by simpa using h)]
      exact extend_of_rest dialect location last
    · intro table
      rw [← known]
      exact added table

end Operand

/-- An operand of a data line begins with a sign or a digit. -/
theorem dataOperand_cons (v : Int32) :
    ∃ x r, dataOperand v = x :: r ∧ (x = '-' ∨ Number.isOctalDigit x = true) := by
  obtain ⟨d, ds, digits, octal⟩ := Octal.digits_cons v.toInt.natAbs
  by_cases negative : v < 0
  · exact ⟨'-', Octal.digits v.toInt.natAbs ++ ['\x27'], by simp [dataOperand, negative], .inl rfl⟩
  · exact ⟨d, ds ++ ['\x27'], by simp [dataOperand, negative, digits], .inr octal⟩

theorem ne_of_dataOperand {v : Int32} {x : Char} {r : List Char} (h : dataOperand v = x :: r)
    {y : Char} (other : y ≠ '-') (letter : Number.isOctalDigit y = false) : x ≠ y := by
  rintro rfl
  obtain ⟨x', r', cons, head⟩ := dataOperand_cons v
  obtain ⟨rfl, -⟩ := List.cons.inj (cons.symm.trans h)
  rcases head with minus | digit
  · exact other minus
  · exact absurd digit (by simp [letter])

namespace Assembly

section Line

variable (line : List Char) (saved : List (List Char)) (v : Int32)

/-- In front of the directive of a data line. -/
def atOrder : Cursor := ⟨line, 'D' :: 'A' :: 'T' :: 'A' :: ' ' :: dataOperand v, saved⟩

/-- After the directive of a data line. -/
def afterOrder : Cursor := ⟨line, ' ' :: dataOperand v, saved⟩

/-- The word `DATA` is read as the data directive. -/
theorem read?_atOrder : Mnemonic.read? false (atOrder line saved v) =
    some (⟨"DATA", 0, .directive .data⟩, afterOrder line saved v) := by
  have known : Mnemonic.find? (String.ofList ['D', 'A', 'T', 'A']) =
      some ⟨"DATA", 0, .directive .data⟩ := by decide +kernel
  have word : (atOrder line saved v).run Char.isAlpha = ['D', 'A', 'T', 'A'] := rfl
  have rest : (atOrder line saved v).drop ['D', 'A', 'T', 'A'].length = afterOrder line saved v :=
    rfl
  simp only [Mnemonic.read?, word, rest, Bool.false_eq_true, if_false, known]
  rfl

/-- The blank after the directive leads to the operand. -/
theorem dropBlanks_afterOrder :
    (afterOrder line saved v).dropBlanks = ⟨line, dataOperand v, saved⟩ := by
  obtain ⟨x, r, cons, -⟩ := dataOperand_cons v
  have space : x ≠ ' ' := ne_of_dataOperand cons (by decide) rfl
  have tab : x ≠ '\t' := ne_of_dataOperand cons (by decide) rfl
  simp [afterOrder, Cursor.dropBlanks, Cursor.dropWhile, Cursor.moveTo, cons, Cursor.isBlank, space,
    tab]

/-- Every dialect reads one letter or the whole word as a name, and no equals sign follows. -/
theorem name_atOrder (dialect : Dialect) : ∃ name d,
    Name.read? dialect true (atOrder line saved v) = some (name, d) ∧
      d.dropBlanks.accept? '=' = none := by
  obtain ⟨x, r, cons, -⟩ := dataOperand_cons v
  have equals : x ≠ '=' := ne_of_dataOperand cons (by decide) rfl
  have word : (afterOrder line saved v).dropBlanks.accept? '=' = none := by
    rw [dropBlanks_afterOrder, cons]
    simp [Cursor.accept?, Cursor.next?, equals]
  cases dialect with
  -- the name is `D` alone, and `A` follows it
  | imlac => exact ⟨_, _, rfl, rfl⟩
  | midas | unknown | oldAmes | newAmes => exact ⟨_, afterOrder line saved v, rfl, word⟩

theorem definition?_atOrder (a : Assembly) : definition? (atOrder line saved v) a = none := by
  obtain ⟨name, d, read, plain⟩ := name_atOrder line saved v a.dialect
  simp only [definition?, read, plain]

/-- A data line has no label: the name of an order is not closed by a colon, and column one is
blank. -/
theorem readLabels_dataLine (a : Assembly) :
    readLabels none (.ofList (dataLine v)) a = (none, .ofList (dataLine v), a) := by
  have unlabelled : Name.read? a.dialect false (.ofList (dataLine v)) = none := by
    cases a.dialect with
    | midas => rfl
    | imlac | unknown | oldAmes | newAmes =>
      simp only [Name.read?]
      split
      · rfl
      · rfl
  unfold readLabels
  split
  · rfl
  · next found => cases unlabelled.symm.trans found

/-- The order of a data line adds one cell for its number. -/
theorem order_atOrder (pool : Assembly → Assembly) (a : Assembly) : ∃ id exprs,
    order pool (atOrder line saved v) a =
        (.data, ⟨line, [], saved⟩, { a with exprs := exprs }.emitExpr id) ∧
      ∀ table, a.exprs.Adds table (id, exprs) (.pure v) := by
  obtain ⟨id, exprs, read, -, added⟩ := Operand.read_dataOperand a.dialect a.location
    (c := ⟨line, dataOperand v, saved⟩) a.toTables (by simp) (List.append_nil _).symm
  have operand : a.operand ⟨line, dataOperand v, saved⟩ =
      (id, ⟨line, [], saved⟩, { a with exprs := exprs }) := by
    rw [operand, read]
    rfl
  have follows : (afterOrder line saved v).operandFollows = true := by
    obtain ⟨x, r, cons, -⟩ := dataOperand_cons v
    rw [Cursor.operandFollows, dropBlanks_afterOrder, cons]
    rfl
  have untagged : readTag a.dialect (atOrder line saved v) = (none, atOrder line saved v) := by
    rw [readTag]
    exact if_neg (by simp [atOrder, Cursor.lookahead, Cursor.isBlank])
  have valid : exprs.isInvalid id = false := (added {}).isInvalid
  have carried : data .data (afterOrder line saved v) a =
      (⟨line, [], saved⟩, { a with exprs := exprs }.emitExpr id) := by
    simp only [data, follows, if_true, dropBlanks_afterOrder, operand, valid, Bool.false_eq_true,
      if_false]
  have directed : Mnemonic.read? (decide ((none : Option Tag) = some .display))
      (atOrder line saved v) = some (⟨"DATA", 0, .directive .data⟩, afterOrder line saved v) :=
    read?_atOrder line saved v
  refine ⟨id, exprs, ?_, added⟩
  simp only [order, untagged, directed, carryOut, directive, carried]
  rfl

end Line

/-- Every dialect reads a data line as one cell for its number, without complaint. -/
theorem readText_dataLine (v : Int32) (a : Assembly) : ∃ id exprs,
    readText (String.ofList (dataLine v)) a = (.data, { a with exprs := exprs }.emitExpr id) ∧
      ∀ table, a.exprs.Adds table (id, exprs) (.pure v) := by
  obtain ⟨id, exprs, ordered, added⟩ := order_atOrder (dataLine v) [] v placePool a
  have start : Cursor.ofText (String.ofList (dataLine v)) = .ofList (dataLine v) := by
    rw [Cursor.ofText, String.toList_ofList]
  have blanks : (Cursor.ofList (dataLine v)).dropBlanks = atOrder (dataLine v) [] v := rfl
  have stated : statement placePool .unclassified false (.ofList (dataLine v)) a =
      (.data, { a with exprs := exprs }.emitExpr id) := by
    have goes_on : (atOrder (dataLine v) [] v).atEnd = false := rfl
    have indented : (Cursor.ofList (dataLine v)).onBlank = true := rfl
    rw [statement]
    simp only [readLabels_dataLine, blanks, ordered, goes_on, indented, Bool.true_or, Bool.not_true,
      Bool.false_eq_true, if_false, if_true]
    split
    · rfl
    · next mark =>
      simp only [readLabels_dataLine, blanks, ordered] at mark
      cases mark
  refine ⟨id, exprs, ?_, added⟩
  simp only [readText, start, blanks, definition?_atOrder, stated]
  rfl

/-- The cell stands at a location and its expression has a value, without a warning. -/
def CellHolds (a : Assembly) (cell : Cell) (p : Int32 × Int32) : Prop :=
  cell.location = p.1 ∧ ∃ id, cell.content = .expr id ∧ id < a.exprs.size ∧
    a.exprs.evaluate a.symbols id = .pure p.2

/-- Numbers from location zero on. -/
def numbered (vs : List Int32) : List (Int32 × Int32) :=
  vs.zipIdx.map fun e => (Int32.ofNat e.2, e.1)

/-- The state after the data lines for some numbers. -/
structure Loaded (vs : List Int32) (a : Assembly) : Prop where
  cells : List.Forall₂ a.CellHolds a.code.toList (numbered vs)
  location : a.location = Int32.ofNat vs.length
  symbols : a.symbols = {}
  poolLines : a.poolLines = #[]
  lineCode : a.lineCode = []
  diagnostics : a.diagnostics = []
  ended : a.ended = false
  start : a.start = none

section Loading

variable {a : Assembly} {vs : List Int32}

theorem numbered_concat (vs : List Int32) (v : Int32) :
    numbered (vs ++ [v]) = numbered vs ++ [(Int32.ofNat vs.length, v)] := by
  simp [numbered, List.zipIdx_append]

theorem CellHolds.mono {b : Assembly} (grown : a.exprs.Extends b.exprs)
    (same : b.symbols = a.symbols) {cell : Cell} {p : Int32 × Int32} (h : a.CellHolds cell p) :
    b.CellHolds cell p := by
  obtain ⟨location, id, content, inside, value⟩ := h
  refine ⟨location, id, content, Nat.lt_of_lt_of_le inside grown.size_le, ?_⟩
  rw [grown.evaluate b.symbols inside, same]
  exact value

/-- Reading another data line. -/
theorem Loaded.readLine (h : Loaded vs a) {line : Line} {v : Int32}
    (text : line.text = String.ofList (dataLine v)) (fresh : line.diagnostics = []) :
    Loaded (vs ++ [v]) (readLine line a).2 ∧ (readLine line a).1.diagnostics = [] := by
  obtain ⟨id, exprs, read, added⟩ := readText_dataLine v { a with lineNumber := line.number }
  rw [← text] at read
  have read' : Assembly.readLine line a = fileInto { line with kind := .data }
      ({ a with lineNumber := line.number, exprs := exprs }.emitExpr id) := by
    simp only [Assembly.readLine, read]
    rfl
  rw [read']
  constructor
  · refine ⟨?_, ?_, h.symbols, h.poolLines, rfl, rfl, h.ended, h.start⟩
    · have older : List.Forall₂ (CellHolds { a with exprs := exprs }) a.code.toList
          (numbered vs) := by
        refine h.cells.imp ?_
        intro cell p holds
        exact holds.mono (b := { a with exprs := exprs }) (added {}).grown rfl
      have own : CellHolds { a with exprs := exprs } ⟨line.number, a.location, .expr id⟩
          (Int32.ofNat vs.length, v) :=
        ⟨h.location, id, rfl, (added {}).inside, (added a.symbols).value⟩
      have code : (a.code.push ⟨line.number, a.location, .expr id⟩).toList =
          a.code.toList ++ [⟨line.number, a.location, .expr id⟩] := by simp
      rw [numbered_concat]
      exact code.symm ▸ List.rel_append older (.cons own .nil)
    · change a.location + 1 = _
      rw [h.location, List.length_append, Int32.ofNat_add]
      rfl
  · simp [fileInto, emitExpr, emit, fresh, h.diagnostics]

theorem Loaded.placePool (h : Loaded vs a) : a.placePool = a := by
  simp [Assembly.placePool, SymbolTable.hasWaiting, h.symbols]

theorem Loaded.fileInto (h : Loaded vs a) {line : Line} (fresh : line.diagnostics = []) :
    Loaded vs (fileInto line a).2 ∧ (fileInto line a).1.diagnostics = [] := by
  constructor
  · exact ⟨h.cells, h.location, h.symbols, h.poolLines, rfl, rfl, h.ended, h.start⟩
  · simp [Assembly.fileInto, fresh, h.diagnostics]

/-- Reading data lines to the end of the source. -/
theorem Loaded.readLines {lines : List Line} {rest : List Int32} (h : Loaded vs a)
    (texts : lines.map Line.text = rest.map fun v => String.ofList (dataLine v))
    (fresh : ∀ line ∈ lines, line.diagnostics = []) :
    Loaded (vs ++ rest) (readLines lines a).2 ∧
      ∀ line ∈ (readLines lines a).1, line.diagnostics = [] := by
  induction lines generalizing vs rest a with
  | nil =>
    cases rest with
    | nil =>
      rw [List.append_nil]
      exact ⟨h, fresh⟩
    | cons => cases texts
  | cons line lines ih =>
    cases rest with
    | nil => cases texts
    | cons v rest =>
      obtain ⟨text, texts⟩ := List.cons.inj texts
      obtain ⟨first, others⟩ := List.forall_mem_cons.mp fresh
      obtain ⟨loaded, silent⟩ := h.readLine text first
      simp only [Assembly.readLines]
      split
      -- no directive ends the source early, and no literal waits at its end
      · next last =>
        have final : lines = [] := by simpa [loaded.ended] using last
        subst final
        obtain rfl : rest = [] := by simpa using texts.symm
        obtain ⟨loaded', silent⟩ := loaded.fileInto silent
        rw [loaded.placePool]
        exact ⟨loaded', List.forall_mem_cons.mpr ⟨silent, others⟩⟩
      · obtain ⟨loaded, later⟩ := ih loaded texts others
        exact ⟨by simpa using loaded, List.forall_mem_cons.mpr ⟨silent, later⟩⟩

theorem CellHolds.placement? {cell : Cell} {p : Int32 × Int32} (h : a.CellHolds cell p) :
    a.placement? cell = some p := by
  obtain ⟨location, id, content, -, value⟩ := h
  simp only [Assembly.placement?, content, word?, value, location]
  rfl

theorem CellHolds.cellDiagnostics {cell : Cell} {p : Int32 × Int32} (h : a.CellHolds cell p) :
    a.cellDiagnostics cell = [] := by
  obtain ⟨-, id, content, -, value⟩ := h
  simp only [Assembly.cellDiagnostics, content, cellValue, value]
  rfl

/-- The words of the code list are the numbers. -/
theorem Loaded.words (h : Loaded vs a) : a.words = numbered vs := by
  rw [Assembly.words]
  have cells := h.cells
  generalize a.code.toList = code at cells ⊢
  generalize numbered vs = words at cells ⊢
  induction cells with
  | nil => rfl
  | cons holds _ ih => rw [List.filterMap_cons, holds.placement?, ih]

theorem Loaded.cellDiagnostics (h : Loaded vs a) :
    ∀ cell ∈ a.code.toList, a.cellDiagnostics cell = [] := by
  have cells := h.cells
  generalize a.code.toList = code at cells ⊢
  generalize numbered vs = words at cells
  induction cells with
  | nil => simp
  | cons holds _ ih => exact List.forall_mem_cons.mpr ⟨holds.cellDiagnostics, ih⟩

/-- No cell leaves a diagnostic on its line. -/
theorem Loaded.annotate (h : Loaded vs a) (line : Line) : a.annotate line = line := by
  have silent : (a.cells line).flatMap a.cellDiagnostics = [] := by
    rw [List.flatMap_eq_nil_iff]
    intro cell member
    obtain ⟨i, -, found⟩ := List.mem_filterMap.mp member
    exact h.cellDiagnostics cell (Array.mem_toList_iff.mpr (Array.mem_of_getElem? found))
  rw [Assembly.annotate, silent, List.append_nil]

end Loading

/-- A first pass over the data lines for some numbers, in whatever way the lines are ended. -/
theorem loaded_passOne (dialect : Dialect) (name : String) {text : String} {vs : List Int32}
    (lines : Source.splitLines [] text.toList = vs.map dataLine) :
    Loaded vs ((init dialect).passOne (.ofText name text)).2 ∧
      ∀ line ∈ ((init dialect).passOne (.ofText name text)).1.lines, line.diagnostics = [] := by
  have texts : (Source.ofText name text).lines.map Line.text =
      vs.map fun v => String.ofList (dataLine v) := by
    rw [Source.text_ofText, lines, List.map_map]
    rfl
  have fresh : ∀ line ∈ (Source.ofText name text).lines, line.diagnostics = [] :=
    fun _ => Source.diagnostics_ofText
  have start : Loaded [] { init dialect with location := 0 } :=
    ⟨.nil, rfl, rfl, rfl, rfl, rfl, rfl, rfl⟩
  obtain ⟨loaded, silent⟩ := start.readLines texts fresh
  rw [passOne]
  generalize readLines (Source.ofText name text).lines { init dialect with location := 0 } = r
    at loaded silent ⊢
  exact ⟨⟨loaded.cells, loaded.location, loaded.symbols, loaded.poolLines, loaded.lineCode,
    loaded.diagnostics, loaded.ended, loaded.start⟩, silent⟩

end Assembly

namespace Source

/-- A line feed ends the line before it. -/
theorem splitLines_line {cs : List Char} (line : OneLine cs) {done : List Char}
    (plain : (done.reverse ++ cs).getLast? ≠ some '\r') (rest : List Char) :
    splitLines done (cs ++ '\n' :: rest) = (done.reverse ++ cs) :: splitLines [] rest := by
  induction cs generalizing done with
  | nil =>
    rw [List.nil_append, List.append_nil, splitLines]
    rintro before rfl
    simp at plain
  | cons c cs ih =>
    have own : c ≠ '\n' := by
      rintro rfl
      exact line List.mem_cons_self
    rw [List.cons_append, splitLines.eq_def]
    split
    · next empty => cases empty
    · next same => exact absurd (List.cons.inj same).1 own
    · next d r _ same =>
      obtain ⟨rfl, rfl⟩ := List.cons.inj same
      rw [ih (line.suffix (List.suffix_cons c cs)) (by simpa using plain)]
      simp

end Source

/-- The program that lists numbers, one to a line. -/
def dataProgram (vs : List Int32) : List Char := vs.flatMap fun v => dataLine v ++ ['\n']

theorem oneLine_dataLine (v : Int32) : OneLine (dataLine v) := by
  have order : OneLine ['\t', 'D', 'A', 'T', 'A', ' '] := by decide
  have digits : OneLine (Octal.digits v.toInt.natAbs ++ ['\x27']) :=
    (oneLine_digits _).append (by decide)
  have operand : OneLine (dataOperand v) := by
    rw [dataOperand]
    split
    · exact OneLine.append (by decide) digits
    · exact digits
  exact order.append operand

theorem splitLines_dataProgram (vs : List Int32) :
    Source.splitLines [] (dataProgram vs) = vs.map dataLine := by
  induction vs with
  | nil => rfl
  | cons v rest ih =>
    have plain : ([].reverse ++ dataLine v).getLast? ≠ some '\r' := by
      obtain ⟨before, mark⟩ : ∃ before, dataLine v = before ++ ['\x27'] :=
        ⟨'\t' :: 'D' :: 'A' :: 'T' :: 'A' :: ' ' ::
          ((if v < 0 then ['-'] else []) ++ Octal.digits v.toInt.natAbs),
          by simp [dataLine, dataOperand]⟩
      rw [List.reverse_nil, List.nil_append, mark, List.getLast?_concat]
      decide
    have first := Source.splitLines_line (oneLine_dataLine v) plain (dataProgram rest)
    rw [ih] at first
    simpa [dataProgram] using first

/-- What the image holds of a number at a position. -/
theorem masked_numbered (i : Nat) (v : Int32) :
    Image.masked (Int32.ofNat i, v) = (UInt16.ofNat (i % 2 ^ 15), UInt16.ofInt v.toInt) := by
  refine Prod.ext ?_ ?_
  · apply UInt16.toNat_inj.mp
    have place : (Int32.ofNat i).toUInt32.toNat = i % 2 ^ 32 := by simp
    rw [Image.toNat_masked, Image.placed, place, UInt16.toNat_ofNat']
    omega
  · apply UInt16.toNat_inj.mp
    have signed : v.toInt = if 2 * v.toUInt32.toNat < 2 ^ 32 then (v.toUInt32.toNat : Int)
        else v.toUInt32.toNat - (2 ^ 32 : Nat) := BitVec.toInt_eq_toNat_cond v.toBitVec
    have low : (UInt16.ofInt v.toInt).toNat = (v.toInt % 2 ^ 16).toNat % 2 ^ 16 := by
      rw [UInt16.ofInt, UInt16.toNat_ofNat']
    have word : (Image.masked (Int32.ofNat i, v)).2.toNat = v.toUInt32.toNat % 2 ^ 16 := rfl
    rw [word, low]
    -- sixteen bits do not tell a number from the one `2 ^ 32` below
    split at signed
    · omega
    · omega

namespace Assembly

/-- In every dialect a text of data lines assembles without a diagnostic. Its image decodes to their
numbers modulo `2 ^ 16`, in order, at their positions modulo `2 ^ 15`. -/
theorem data_program_comes_back (dialect : Dialect) (name : String) (vs : List Int32) :
    Source.splitLines [] (dataProgram vs) = vs.map dataLine ∧
      ∀ text : String, Source.splitLines [] text.toList = vs.map dataLine →
        ∃ report source a o image,
          assemble dialect (.ofText name text) ⟨{}, .init {} .block⟩ = (.ok report, source, a, o) ∧
          Image.decode .block o.object.sink.bytes.toList = .ok image ∧
          image.words = vs.zipIdx.map
            (fun e => (UInt16.ofNat (e.2 % 2 ^ 15), UInt16.ofInt e.1.toInt)) ∧
          image.start = none ∧ report.words = vs.length ∧ report.diagnostics = 0 ∧
          report.start = none ∧ ∀ line ∈ source.lines, line.diagnostics = [] := by
  refine ⟨splitLines_dataProgram vs, ?_⟩
  intro text lines
  obtain ⟨loaded, silent⟩ := loaded_passOne dialect name lines
  have accounted := accounted_ofText dialect name text
  obtain ⟨own, clean⟩ := unbroken_passOne dialect name text
  obtain ⟨report, source, o, image, run⟩ := assembles_ofText dialect name text
  have shows := accounted.shows_plan loaded.lineCode clean own
  generalize (init dialect).passOne (.ofText name text) = first at *
  obtain ⟨read, a⟩ := first
  have unstarted : a.startValue? = none := by rw [startValue?, loaded.start]; rfl
  have started : a.reportedStart = none := by rw [reportedStart, unstarted]
  have kept : source.lines = read.lines := by
    rw [run.lines]
    exact List.map_id'' loaded.annotate read.lines
  refine ⟨report, source, _, o, image, run.ran, run.decoded, ?_, ?_, ?_, ?_, ?_, ?_⟩
  · rw [run.words, loaded.words, numbered, List.map_map]
    exact List.map_congr_left fun e _ => masked_numbered e.2 e.1
  · rw [run.start, started]
    rfl
  · rw [run.counted, loaded.words, numbered, List.length_map, List.length_zipIdx]
  · have none_own : a.finalDiagnostics read.lines = [] := by
      rw [finalDiagnostics, List.flatMap_eq_nil_iff]
      intro line member
      rw [loaded.annotate, silent line member]
    have none_pooled : a.finalDiagnostics a.poolLines.toList = [] := by
      rw [loaded.poolLines]
      rfl
    have none_start : a.startFails = false := by rw [startFails, unstarted]
    rw [run.diagnosed, shows.diagnostics, none_own, none_pooled, none_start]
    rfl
  · rw [run.started, started]
  · rw [kept]
    exact silent

/-- Three numbers, the most negative one among them, with both kinds of line end and none after the
last line. -/
theorem extreme_numbers_come_back :
    let text := "\tDATA 5'\n\tDATA -1'\r\n\tDATA -20000000000'"
    Source.splitLines [] text.toList = [5, -1, -2147483648].map dataLine ∧
      ∃ report source a o image,
        assemble .newAmes (.ofText "data" text) ⟨{}, .init {} .block⟩ =
          (.ok report, source, a, o) ∧
        Image.decode .block o.object.sink.bytes.toList = .ok image ∧
        image.words = [(0, 5), (1, 0o177777), (2, 0)] ∧ report.words = 3 ∧
        report.diagnostics = 0 := by
  intro text
  have lines : Source.splitLines [] text.toList = [5, -1, -2147483648].map dataLine := by
    decide +kernel
  obtain ⟨report, source, a, o, image, ran, decoded, words, -, counted, diagnosed, -⟩ :=
    (data_program_comes_back .newAmes "data" [5, -1, -2147483648]).2 text lines
  exact ⟨lines, report, source, a, o, image, ran, decoded, words.trans (by decide), counted,
    diagnosed⟩

end Assembly

end Pds1
