import Mathlib.Data.List.Basic
import Pds1.Assembly.PassTwo
import Pds1.Proofs.Reading

/-!
# Every cell is listed once, in order

The lines of a program and the lines of its literal pools divide the code list among themselves. A
pool cell stands for the cells of its lines. Following the lines in order and each pool where its
cell stands gives the code list back, pool cells left out, and comes to every pool line once. This
is kept by every move of the first pass; a fresh run starts with nothing to list.
-/

namespace Pds1

/-- The positions of the pool lines that a cell stands for. -/
def Cell.window (cell : Cell) : List Nat :=
  match cell.content with
  | .pool first count => List.range' (first - 1) count
  | _ => []

namespace Assembly

/-- From `a` to `b` the cells `cells` are added, none of them a pool, and the current line takes
them. -/
structure Emits (a : Assembly) (cells : List Cell) (b : Assembly) : Prop where
  plain : ∀ cell ∈ cells, cell.isPool = false
  code : b.code = a.code ++ cells.toArray
  lineCode : b.lineCode = a.lineCode ++ List.range' a.code.size cells.length
  poolLines : b.poolLines = a.poolLines

theorem emits_nil {a b : Assembly} (code : b.code = a.code) (lineCode : b.lineCode = a.lineCode)
    (poolLines : b.poolLines = a.poolLines) : Emits a [] b :=
  ⟨by simp, by simp [code], by simp [lineCode], poolLines⟩

theorem emits_emit (a : Assembly) {content : Cell.Content}
    (plain : (Cell.mk a.lineNumber a.location content).isPool = false) :
    Emits a [⟨a.lineNumber, a.location, content⟩] (a.emit content) :=
  ⟨by simpa using plain, by simp [emit], by simp [emit], rfl⟩

theorem Emits.trans {a b c : Assembly} {cells cells' : List Cell} (h : Emits a cells b)
    (h' : Emits b cells' c) : Emits a (cells ++ cells') c := by
  have size : b.code.size = a.code.size + cells.length := by simp [h.code]
  refine ⟨List.forall_mem_append.mpr ⟨h.plain, h'.plain⟩, ?_, ?_, h'.poolLines.trans h.poolLines⟩
  · rw [h'.code, h.code]
    simp
  · rw [h'.lineCode, h.lineCode, size, List.append_assoc, List.length_append]
    simp

/-- Reading an operand changes the tables only. -/
theorem operand_frame {a b : Assembly} {c c' : Cursor} {id : ExprId}
    (read : a.operand c = (id, c', b)) : b = { a with toTables := b.toTables } := by
  cases read
  rfl

theorem code_origin (d : Directive) (e : Cursor) (a : Assembly) :
    (origin d e a).2.code = a.code := by
  simp only [origin]
  generalize read : a.operand e.dropBlanks = r
  obtain ⟨id, e', b⟩ := r
  have same : b.code = a.code := by
    rw [operand_frame read]
  simp only
  split
  · exact same
  · have evaluated : (b.valueNow id).2.code = a.code := same
    generalize b.valueNow id = known at evaluated ⊢
    obtain ⟨outcome, b'⟩ := known
    cases outcome with
    | ok value =>
      simp only [moveOrigin]
      split <;> exact evaluated
    | error e => exact evaluated

theorem emits_operand {a b : Assembly} {c c' : Cursor} {id : ExprId}
    (read : a.operand c = (id, c', b)) : Emits a [] b := by
  rw [operand_frame read]
  exact emits_nil rfl rfl rfl

theorem emits_word (a : Assembly) (value : Int32) : ∃ cells, Emits a cells (a.emitWord value) :=
  ⟨_, emits_emit a rfl⟩

theorem emits_expr (a : Assembly) (id : ExprId) : ∃ cells, Emits a cells (a.emitExpr id) :=
  ⟨_, emits_emit a rfl⟩

theorem emits_field (a : Assembly) (op : Operator) (right code : Int32) (id : ExprId) :
    ∃ cells, Emits a cells (a.emitField op right code id) := by
  simp only [emitField]
  split
  · exact emits_word a 0
  · have stored : Emits a [] { a with exprs := (a.exprs.field op right code id).2 } :=
      emits_nil rfl rfl rfl
    exact (emits_expr _ _).imp fun _ => stored.trans

theorem emits_bindLabel (a : Assembly) (name : String) : Emits a [] (a.bindLabel name) := by
  simp only [bindLabel, noteIf]
  split
  · exact emits_nil rfl rfl rfl
  · exact emits_nil rfl rfl rfl

theorem emits_moveOrigin (a : Assembly) (d : Directive) (value : Int32) :
    Emits a [] (a.moveOrigin d value) := by
  simp only [moveOrigin]
  split
  · exact emits_nil rfl rfl rfl
  · exact emits_nil rfl rfl rfl
  · exact emits_nil rfl rfl rfl

variable {pool : Assembly → Assembly} {origins binds : Prop}

/-- Apart from placing a pool, a move only adds cells to the current line. -/
theorem Move.emits_or_pool {p q : Position} (h : Move pool origins binds p q) :
    (∃ cells, Emits p.2 cells q.2) ∨ q.2 = pool p.2 := by
  cases h with
  | pool => exact .inr rfl
  | skip | note | log | comment | stop => exact .inl ⟨[], emits_nil rfl rfl rfl⟩
  | label _ a name => exact .inl ⟨[], emits_bindLabel a name⟩
  | word _ a value => exact .inl (emits_word a value)
  | operand read => exact .inl ⟨[], emits_operand read⟩
  | expr read valid => exact .inl ((emits_expr _ _).imp fun _ => (emits_operand read).trans)
  | field read masks right code =>
    exact .inl ((emits_field _ _ right code _).imp fun _ => (emits_operand read).trans)
  | value read valid => exact .inl ⟨_, (emits_operand read).trans (emits_nil rfl rfl rfl)⟩
  | @origin _ a b b' _ _ id read valid value known d =>
    obtain rfl : (b.valueNow id).2 = b' := congrArg Prod.snd known
    have evaluated : Emits b [] (b.valueNow id).2 := emits_nil rfl rfl rfl
    exact .inl ⟨_, (emits_operand read).trans (evaluated.trans (emits_moveOrigin _ d value))⟩
  | @assign a b b' _ _ id read valid value known name _ =>
    obtain rfl : (b.valueNow id).2 = b' := congrArg Prod.snd known
    exact .inl ⟨_, (emits_operand read).trans (emits_nil rfl rfl rfl)⟩
  | stopAt read => exact .inl ⟨_, (emits_operand read).trans (emits_nil rfl rfl rfl)⟩

/-- A literal cannot place a pool, so its statement only adds cells. -/
theorem emits_of_reads_refusePool {p q : Position} (h : Reads refusePool origins binds p q) :
    ∃ cells, Emits p.2 cells q.2 := by
  induction h with
  | refl => exact ⟨[], emits_nil rfl rfl rfl⟩
  | tail _ move ih =>
    obtain ⟨before, hbefore⟩ := ih
    rcases move.emits_or_pool with ⟨cells, added⟩ | refused
    · exact ⟨_, hbefore.trans added⟩
    · rw [refused]
      exact ⟨_, hbefore.trans (emits_nil rfl rfl rfl)⟩

/-- From `a` to `b` the literals `lines` are placed; their cells are `cells`. -/
structure Places (a : Assembly) (cells : List Cell) (lines : List Line) (b : Assembly) : Prop where
  plain : ∀ cell ∈ cells, cell.isPool = false
  code : b.code = a.code ++ cells.toArray
  poolLines : b.poolLines = a.poolLines ++ lines.toArray
  covers : lines.flatMap Line.code = List.range' a.code.size cells.length
  lineCode : b.lineCode = []

theorem Places.trans {a b c : Assembly} {cells cells' : List Cell} {lines lines' : List Line}
    (h : Places a cells lines b) (h' : Places b cells' lines' c) :
    Places a (cells ++ cells') (lines ++ lines') c := by
  have size : b.code.size = a.code.size + cells.length := by simp [h.code]
  refine ⟨List.forall_mem_append.mpr ⟨h.plain, h'.plain⟩, ?_, ?_, ?_, h'.lineCode⟩
  · rw [h'.code, h.code]
    simp
  · rw [h'.poolLines, h.poolLines]
    simp
  · rw [List.flatMap_append, h.covers, h'.covers, size]
    simp

/-- A finished pool line takes the cells added since it was begun. -/
theorem Emits.places {a b c : Assembly} {cells : List Cell} {line : Line} (h : Emits a cells b)
    (fresh : a.lineCode = []) (code : c.code = b.code)
    (poolLines : c.poolLines = b.poolLines.push line) (own : line.code = b.lineCode)
    (lineCode : c.lineCode = []) : Places a cells [line] c := by
  refine ⟨h.plain, code.trans h.code, ?_, ?_, lineCode⟩
  · rw [poolLines, h.poolLines]
    exact Array.push_eq_append
  · simp [own, h.lineCode, fresh]

/-- A literal takes the cells of its statement, or a zero word if that left the location counter
where it was. -/
theorem places_placeLiteral (id : LiteralId) {a : Assembly} (fresh : a.lineCode = []) :
    ∃ cells line, Places a cells [line] (placeLiteral id a) := by
  have numbered : Emits a [] { a with lineNumber := a.poolLines.size + 1 } :=
    emits_nil rfl rfl rfl
  obtain ⟨c, read⟩ : ∃ c, Reads refusePool True True
      (.ofText (a.symbols.literalText id), { a with lineNumber := a.poolLines.size + 1 })
      (c, (statement refusePool .unclassified false (.ofText (a.symbols.literalText id))
        { a with lineNumber := a.poolLines.size + 1 }).2) := reads_statement ..
  simp only [placeLiteral]
  generalize statement refusePool .unclassified false (.ofText (a.symbols.literalText id))
    { a with lineNumber := a.poolLines.size + 1 } = r at read ⊢
  obtain ⟨kind, b⟩ := r
  obtain ⟨cells, stated⟩ := emits_of_reads_refusePool read
  simp only
  by_cases valueless : b.location = a.location
  · have noted : Emits b [] (b.note (.valuelessLiteral (a.symbols.literalText id))) :=
      emits_nil rfl rfl rfl
    obtain ⟨zero, added⟩ := emits_word (b.note (.valuelessLiteral (a.symbols.literalText id))) 0
    have placed := numbered.trans (stated.trans (noted.trans added))
    simp only [valueless]
    exact ⟨_, _, placed.places fresh rfl rfl rfl rfl⟩
  · simp only [valueless]
    exact ⟨_, _, (numbered.trans stated).places fresh rfl rfl rfl rfl⟩

theorem places_placeLiterals {a : Assembly} (fresh : a.lineCode = []) :
    ∃ cells lines, Places a cells lines (placeLiterals a) := by
  fun_induction placeLiterals a with
  | case1 a none => exact ⟨[], [], by simp, by simp, by simp, by simp, fresh⟩
  | case2 a id waiting b less ih =>
    obtain ⟨cells, line, first⟩ := places_placeLiteral id fresh
    obtain ⟨cells', lines, rest⟩ := ih first.lineCode
    exact ⟨_, _, first.trans rest⟩
  | case3 a id waiting b more =>
    obtain ⟨cells, line, first⟩ := places_placeLiteral id fresh
    exact ⟨_, _, first⟩

/-- The cells at some positions of the code list. -/
def cellsAt (a : Assembly) (positions : List Nat) : List Cell :=
  positions.filterMap fun i => a.code[i]?

/-- What a cell stands for in the listing: a pool cell for the cells of its lines, any other cell
for itself. -/
def expand (a : Assembly) (cell : Cell) : List Cell :=
  match cell.content with
  | .pool first count => ((a.poolLines.toList.drop (first - 1)).take count).flatMap a.cells
  | _ => [cell]

theorem cellsAt_append (a : Assembly) (ps qs : List Nat) :
    a.cellsAt (ps ++ qs) = a.cellsAt ps ++ a.cellsAt qs :=
  List.filterMap_append

theorem flatMap_cells (a : Assembly) (lines : List Line) :
    lines.flatMap a.cells = a.cellsAt (lines.flatMap Line.code) :=
  (List.filterMap_flatMap ..).symm

theorem expand_plain (a : Assembly) {cell : Cell} (plain : cell.isPool = false) :
    a.expand cell = [cell] := by
  obtain ⟨line, location, content⟩ := cell
  cases content with
  | word value => rfl
  | expr id => rfl
  | pool first count => cases plain

theorem flatMap_expand_plain (a : Assembly) {cells : List Cell}
    (plain : ∀ cell ∈ cells, cell.isPool = false) : cells.flatMap a.expand = cells := by
  induction cells with
  | nil => rfl
  | cons cell rest ih =>
    rw [List.flatMap_cons, a.expand_plain (plain cell (by simp)),
      ih fun other member => plain other (by simp [member])]
    rfl

theorem flatMap_window_plain {cells : List Cell} (plain : ∀ cell ∈ cells, cell.isPool = false) :
    cells.flatMap Cell.window = [] := by
  rw [List.flatMap_eq_nil_iff]
  intro cell member
  have isPool := plain cell member
  obtain ⟨line, location, content⟩ := cell
  cases content with
  | word value => rfl
  | expr id => rfl
  | pool first count => cases isPool

theorem filter_plain {cells : List Cell} (plain : ∀ cell ∈ cells, cell.isPool = false) :
    cells.filter (fun cell => !cell.isPool) = cells := by
  apply List.filter_eq_self.mpr
  intro cell member
  rw [plain cell member]
  rfl

theorem filterMap_range'_getElem? {α : Type} (before middle after : List α) :
    (List.range' before.length middle.length).filterMap
      (fun i => (before ++ middle ++ after)[i]?) = middle := by
  induction middle generalizing before with
  | nil => rfl
  | cons entry rest ih =>
    have tail := ih (before ++ [entry])
    simp only [List.length_append, List.length_cons, List.length_nil, List.append_assoc,
      List.cons_append, List.nil_append] at tail
    simp [List.range'_succ, tail]

/-- New cells stand at the positions after the old ones. -/
theorem cellsAt_added {a b : Assembly} {cells : List Cell} (after : List Cell)
    (code : b.code = a.code ++ (cells ++ after).toArray) :
    b.cellsAt (List.range' a.code.size cells.length) = cells := by
  have entry : ∀ i : Nat, b.code[i]? = (a.code.toList ++ cells ++ after)[i]? := by
    intro i
    rw [← Array.getElem?_toList, code]
    simp
  simp only [cellsAt, entry]
  exact filterMap_range'_getElem? a.code.toList cells after

/-- The positions in `listed` and those of the current line list every cell of the code list that
is no pool, and every pool line, once and in order. -/
structure Accounted (listed : List Nat) (a : Assembly) : Prop where
  inRange : ∀ i ∈ listed ++ a.lineCode, i < a.code.size
  fits : ∀ cell ∈ a.code, ∀ first count, cell.content = .pool first count →
    first - 1 + count ≤ a.poolLines.size
  plainLines : ∀ line ∈ a.poolLines, ∀ i ∈ line.code,
    ∃ cell, a.code[i]? = some cell ∧ cell.isPool = false
  inOrder : (a.cellsAt (listed ++ a.lineCode)).flatMap a.expand =
    a.code.toList.filter fun cell => !cell.isPool
  windows : (a.cellsAt (listed ++ a.lineCode)).flatMap Cell.window = List.range a.poolLines.size

theorem accounted_init (dialect : Dialect) : Accounted [] (init dialect) :=
  ⟨by simp [init], by simp [init], by simp [init], rfl, rfl⟩

section Growth

variable {a b : Assembly} {listed : List Nat} {new : List Cell} {lines : List Line}

theorem cellsAt_of_append (code : b.code = a.code ++ new.toArray) {positions : List Nat}
    (inRange : ∀ i ∈ positions, i < a.code.size) : b.cellsAt positions = a.cellsAt positions := by
  apply List.filterMap_congr
  intro i member
  rw [code, Array.getElem?_append_left (inRange i member)]

/-- What a cell stands for stays the same as the program grows. -/
theorem Accounted.expand_of_append (h : Accounted listed a)
    (code : b.code = a.code ++ new.toArray)
    (poolLines : b.poolLines = a.poolLines ++ lines.toArray) {cell : Cell}
    (member : cell ∈ a.code) : b.expand cell = a.expand cell := by
  by_cases plain : cell.isPool = false
  · rw [b.expand_plain plain, a.expand_plain plain]
  obtain ⟨line, location, content⟩ := cell
  cases content with
  | word value => exact absurd rfl plain
  | expr id => exact absurd rfl plain
  | pool first count =>
    -- its lines were there before, and so were their cells
    have fits := h.fits _ member first count rfl
    have window : ((b.poolLines.toList.drop (first - 1)).take count) =
        (a.poolLines.toList.drop (first - 1)).take count := by
      rw [poolLines, Array.toList_append, List.drop_append_of_le_length (by simp; omega),
        List.take_append_of_le_length (by simp; omega)]
    simp only [expand, window, flatMap_cells]
    apply cellsAt_of_append code
    intro i hi
    obtain ⟨entry, hentry, hi⟩ := List.mem_flatMap.mp hi
    have hentry := Array.mem_toList_iff.mp (List.mem_of_mem_drop (List.mem_of_mem_take hentry))
    obtain ⟨found, at_i, -⟩ := h.plainLines entry hentry i hi
    exact (Array.getElem?_eq_some_iff.mp at_i).1

theorem mem_of_mem_cellsAt {positions : List Nat} {cell : Cell}
    (member : cell ∈ a.cellsAt positions) : cell ∈ a.code := by
  obtain ⟨i, -, at_i⟩ := List.mem_filterMap.mp member
  exact Array.mem_of_getElem? at_i

/-- What was listed before is listed alike as the program grows. -/
theorem Accounted.listing_of_append (h : Accounted listed a)
    (code : b.code = a.code ++ new.toArray)
    (poolLines : b.poolLines = a.poolLines ++ lines.toArray) :
    (b.cellsAt (listed ++ a.lineCode)).flatMap b.expand =
      a.code.toList.filter fun cell => !cell.isPool := by
  rw [cellsAt_of_append code h.inRange, ← h.inOrder]
  apply List.flatMap_congr
  intro cell member
  exact h.expand_of_append code poolLines (mem_of_mem_cellsAt member)

/-- Pool lines keep their cells as the program grows. -/
theorem Accounted.plainLines_of_append (h : Accounted listed a)
    (code : b.code = a.code ++ new.toArray) {line : Line} (member : line ∈ a.poolLines) {i : Nat}
    (own : i ∈ line.code) : ∃ cell, b.code[i]? = some cell ∧ cell.isPool = false := by
  obtain ⟨cell, at_i, plain⟩ := h.plainLines line member i own
  have below : i < a.code.size := (Array.getElem?_eq_some_iff.mp at_i).1
  exact ⟨cell, by rw [code, Array.getElem?_append_left below, at_i], plain⟩

/-- Only the code list, the pool lines and the positions matter. -/
theorem Accounted.of_same {listed' : List Nat} (h : Accounted listed a) (code : b.code = a.code)
    (poolLines : b.poolLines = a.poolLines)
    (positions : listed' ++ b.lineCode = listed ++ a.lineCode) : Accounted listed' b := by
  have code' : b.code = a.code ++ ([] : List Cell).toArray := by simp [code]
  have poolLines' : b.poolLines = a.poolLines ++ ([] : List Line).toArray := by simp [poolLines]
  refine ⟨?_, ?_, ?_, ?_, ?_⟩
  · rw [positions, code]
    exact h.inRange
  · rw [code, poolLines]
    exact h.fits
  · rw [code, poolLines]
    exact h.plainLines
  · rw [positions, h.listing_of_append code' poolLines', code]
  · rw [positions, cellsAt_of_append code' h.inRange, h.windows, poolLines]

theorem Accounted.emits (h : Accounted listed a) (added : Emits a new b) :
    Accounted listed b := by
  have code : b.code = a.code ++ new.toArray := added.code
  have poolLines : b.poolLines = a.poolLines ++ ([] : List Line).toArray := by
    simp [added.poolLines]
  have recent : b.cellsAt (List.range' a.code.size new.length) = new :=
    cellsAt_added [] (by simpa using code)
  refine ⟨?_, ?_, ?_, ?_, ?_⟩
  · intro i member
    rw [added.lineCode, ← List.append_assoc] at member
    rw [code, Array.size_append, List.size_toArray]
    rcases List.mem_append.mp member with old | recent
    · exact Nat.lt_add_right _ (h.inRange i old)
    · exact (List.mem_range'_1.mp recent).2
  · intro cell member first count isPool
    rw [added.poolLines]
    rw [code] at member
    rcases Array.mem_append.mp member with old | recent
    · exact h.fits cell old first count isPool
    · have plain := added.plain cell (List.mem_toArray.mp recent)
      simp [Cell.isPool, isPool] at plain
  · intro line member i own
    rw [added.poolLines] at member
    exact h.plainLines_of_append code member own
  · rw [added.lineCode, ← List.append_assoc, cellsAt_append, List.flatMap_append,
      h.listing_of_append code poolLines, recent, b.flatMap_expand_plain added.plain, code]
    simp [filter_plain added.plain]
  · rw [added.lineCode, ← List.append_assoc, cellsAt_append, List.flatMap_append,
      cellsAt_of_append code h.inRange, h.windows, recent, flatMap_window_plain added.plain,
      List.append_nil, added.poolLines]

end Growth

/-- From `a` to `b` a pool of the literals `lines` is placed, and the current line takes `cell`,
which tells where the pool is listed. -/
structure Pools (a : Assembly) (cells : List Cell) (lines : List Line) (cell : Cell)
    (b : Assembly) : Prop where
  plain : ∀ c ∈ cells, c.isPool = false
  covers : lines.flatMap Line.code = List.range' a.code.size cells.length
  content : cell.content = .pool (a.poolLines.size + 1) lines.length
  code : b.code = a.code ++ (cells ++ [cell]).toArray
  poolLines : b.poolLines = a.poolLines ++ lines.toArray
  lineCode : b.lineCode = a.lineCode ++ [a.code.size + cells.length]

theorem pools_placePool {a : Assembly} (waiting : a.symbols.hasWaiting = true) :
    ∃ cells lines cell, Pools a cells lines cell a.placePool := by
  obtain ⟨cells, lines, placed⟩ :=
    places_placeLiterals (a := { a with lineCode := [], diagnostics := [] }) rfl
  refine ⟨cells, lines, ⟨0, Int32.ofNat (a.poolLines.size + 1),
    .pool (a.poolLines.size + 1) lines.length⟩, placed.plain, placed.covers, rfl, ?_, ?_, ?_⟩
  · simp [placePool, waiting, placed.code, placed.poolLines]
  · simp [placePool, waiting, placed.poolLines]
  · simp [placePool, waiting, placed.code]

section Pool

variable {a b : Assembly} {listed : List Nat} {cells : List Cell} {lines : List Line} {cell : Cell}

theorem Pools.cellsAt_literals (p : Pools a cells lines cell b) :
    b.cellsAt (List.range' a.code.size cells.length) = cells :=
  cellsAt_added [cell] p.code

theorem Pools.expand_cell (p : Pools a cells lines cell b) : b.expand cell = cells := by
  rw [expand, p.content]
  simp [p.poolLines, flatMap_cells, p.covers, p.cellsAt_literals]

/-- The cells of a pool line are among those of the literals. -/
theorem Pools.plain_literal (p : Pools a cells lines cell b) {line : Line} (member : line ∈ lines)
    {i : Nat} (own : i ∈ line.code) : ∃ c, b.code[i]? = some c ∧ c.isPool = false := by
  have inRange : i ∈ List.range' a.code.size cells.length := by
    rw [← p.covers]
    exact List.mem_flatMap.mpr ⟨line, member, own⟩
  obtain ⟨low, high⟩ := List.mem_range'_1.mp inRange
  have below : i < b.code.size := by
    simp [p.code]
    omega
  have listed : b.code[i] ∈ b.cellsAt (List.range' a.code.size cells.length) :=
    List.mem_filterMap.mpr ⟨i, inRange, Array.getElem?_eq_getElem below⟩
  rw [p.cellsAt_literals] at listed
  exact ⟨b.code[i], Array.getElem?_eq_getElem below, p.plain _ listed⟩

theorem Accounted.pools (h : Accounted listed a) (p : Pools a cells lines cell b) :
    Accounted listed b := by
  have isPool : cell.isPool = true := by simp [Cell.isPool, p.content]
  have last : b.cellsAt [a.code.size + cells.length] = [cell] := by simp [cellsAt, p.code]
  refine ⟨?_, ?_, ?_, ?_, ?_⟩
  · intro i member
    rw [p.lineCode, ← List.append_assoc] at member
    simp only [p.code, Array.size_append, List.size_toArray, List.length_append,
      List.length_singleton]
    rcases List.mem_append.mp member with old | recent
    · have := h.inRange i old
      omega
    · have := List.mem_singleton.mp recent
      omega
  · intro c member first count content
    simp only [p.poolLines, Array.size_append, List.size_toArray]
    rw [p.code] at member
    rcases Array.mem_append.mp member with old | recent
    · have := h.fits c old first count content
      omega
    · rcases List.mem_append.mp (List.mem_toArray.mp recent) with literal | last
      · have plain := p.plain c literal
        simp [Cell.isPool, content] at plain
      · rw [List.mem_singleton.mp last, p.content] at content
        injection content with hfirst hcount
        omega
  · intro line member i own
    rw [p.poolLines] at member
    rcases Array.mem_append.mp member with old | recent
    · exact h.plainLines_of_append p.code old own
    · exact p.plain_literal (List.mem_toArray.mp recent) own
  -- the literals stand before the pool cell, which is listed in their place
  · rw [p.lineCode, ← List.append_assoc, cellsAt_append, List.flatMap_append,
      h.listing_of_append p.code p.poolLines, last, List.flatMap_singleton, p.expand_cell, p.code]
    simp [filter_plain p.plain, isPool]
  · have window : cell.window = List.range' a.poolLines.size lines.length := by
      simp [Cell.window, p.content]
    have joined : List.range a.poolLines.size ++ List.range' a.poolLines.size lines.length =
        List.range (a.poolLines.size + lines.length) := by
      simpa only [List.range_eq_range', Nat.zero_add] using
        @List.range'_append_1 0 a.poolLines.size lines.length
    rw [p.lineCode, ← List.append_assoc, cellsAt_append, List.flatMap_append,
      cellsAt_of_append p.code h.inRange, h.windows, last, List.flatMap_singleton, window, joined]
    simp [p.poolLines]

theorem Accounted.placePool (h : Accounted listed a) : Accounted listed a.placePool := by
  by_cases waiting : a.symbols.hasWaiting = true
  · obtain ⟨cells, lines, cell, pools⟩ := pools_placePool waiting
    exact h.pools pools
  · simpa [Assembly.placePool, waiting] using h

theorem Accounted.reads {p q : Position} (h : Accounted listed p.2)
    (read : Reads Assembly.placePool True True p q) : Accounted listed q.2 := by
  induction read with
  | refl => exact h
  | tail _ move ih =>
    rcases move.emits_or_pool with ⟨cells, added⟩ | placed
    · exact ih.emits added
    · rw [placed]
      exact ih.placePool

end Pool

section Run

variable {a : Assembly} {listed : List Nat}

/-- A finished line takes its cells along. -/
theorem Accounted.fileInto (h : Accounted listed a) (line : Line) :
    Accounted (listed ++ a.lineCode) (fileInto line a).2 :=
  h.of_same rfl rfl (by simp [Assembly.fileInto])

theorem Accounted.readLine (h : Accounted listed a) {line : Line} (fresh : line.code = []) :
    Accounted (listed ++ (readLine line a).1.code) (readLine line a).2 := by
  have numbered : Accounted listed { a with lineNumber := line.number } := h.of_same rfl rfl rfl
  obtain ⟨c, moves⟩ := reads_readText line.text { a with lineNumber := line.number }
  have read := Accounted.reads (p := (.ofText line.text, _)) numbered moves
  simp only [Assembly.readLine]
  generalize readText line.text { a with lineNumber := line.number } = r at read ⊢
  obtain ⟨kind, b⟩ := r
  have noted := read.reads (reads_noteIf (p := (c, b)) .refl
    (kind = .unclassified && b.diagnostics.isEmpty) (.notParsed line.text) rfl)
  have filed := noted.fileInto { line with kind := kind }
  simpa [Assembly.fileInto, fresh] using filed

/-- The lines of a program list its code, each cell once and in order. -/
theorem Accounted.readLines {lines : List Line} (h : Accounted listed a)
    (fresh : ∀ line ∈ lines, line.code = []) :
    Accounted (listed ++ (readLines lines a).1.flatMap Line.code) (readLines lines a).2 := by
  induction lines generalizing a listed with
  | nil => simpa [Assembly.readLines] using h
  | cons line rest ih =>
    have read := h.readLine (fresh line (by simp))
    have later : ∀ other ∈ rest, other.code = [] := by
      intro other member
      exact fresh other (List.mem_cons_of_mem _ member)
    simp only [Assembly.readLines]
    generalize Assembly.readLine line a = r at read ⊢
    obtain ⟨line, a⟩ := r
    simp only
    split
    -- the last line read takes the final pool, and no line after it has cells
    · have idle : rest.flatMap Line.code = [] := List.flatMap_eq_nil_iff.mpr later
      have filed := read.placePool.fileInto line
      simpa [Assembly.fileInto, idle] using filed
    · simpa using ih read later

theorem lineCode_readLines (lines : List Line) (idle : a.lineCode = []) :
    (readLines lines a).2.lineCode = [] := by
  induction lines generalizing a with
  | nil => exact idle
  | cons line rest ih =>
    simp only [Assembly.readLines]
    split
    · rfl
    · exact ih rfl

theorem Accounted.passOne (h : Accounted [] a) {source : Source}
    (fresh : ∀ line ∈ source.lines, line.code = []) :
    Accounted ((a.passOne source).1.lines.flatMap Line.code) (a.passOne source).2 := by
  have origin : Accounted [] { a with location := 0 } := h.of_same rfl rfl rfl
  exact (origin.readLines fresh).of_same rfl rfl rfl

theorem lineCode_passOne (source : Source) (idle : a.lineCode = []) :
    (a.passOne source).2.lineCode = [] :=
  lineCode_readLines source.lines idle

/-- After the first pass over a text, its lines list the code of the program. -/
theorem accounted_ofText (dialect : Dialect) (name text : String) :
    Accounted (((init dialect).passOne (.ofText name text)).1.lines.flatMap Line.code)
      ((init dialect).passOne (.ofText name text)).2 :=
  (accounted_init dialect).passOne fun _ => Source.code_ofText

end Run

end Assembly

end Pds1
