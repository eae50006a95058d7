import Pds1.Proofs.DataPrograms
import Pds1.Proofs.LabelTable
import Pds1.Proofs.ProgramEnd

/-!
# What lines leave in the code list

Many lines come to the same thing in every state: they leave fixed words, or references to names,
and a fixed list of complaints. A program made of such lines, none of which defines a name, is
followed through both passes. Its words stand in order from location zero, with zero for every
reference, and the report counts the complaints and two diagnostics for every reference.
-/

namespace Pds1

/-- What a statement leaves in the code list. -/
inductive Deposit where
  | word (value : Int32)
  /-- A reference to a name that no line defines. -/
  | name (text : String)

namespace Deposit

/-- The word in the image. -/
def value : Deposit → Int32
  | word value => value
  | name _ => 0

/-- What the second pass says about it. -/
def complaints : Deposit → List Diagnostic
  | word _ => []
  | name text => [.evaluation (.undefinedLabel text), .operandNotEvaluated]

/-- A cell at a location stands for the deposit. -/
inductive Held (s : ExprStore) (t : SymbolTable) : Cell → Int32 × Deposit → Prop where
  | word (line : Nat) (location value : Int32) :
    Held s t ⟨line, location, .word value⟩ (location, .word value)
  | name (line : Nat) (location : Int32) {id : ExprId} {label : LabelId} {symbolic : Bool}
    {text : String} (node : s.nodes[id]? = some ⟨.label label, symbolic⟩)
    (named : t.name? label = some text) : Held s t ⟨line, location, .expr id⟩ (location, .name text)

variable {s s' : ExprStore} {t t' : SymbolTable} {cell : Cell} {p : Int32 × Deposit}

theorem Held.mono (h : Held s t cell p) (grown : s.Extends s') (kept : t.KeepsNames t') :
    Held s' t' cell p := by
  cases h with
  | word line location value => exact .word line location value
  | name line location node named =>
    exact .name line location (grown _ _ node) (kept _ _ named)

theorem Held.not_isPool (h : Held s t cell p) : cell.isPool = false := by
  cases h with
  | word | name => rfl

end Deposit

/-- Entries at the locations from zero on. -/
def fromZero {α : Type} (entries : List α) : List (Int32 × α) :=
  entries.zipIdx.map fun e => (Int32.ofNat e.2, e.1)

theorem fromZero_concat {α : Type} (entries : List α) (entry : α) :
    fromZero (entries ++ [entry]) = fromZero entries ++ [(Int32.ofNat entries.length, entry)] := by
  simp [fromZero, List.zipIdx_append]

theorem map_snd_fromZero {α : Type} (entries : List α) :
    (fromZero entries).map Prod.snd = entries := by
  rw [fromZero, List.map_map]
  exact List.zipIdx_map_fst 0 entries

namespace Assembly

/-- Leaves a word, or enters a name and leaves a reference to it. -/
def leave (a : Assembly) : Deposit → Assembly
  | .word value => a.emitWord value
  | .name text =>
    let (label, symbols) := a.symbols.reference text
    let (id, exprs) := a.exprs.push (.label label) (!symbols.isConstant label)
    { a with symbols := symbols, exprs := exprs }.emitExpr id

/-- In this dialect the line leaves these deposits and these complaints, in every state. -/
def ReadsAs (dialect : Dialect) (line : List Char) (deposits : List Deposit)
    (said : List Diagnostic) : Prop :=
  ∀ a : Assembly, a.dialect = dialect → ∃ kind, kind ≠ Line.Kind.unclassified ∧
    readText (String.ofList line) a =
      (kind, deposits.foldl leave { a with diagnostics := a.diagnostics ++ said })

/-- The state after some deposits, if there was nothing else. -/
structure Stored (dialect : Dialect) (deposits : List Deposit) (a : Assembly) : Prop where
  dialect_eq : a.dialect = dialect
  cells : List.Forall₂ (Deposit.Held a.exprs a.symbols) a.code.toList (fromZero deposits)
  location : a.location = Int32.ofNat deposits.length
  distinct : a.symbols.Distinct
  unbound : ∀ name, a.symbols.binding? name = none
  queue : a.symbols.queue = []
  poolLines : a.poolLines = #[]
  ended : a.ended = false
  start : a.start = none

section Storing

variable {dialect : Dialect} {a : Assembly} {deposits : List Deposit}

theorem dialect_leave (a : Assembly) (d : Deposit) : (a.leave d).dialect = a.dialect := by
  cases d with
  | word value => rfl
  | name text => rfl

theorem diagnostics_leave (a : Assembly) (d : Deposit) :
    (a.leave d).diagnostics = a.diagnostics := by
  cases d with
  | word value => rfl
  | name text => rfl

theorem diagnostics_leaves (a : Assembly) (ds : List Deposit) :
    (ds.foldl leave a).diagnostics = a.diagnostics := by
  induction ds generalizing a with
  | nil => rfl
  | cons d ds ih => exact (ih (a.leave d)).trans (diagnostics_leave a d)

theorem queue_reference (t : SymbolTable) (name : String) :
    (t.reference name).2.queue = t.queue := by
  rw [SymbolTable.reference]
  split
  · rfl
  · rfl

/-- One more deposit. A name that is entered does not become bound. -/
theorem Stored.leave (h : Stored dialect deposits a) (d : Deposit) :
    Stored dialect (deposits ++ [d]) (a.leave d) := by
  have location : a.location + 1 = Int32.ofNat (deposits ++ [d]).length := by
    rw [h.location, List.length_append, Int32.ofNat_add]
    rfl
  -- the older cells stay what they are, since nodes and names are only added
  have next {s : ExprStore} {t : SymbolTable} (content : Cell.Content)
      (grown : a.exprs.Extends s) (kept : a.symbols.KeepsNames t)
      (own : Deposit.Held s t ⟨a.lineNumber, a.location, content⟩ (a.location, d)) :
      List.Forall₂ (Deposit.Held s t) (a.code.push ⟨a.lineNumber, a.location, content⟩).toList
        (fromZero (deposits ++ [d])) := by
    have older := h.cells.imp fun cell p held => held.mono grown kept
    rw [fromZero_concat, ← h.location, Array.toList_push]
    exact List.rel_append older (.cons own .nil)
  cases d with
  | word value =>
    exact ⟨h.dialect_eq, next (.word value) (.refl _) (fun _ _ named => named) (.word ..), location,
      h.distinct, h.unbound, h.queue, h.poolLines, h.ended, h.start⟩
  | name text =>
    have keeps := a.symbols.keeps_reference text
    have named := a.symbols.name?_reference text
    have idle := (queue_reference a.symbols text).trans h.queue
    simp only [Assembly.leave]
    generalize a.symbols.reference text = r at keeps named idle ⊢
    obtain ⟨label, symbols⟩ := r
    have node := a.exprs.getElem?_push_size (.label label) (!symbols.isConstant label)
    have cells := next (.expr a.exprs.size) (ExprStore.extends_push _ _ _) keeps.names
      (.name _ _ node named)
    exact ⟨h.dialect_eq, cells, location, keeps.distinct h.distinct,
      fun name => (keeps.binding name).trans (h.unbound name), idle, h.poolLines, h.ended, h.start⟩

theorem Stored.leaves (h : Stored dialect deposits a) (ds : List Deposit) :
    Stored dialect (deposits ++ ds) (ds.foldl Assembly.leave a) := by
  induction ds generalizing deposits a with
  | nil => simpa using h
  | cons d ds ih => simpa using ih (h.leave d)

theorem Stored.placePool (h : Stored dialect deposits a) : a.placePool = a := by
  simp [Assembly.placePool, SymbolTable.hasWaiting, h.queue]

/-- What is kept about the current line makes no difference. -/
theorem Stored.aside (h : Stored dialect deposits a) (n : Nat) (positions : List Nat)
    (ds : List Diagnostic) (log : Array Event) : Stored dialect deposits
      { a with lineNumber := n, lineCode := positions, diagnostics := ds, log := log } :=
  ⟨h.dialect_eq, h.cells, h.location, h.distinct, h.unbound, h.queue, h.poolLines, h.ended, h.start⟩

theorem Stored.fileInto (h : Stored dialect deposits a) (line : Line) :
    Stored dialect deposits (fileInto line a).2 :=
  h.aside a.lineNumber [] [] a.log

theorem readLine_of_classified {line : Line} {kind : Line.Kind} {b : Assembly}
    (read : readText line.text { a with lineNumber := line.number } = (kind, b))
    (classified : kind ≠ .unclassified) :
    readLine line a = Assembly.fileInto { line with kind := kind } b := by
  simp [readLine, read, noteIf, classified]

/-- Reading a line. -/
theorem Stored.readLine (h : Stored dialect deposits a) (quiet : a.diagnostics = [])
    {chars : List Char} {ds : List Deposit} {said : List Diagnostic}
    (reads : ReadsAs dialect chars ds said) {line : Line}
    (text : line.text = String.ofList chars) (fresh : line.diagnostics = []) :
    Stored dialect (deposits ++ ds) (readLine line a).2 ∧
      (readLine line a).1.diagnostics = said := by
  obtain ⟨kind, classified, read⟩ := reads { a with lineNumber := line.number } h.dialect_eq
  have start := h.aside line.number a.lineCode (a.diagnostics ++ said) a.log
  rw [← text] at read
  rw [readLine_of_classified read classified]
  refine ⟨(start.leaves ds).fileInto _, ?_⟩
  rw [Assembly.fileInto, fresh, diagnostics_leaves, quiet]
  rfl

end Storing

/-- A line with what it comes to in a dialect. -/
structure WordLine (dialect : Dialect) where
  chars : List Char
  deposits : List Deposit
  said : List Diagnostic
  reads : ReadsAs dialect chars deposits said

section Program

variable {dialect : Dialect} {a : Assembly} {deposits : List Deposit}

/-- Reading lines to the end of the source. -/
theorem Stored.readLines {lines : List Line} {program : List (WordLine dialect)}
    (h : Stored dialect deposits a) (quiet : a.diagnostics = [])
    (texts : lines.map Line.text = program.map fun l => String.ofList l.chars)
    (fresh : ∀ line ∈ lines, line.diagnostics = []) :
    Stored dialect (deposits ++ program.flatMap WordLine.deposits) (readLines lines a).2 ∧
      (readLines lines a).1.map Line.diagnostics = program.map WordLine.said := by
  induction lines generalizing deposits program a with
  | nil =>
    cases program with
    | nil => exact ⟨by simpa [Assembly.readLines] using h, rfl⟩
    | cons => cases texts
  | cons line lines ih =>
    cases program with
    | nil => cases texts
    | cons first program =>
      obtain ⟨text, texts⟩ := List.cons.inj texts
      obtain ⟨own, others⟩ := List.forall_mem_cons.mp fresh
      obtain ⟨stored, said⟩ := h.readLine quiet first.reads text own
      have silent : (Assembly.readLine line a).2.diagnostics = [] := rfl
      simp only [Assembly.readLines]
      split
      · next last =>
        have final : lines = [] := by simpa [stored.ended] using last
        subst final
        obtain rfl : program = [] := by simpa using texts.symm
        rw [stored.placePool]
        refine ⟨by simpa using stored.fileInto _, ?_⟩
        simp [Assembly.fileInto, said, silent]
      · obtain ⟨stored, later⟩ := ih stored silent texts others
        exact ⟨by simpa using stored, by simp [said, later]⟩

/-- The first pass over a text with the lines of a program. -/
theorem stored_passOne (program : List (WordLine dialect)) (name : String) {text : String}
    (lines : Source.splitLines [] text.toList = program.map WordLine.chars) :
    let first := (init dialect).passOne (.ofText name text)
    Stored dialect (program.flatMap WordLine.deposits) first.2 ∧
      first.1.lines.map Line.diagnostics = program.map WordLine.said := by
  have start : Stored dialect [] { init dialect with location := 0 } :=
    ⟨rfl, .nil, rfl, fun _ _ _ named => by simp [init, SymbolTable.name?] at named,
      fun _ => by simp [init, SymbolTable.binding?, SymbolTable.lookup?, SymbolTable.labelId?],
      rfl, rfl, rfl, rfl⟩
  have texts : (Source.ofText name text).lines.map Line.text =
      program.map fun l => String.ofList l.chars := by
    rw [Source.text_ofText, lines, List.map_map]
    rfl
  obtain ⟨stored, said⟩ := start.readLines rfl texts fun _ => Source.diagnostics_ofText
  intro first
  simp only [first, passOne]
  generalize readLines _ _ = r at stored said
  exact ⟨stored.aside _ _ _ _, said⟩

end Program

section Account

variable {dialect : Dialect} {a : Assembly} {deposits : List Deposit} {cell : Cell}
  {p : Int32 × Deposit}

/-- A reference has no value. -/
theorem Stored.evaluate (h : Stored dialect deposits a) {id : ExprId} {label : LabelId}
    {symbolic : Bool} {text : String} (node : a.exprs.nodes[id]? = some ⟨.label label, symbolic⟩)
    (named : a.symbols.name? label = some text) :
    a.exprs.evaluate a.symbols id = .fail (.undefinedLabel text) := by
  rw [ExprStore.evaluate.eq_def, node]
  change a.symbols.labelValue label = _
  rw [SymbolTable.labelValue_eq h.distinct named, h.unbound text]
  rfl

theorem Stored.placement? (h : Stored dialect deposits a)
    (held : Deposit.Held a.exprs a.symbols cell p) : a.placement? cell = some (p.1, p.2.value) := by
  cases held with
  | word line location value => rfl
  | name line location node named =>
    simp only [Assembly.placement?, word?, h.evaluate node named]
    rfl

theorem Stored.cellDiagnostics (h : Stored dialect deposits a)
    (held : Deposit.Held a.exprs a.symbols cell p) : a.cellDiagnostics cell = p.2.complaints := by
  cases held with
  | word line location value => rfl
  | name line location node named =>
    simp only [Assembly.cellDiagnostics, cellValue, h.evaluate node named]
    rfl

/-- The words of the code list are the values of the deposits. -/
theorem Stored.words (h : Stored dialect deposits a) :
    a.words = numbered (deposits.map Deposit.value) := by
  have placed : a.words = (fromZero deposits).map fun p => (p.1, p.2.value) := by
    rw [Assembly.words]
    have cells := h.cells
    generalize a.code.toList = code at cells ⊢
    generalize fromZero deposits = entries at cells ⊢
    induction cells with
    | nil => rfl
    | cons held _ ih => rw [List.filterMap_cons, h.placement? held, ih, List.map_cons]
  rw [placed, fromZero, List.map_map, numbered, List.zipIdx_map, List.map_map]
  rfl

theorem Stored.flatMap_cellDiagnostics (h : Stored dialect deposits a) :
    a.code.toList.flatMap a.cellDiagnostics = deposits.flatMap Deposit.complaints := by
  have placed : a.code.toList.flatMap a.cellDiagnostics =
      ((fromZero deposits).map Prod.snd).flatMap Deposit.complaints := by
    have cells := h.cells
    generalize a.code.toList = code at cells ⊢
    generalize fromZero deposits = entries at cells ⊢
    induction cells with
    | nil => rfl
    | cons held _ ih =>
      rw [List.flatMap_cons, h.cellDiagnostics held, ih, List.map_cons, List.flatMap_cons]
  rw [placed, map_snd_fromZero]

/-- Without pools, the lines list the cells of the program in order. -/
theorem Stored.flatMap_cells (h : Stored dialect deposits a) {lines : List Line}
    (accounted : Accounted (lines.flatMap Line.code) a) (idle : a.lineCode = []) :
    lines.flatMap a.cells = a.code.toList := by
  have plain : ∀ cell ∈ a.code.toList, cell.isPool = false := by
    have cells := h.cells
    generalize a.code.toList = code at cells ⊢
    generalize fromZero deposits = entries at cells
    induction cells with
    | nil => simp
    | cons held _ ih => exact List.forall_mem_cons.mpr ⟨held.not_isPool, ih⟩
  have expand : ∀ cell ∈ a.cellsAt (lines.flatMap Line.code), a.expand cell = [cell] := by
    intro cell member
    have own := plain cell (Array.mem_toList_iff.mpr (mem_of_mem_cellsAt member))
    obtain ⟨line, location, content⟩ := cell
    cases content with
    | word | expr => rfl
    | pool first count => cases own
  have inOrder := accounted.inOrder
  rw [idle, List.append_nil] at inOrder
  calc lines.flatMap a.cells
      = a.cellsAt (lines.flatMap Line.code) := Assembly.flatMap_cells a lines
    _ = (a.cellsAt (lines.flatMap Line.code)).flatMap a.expand := by
        rw [List.flatMap_congr expand, List.flatMap_singleton']
    _ = a.code.toList.filter fun cell => !cell.isPool := inOrder
    _ = a.code.toList := List.filter_eq_self.mpr fun cell member => by rw [plain cell member]; rfl

/-- The diagnostics of the lines in the end are the complaints of the first pass and those about
the cells. -/
theorem Stored.length_finalDiagnostics (h : Stored dialect deposits a) {lines : List Line}
    (accounted : Accounted (lines.flatMap Line.code) a) (idle : a.lineCode = []) :
    (a.finalDiagnostics lines).length = (lines.flatMap Line.diagnostics).length +
      (deposits.flatMap Deposit.complaints).length := by
  have apart (lines : List Line) : (a.finalDiagnostics lines).length =
      (lines.flatMap Line.diagnostics).length +
        ((lines.flatMap a.cells).flatMap a.cellDiagnostics).length := by
    induction lines with
    | nil => rfl
    | cons line lines ih =>
      have split : a.finalDiagnostics (line :: lines) =
          (a.annotate line).diagnostics ++ a.finalDiagnostics lines := List.flatMap_cons
      rw [split, List.length_append, ih]
      simp only [annotate, List.flatMap_cons, List.flatMap_append, List.length_append]
      omega
  rw [apart, h.flatMap_cells accounted idle, h.flatMap_cellDiagnostics]

end Account

theorem words_poolLines (a : Assembly) (lines : Array Line) :
    words { a with poolLines := lines } = a.words := rfl

/-- Assembling a text with the lines of a program: the words are those of the deposits, from
location zero on, no starting address is given, and the report counts all complaints. -/
theorem finishes_program {dialect : Dialect} (program : List (WordLine dialect)) (name : String)
    {text : String} (lines : Source.splitLines [] text.toList = program.map WordLine.chars)
    {o : Outputs} (unlimited : o.Unlimited) :
    let deposits := program.flatMap WordLine.deposits
    ∃ read a source o', Finishes dialect name text o read a source o' ∧
      a.words = numbered (deposits.map Deposit.value) ∧ a.reportedStart = none ∧
      (a.totals read).diagnostics = (program.flatMap WordLine.said).length +
        (deposits.flatMap Deposit.complaints).length := by
  obtain ⟨stored, said⟩ := stored_passOne program name lines
  obtain ⟨source, o', run⟩ := finishes_ofText dialect name text unlimited
  have accounted := accounted_ofText dialect name text
  have idle : ((init dialect).passOne (.ofText name text)).2.lineCode = [] := lineCode_passOne _ rfl
  generalize pass : (init dialect).passOne (.ofText name text) = first at *
  obtain ⟨read, a⟩ := first
  have unstarted : a.startValue? = none := by
    rw [startValue?, stored.start]
    rfl
  have pooled : a.finalDiagnostics a.poolLines.toList = [] := by
    rw [stored.poolLines]
    rfl
  have own : read.lines.flatMap Line.diagnostics = program.flatMap WordLine.said := by
    rw [List.flatMap_def, said, ← List.flatMap_def]
  refine ⟨read, a, source, o', run, stored.words, by rw [reportedStart, unstarted], ?_⟩
  rw [diagnostics_totals pass, pooled, startFails, unstarted,
    stored.length_finalDiagnostics accounted idle, own]
  rfl

end Assembly

end Pds1
