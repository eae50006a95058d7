import Pds1.Proofs.FreshRun
import Pds1.Proofs.LineNumbers

/-!
# Lines without effect

Blank lines, comments and page breaks are told by the dialect and the text alone, whatever the state
they are read in. Reading one changes nothing but line numbers, the count of comments and the
diagnostics of that very line. So putting one in anywhere leaves the image as it was, with the
symbol table, the number of words and the starting address.
-/

namespace Pds1

/-- Kinds of lines that only separate or explain others. -/
def Line.Kind.isInert (kind : Line.Kind) : Bool := kind ∈ [.blank, .comment, .pageBreak]

/-- Lines that a dialect passes over. -/
def Dialect.passesOver (dialect : Dialect) (text : String) : Bool :=
  match (Cursor.ofText text).dropBlanks.rest with
  | [] => true
  | x :: _ => x = '\x0c' || dialect.isComment x (Cursor.ofText text).onBlank

theorem Mnemonic.isInert_lineKind (m : Mnemonic) :
    m.lineKind.isInert = false ∧ m.lineKind ≠ .unclassified := by
  rw [Mnemonic.lineKind]
  split
  · split
    · decide
    · decide
  · decide

namespace Assembly

section Kinds

variable {pool : Assembly → Assembly}

theorem isInert_order (pool : Assembly → Assembly) (c : Cursor) (a : Assembly) :
    (order pool c a).1.isInert = false ∧ (order pool c a).1 ≠ .unclassified := by
  simp only [order]
  split
  · next m d _ => exact m.isInert_lineKind
  · exact ⟨rfl, Line.Kind.noConfusion⟩

/-- The first order decides the kind of a line. -/
theorem kind_statement {kind : Line.Kind} (known : kind ≠ .unclassified) (continued : Bool)
    (c : Cursor) (a : Assembly) : (statement pool kind continued c a).1 = kind := by
  fun_induction statement pool kind continued c a with
  | case1 kind continued c a labels d atEnd => exact if_neg known
  | case2 kind continued c a labels d atEnd unlabelled => rfl
  | case3 kind continued c a labels d atEnd labelled this kind' last => exact if_neg known
  | case4 kind continued c a labels d atEnd labelled this kind' e more ih =>
    have same : kind' = kind := if_neg known
    rw [same] at ih ⊢
    exact ih known

theorem isSome_readLabels (name : String) (c : Cursor) (a : Assembly) :
    (readLabels (some name) c a).1.isSome = true := by
  generalize named : some name = label
  fun_induction readLabels label c a generalizing name with
  | case1 label c a => rw [← named]; rfl
  | case2 label c a name' d found midas ih => exact ih name' rfl
  | case3 => rfl

/-- Where no label is found, nothing is read. -/
theorem readLabels_of_none {c : Cursor} {a : Assembly} (none : (readLabels none c a).1 = none) :
    (readLabels .none c a).2.1 = c := by
  rw [readLabels_eq] at none ⊢
  cases found : Name.read? a.dialect false c with
  | none => rfl
  | some read =>
    simp only [found] at none
    split at none
    · have some := isSome_readLabels read.1 read.2.dropBlanks (a.bindLabel read.1)
      rw [none] at some
      cases some
    · cases none

/-- A statement whose text is not blank has a label, an order or a diagnostic. -/
theorem isInert_statement {c : Cursor} (text : c.dropBlanks.rest ≠ []) (continued : Bool)
    (a : Assembly) : (statement pool .unclassified continued c a).1.isInert = false := by
  have unread := readLabels_of_none (c := c) (a := a)
  rw [statement_eq]
  generalize readLabels none c a = read at unread ⊢
  obtain ⟨label, d, b⟩ := read
  simp only
  split
  · next atEnd =>
    cases label with
    | none =>
      obtain rfl : d = c := unread rfl
      exact absurd (List.isEmpty_iff.mp atEnd) text
    | some name => rfl
  · split
    · rfl
    · obtain ⟨inert, known⟩ := isInert_order pool d.dropBlanks b
      split
      · exact inert
      · exact (congrArg Line.Kind.isInert (kind_statement known true _ _)).trans inert

end Kinds

/-- Whether a line is inert is told by its text and the dialect. -/
theorem isInert_readText (text : String) (a : Assembly) :
    (readText text a).1.isInert = a.dialect.passesOver text := by
  simp only [readText, Dialect.passesOver]
  cases rest : (Cursor.ofText text).dropBlanks.rest with
  | nil => rfl
  | cons x rest' =>
    simp only
    by_cases page : x = '\x0c'
    · simp only [page, if_true, decide_true, Bool.true_or]
      rfl
    · cases comment : a.dialect.isComment x (Cursor.ofText text).onBlank with
      | true =>
        simp only [page, if_true, Bool.or_true]
        rfl
      | false =>
        simp only [page, decide_false, Bool.or_false, if_false]
        cases definition? (Cursor.ofText text).dropBlanks a with
        | some b => rfl
        | none =>
          exact isInert_statement (by rw [rest]; exact List.cons_ne_nil x rest') false a

/-- Reading a line that is passed over leaves a diagnostic at most, or counts a comment. -/
theorem readText_passedOver {text : String} {a : Assembly}
    (passed : a.dialect.passesOver text = true) :
    ∃ diagnostics comments,
      (readText text a).2 = { a with diagnostics := diagnostics, comments := comments } := by
  simp only [Dialect.passesOver] at passed
  simp only [readText]
  cases rest : (Cursor.ofText text).dropBlanks.rest with
  | nil => exact ⟨_, _, rfl⟩
  | cons x rest' =>
    simp only [rest, Bool.or_eq_true, decide_eq_true_eq] at passed
    by_cases page : x = '\x0c'
    · simp only [page, if_true]
      cases rest'.isEmpty with
      | true => exact ⟨_, _, rfl⟩
      | false => exact ⟨_, _, rfl⟩
    · have comment := passed.resolve_left page
      simp only [page, comment, if_true, if_false]
      exact ⟨_, _, rfl⟩

section Dialects

variable {a b : Assembly}

theorem dialect_of_operand {c c' : Cursor} {id : ExprId} (read : a.operand c = (id, c', b)) :
    b.dialect = a.dialect :=
  (congrArg (fun r => r.2.2.dialect) read).symm

theorem dialect_of_valueNow {id : ExprId} {result : Except EvalError Int32}
    (known : a.valueNow id = (result, b)) : b.dialect = a.dialect :=
  (congrArg (fun r => r.2.dialect) known).symm

theorem dialect_emitField (op : Operator) (right code : Int32) (id : ExprId) :
    (a.emitField op right code id).dialect = a.dialect := by
  rw [emitField]
  split
  · rfl
  · rfl

theorem dialect_moveOrigin (d : Directive) (value : Int32) :
    (a.moveOrigin d value).dialect = a.dialect := by
  rw [moveOrigin.eq_def]
  split
  · rfl
  · rfl
  · rfl

/-- Reading never changes the dialect. -/
theorem Move.dialect {pool : Assembly → Assembly} (pools : ∀ a, (pool a).dialect = a.dialect)
    {origins binds : Prop} {p q : Position} (m : Move pool origins binds p q) :
    q.2.dialect = p.2.dialect := by
  cases m with
  | skip | note | log | comment | word | stop => rfl
  | pool c a => exact pools a
  | label c a name => exact a.dialect_bindLabel name
  | operand read | expr read | value read | stopAt read => exact (dialect_of_operand read :)
  | field read => exact (dialect_emitField ..).trans (dialect_of_operand read)
  | origin _ read _ known =>
    exact (dialect_moveOrigin ..).trans
      ((dialect_of_valueNow known).trans (dialect_of_operand read))
  | assign read _ known => exact (dialect_of_valueNow known).trans (dialect_of_operand read)

theorem Reads.dialect {pool : Assembly → Assembly} (pools : ∀ a, (pool a).dialect = a.dialect)
    {origins binds : Prop} {p q : Position} (read : Reads pool origins binds p q) :
    q.2.dialect = p.2.dialect := by
  induction read with
  | refl => rfl
  | tail _ m ih => exact (m.dialect pools).trans ih

theorem dialect_placeLiteral (id : LiteralId) (a : Assembly) :
    (placeLiteral id a).dialect = a.dialect := by
  obtain ⟨c, read⟩ := reads_literalBody id a
  have refused (b : Assembly) : (refusePool b).dialect = b.dialect := rfl
  exact Reads.dialect refused read

theorem dialect_placeLiterals (a : Assembly) : (placeLiterals a).dialect = a.dialect := by
  fun_induction placeLiterals a with
  | case1 => rfl
  | case2 a id next b less ih => exact ih.trans (dialect_placeLiteral id a)
  | case3 a id next b more => exact dialect_placeLiteral id a

theorem dialect_placePool (a : Assembly) : a.placePool.dialect = a.dialect := by
  rw [placePool]
  split
  · exact dialect_placeLiterals _
  · rfl

theorem dialect_readText (text : String) (a : Assembly) :
    (readText text a).2.dialect = a.dialect := by
  obtain ⟨c, read⟩ := reads_readText text a
  exact read.dialect dialect_placePool

theorem dialect_readLine (line : Line) (a : Assembly) :
    (readLine line a).2.dialect = a.dialect := by
  have read := dialect_readText line.text { a with lineNumber := line.number }
  simp only [readLine, fileInto, noteIf]
  split
  · exact read
  · exact read

end Dialects

section Insertion

variable {a : Assembly} {line : Line}

theorem readLine_inert (inert : a.dialect.passesOver line.text = true) (idle : a.lineCode = [])
    (quiet : a.diagnostics = []) : (readLine line a).2.unnumbered = a.unnumbered := by
  obtain ⟨diagnostics, comments, read⟩ :=
    readText_passedOver (a := { a with lineNumber := line.number }) inert
  have cleared : a.unnumbered = { a with lineCode := [], diagnostics := [] }.unnumbered := by
    rw [← idle, ← quiet]
  rw [cleared]
  simp only [readLine, fileInto, noteIf, read]
  split
  · rfl
  · rfl

/-- A line that is passed over may stand in front of any others. -/
theorem readLines_cons_inert {after : List Line} (inert : a.dialect.passesOver line.text = true)
    (idle : a.lineCode = []) (quiet : a.diagnostics = []) (running : a.ended = false)
    (more : after ≠ []) :
    (readLines (line :: after) a).2.unnumbered = (readLines after a).2.unnumbered := by
  have read := readLine_inert inert idle quiet
  have ended : (readLine line a).2.ended = a.ended := (congrArg Assembly.ended read :)
  have goes : ((readLine line a).2.ended || after.isEmpty) = false := by
    rw [ended, running, Bool.false_or, List.isEmpty_eq_false_iff]
    exact more
  simp only [readLines, goes]
  exact readLines_congr rfl read

/-- As the last one, it takes over the pool that the line before it would have had. -/
theorem readLines_inert (inert : a.dialect.passesOver line.text = true) (idle : a.lineCode = [])
    (quiet : a.diagnostics = []) (before : Line) :
    (readLines [line] a).2.unnumbered = (fileInto before a.placePool).2.unnumbered := by
  have read := readLine_inert inert idle quiet
  simp only [readLines, List.isEmpty_nil, Bool.or_true, if_true]
  exact fileInto_congr _ before (placePool_congr read)

/-- A line that is passed over makes no difference anywhere among other lines. -/
theorem readLines_insert {before after : List Line} (inert : a.dialect.passesOver line.text = true)
    (idle : a.lineCode = []) (quiet : a.diagnostics = []) (running : a.ended = false)
    (others : before ++ after ≠ []) :
    (readLines (before ++ line :: after) a).2.unnumbered =
      (readLines (before ++ after) a).2.unnumbered := by
  induction before generalizing a with
  | nil => exact readLines_cons_inert inert idle quiet running others
  | cons first before ih =>
    have inert' : (readLine first a).2.dialect.passesOver line.text = true := by
      rw [dialect_readLine]
      exact inert
    have later : (before ++ line :: after).isEmpty = false := by simp
    by_cases ended : (readLine first a).2.ended = true
    · simp only [List.cons_append, readLines, ended, Bool.true_or, if_true]
    · simp only [List.cons_append, readLines, ended, later]
      -- behind the last line it is the line put in that gets the pool
      by_cases last : before ++ after = []
      · obtain ⟨rfl, rfl⟩ := List.append_eq_nil_iff.mp last
        exact readLines_inert inert' rfl rfl (readLine first a).1
      · have goes : (before ++ after).isEmpty = false := List.isEmpty_eq_false_iff.mpr last
        simp only [goes]
        exact ih inert' rfl rfl (Bool.eq_false_of_not_eq_true ended) last

/-- The lines of two texts, one of which has one more line. -/
theorem readLines_inert_text {dialect : Dialect} {text : String} {before after : List String}
    {lines lines' : List Line} (inert : dialect.passesOver text = true)
    (texts : lines.map Line.text = before ++ after)
    (texts' : lines'.map Line.text = before ++ text :: after) :
    (readLines lines' (init dialect)).2.unnumbered =
      (readLines lines (init dialect)).2.unnumbered := by
  obtain ⟨first, second, rfl, rfl, rfl⟩ := List.map_eq_append_iff.mp texts
  let line : Line := { text := text, number := 0 }
  have passed : (init dialect).dialect.passesOver line.text = true := inert
  have renumbered : lines'.map Line.text = (first ++ line :: second).map Line.text := by
    rw [texts', List.map_append, List.map_cons]
  rw [readLines_congr renumbered rfl]
  by_cases none : first ++ second = []
  · obtain ⟨rfl, rfl⟩ := List.append_eq_nil_iff.mp none
    have unpooled : (init dialect).placePool = init dialect := if_neg Bool.false_ne_true
    have alone := readLines_inert passed rfl rfl line
    rw [unpooled] at alone
    exact alone
  · exact readLines_insert passed rfl rfl rfl none

theorem passOne_inert_text {dialect : Dialect} {line : String} {before after : List String}
    {source source' : Source} (inert : dialect.passesOver line = true)
    (lines : source.lines.map Line.text = before ++ after)
    (lines' : source'.lines.map Line.text = before ++ line :: after) :
    ∃ (b b' : Assembly) (log log' : Array Event),
      ((init dialect).passOne source).2 = { b with log := log } ∧
      ((init dialect).passOne source').2 = { b' with log := log' } ∧
      b'.unnumbered = b.unnumbered :=
  ⟨_, _, _, _, rfl, rfl, readLines_inert_text inert lines lines'⟩

end Insertion

theorem words_unnumbered (a : Assembly) : a.unnumbered.words = a.words := by
  simp only [words, unnumbered, Array.toList_map, List.filterMap_map]
  rfl

/-- A blank line, comment or page break put in anywhere makes no difference to the image, the symbol
table, the number of words and the starting address. -/
theorem inert_line_without_effect (dialect : Dialect) {name text name' text' line : String}
    {before after : List String}
    (inert : (readText line (init dialect)).1 ∈ [.blank, .comment, .pageBreak])
    (lines : (Source.ofText name text).lines.map Line.text = before ++ after)
    (lines' : (Source.ofText name' text').lines.map Line.text = before ++ line :: after)
    {o : Outputs} (unlimited : o.Unlimited) :
    ∃ report source a o₁ report' source' a' o₂,
      assemble dialect (.ofText name text) o = (.ok report, source, a, o₁) ∧
      assemble dialect (.ofText name' text') o = (.ok report', source', a', o₂) ∧
      o₂.object = o₁.object ∧
      a'.symbols = a.symbols ∧
      report'.words = report.words ∧
      report'.start = report.start := by
  have passed : dialect.passesOver line = true :=
    (isInert_readText line (init dialect)).symm.trans (decide_eq_true inert)
  obtain ⟨b, b', log, log', left, left', same⟩ := passOne_inert_text passed lines lines'
  obtain ⟨source, o₁, run⟩ := finishes_ofText dialect name text unlimited
  obtain ⟨source', o₂, run'⟩ := finishes_ofText dialect name' text' unlimited
  rw [left] at run
  rw [left'] at run'
  have words : b'.words = b.words := by rw [← words_unnumbered, same, words_unnumbered]
  have start : b'.reportedStart = b.reportedStart := (congrArg reportedStart same :)
  refine ⟨_, source, _, o₁, _, source', _, o₂, run.ran, run'.ran, run.object_eq run' words start,
    (symbols_congr same :), ?_, start⟩
  exact run'.words_totals.trans ((congrArg List.length words).trans run.words_totals.symm)

/-- A page break behind the last line, with text on it that earns a diagnostic. The pool for the
literal of the line before is placed at the page break. -/
theorem inert_page_break_without_effect :
    (readText "\x0cnext" (init .midas)).1 = .pageBreak ∧
      ∃ report source a o report' source' a' o',
        assemble .midas (.ofText "page" "A:\tLAC [7]") ⟨{}, .init {} .block⟩ =
          (.ok report, source, a, o) ∧
        assemble .midas (.ofText "page" "A:\tLAC [7]\n\x0cnext") ⟨{}, .init {} .block⟩ =
          (.ok report', source', a', o') ∧
        o'.object = o.object ∧ a'.symbols = a.symbols ∧ report'.words = report.words := by
  have kind : (readText "\x0cnext" (init .midas)).1 = .pageBreak := by decide +kernel
  have inert : (readText "\x0cnext" (init .midas)).1 ∈
      [Line.Kind.blank, .comment, .pageBreak] := by
    rw [kind]
    decide
  have lines : (Source.ofText "page" "A:\tLAC [7]").lines.map Line.text =
      ["A:\tLAC [7]"] ++ [] := by decide +kernel
  have lines' : (Source.ofText "page" "A:\tLAC [7]\n\x0cnext").lines.map Line.text =
      ["A:\tLAC [7]"] ++ "\x0cnext" :: [] := by decide +kernel
  obtain ⟨report, source, a, o, report', source', a', o', ran, ran', object, symbols, words, -⟩ :=
    inert_line_without_effect .midas inert lines lines' (o := ⟨{}, .init {} .block⟩) ⟨rfl, rfl⟩
  exact ⟨kind, report, source, a, o, report', source', a', o', ran, ran', object, symbols, words⟩

end Assembly

end Pds1
