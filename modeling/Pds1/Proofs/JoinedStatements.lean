import Mathlib.Data.List.TakeWhile
import Pds1.Proofs.CursorPlace
import Pds1.Proofs.Deposits
import Pds1.Proofs.OperandComplaints
import Pds1.Proofs.PlainOrders

/-!
# Statements joined by question marks

A question mark ends a statement, and another one begins on the same line. Orders without operands
are followed through a line of any length. Behind a blank, the mark does what it should: the line
comes to the same words as one line for each order. Right behind a name it does not, since a
mnemonic may not be followed by a question mark: the name is then taken for an operand and becomes
a reference to a label. In the Imlac dialect a label is one letter here, and the line is given up
behind it. Which words and complaints that makes is told for every line.
-/

namespace Pds1

theorem Operator.ofChar?_of_isUpper {x : Char} (upper : x.isUpper = true) : ofChar? x = none := by
  rw [ofChar?.eq_def]
  split
  · cases upper
  · cases upper
  · cases upper
  · cases upper
  · rfl

theorem Operand.isInvalid_name (text : String) (c : Cursor) (t : Tables) :
    (name text c t).isInvalid = false :=
  isInvalid_push ..

namespace PlainOrder

variable {m : PlainOrder} {c : Cursor} {after : List Char}

/-- A name that may not end here is taken for an operand. -/
theorem order_of_not_ends (stops : Stops after) (follows : Mnemonic.endsName after.head? = false)
    (h : c.rest = m.letters ++ after) (pool : Assembly → Assembly) (a : Assembly) :
    Assembly.order pool c a = (.data, c.moveTo (a.dialect.leftOf m.letters ++ after),
      a.leave (.name (String.ofList (a.dialect.nameIn m.letters)))) := by
  obtain ⟨x, y, r, letters, upper, upper'⟩ := m.capitals.cons
  have unnamed : Mnemonic.read? (decide ((none : Option Tag) = some .display)) c = none :=
    (m.capitals.read?_of_rest m.find?_letters stops h).trans (if_neg (by simp [follows]))
  have first : c.rest = x :: (y :: r ++ after) := by rw [h, letters]; rfl
  have number : Number.read? a.dialect c = none :=
    Number.read?_of_not_digit a.dialect first
      (Name.not_isDigit_of_isAlpha (Name.isAlpha_of_isUpper upper))
  have named := m.capitals.name_of_rest a.dialect stops h
  have last : ∀ x ∈ (a.dialect.leftOf m.letters ++ after).head?, Operator.ofChar? x = none := by
    intro x head
    by_cases imlac : a.dialect = .imlac
    · obtain rfl : y = x := by simpa [Dialect.leftOf, imlac, letters] using head
      exact Operator.ofChar?_of_isUpper upper'
    · rw [Dialect.leftOf, if_neg imlac, List.nil_append] at head
      simpa using stops.head (p := fun x => (Operator.ofChar? x).isSome) rfl x head
  have read : Operand.read a.dialect a.location c a.toTables =
      Operand.name (String.ofList (a.dialect.nameIn m.letters))
        (c.moveTo (a.dialect.leftOf m.letters ++ after)) a.toTables := by
    rw [Operand.read, Operand.term]
    simp only [number, named]
    exact Operand.extend_of_rest _ _ last
  have valid := Operand.isInvalid_name (String.ofList (a.dialect.nameIn m.letters))
    (c.moveTo (a.dialect.leftOf m.letters ++ after)) a.toTables
  simp only [Assembly.order, m.capitals.readTag_of_rest a.dialect h, unnamed, Assembly.operand,
    read]
  exact Prod.ext rfl (Prod.ext rfl (if_neg (Bool.eq_false_iff.mp valid)))

end PlainOrder

/-- An order with the blanks around it. -/
structure PlainStatement where
  order : PlainOrder
  before : Blanks
  after : Blanks

namespace PlainStatement

def text (s : PlainStatement) : List Char :=
  s.before.chars ++ (s.order.letters ++ s.after.chars)

/-- Statements with a question mark before each. -/
def tail (statements : List PlainStatement) : List Char :=
  statements.flatMap fun s => '?' :: s.text

/-- Statements with question marks between them. -/
def joined : List PlainStatement → List Char
  | [] => []
  | s :: rest => s.text ++ tail rest

/-- Whether a blank stands before every question mark. -/
def isSpaced (statements : List PlainStatement) : Bool :=
  statements.dropLast.all fun s => !s.after.chars.isEmpty

/-- What joined statements come to. -/
def deposits (dialect : Dialect) : List PlainStatement → List Deposit
  | [] => []
  | [s] => [.word s.order.code]
  | s :: t :: rest =>
    if s.after.chars.isEmpty then
      .name (String.ofList (dialect.nameIn s.order.letters)) ::
        if dialect = .imlac then [] else deposits dialect (t :: rest)
    else .word s.order.code :: deposits dialect (t :: rest)

/-- What stands behind a name ends it, as far as it is no question mark. -/
theorem stops_tail (after : Blanks) (rest : List PlainStatement) :
    Stops (after.chars ++ tail rest) ∧
      (Mnemonic.endsName (after.chars ++ tail rest).head? = false ↔
        after.chars.isEmpty = true ∧ rest ≠ []) ∧
      ∀ x ∈ (after.chars ++ tail rest).head?, x ≠ '\\' ∧ x ≠ '|' := by
  obtain ⟨chars, blank⟩ := after
  rcases chars with _ | ⟨x, r⟩
  · cases rest with
    | nil => simp [Stops, tail, Mnemonic.endsName]
    | cons s rest => simp [Stops, tail, nameStops, Mnemonic.endsName]
  · have first := List.all_eq_true.mp blank x List.mem_cons_self
    rcases Cursor.eq_of_isBlank first with rfl | rfl
    · simp [Stops, nameStops, Mnemonic.endsName]
    · simp [Stops, nameStops, Mnemonic.endsName]

/-- Behind blanks, the question mark and what follows it are found. -/
theorem accept?_tail (after : Blanks) (rest : List PlainStatement) (c : Cursor) :
    (c.moveTo (after.chars ++ tail rest)).dropBlanks.accept? '?' =
      match rest with
      | [] => none
      | s :: rest => some (c.moveTo (s.text ++ tail rest)) := by
  have blanks : (c.moveTo (after.chars ++ tail rest)).dropBlanks =
      c.moveTo ((tail rest).dropWhile Cursor.isBlank) := by
    rw [Cursor.dropBlanks, Cursor.dropWhile, Cursor.rest_moveTo,
      List.dropWhile_append_of_pos (List.all_eq_true.mp after.blank)]
    rfl
  rw [blanks]
  cases rest with
  | nil => rfl
  | cons s rest =>
    simp [tail, Cursor.isBlank, Cursor.accept?, Cursor.next?, Cursor.step, Cursor.drop,
      Cursor.moveTo]

/-- Behind a question mark column one has been passed. -/
theorem passed_tail {c : Cursor} {read : List Char} {t : PlainStatement}
    {rest : List PlainStatement} (h : c.rest = read ++ tail (t :: rest))
    (inside : Cursor.byteSize c.rest ≤ Cursor.byteSize c.line) :
    Cursor.byteSize (t.text ++ tail rest) ≤ Cursor.byteSize c.line ∧
      (c.moveTo (t.text ++ tail rest)).atStart = false := by
  have mark : tail (t :: rest) = ['?'] ++ (t.text ++ tail rest) := rfl
  have one : Cursor.byteSize ['?'] = 1 := rfl
  rw [h, mark, Cursor.byteSize_append, Cursor.byteSize_append, one] at inside
  have position : (c.moveTo (t.text ++ tail rest)).position =
      Cursor.byteSize c.line - Cursor.byteSize (t.text ++ tail rest) := rfl
  rw [Cursor.atStart, position, beq_eq_false_iff_ne]
  omega

section Reading

variable {s : PlainStatement} {rest : List PlainStatement} {blanks : List Char}
  (blank : blanks.all Cursor.isBlank = true) {c : Cursor}
  (h : c.rest = blanks ++ (s.order.letters ++ (s.after.chars ++ tail rest)))
  (placed : c.atStart = true → blanks ≠ []) {continued : Bool}
  (apart : continued = true ∨ blanks ≠ []) (pool : Assembly → Assembly) (kind : Line.Kind)
  (a : Assembly)
include blank h placed apart

/-- A statement that stands alone or has a blank before the question mark is its order. -/
theorem statement_spaced (spaced : s.after.chars.isEmpty = false ∨ rest = []) : ∃ kind',
    kind' ≠ .unclassified ∧ Assembly.statement pool kind continued c a =
      match rest with
      | [] => (kind', a.leave (.word s.order.code))
      | t :: rest => Assembly.statement pool kind' true (c.moveTo (t.text ++ tail rest))
          (a.leave (.word s.order.code)) := by
  obtain ⟨stops, follows, alone⟩ := stops_tail s.after rest
  have ends : Mnemonic.endsName (s.after.chars ++ tail rest).head? = true := by
    rw [← Bool.not_eq_false, follows]
    rintro ⟨tight, more⟩
    rcases spaced with spaced | last
    · cases tight.symm.trans spaced
    · exact more last
  have ordered : Assembly.order pool
      (c.moveTo (s.order.letters ++ (s.after.chars ++ tail rest))) a =
        (.code, c.moveTo (s.after.chars ++ tail rest), a.leave (.word s.order.code)) := by
    rw [PlainOrder.order_of_rest stops ends (Cursor.rest_moveTo c _), PlainOrder.carryOut_eq alone]
    rfl
  have next := accept?_tail s.after rest c
  obtain ⟨last, more⟩ :=
    s.order.capitals.statement_of_rest blank h stops placed apart ordered kind
  refine ⟨if kind = .unclassified then .code else kind, ?_, ?_⟩
  · split
    · decide
    · assumption
  · cases rest with
    | nil => exact last next
    | cons t rest => exact more _ next

/-- Right before a question mark the name is a reference. -/
theorem statement_tight (tight : s.after.chars.isEmpty = true) {t : PlainStatement}
    {more : List PlainStatement} (follows : rest = t :: more) : ∃ kind', kind' ≠ .unclassified ∧
      Assembly.statement pool kind continued c a =
        if a.dialect = .imlac then
          (kind', a.leave (.name (String.ofList (a.dialect.nameIn s.order.letters))))
        else Assembly.statement pool kind' true (c.moveTo (t.text ++ tail more))
          (a.leave (.name (String.ofList (a.dialect.nameIn s.order.letters)))) := by
  subst follows
  obtain ⟨stops, follows, -⟩ := stops_tail s.after (t :: more)
  have ordered := PlainOrder.order_of_not_ends (m := s.order) stops
    (follows.mpr ⟨tight, List.cons_ne_nil t more⟩) (Cursor.rest_moveTo c _) pool a
  obtain ⟨last, next⟩ :=
    s.order.capitals.statement_of_rest blank h stops placed apart ordered kind
  refine ⟨if kind = .unclassified then .data else kind, ?_, ?_⟩
  · split
    · decide
    · assumption
  · split
    · next imlac =>
      -- the label is one letter, and the next letter is no question mark
      apply last
      obtain ⟨x, y, r, letters, -, upper⟩ := s.order.capitals.cons
      rw [Dialect.leftOf, if_pos imlac, letters]
      have other : y ≠ '?' := by
        rintro rfl
        cases upper
      have stay := Name.dropBlanks_of_not_blank
        (Cursor.rest_moveTo c (y :: (r ++ (s.after.chars ++ tail (t :: more)))))
        (Cursor.not_isBlank_of_isUpper upper)
      refine (congrArg (Cursor.accept? · '?') stay).trans (if_neg ?_)
      simpa [Cursor.next?] using other
    · next other =>
      apply next
      rw [Dialect.leftOf, if_neg other]
      exact accept?_tail s.after (t :: more) c

end Reading

/-- Each statement leaves its deposit, and then the next one is read. -/
theorem statement_joined (s : PlainStatement) (rest : List PlainStatement) {blanks : List Char}
    (blank : blanks.all Cursor.isBlank = true) {c : Cursor}
    (h : c.rest = blanks ++ (s.order.letters ++ (s.after.chars ++ tail rest)))
    (inside : Cursor.byteSize c.rest ≤ Cursor.byteSize c.line)
    (placed : c.atStart = true → blanks ≠ []) {continued : Bool}
    (apart : continued = true ∨ blanks ≠ []) (pool : Assembly → Assembly) (kind : Line.Kind)
    (a : Assembly) :
    ∃ kind', kind' ≠ .unclassified ∧ Assembly.statement pool kind continued c a =
      (kind', (deposits a.dialect (s :: rest)).foldl Assembly.leave a) := by
  induction rest generalizing s blanks c continued kind a with
  | nil => exact statement_spaced blank h placed apart pool kind a (.inr rfl)
  | cons t rest ih =>
    -- whatever this statement leaves, the others are read as they would be alone: nothing they look
    -- at has changed but the column
    have again (d : Deposit) (kind : Line.Kind) : ∃ kind', kind' ≠ .unclassified ∧
        Assembly.statement pool kind true (c.moveTo (t.text ++ tail rest)) (a.leave d) =
          (kind', (deposits a.dialect (t :: rest)).foldl Assembly.leave (a.leave d)) := by
      have split : c.rest = blanks ++ (s.order.letters ++ s.after.chars) ++ tail (t :: rest) := by
        simp [h]
      obtain ⟨fits, passed⟩ := passed_tail split inside
      have next := ih t t.before.blank (c := c.moveTo (t.text ++ tail rest)) (by simp [text]) fits
        (by simp [passed]) (.inl rfl) kind (a.leave d)
      rwa [Assembly.dialect_leave] at next
    cases tight : s.after.chars.isEmpty with
    | false =>
      obtain ⟨kind₁, -, first⟩ := statement_spaced blank h placed apart pool kind a (.inl tight)
      obtain ⟨kind₂, classified, others⟩ := again (.word s.order.code) kind₁
      refine ⟨kind₂, classified, ?_⟩
      rw [first]
      simp only [others, deposits, tight, Bool.false_eq_true, if_false, List.foldl_cons]
    | true =>
      obtain ⟨kind₁, classified₁, first⟩ :=
        statement_tight blank h placed apart pool kind a tight rfl
      obtain ⟨kind₂, classified₂, others⟩ := again _ kind₁
      rw [first]
      split
      · next imlac =>
        exact ⟨kind₁, classified₁, by simp [deposits, tight, imlac]⟩
      · next other =>
        refine ⟨kind₂, classified₂, ?_⟩
        rw [others]
        simp [deposits, tight, other]

/-- Joined statements on an indented line. -/
def line (indent : Indent) (statements : List PlainStatement) : List Char :=
  indent.chars ++ joined statements

theorem readText_line (indent : Indent) (statements : List PlainStatement) (a : Assembly) :
    ∃ kind, kind ≠ Line.Kind.unclassified ∧
      Assembly.readText (String.ofList (line indent statements)) a =
        (kind, (deposits a.dialect statements).foldl Assembly.leave a) := by
  cases statements with
  | nil =>
    have blanks : indent.chars.dropWhile Cursor.isBlank = [] :=
      List.dropWhile_eq_nil_iff.mpr (List.all_eq_true.mp indent.blank)
    refine ⟨.blank, by decide, ?_⟩
    simp [Assembly.readText, line, joined, Cursor.ofText, Cursor.ofList, Cursor.dropBlanks,
      Cursor.dropWhile, blanks, deposits]
  | cons s rest =>
    obtain ⟨stops, -⟩ := stops_tail s.after rest
    have other : ((s.after.chars ++ tail rest).dropWhile Cursor.isBlank).head? ≠ some '=' := by
      rw [List.dropWhile_append_of_pos (List.all_eq_true.mp s.after.blank)]
      cases rest with
      | nil => simp [tail]
      | cons t rest => simp [tail, Cursor.isBlank]
    have blank : (indent.chars ++ s.before.chars).all Cursor.isBlank = true := by
      rw [List.all_append, indent.blank, s.before.blank]
      rfl
    have nonempty : indent.chars ++ s.before.chars ≠ [] := by simp [indent.nonempty]
    have whole : line indent (s :: rest) =
        indent.chars ++ s.before.chars ++ (s.order.letters ++ (s.after.chars ++ tail rest)) := by
      simp [line, joined, text]
    rw [whole, s.order.capitals.readText_of_indent blank stops other]
    exact statement_joined s rest blank rfl (Nat.le_refl _) (fun _ => nonempty) (.inr nonempty)
      _ _ a

/-- The line with what it comes to. -/
def wordLine (dialect : Dialect) (indent : Indent) (statements : List PlainStatement) :
    Assembly.WordLine dialect where
  chars := line indent statements
  deposits := deposits dialect statements
  said := []
  reads := by
    rintro a rfl
    obtain ⟨kind, classified, read⟩ := readText_line indent statements a
    exact ⟨kind, classified, by rw [read, List.append_nil]⟩

theorem isSpaced_cons (s t : PlainStatement) (rest : List PlainStatement) :
    isSpaced (s :: t :: rest) = (!s.after.chars.isEmpty && isSpaced (t :: rest)) := rfl

theorem deposits_of_isSpaced (dialect : Dialect) {statements : List PlainStatement}
    (h : isSpaced statements = true) :
    deposits dialect statements = statements.map fun s => .word s.order.code := by
  fun_induction deposits dialect statements with
  | case1 => rfl
  | case2 => rfl
  | case3 s t rest tight => simp [isSpaced_cons, tight] at h
  | case4 s t rest spaced ih =>
    rw [isSpaced_cons, Bool.and_eq_true] at h
    rw [ih h.2]
    rfl

/-- A name right before a question mark does not go unnoticed. -/
theorem complaints_of_not_isSpaced (dialect : Dialect) {statements : List PlainStatement}
    (h : isSpaced statements = false) :
    (deposits dialect statements).flatMap Deposit.complaints ≠ [] := by
  fun_induction deposits dialect statements with
  | case1 => cases h
  | case2 => cases h
  | case3 s t rest tight => simp [Deposit.complaints]
  | case4 s t rest spaced ih =>
    have later : isSpaced (t :: rest) = false := by simpa [isSpaced_cons, spaced] using h
    exact ih later

section Codes

variable (statements : List PlainStatement)

theorem complaints_codes :
    (statements.map fun s => Deposit.word s.order.code).flatMap Deposit.complaints = [] := by
  simp [List.flatMap_eq_nil_iff, Deposit.complaints]

theorem value_codes : (statements.map fun s => Deposit.word s.order.code).map Deposit.value =
    statements.map fun s => s.order.code := by
  rw [List.map_map]
  rfl

/-- A line for each statement. -/
def wordLines (dialect : Dialect) (indent : Indent) : List (Assembly.WordLine dialect) :=
  statements.map fun s => wordLine dialect indent [s]

theorem deposits_wordLines (dialect : Dialect) (indent : Indent) :
    (wordLines statements dialect indent).flatMap Assembly.WordLine.deposits =
      statements.map fun s => .word s.order.code := by
  rw [wordLines, List.flatMap_map, List.map_eq_flatMap]
  rfl

theorem said_wordLines (dialect : Dialect) (indent : Indent) :
    (wordLines statements dialect indent).flatMap Assembly.WordLine.said = [] := by
  simp [wordLines, wordLine, List.flatMap_eq_nil_iff]

end Codes

/-- Orders without operands that are joined by question marks on one line give the words that they
give on lines of their own if and only if a blank stands before every question mark. Otherwise the
name before one was taken for a label. -/
theorem joined_statements_eq_lines_iff (dialect : Dialect) (indent indent' : Indent)
    (statements : List PlainStatement) (name name' : String) {text text' : String}
    (one : Source.splitLines [] text.toList = [line indent statements])
    (each : Source.splitLines [] text'.toList = statements.map fun s => line indent' [s])
    {o : Outputs} (unlimited : o.Unlimited) :
    ∃ report source a o₁ report' source' a' o₂,
      assemble dialect (.ofText name text) o = (.ok report, source, a, o₁) ∧
      assemble dialect (.ofText name' text') o = (.ok report', source', a', o₂) ∧
      a'.words = Assembly.numbered (statements.map fun s => s.order.code) ∧
      report'.diagnostics = 0 ∧
      (a.words = a'.words ∧ report.diagnostics = 0 ↔ isSpaced statements = true) ∧
      (isSpaced statements = true → o₁.object = o₂.object) ∧
      a.words = Assembly.numbered ((deposits dialect statements).map Deposit.value) ∧
      report.diagnostics = ((deposits dialect statements).flatMap Deposit.complaints).length := by
  obtain ⟨read, a, source, o₁, run, words, start, diagnostics⟩ := Assembly.finishes_program
    [wordLine dialect indent statements] name one unlimited
  have lines : Source.splitLines [] text'.toList =
      (wordLines statements dialect indent').map Assembly.WordLine.chars := by
    rw [each, wordLines, List.map_map]
    rfl
  obtain ⟨read', a', source', o₂, run', words', start', diagnostics'⟩ :=
    Assembly.finishes_program _ name' lines unlimited
  have own : [wordLine dialect indent statements].flatMap Assembly.WordLine.deposits =
      deposits dialect statements := List.append_nil _
  rw [own] at words diagnostics
  rw [deposits_wordLines, value_codes] at words'
  rw [deposits_wordLines, said_wordLines, complaints_codes] at diagnostics'
  have counted : (a.totals read).diagnostics =
      ((deposits dialect statements).flatMap Deposit.complaints).length :=
    diagnostics.trans (Nat.zero_add _)
  have same (spaced : isSpaced statements = true) : a.words = a'.words := by
    rw [words, words', deposits_of_isSpaced dialect spaced, value_codes]
  refine ⟨_, source, _, o₁, _, source', _, o₂, run.ran, run'.ran, words', diagnostics', ⟨?_, ?_⟩,
    ?_, words, counted⟩
  · rintro ⟨-, silent⟩
    rw [counted, List.length_eq_zero_iff] at silent
    exact Bool.not_eq_false _ ▸ fun tight => complaints_of_not_isSpaced dialect tight silent
  · intro spaced
    refine ⟨same spaced, ?_⟩
    rw [counted, deposits_of_isSpaced dialect spaced, complaints_codes]
    rfl
  · intro spaced
    exact run'.object_eq run (same spaced) (start.trans start'.symm)

/-- One order of each kind, with blanks before every question mark. -/
theorem joined_statements_eq_lines_spaced :
    let nothing : Blanks := ⟨[], rfl⟩
    let space : Blanks := ⟨[' '], rfl⟩
    let tab : Blanks := ⟨['\t'], rfl⟩
    let cla : PlainOrder := ⟨⟨"CLA", 0o100001, .operate⟩, by decide +kernel, rfl⟩
    let krb : PlainOrder := ⟨⟨"KRB", 0o001021, .iot⟩, by decide +kernel, rfl⟩
    let dnop : PlainOrder := ⟨⟨"DNOP", 0o004000, .displayOperate⟩, by decide +kernel, rfl⟩
    let asz : PlainOrder := ⟨⟨"ASZ", 0o002001, .skip⟩, by decide +kernel, rfl⟩
    let statements : List PlainStatement :=
      [⟨cla, nothing, space⟩, ⟨krb, space, tab⟩, ⟨dnop, tab, space⟩, ⟨asz, nothing, nothing⟩]
    let indent : Indent := ⟨tab, by decide⟩
    let text := "\tCLA ? KRB\t?\tDNOP ?ASZ"
    let text' := "\tCLA \n\t KRB\t\n\t\tDNOP \r\n\tASZ\n"
    Source.splitLines [] text.toList = [line indent statements] ∧
      (Source.splitLines [] text'.toList = statements.map fun s => line indent [s]) ∧
      isSpaced statements = true ∧
      ∃ report source a o report' source' a' o',
        assemble .imlac (.ofText "one" text) ⟨{}, .init {} .block⟩ = (.ok report, source, a, o) ∧
        assemble .imlac (.ofText "each" text') ⟨{}, .init {} .block⟩ =
          (.ok report', source', a', o') ∧
        a.words = [(0, 0o100001), (1, 0o001021), (2, 0o004000), (3, 0o002001)] ∧
        a.words = a'.words ∧ o.object = o'.object ∧ report.diagnostics = 0 := by
  intro nothing space tab cla krb dnop asz statements indent text text'
  have one : Source.splitLines [] text.toList = [line indent statements] := by decide +kernel
  have each : Source.splitLines [] text'.toList = statements.map fun s => line indent [s] := by
    decide +kernel
  have spaced : isSpaced statements = true := by decide +kernel
  have codes : statements.map (fun s => s.order.code) = [0o100001, 0o001021, 0o004000, 0o002001] :=
    rfl
  obtain ⟨report, source, a, o, report', source', a', o', ran, ran', words, -, same, object, -⟩ :=
    joined_statements_eq_lines_iff .imlac indent indent statements "one" "each" one each
      (o := ⟨{}, .init {} .block⟩) ⟨rfl, rfl⟩
  obtain ⟨equal, silent⟩ := same.mpr spaced
  exact ⟨one, each, spaced, report, source, a, o, report', source', a', o', ran, ran',
    equal.trans words, equal, object spaced, silent⟩

/-- Without a blank before the question mark, `CLA` is a label that nothing defines. -/
theorem joined_statements_tight :
    (∃ report source a o, assemble .midas (.ofText "one" "\tCLA?CMA") ⟨{}, .init {} .block⟩ =
        (.ok report, source, a, o) ∧
      a.words = [(0, 0), (1, 0o100002)] ∧ report.diagnostics = 2) ∧
    ∃ report source a o, assemble .midas (.ofText "each" "\tCLA\n\tCMA") ⟨{}, .init {} .block⟩ =
        (.ok report, source, a, o) ∧
      a.words = [(0, 0o100001), (1, 0o100002)] ∧ report.diagnostics = 0 := by
  let nothing : Blanks := ⟨[], rfl⟩
  let cla : PlainOrder := ⟨⟨"CLA", 0o100001, .operate⟩, by decide +kernel, rfl⟩
  let cma : PlainOrder := ⟨⟨"CMA", 0o100002, .operate⟩, by decide +kernel, rfl⟩
  let statements : List PlainStatement := [⟨cla, nothing, nothing⟩, ⟨cma, nothing, nothing⟩]
  let indent : Indent := ⟨⟨['\t'], rfl⟩, by decide⟩
  have unlimited : Outputs.Unlimited ⟨{}, .init {} .block⟩ := ⟨rfl, rfl⟩
  have one : Source.splitLines [] "\tCLA?CMA".toList =
      [wordLine .midas indent statements].map Assembly.WordLine.chars := by decide +kernel
  have each : Source.splitLines [] "\tCLA\n\tCMA".toList =
      (wordLines statements .midas indent).map Assembly.WordLine.chars := by decide +kernel
  obtain ⟨read, a, source, o, run, words, -, counted⟩ :=
    Assembly.finishes_program _ "one" one unlimited
  obtain ⟨read', a', source', o', run', words', -, counted'⟩ :=
    Assembly.finishes_program _ "each" each unlimited
  exact ⟨⟨_, source, _, o, run.ran, words, counted⟩, _, source', _, o', run'.ran, words', counted'⟩

end PlainStatement

end Pds1
