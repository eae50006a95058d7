import Pds1.Proofs.LiteralQueue
import Pds1.Proofs.Soundness

/-!
# Every text is on one line

A line holds no line end, and neither do the names, the literals and the parts of diagnostics that
are taken from it. The predicates below say this of every table. Reading keeps them, reader by
reader, since each takes only what stands at its cursor; what a diagnostic says around the text it
quotes has no line end either.
-/

namespace Pds1

/-- The text holds no line end. -/
def OneLine (cs : List Char) : Prop := '\n' ∉ cs

instance (cs : List Char) : Decidable (OneLine cs) := inferInstanceAs (Decidable (¬ _))

namespace OneLine

theorem of_subset {cs ds : List Char} (h : OneLine cs) (inside : ds ⊆ cs) : OneLine ds :=
  fun member => h (inside member)

theorem suffix {cs ds : List Char} (h : OneLine cs) (forward : ds <:+ cs) : OneLine ds :=
  h.of_subset forward.subset

theorem append {cs ds : List Char} (h : OneLine cs) (h' : OneLine ds) : OneLine (cs ++ ds) := by
  simp_all [OneLine]

theorem ofList {cs : List Char} (h : OneLine cs) : OneLine (String.ofList cs).toList :=
  String.toList_ofList ▸ h

/-- Fixed wording after a text. A literal is the list of its characters, so whether the wording is
on one line is decided there. -/
theorem followed {text : String} (h : OneLine text.toList) {wording : List Char}
    (fixed : OneLine wording) : OneLine (text ++ String.ofList wording).toList := by
  rw [String.toList_append, String.toList_ofList]
  exact h.append fixed

theorem preceded {text : String} (h : OneLine text.toList) {wording : List Char}
    (fixed : OneLine wording) : OneLine (String.ofList wording ++ text).toList := by
  rw [String.toList_append, String.toList_ofList]
  exact fixed.append h

theorem singleton {c : Char} (h : c ≠ '\n') : OneLine (String.singleton c).toList := by
  simpa [OneLine, eq_comm] using h

end OneLine

theorem oneLine_digits (n : Nat) : OneLine (Octal.digits n) := by
  intro member
  have digit := Nat.isDigit_of_mem_toDigits (by decide) (by decide) member
  exact absurd digit (by decide)

namespace EvalError

/-- What the failure quotes is on one line. -/
def Unbroken : EvalError → Prop
  | undefinedLabel text | unknownLabel text | undefinedLiteral text => OneLine text.toList
  | divisionByZero | malformed => True

theorem Unbroken.message {e : EvalError} (h : e.Unbroken) : OneLine e.message.toList := by
  cases e with
  | undefinedLabel => exact OneLine.preceded h (by decide)
  | unknownLabel | undefinedLiteral => exact (OneLine.preceded h (by decide)).followed (by decide)
  | divisionByZero | malformed => exact .ofList (by decide)

end EvalError

namespace Diagnostic

/-- What the diagnostic quotes is on one line. -/
def Unbroken : Diagnostic → Prop
  | evaluation cause => cause.Unbroken
  | operandSyntax found | missingCombination found => found ≠ '\n'
  | invalidBeam found | commaExpected found => found ≠ some '\n'
  | displayTag text | indirectMode text | indirectTag text | missingOperand text
  | notImplemented text | ignored text | operandNotFound text | operandMalformed text
  | unimplemented text | missingOperands text | unreadableOperands text | unreadableMovement text
  | textAfterFormFeed text | invalidAssignment text | duplicateLabel text
  | labelNotTerminated text | notParsed text | valuelessLiteral text => OneLine text.toList
  | cannotCombine next first => OneLine next.toList ∧ OneLine first.toList
  | _ => True

theorem oneLine_describe {found : Option Char} (h : found ≠ some '\n') :
    OneLine (describe found).toList := by
  cases found with
  | none => exact .ofList (by decide)
  | some c =>
    have quoted : OneLine (String.singleton c).toList := .singleton fun same => h (same ▸ rfl)
    exact (quoted.preceded (by decide)).followed (by decide)

theorem Unbroken.message {d : Diagnostic} (h : d.Unbroken) : OneLine d.message.toList := by
  cases d with
  | evaluation cause => exact EvalError.Unbroken.message h
  | warning cause => cases cause <;> exact .ofList (by decide)
  | secondOperandMissing op =>
    have symbol : op.symbol ≠ '\n' := by cases op <;> decide
    exact ((OneLine.singleton symbol).preceded (by decide)).followed (by decide)
  | incrementTooWide value =>
    have digits : OneLine (Octal.pattern value).toList := .ofList (oneLine_digits _)
    exact (digits.preceded (by decide)).followed (by decide)
  | operandSyntax | missingCombination =>
    exact ((OneLine.singleton h).preceded (by decide)).followed (by decide)
  | invalidBeam | commaExpected =>
    exact ((oneLine_describe h).preceded (by decide)).followed (by decide)
  | displayTag | indirectMode | indirectTag | missingOperand | operandNotFound | operandMalformed
  | unimplemented | missingOperands | textAfterFormFeed | invalidAssignment | duplicateLabel
  | notParsed | valuelessLiteral => exact OneLine.preceded h (by decide)
  | notImplemented | ignored => exact OneLine.followed h (by decide)
  | unreadableOperands | unreadableMovement | labelNotTerminated =>
    exact (OneLine.preceded h (by decide)).followed (by decide)
  | cannotCombine next first =>
    have wording : OneLine ("Cannot combine " ++ next ++ " with ").toList :=
      (OneLine.preceded h.1 (by decide)).followed (by decide)
    exact String.toList_append ▸ wording.append h.2
  | operandMissing | termMissing | unterminatedLiteral | combinedHalt | incrementUnavailable
  | misplacedEscape | invalidIncrement | undefinedAssignment | labelExpected | poolInsideLiteral
  | operandNotEvaluated | startNotEvaluated => exact .ofList (by decide)

end Diagnostic

theorem Directive.oneLine_name (d : Directive) : OneLine d.name.toList := by
  cases d <;> exact .ofList (by decide)

namespace Mnemonic

/-- A mnemonic that is read has the name that stands there, a run of letters. -/
theorem oneLine_read? {display : Bool} {c d : Cursor} {m : Mnemonic}
    (h : read? display c = some (m, d)) : OneLine m.name.toList := by
  have letters : OneLine (c.run Char.isAlpha) := fun member =>
    absurd (List.all_eq_true.mp List.all_takeWhile _ member) (by decide)
  simp only [read?] at h
  split at h
  · obtain ⟨_, found, hp⟩ := Option.map_eq_some_iff.1 h
    cases hp
    simp only [find?] at found
    have same := List.find?_some found
    rw [eq_of_beq same]
    refine .ofList ?_
    split
    · exact OneLine.append (by decide : OneLine ['D']) letters
    · exact letters
  · cases h

end Mnemonic

namespace Name

theorem subset_imlacName (cs : List Char) : imlacName cs ⊆ cs := by
  unfold imlacName
  split
  · next x y r =>
    split
    · split
      · exact List.cons_subset_cons x (List.cons_subset_cons y (List.nil_subset r))
      · exact List.cons_subset_cons x (List.nil_subset _)
    · exact List.nil_subset _
  · split
    · exact List.Subset.refl _
    · exact List.nil_subset _
  · exact List.Subset.refl _

theorem subset_amesName (cs : List Char) : amesName cs ⊆ cs := by
  rw [amesName]
  split
  · exact (List.takeWhile_prefix _).subset
  · exact List.nil_subset _

theorem subset_midasName (cs : List Char) : midasName cs ⊆ cs := by
  simp only [midasName]
  split
  · exact (List.takeWhile_prefix _).subset
  · exact List.nil_subset _

theorem oneLine_take? {name : List Char} {c d : Cursor} {s : String} (h : OneLine c.rest)
    (inside : name ⊆ c.rest) (taken : take? name c = some (s, d)) : OneLine s.toList := by
  rw [take?] at taken
  split at taken
  · cases taken
  · cases taken
    exact .ofList (h.of_subset inside)

theorem oneLine_read? {dialect : Dialect} {inOperand : Bool} {c d : Cursor} {s : String}
    (h : OneLine c.rest) (found : read? dialect inOperand c = some (s, d)) : OneLine s.toList := by
  have blanks : OneLine c.dropBlanks.rest := h.suffix c.dropBlanks_suffix
  simp only [read?] at found
  split at found
  · split at found
    · cases found
    · next name e taken =>
      have name := oneLine_take? blanks (subset_midasName _) taken
      split at found
      · cases found
        exact name
      · obtain ⟨f, -, hp⟩ := Option.map_eq_some_iff.1 found
        cases hp
        exact name
  · split at found
    · exact oneLine_take? h (subset_imlacName _) found
    · cases found
  · split at found
    · exact oneLine_take? h (subset_amesName _) found
    · cases found

end Name

namespace SymbolTable

/-- No name and no literal of the table holds a line end. -/
structure Unbroken (t : SymbolTable) : Prop where
  names : ∀ entry ∈ t.labels, OneLine entry.1.toList
  literals : ∀ l ∈ t.literals, OneLine l.text.toList

variable {t : SymbolTable}

namespace Unbroken

theorem labelName (h : t.Unbroken) (id : LabelId) : OneLine (t.labelName id).toList := by
  rw [SymbolTable.labelName]
  cases entry : t.labels[id]? with
  | none => exact .ofList (by decide)
  | some e => exact h.names e (Array.mem_of_getElem? entry)

theorem literalText (h : t.Unbroken) (id : LiteralId) : OneLine (t.literalText id).toList := by
  rw [SymbolTable.literalText, literal?]
  cases entry : t.literals[id]? with
  | none => exact .ofList (by decide)
  | some l => exact h.literals l (Array.mem_of_getElem? entry)

theorem reference (h : t.Unbroken) {name : String} (fits : OneLine name.toList) :
    (t.reference name).2.Unbroken := by
  rw [SymbolTable.reference]
  split
  · exact h
  · refine ⟨fun entry member => ?_, h.literals⟩
    rcases Array.mem_push.mp member with old | rfl
    · exact h.names entry old
    · exact fits

theorem bind (h : t.Unbroken) {name : String} (fits : OneLine name.toList) (label : Label) :
    (t.bind name label).Unbroken := by
  rw [SymbolTable.bind]
  split
  · refine ⟨fun entry member => ?_, h.literals⟩
    rcases Array.mem_or_eq_of_mem_setIfInBounds member with old | rfl
    · exact h.names entry old
    · exact fits
  · refine ⟨fun entry member => ?_, h.literals⟩
    rcases Array.mem_push.mp member with old | rfl
    · exact h.names entry old
    · exact fits

theorem intern (h : t.Unbroken) {text : String} (fits : OneLine text.toList) (location : Int32) :
    (t.intern text location).2.Unbroken := by
  rw [SymbolTable.intern]
  split
  · exact h
  · split
    · exact h
    · refine ⟨h.names, fun l member => ?_⟩
      rcases Array.mem_push.mp member with old | rfl
      · exact h.literals l old
      · exact fits

theorem place (h : t.Unbroken) (id : LiteralId) (address : Int32) (relocatable : Bool) :
    (t.place id address relocatable).Unbroken := by
  refine ⟨h.names, fun l member => ?_⟩
  have text : l.text ∈ t.literals.map Literal.text := by
    rw [← map_text_place t id address relocatable]
    exact Array.mem_map_of_mem member
  obtain ⟨l', old, same⟩ := Array.mem_map.mp text
  exact same ▸ h.literals l' old

end Unbroken

end SymbolTable

/-- An evaluation that fails quotes a name or a literal of the table. -/
theorem ExprStore.unbroken_error {t : SymbolTable} (h : t.Unbroken) (s : ExprStore) {id : ExprId}
    {e : EvalError} (failed : (s.evaluate t id).value = .error e) : e.Unbroken := by
  fun_induction s.evaluate t id with
  | case1 | case2 => cases failed
  | case3 id l =>
    simp only [SymbolTable.labelValue] at failed
    split at failed
    · split at failed <;> cases failed
      exact h.labelName _
    · cases failed
      exact h.labelName _
  | case4 id l =>
    simp only [SymbolTable.literalValue] at failed
    split at failed <;> cases failed
    exact h.literalText _
  | case5 id a _ _ ih =>
    rcases Evaluation.andThen_error failed with inner | ⟨v, -, outer⟩
    · exact ih inner
    · cases outer
  | case7 id op a b _ _ iha ihb =>
    rcases Evaluation.andThen_error failed with left | ⟨x, -, rest⟩
    · exact iha left
    rcases Evaluation.andThen_error rest with right | ⟨y, -, applied⟩
    · exact ihb right
    · rw [Operator.apply_error applied]
      trivial
  | case6 | case8 | case9 | case10 =>
    cases failed
    trivial

/-- No name, literal or diagnostic of the tables holds a line end. -/
structure Tables.Unbroken (t : Tables) : Prop where
  symbols : t.symbols.Unbroken
  diagnostics : ∀ d ∈ t.diagnostics, d.Unbroken

theorem Tables.Unbroken.note {t : Tables} (h : t.Unbroken) {d : Diagnostic} (own : d.Unbroken) :
    (t.note d).Unbroken := by
  refine ⟨h.symbols, fun d' member => ?_⟩
  rcases List.mem_append.mp member with old | new
  · exact h.diagnostics d' old
  · rw [List.mem_singleton.mp new]
    exact own

theorem Tables.Unbroken.push {t : Tables} (h : t.Unbroken) (node : Node) (symbolic : Bool) :
    (t.push node symbolic).2.Unbroken :=
  ⟨h.symbols, h.diagnostics⟩

theorem Tables.Unbroken.reject {t : Tables} (h : t.Unbroken) {d : Diagnostic} (own : d.Unbroken) :
    (t.reject d).2.Unbroken :=
  (h.note own).push .invalid false

namespace Operand

theorem subset_closing? {depth : Nat} {cs text rest : List Char}
    (h : closing? depth cs = some (text, rest)) : text ⊆ cs := by
  fun_induction closing? depth cs generalizing text rest with
  | case1 => cases h
  | case2 depth r ih | case4 depth r ih | case5 depth c r _ _ _ ih =>
    obtain ⟨s, hs, hp⟩ := Option.map_eq_some_iff.1 h
    cases hp
    exact List.cons_subset_cons _ (ih hs)
  | case3 r =>
    cases h
    exact List.nil_subset _

theorem subset_dropComma (text : List Char) : dropComma text ⊆ text := by
  rw [dropComma]
  split
  · exact List.dropLast_subset text
  · exact List.Subset.refl text

theorem unbroken_literal (location : Int32) {c : Cursor} {t : Tables} (line : OneLine c.rest)
    (h : t.Unbroken) : (literal location c t).tables.Unbroken := by
  rw [literal]
  split
  · exact h.reject trivial
  · next text rest found =>
    have inside : OneLine (dropComma text) :=
      line.of_subset (List.Subset.trans (subset_dropComma text) (subset_closing? found))
    exact ⟨h.symbols.intern (.ofList inside) location, h.diagnostics⟩

theorem unbroken_name {name : String} (fits : OneLine name.toList) (c : Cursor) {t : Tables}
    (h : t.Unbroken) : (Operand.name name c t).tables.Unbroken :=
  ⟨h.symbols.reference fits, h.diagnostics⟩

theorem unbroken_negate {r : Reading} (h : r.tables.Unbroken) : (negate r).tables.Unbroken := by
  rw [negate]
  split
  · exact h.reject trivial
  · exact h.push _ _

theorem unbroken_term (dialect : Dialect) (location : Int32) {c : Cursor} {t : Tables}
    (line : OneLine c.rest) (h : t.Unbroken) : (term dialect location c t).tables.Unbroken := by
  fun_induction term dialect location c t with
  | case1 c value d => exact h.push _ _
  | case2 c _ text d read => exact unbroken_name (Name.oneLine_read? line read) d h
  | case3 => exact h.reject trivial
  | case4 => exact h.push _ _
  | case5 c _ _ x r rest =>
    exact unbroken_literal location (line.suffix (rest ▸ List.suffix_cons x r)) h
  | case6 c _ _ r rest _ _ ih =>
    exact unbroken_negate (ih (line.suffix (rest ▸ List.suffix_cons '-' r)))
  | case7 c _ _ x r rest =>
    refine h.reject fun same => line ?_
    rw [rest, same]
    exact List.mem_cons_self

theorem unbroken_extend (dialect : Dialect) (location : Int32) {left : Reading}
    (line : OneLine left.cursor.rest) (h : left.tables.Unbroken) :
    (extend dialect location left).tables.Unbroken := by
  fun_induction extend dialect location left with
  | case1 | case2 | case3 => exact h
  | case4 left => exact h.reject trivial
  | case5 left _ x r rest =>
    exact unbroken_term dialect location (line.suffix (rest ▸ List.suffix_cons x r)) h
  | case6 left _ x r rest _ _ _ right _ _ ih =>
    have inner : OneLine r := line.suffix (rest ▸ List.suffix_cons x r)
    exact ih (inner.suffix (term_suffix dialect location (left.cursor.moveTo r) left.tables))
      ((unbroken_term dialect location inner h).push _ _)

theorem unbroken_read (dialect : Dialect) (location : Int32) {c : Cursor} {t : Tables}
    (line : OneLine c.rest) (h : t.Unbroken) : (read dialect location c t).tables.Unbroken :=
  unbroken_extend dialect location (line.suffix (term_suffix dialect location c t))
    (unbroken_term dialect location line h)

end Operand

/-- Neither the line nor its diagnostics hold a line end. -/
structure Line.Unbroken (line : Line) : Prop where
  text : OneLine line.text.toList
  diagnostics : ∀ d ∈ line.diagnostics, d.Unbroken

namespace Assembly

/-- No text of the state holds a line end. -/
structure Unbroken (a : Assembly) : Prop extends a.toTables.Unbroken where
  poolLines : ∀ line ∈ a.poolLines, line.Unbroken

theorem unbroken_init (dialect : Dialect) : (init dialect).Unbroken where
  symbols := ⟨by simp [init], by simp [init]⟩
  diagnostics := by simp [init]
  poolLines := by simp [init]

/-- Neither what is still to be read nor what has been made of the rest holds a line end. -/
structure Clean (p : Position) : Prop where
  line : OneLine p.1.rest
  state : p.2.Unbroken

namespace Clean

variable {c c' : Cursor} {a b : Assembly}

theorem skip (h : Clean (c, a)) (forward : c'.rest <:+ c.rest) : Clean (c', a) :=
  ⟨h.line.suffix forward, h.state⟩

theorem same (h : Clean (c, a)) (symbols : b.symbols = a.symbols)
    (diagnostics : b.diagnostics = a.diagnostics) (poolLines : b.poolLines = a.poolLines) :
    Clean (c, b) :=
  ⟨h.line, ⟨symbols ▸ h.state.symbols, diagnostics ▸ h.state.diagnostics⟩,
    poolLines ▸ h.state.poolLines⟩

theorem note (h : Clean (c, a)) {d : Diagnostic} (own : d.Unbroken) : Clean (c, a.note d) :=
  ⟨h.line, h.state.toUnbroken.note own, h.state.poolLines⟩

theorem noteIf (h : Clean (c, a)) (condition : Bool) {d : Diagnostic} (own : d.Unbroken) :
    Clean (c, a.noteIf condition d) := by
  cases condition with
  | false => exact h
  | true => exact h.note own

theorem word (h : Clean (c, a)) (value : Int32) : Clean (c, a.emitWord value) := h.same rfl rfl rfl

theorem words (h : Clean (c, a)) (values : List Int32) : Clean (c, values.foldl emitWord a) := by
  induction values generalizing a with
  | nil => exact h
  | cons value rest ih => exact ih (h.word value)

theorem operand (h : Clean (c, a)) : Clean (a.operand c).2 :=
  ⟨h.line.suffix (a.operand_suffix c),
    Operand.unbroken_read a.dialect a.location h.line h.state.toUnbroken, h.state.poolLines⟩

theorem expr (h : Clean (c, a)) (id : ExprId) : Clean (c, a.emitExpr id) := h.same rfl rfl rfl

theorem field (h : Clean (c, a)) (op : Operator) (right code : Int32) (id : ExprId) :
    Clean (c, a.emitField op right code id) := by
  simp only [emitField]
  split
  · exact h.word 0
  · exact h.same rfl rfl rfl

theorem value (h : Clean (c, a)) {id : ExprId} {result : Except EvalError Int32}
    (evaluated : a.valueNow id = (result, b)) : Clean (c, b) := by
  obtain rfl : (a.valueNow id).2 = b := congrArg Prod.snd evaluated
  refine ⟨h.line, ⟨h.state.symbols, fun d member => ?_⟩, h.state.poolLines⟩
  rcases List.mem_append.mp member with old | new
  · exact h.state.diagnostics d old
  · obtain ⟨w, -, rfl⟩ := List.mem_map.mp new
    trivial

/-- What an operand complains of when it has no value quotes the table. -/
theorem failure (h : Clean (c, a)) {id : ExprId} {e : EvalError}
    (evaluated : a.valueNow id = (.error e, b)) : e.Unbroken :=
  a.exprs.unbroken_error h.state.symbols (congrArg Prod.fst evaluated)

theorem next? (h : Clean (c, a)) : c.next? ≠ some '\n' := fun found =>
  h.line (List.mem_of_mem_head? found)

end Clean

end Assembly

end Pds1
