import Pds1.Proofs.DuplicateLabels
import Pds1.Proofs.LineDiagnostics

/-!
# Labels bind for the whole program

In the second pass a label has the value of its last binding in the first pass, wherever the
reference to it stands. A word whose evaluation first fails on a label that was never bound is zero,
and its line gets two diagnostics for it. A label that had been bound before is the only thing that
a line calls a duplicate.
-/

namespace Pds1

namespace ExprStore

/-- Evaluating the node from left to right comes to a leaf that refers to `name`, with nothing in
front of it that has no value. -/
inductive Reaches (s : ExprStore) (t : SymbolTable) (name : String) : ExprId → Prop where
  | leaf {id : ExprId} {l : LabelId} {symbolic : Bool}
      (node : s.nodes[id]? = some ⟨.label l, symbolic⟩) (named : t.name? l = some name) :
      Reaches s t name id
  | neg {id a : ExprId} {symbolic : Bool} (node : s.nodes[id]? = some ⟨.neg a, symbolic⟩)
      (inner : Reaches s t name a) : Reaches s t name id
  | left {id a b : ExprId} {op : Operator} {symbolic : Bool}
      (node : s.nodes[id]? = some ⟨.binary op a b, symbolic⟩) (inner : Reaches s t name a) :
      Reaches s t name id
  | right {id a b : ExprId} {op : Operator} {symbolic : Bool} {x : Int32}
      (node : s.nodes[id]? = some ⟨.binary op a b, symbolic⟩)
      (known : (s.evaluate t a).value = .ok x) (inner : Reaches s t name b) : Reaches s t name id

variable {s : ExprStore} {t : SymbolTable} {name : String} {id : ExprId}

/-- Such a leaf fails if its name is not bound. -/
theorem Reaches.evaluate (h : s.Reaches t name id) (sound : s.Sound t) (distinct : t.Distinct)
    (unbound : t.binding? name = none) :
    (s.evaluate t id).value = .error (.undefinedLabel name) := by
  induction h with
  | leaf node named =>
    rw [ExprStore.evaluate.eq_def, node]
    simp only [Option.map_some, SymbolTable.labelValue_eq distinct named, unbound, Option.map_none]
    rfl
  | neg node _ ih =>
    have smaller := (sound _ _ node).1
    rw [ExprStore.evaluate.eq_def, node]
    simp only [Option.map_some, smaller, dite_true]
    exact Evaluation.andThen_of_error ih _
  | left node _ ih =>
    obtain ⟨⟨left, -⟩, right, -⟩ := sound _ _ node
    rw [ExprStore.evaluate.eq_def, node]
    simp only [Option.map_some, left, right, and_self, dite_true]
    exact Evaluation.andThen_of_error ih _
  | right node known _ ih =>
    obtain ⟨⟨left, -⟩, right, -⟩ := sound _ _ node
    rw [ExprStore.evaluate.eq_def, node]
    simp only [Option.map_some, left, right, and_self, dite_true]
    rw [Evaluation.andThen_of_ok known]
    exact Evaluation.andThen_of_error ih _

/-- An evaluation that fails on a label has come to a leaf of that name. -/
theorem Sound.reaches (sound : s.Sound t) (distinct : t.Distinct) (valid : s.Valid id)
    (failed : (s.evaluate t id).value = .error (.undefinedLabel name)) :
    s.Reaches t name id ∧ t.binding? name = none := by
  induction id using Nat.strongRecOn with
  | ind id ih =>
    obtain ⟨⟨node, symbolic⟩, entry, -⟩ := valid
    have inside : node.Sound s t id := sound id _ entry
    rw [ExprStore.evaluate.eq_def, entry] at failed
    cases node with
    | const | location | invalid => cases failed
    | label l =>
      obtain ⟨label, named⟩ := SymbolTable.name?_of_lt inside
      simp only [Option.map_some, SymbolTable.labelValue_eq distinct named] at failed
      split at failed
      · cases failed
      · next unbound =>
        cases failed
        exact ⟨.leaf entry named, Option.map_eq_none_iff.mp unbound⟩
    | literal l =>
      simp only [Option.map_some, SymbolTable.literalValue] at failed
      split at failed
      · cases failed
      · cases failed
    | neg a =>
      obtain ⟨smaller, valid⟩ := inside
      simp only [Option.map_some, smaller, dite_true] at failed
      rcases Evaluation.andThen_error failed with inner | ⟨x, -, outer⟩
      · obtain ⟨reached, unbound⟩ := ih a smaller valid inner
        exact ⟨.neg entry reached, unbound⟩
      · cases outer
    | binary op a b =>
      obtain ⟨⟨smaller, valid⟩, smaller', valid'⟩ := inside
      simp only [Option.map_some, smaller, smaller', and_self, dite_true] at failed
      rcases Evaluation.andThen_error failed with first | ⟨x, known, rest⟩
      · obtain ⟨reached, unbound⟩ := ih a smaller valid first
        exact ⟨.left entry reached, unbound⟩
      · rcases Evaluation.andThen_error rest with second | ⟨y, -, applied⟩
        · obtain ⟨reached, unbound⟩ := ih b smaller' valid' second
          exact ⟨.right entry known reached, unbound⟩
        · cases Operator.apply_error applied

end ExprStore

namespace Assembly

variable {a : Assembly} {bs : List Binding}

/-- No evaluation calls a label a duplicate. -/
theorem duplicates_cellDiagnostics (a : Assembly) (cell : Cell) :
    duplicates (a.cellDiagnostics cell) = [] := by
  simp only [cellDiagnostics]
  split
  · next id _ =>
    simp only [cellValue]
    split
    · exact duplicates_warnings _
    · rw [duplicates_append, duplicates_warnings]
      rfl
  · rfl

theorem duplicates_annotate (a : Assembly) (line : Line) :
    duplicates (a.annotate line).diagnostics = duplicates line.diagnostics := by
  have none : duplicates ((a.cells line).flatMap a.cellDiagnostics) = [] := by
    rw [duplicates, List.filterMap_flatMap, List.flatMap_eq_nil_iff]
    intro cell _
    exact a.duplicates_cellDiagnostics cell
  simp only [annotate, duplicates_append, none, List.append_nil]

/-- A leaf takes the value of the last binding. -/
theorem Sound.evaluate_label (sound : a.Sound) (records : a.symbols.Records bs) {id : ExprId}
    {l : LabelId} {symbolic : Bool} (leaf : a.exprs.nodes[id]? = some ⟨.label l, symbolic⟩) :
    ∃ label, a.symbols.name? l = some label ∧
      a.exprs.evaluate a.symbols id =
        match Binding.last? bs label with
        | some value => .pure value
        | none => .fail (.undefinedLabel label) := by
  obtain ⟨label, named⟩ := SymbolTable.name?_of_lt (sound.tables.exprs id _ leaf)
  refine ⟨label, named, ?_⟩
  rw [ExprStore.evaluate.eq_def, leaf, ← records.values]
  exact SymbolTable.labelValue_eq records.distinct named

/-- A payload that fails leaves the word zero and two diagnostics, and nothing else does so. -/
theorem Sound.payload_error_iff (sound : a.Sound) {cell : Cell} (member : cell ∈ a.code)
    {id : ExprId} (content : cell.content = .expr id) (e : EvalError) :
    (a.exprs.evaluate a.symbols id).value = .error e ↔
      a.word? cell.content = some 0 ∧
        a.cellDiagnostics cell = [.evaluation e, .operandNotEvaluated] := by
  have payload := sound.cells cell member id content
  simp only [word?, cellDiagnostics, cellValue, content, Evaluation.warningDiagnostics]
  cases value : (a.exprs.evaluate a.symbols id).value with
  | ok x =>
    -- warnings are no failures
    constructor
    · intro impossible
      cases impossible
    · rintro ⟨-, impossible⟩
      cases warnings : (a.exprs.evaluate a.symbols id).warnings with
      | nil => simp [warnings] at impossible
      | cons w rest => simp [warnings] at impossible
  | error e' => simp [payload.quiet a.symbols e' value]

theorem Sound.payload_unbound_iff (sound : a.Sound) (records : a.symbols.Records bs) {cell : Cell}
    (member : cell ∈ a.code) {id : ExprId} (content : cell.content = .expr id) (label : String) :
    (a.exprs.Reaches a.symbols label id ∧ ∀ b ∈ bs, b.name ≠ label) ↔
      a.word? cell.content = some 0 ∧
        a.cellDiagnostics cell = [.evaluation (.undefinedLabel label), .operandNotEvaluated] := by
  rw [← sound.payload_error_iff member content, ← records.binding?_eq_none_iff]
  constructor
  · rintro ⟨reached, unbound⟩
    exact reached.evaluate sound.tables.exprs records.distinct unbound
  · intro failed
    exact sound.tables.exprs.reaches records.distinct (sound.cells cell member id content).valid
      failed

/-- A reference leads to the entry of its name, a leaf takes the value of the last binding, and a
name that was never bound comes to zero with two diagnostics on the line of its cell. A line
complains of exactly those of its labels that had been bound before. -/
theorem labels_bind_globally (dialect : Dialect) (name text : String) {o : Outputs}
    (unlimited : o.Unlimited) :
    let bs := passOneBindings (.ofText name text) (init dialect)
    let source := ((init dialect).passOne (.ofText name text)).1
    let a := ((init dialect).passOne (.ofText name text)).2
    (∀ (t : SymbolTable) label, (t.reference label).2.name? (t.reference label).1 = some label) ∧
    (∀ m ts, Path m ts a → m.symbols.KeepsNames a.symbols) ∧
    (∀ id l symbolic, a.exprs.nodes[id]? = some ⟨.label l, symbolic⟩ →
      ∃ label, a.symbols.name? l = some label ∧
        a.exprs.evaluate a.symbols id =
          match Binding.last? bs label with
          | some value => .pure value
          | none => .fail (.undefinedLabel label)) ∧
    (∀ cell ∈ a.code, ∀ id, cell.content = .expr id → ∀ label,
      (a.exprs.Reaches a.symbols label id ∧ ∀ b ∈ bs, b.name ≠ label) ↔
        a.word? cell.content = some 0 ∧
          a.cellDiagnostics cell =
            [.evaluation (.undefinedLabel label), .operandNotEvaluated]) ∧
    ((source.lines.flatMap a.cells).flatMap a.expand =
      a.code.toList.filter fun cell => !cell.isPool) ∧
    ∃ report source' a' o', a.passTwo source o = (.ok report, source', a', o') ∧
      o.object.perform (Outputs.putCalls a.words ++ a.startCall) = (.ok (), o'.object) ∧
      source'.lines = source.lines.map a.annotate ∧
      a'.poolLines = a.poolLines.map a.annotate ∧
      (∀ line ∈ source'.lines,
        duplicates line.diagnostics = Binding.repeatedAt bs (.source line.number)) ∧
      (∀ i line, a'.poolLines[i]? = some line →
        duplicates line.diagnostics = Binding.repeatedAt bs (.pool (i + 1))) ∧
      ∀ label, [Diagnostic.evaluation (.undefinedLabel label), .operandNotEvaluated,
          .duplicateLabel label].map Diagnostic.message =
        ["Reference to undefined label " ++ label, "Operand failed to evaluate",
          "Duplicate label: " ++ label] := by
  intro bs source a
  have shown : Shown bs source.lines a := shown_passOne dialect name text
  have records : a.symbols.Records bs := shown.told.table
  have sound : a.Sound :=
    (path_passOne (.ofText name text) (settled_init dialect).inOrder).sound (sound_init dialect)
  have accounted : Accounted (source.lines.flatMap Line.code) a :=
    accounted_ofText dialect name text
  have idle : a.lineCode = [] := lineCode_passOne _ rfl
  obtain ⟨report, source', a', o', ran, object, -⟩ := passTwo_of_unlimited unlimited source a
  obtain ⟨lines, state⟩ := accounted.passTwo_annotates idle ran
  rw [accounted.puts_plan idle] at object
  have inOrder := accounted.inOrder
  rw [idle, List.append_nil, ← flatMap_cells] at inOrder
  refine ⟨SymbolTable.name?_reference, fun m ts path => path.keepsNames,
    fun id l symbolic leaf => sound.evaluate_label records leaf,
    fun cell member id content label => sound.payload_unbound_iff records member content label,
    inOrder, report, source', a', o', ran, object, lines, by rw [state], ?_, ?_, fun _ => rfl⟩
  · intro line member
    rw [lines] at member
    obtain ⟨before, inside, rfl⟩ := List.mem_map.mp member
    rw [duplicates_annotate]
    exact shown.lines before inside
  · intro i line found
    rw [state, Array.getElem?_map] at found
    obtain ⟨before, entry, rfl⟩ := Option.map_eq_some_iff.mp found
    rw [duplicates_annotate]
    exact shown.told.filed i before entry

/-- A name used before it is bound, one bound three times and one never bound. -/
def reboundLabels : String := "A:\tJMP B\nA:\tLAC C\nB:\tLAC [A: 7]"

theorem annotate_reboundLabels :
    let source := ((init .midas).passOne (.ofText "labels" reboundLabels)).1
    let a := ((init .midas).passOne (.ofText "labels" reboundLabels)).2
    (source.lines.map a.annotate).map Line.diagnostics =
        [[], [.duplicateLabel "A", .evaluation (.undefinedLabel "C"), .operandNotEvaluated], []] ∧
      (a.poolLines.map a.annotate).map Line.diagnostics = #[[.duplicateLabel "A"]] ∧
      a.words = [(0, 0o10002), (1, 0), (2, 0o60003), (3, 7)] := by
  refine ⟨?_, ?_, ?_⟩
  · decide +kernel
  · decide +kernel
  · decide +kernel

/-- The label inside the literal complains on the line of the literal. -/
theorem labels_bind_in_reboundLabels :
    let source := ((init .midas).passOne (.ofText "labels" reboundLabels)).1
    let a := ((init .midas).passOne (.ofText "labels" reboundLabels)).2
    (Outputs.mk {} (.init {} .block)).Unlimited ∧
      a.words = [(0, 0o10002), (1, 0), (2, 0o60003), (3, 7)] ∧
      ∃ report source' a' o',
        a.passTwo source ⟨{}, .init {} .block⟩ = (.ok report, source', a', o') ∧
          source'.lines.map Line.diagnostics =
            [[], [.duplicateLabel "A", .evaluation (.undefinedLabel "C"), .operandNotEvaluated],
              []] ∧
          a'.poolLines.map Line.diagnostics = #[[.duplicateLabel "A"]] := by
  have unlimited : (Outputs.mk {} (.init {} .block)).Unlimited := ⟨rfl, rfl⟩
  obtain ⟨own, pooled, words⟩ := annotate_reboundLabels
  obtain ⟨-, -, -, -, -, report, source', a', o', ran, -, lines, pools, -⟩ :=
    labels_bind_globally .midas "labels" reboundLabels unlimited
  refine ⟨unlimited, words, report, source', a', o', ran, ?_, ?_⟩
  · rw [lines]
    exact own
  · rw [pools]
    exact pooled

end Assembly

end Pds1
