import Pds1.Proofs.EvaluationFailures
import Pds1.Proofs.SymbolicMarks

/-!
# Marks tell what labels were when they were read

An expression is marked as symbolic while it is read, but a label may be bound again later: a
forward reference becomes a constant, a constant becomes an address. The changes of a first pass are
listed in order, each with the number of nodes that had been read before it. The mark of an
expression tells whether a leaf in it was symbolic when it was read. The finished table says the
same where no label of the expression has changed in between. Where one has, it may not, so the page
warnings of a program depend on whether a constant is assigned before or after its uses.
-/

namespace Pds1

/-- A name is bound, to a constant or to something else, when `read` nodes have been read. -/
structure Change where
  name : String
  constant : Bool
  read : Nat
  deriving DecidableEq

namespace Change

/-- Whether `name` is a constant after the changes. -/
def isConstant (cs : List Change) (name : String) : Bool :=
  (cs.filter fun c => c.name = name).getLast?.any Change.constant

/-- The changes made before the node `k` was read. -/
def before (k : ExprId) (cs : List Change) : List Change := cs.filter fun c => c.read ≤ k

theorem isConstant_concat (cs : List Change) (c : Change) (name : String) :
    isConstant (cs ++ [c]) name = if name = c.name then c.constant else isConstant cs name := by
  by_cases same : c.name = name
  · simp [isConstant, same]
  · have other : name ≠ c.name := Ne.symm same
    simp [isConstant, same, other]

theorem isConstant_eq_false {cs : List Change} (h : ∀ c ∈ cs, c.constant = false) (name : String) :
    isConstant cs name = false := by
  rw [isConstant, Option.any_eq_false]
  intro c last
  exact h c (List.mem_filter.mp (List.mem_of_getLast? last)).1

theorem before_eq_self {k : ExprId} {cs : List Change} (h : ∀ c ∈ cs, c.read ≤ k) :
    before k cs = cs := by
  rw [before, List.filter_eq_self]
  simpa using h

theorem before_concat {k : ExprId} {c : Change} (cs : List Change) (later : k < c.read) :
    before k (cs ++ [c]) = before k cs := by
  have unseen : ¬ c.read ≤ k := Nat.not_le.mpr later
  simp [before, unseen]

end Change

namespace Assembly

/-- An assigned name is a constant if the operand is not symbolic. -/
def assignChanges (name : String) (c : Cursor) (a : Assembly) : List Change :=
  match evaluateNext false c a with
  | (some (id, .ok _), _, b) => [⟨name, !b.exprs.symbolic id, b.exprs.size⟩]
  | _ => []

/-- A label in front of a statement is no constant. -/
def changes : Observer Change where
  labels _ := labelTrace fun name a => ⟨name, false, a.exprs.size⟩
  assign := assignChanges

/-- The changes of a first pass, in order. -/
def passOneChanges (source : Source) (a : Assembly) : List Change := passOneTrace changes source a

/-- The table shows the changes so far, and each node is marked as it was when it was read. -/
structure History (cs : List Change) (a : Assembly) : Prop where
  lawful : a.symbols.Lawful
  status : ∀ name, a.symbols.boundConstant name = Change.isConstant cs name
  clock : ∀ c ∈ cs, c.read ≤ a.exprs.size
  marked : a.exprs.Marked fun k l mark => ∃ name, a.symbols.name? l = some name ∧
    mark = !Change.isConstant (Change.before k cs) name

theorem history_init (dialect : Dialect) : History [] (init dialect) where
  lawful := SymbolTable.lawful_empty
  status name := by
    simp [init, SymbolTable.boundConstant, SymbolTable.binding?, SymbolTable.lookup?,
      SymbolTable.labelId?, Change.isConstant]
  clock c member := by cases member
  marked k e entry := by simp [init] at entry

variable {a b : Assembly} {cs : List Change}

/-- The nodes added have seen all changes so far. -/
theorem History.marks (h : History cs a) (added : Tables.Marks a.toTables b.toTables) :
    History cs b where
  lawful := added.lawful h.lawful
  status name := (added.keeps.boundConstant name).trans (h.status name)
  clock c member := Nat.le_trans (h.clock c member) added.exprs.size_le
  marked k e entry := by
    rcases Nat.lt_or_ge k a.exprs.size with early | late
    · have old := Array.getElem?_eq_getElem early
      cases (added.exprs k _ old).symm.trans entry
      refine (h.marked k _ old).mono added.exprs ?_
      rintro l ⟨name, named, same⟩
      exact ⟨name, added.keeps.names l name named, same⟩
    · refine (added.marked h.lawful k e late entry).mono (.refl _) ?_
      rintro l ⟨name, named, same⟩
      have seen : ∀ c ∈ cs, c.read ≤ k := fun c member => Nat.le_trans (h.clock c member) late
      refine ⟨name, named, ?_⟩
      rw [same, added.keeps.boundConstant, h.status, Change.before_eq_self seen]

/-- A binding is a change that no node has seen yet. -/
theorem History.bind (h : History cs a) {name : String} {value : Int32}
    {relocatable constant : Bool}
    (symbols : b.symbols = a.symbols.bind name (.bound value relocatable constant))
    (exprs : b.exprs = a.exprs) : History (cs ++ [⟨name, constant, a.exprs.size⟩]) b where
  lawful := by
    rw [symbols]
    exact h.lawful.bind name value relocatable constant
  status other := by
    rw [symbols, SymbolTable.boundConstant_bind, Change.isConstant_concat, h.status]
  clock c member := by
    rw [exprs]
    rcases List.mem_append.mp member with old | new
    · exact h.clock c old
    · rw [List.mem_singleton.mp new]
  marked k e entry := by
    rw [exprs] at entry
    -- every node there is was read before the change
    have early : k < a.exprs.size := (Array.getElem?_eq_some_iff.mp entry).1
    rw [exprs]
    refine (h.marked k e entry).mono (.refl _) ?_
    rintro l ⟨label, named, same⟩
    refine ⟨label, ?_, ?_⟩
    · rw [symbols]
      exact a.symbols.keepsNames_bind name _ l label named
    · rw [Change.before_concat cs early, same]

/-- From `a` to `b` the changes `new` are made. -/
def Continues (a : Assembly) (new : List Change) (b : Assembly) : Prop :=
  ∀ cs, History cs a → History (cs ++ new) b

theorem Continues.trans {c : Assembly} {new new' : List Change} (h : Continues a new b)
    (h' : Continues b new' c) : Continues a (new ++ new') c := by
  intro cs start
  rw [← List.append_assoc]
  exact h' _ (h cs start)

theorem continues_of_marks (added : Tables.Marks a.toTables b.toTables) : Continues a [] b := by
  intro cs start
  rw [List.append_nil]
  exact start.marks added

theorem exprs_bindLabel (a : Assembly) (name : String) : (a.bindLabel name).exprs = a.exprs := by
  simp only [bindLabel, noteIf]
  split
  · rfl
  · rfl

theorem continues_bindLabel (a : Assembly) (name : String) :
    Continues a [⟨name, false, a.exprs.size⟩] (a.bindLabel name) :=
  fun _ start => start.bind (symbols_bindLabel a name) (exprs_bindLabel a name)

theorem marks_evaluateNext (number : Bool) (d : Cursor) (a : Assembly) :
    Tables.Marks a.toTables (evaluateNext number d a).2.2.toTables := by
  obtain ⟨id, c', b, read, ⟨-, next⟩ | ⟨-, outcome, b', known, next⟩⟩ :=
    evaluateNext_cases number d a
  · rw [next]
    exact marks_operand read
  · obtain rfl : (b.valueNow id).2 = b' := congrArg Prod.snd known
    rw [next]
    exact (marks_operand read).trans (Tables.marks_of_same rfl rfl)

theorem continues_definition {c : Cursor} (found : definition? c a = some b) :
    Continues a (assignTrace changes c a) b := by
  obtain ⟨name, d, e, outcome, c', a', named, equals, next, assigned⟩ := definition?_cases found
  have added := marks_evaluateNext false (e.skip '=').dropBlanks a
  rw [next] at added
  simp only [assignTrace, changes, assignChanges, named, equals, next]
  obtain ⟨rfl, rfl⟩ | ⟨id, value, rfl, rfl⟩ | ⟨id, error, rfl, rfl⟩ := assigned
  · exact continues_of_marks (added.trans (Tables.marks_of_same rfl rfl))
  · exact fun cs start => (start.marks added).bind rfl rfl
  · exact continues_of_marks (added.trans (Tables.marks_of_same rfl rfl))

theorem continues_of_same (labels : b.symbols.labels = a.symbols.labels)
    (exprs : b.exprs = a.exprs) : Continues a [] b :=
  continues_of_marks (Tables.marks_of_same labels exprs)

theorem continues_placeLiteral {id : LiteralId} {new : List Change}
    (stated : Continues { a with lineNumber := a.poolLines.size + 1 } new
      (literalStatement id a).2) : Continues a new (placeLiteral id a) := by
  have numbered : Continues a [] { a with lineNumber := a.poolLines.size + 1 } :=
    continues_of_same rfl rfl
  have body : Continues (literalStatement id a).2 [] (literalBody id a) := by
    simp only [literalBody]
    split
    · exact continues_of_same rfl rfl
    · exact continues_of_same rfl rfl
  have placed : Continues (literalBody id a) [] (placeLiteral id a) := by
    rw [placeLiteral_eq]
    exact continues_of_same rfl rfl
  simpa using (numbered.trans stated).trans (body.trans placed)

theorem continues_placePool {new : List Change} (waiting : a.symbols.hasWaiting = true)
    (literals : Continues { a with lineCode := [], diagnostics := [] } new
      (placeLiterals { a with lineCode := [], diagnostics := [] })) :
    Continues a new a.placePool := by
  have cleared : Continues a [] { a with lineCode := [], diagnostics := [] } :=
    continues_of_same rfl rfl
  have marked : Continues (placeLiterals { a with lineCode := [], diagnostics := [] }) []
      a.placePool := by
    rw [placePool, if_pos waiting]
    exact continues_of_same rfl rfl
  simpa using (cleared.trans literals).trans marked

theorem traces_changes : Traces changes fun _ => Continues where
  refl _ _ := continues_of_same rfl rfl
  trans _ := Continues.trans
  note _ _ _ _ := continues_of_same rfl rfl
  comment _ _ := continues_of_same rfl rfl
  labels _ := labelTrace_induction _ (fun _ => continues_of_same rfl rfl)
    (continues_bindLabel _ _).trans none
  order _ c a := by
    have read : Reads refusePool True False (c, a) (order refusePool c a).2 :=
      reads_order c a fun _ _ _ _ => trivial
    exact continues_of_marks (marks_of_reads read)
  asks _ _ _ _ := continues_of_same rfl rfl
  assign _ := continues_definition
  asked _ _ := continues_of_same rfl rfl
  literal _ _ stated := by simpa [changes] using continues_placeLiteral stated
  pool _ := continues_placePool

/-- A first pass over any text leaves the history of its changes. -/
theorem history_passOne (dialect : Dialect) (source : Source) :
    History (passOneChanges source (init dialect)) ((init dialect).passOne source).2 := by
  have restarted : Continues (init dialect) [] { init dialect with location := 0 } :=
    continues_of_same rfl rfl
  have read := traces_changes.passOne (fun _ _ _ _ _ => continues_of_same rfl rfl) source
    (init dialect)
  exact restarted.trans read [] (history_init dialect)

/-- The labels that the node `k` took for constants. -/
def constantWhenRead (cs : List Change) (a : Assembly) (k : ExprId) (l : LabelId) : Bool :=
  (a.symbols.name? l).any (Change.isConstant (Change.before k cs))

theorem History.markedWhenRead (h : History cs a) :
    a.exprs.Marked fun k l mark => mark = !constantWhenRead cs a k l := by
  intro k e entry
  refine (h.marked k e entry).mono (.refl _) ?_
  rintro l ⟨name, named, same⟩
  rw [same, constantWhenRead, named, Option.any_some]

/-- The last change of each name is in the table. -/
theorem History.isConstant (h : History cs a) (l : LabelId) :
    a.symbols.isConstant l = (a.symbols.name? l).any (Change.isConstant cs) := by
  cases named : a.symbols.name? l with
  | some name => rw [h.lawful.isConstant named, h.status, Option.any_some]
  | none =>
    have absent : a.symbols.labels[l]? = none := Option.map_eq_none_iff.mp named
    simp [SymbolTable.isConstant, SymbolTable.label?, absent]

end Assembly

/-- The labels in an expression are constants, or not, on both accounts. -/
def ExprStore.LabelsAgree (s : ExprStore) (constant constant' : ExprId → LabelId → Bool)
    (id : ExprId) : Prop :=
  ∀ k, s.Part k id → ∀ l mark, s.nodes[k]? = some ⟨.label l, mark⟩ → constant k l = constant' k l

theorem ExprStore.LabelsAgree.symbolicLeaf {s : ExprStore}
    {constant constant' : ExprId → LabelId → Bool} {id k : ExprId}
    (h : s.LabelsAgree constant constant' id) (leaf : s.SymbolicLeaf constant id k) :
    s.SymbolicLeaf constant' id k := by
  obtain ⟨part, ⟨node, mark⟩, entry, symbolic⟩ := leaf
  refine ⟨part, ⟨node, mark⟩, entry, ?_⟩
  cases node with
  | literal => trivial
  | label l => exact (h k part l mark entry).symm.trans symbolic
  | const | location | neg | binary | invalid => cases symbolic

theorem ExprStore.LabelsAgree.symm {s : ExprStore} {constant constant' : ExprId → LabelId → Bool}
    {id : ExprId} (h : s.LabelsAgree constant constant' id) : s.LabelsAgree constant' constant id :=
  fun k part l mark entry => (h k part l mark entry).symm

namespace Assembly

/-- After the first pass over a text, an expression is marked exactly if one of its leaves is a
literal or a label that was no constant when the leaf was read. It is what the finished table says
if no label in the expression has changed since. Without a mark there is no page warning. -/
theorem marks_tell_leaves_when_read (dialect : Dialect) (name text : String) :
    let a := ((init dialect).passOne (.ofText name text)).2
    let cs := passOneChanges (.ofText name text) (init dialect)
    (∀ l, a.symbols.isConstant l = (a.symbols.name? l).any (Change.isConstant cs)) ∧
    ∀ id,
      (a.exprs.symbolic id = true ↔ ∃ k, a.exprs.SymbolicLeaf (constantWhenRead cs a) id k) ∧
      (a.exprs.LabelsAgree (constantWhenRead cs a) (fun _ => a.symbols.isConstant) id →
        (a.exprs.symbolic id = true ↔
          ∃ k, a.exprs.SymbolicLeaf (fun _ => a.symbols.isConstant) id k)) ∧
      ∀ t w, w ∈ (a.exprs.evaluate t id).warnings → w ≠ .fieldOverflow →
        a.exprs.symbolic id = true := by
  intro a cs
  have history : History cs a := history_passOne dialect _
  have sound : a.Sound :=
    (path_passOne (.ofText name text) (settled_init dialect).inOrder).sound (sound_init dialect)
  refine ⟨history.isConstant, fun id => ?_⟩
  have flagged := ExprStore.symbolic_iff_leaf history.markedWhenRead sound.tables.exprs id
  refine ⟨flagged, ?_, fun t w => history.marked.symbolic_of_warning⟩
  intro agree
  rw [flagged]
  constructor
  · rintro ⟨k, leaf⟩
    exact ⟨k, agree.symbolicLeaf leaf⟩
  · rintro ⟨k, leaf⟩
    exact ⟨k, agree.symm.symbolicLeaf leaf⟩

theorem changes_forward_reference :
    passOneChanges (.ofText "forward" "\tJMP A\nA:\tHLT") (init .midas) = [⟨"A", false, 5⟩] := by
  decide +kernel

theorem symbolic_forward_reference :
    ((init .midas).passOne (.ofText "forward" "\tJMP A\nA:\tHLT")).2.exprs.symbolic 4 = true := by
  decide +kernel

/-- A label bound after its use has been no constant all the time. -/
theorem marks_tell_forward_reference :
    let a := ((init .midas).passOne (.ofText "forward" "\tJMP A\nA:\tHLT")).2
    a.exprs.LabelsAgree (constantWhenRead [⟨"A", false, 5⟩] a) (fun _ => a.symbols.isConstant) 4 ∧
      ∃ k, a.exprs.SymbolicLeaf (fun _ => a.symbols.isConstant) 4 k := by
  intro a
  obtain ⟨final, leaves⟩ :=
    marks_tell_leaves_when_read .midas "forward" "\tJMP A\nA:\tHLT"
  obtain ⟨-, agreed, -⟩ := leaves 4
  rw [changes_forward_reference] at final agreed
  have never (cs : List Change) (only : ∀ c ∈ cs, c ∈ [Change.mk "A" false 5]) (l : LabelId) :
      (a.symbols.name? l).any (Change.isConstant cs) = false := by
    rw [Option.any_eq_false]
    intro name _
    refine Change.isConstant_eq_false ?_ name
    intro c member
    rw [List.mem_singleton.mp (only c member)]
  have agree : a.exprs.LabelsAgree (constantWhenRead [⟨"A", false, 5⟩] a)
      (fun _ => a.symbols.isConstant) 4 := by
    intro k part l mark entry
    have earlier : constantWhenRead [⟨"A", false, 5⟩] a k l = false :=
      never _ (fun c member => (List.mem_filter.mp member).1) l
    exact earlier.trans ((final l).trans (never _ (fun c => id) l)).symm
  exact ⟨agree, (agreed agree).mp symbolic_forward_reference⟩

/-- Without symbolic nodes there is no symbolic leaf. -/
theorem not_symbolicLeaf {s : ExprStore} {constant : LabelId → Bool}
    (plain : ∀ node ∈ s.nodes.map Expr.node, ¬ node.Symbolic constant) (id : ExprId) :
    ¬ ∃ k, s.SymbolicLeaf (fun _ => constant) id k := by
  rintro ⟨k, -, e, entry, symbolic⟩
  exact plain e.node (Array.mem_map_of_mem (Array.mem_of_getElem? entry)) symbolic

/-- The only label in the program is a constant in the end. -/
theorem constant_after_use :
    let a := ((init .midas).passOne (.ofText "late" "\tJMP X\nX=5000")).2
    a.exprs.nodes.map Expr.node = #[.label 0, .const 0, .binary .page11 0 1, .const 0o10000,
      .binary .or 3 2, .const 0o5000] ∧ a.symbols.isConstant 0 = true := by
  constructor
  · decide +kernel
  · decide +kernel

/-- An instruction in front of the assignment is marked, although its only label is a constant in
the end, and is warned about. Behind the assignment it is neither. -/
theorem mark_outlives_assignment :
    let late := ((init .midas).passOne (.ofText "late" "\tJMP X\nX=5000")).2
    let early := ((init .midas).passOne (.ofText "early" "X=5000\n\tJMP X")).2
    (late.code.map Cell.content = #[.expr 4] ∧ late.exprs.symbolic 4 = true ∧
      (late.cellValue 4).2 = [.warning .outside2K] ∧
      ¬ ∃ k, late.exprs.SymbolicLeaf (fun _ => late.symbols.isConstant) 4 k) ∧
    early.code.map Cell.content = #[.expr 5] ∧ early.exprs.symbolic 5 = false ∧
      (early.cellValue 5).2 = [] := by
  refine ⟨⟨?_, ?_, ?_, ?_⟩, ?_, ?_, ?_⟩
  · decide +kernel
  · decide +kernel
  · decide +kernel
  · obtain ⟨nodes, constant⟩ := constant_after_use
    generalize ((init .midas).passOne (.ofText "late" "\tJMP X\nX=5000")).2 = late
      at nodes constant ⊢
    refine not_symbolicLeaf ?_ 4
    rw [nodes]
    simp [Node.Symbolic, constant]
  · decide +kernel
  · decide +kernel
  · decide +kernel

end Assembly

end Pds1
