import Pds1.Proofs.LiteralQueue

/-!
# Which expressions are marked as symbolic

Every node carries a mark. A literal is marked; a label is marked unless its name is bound to a
constant at that moment; any other node is marked if one of its operands is. So a marked expression
has a marked leaf in it, and only marked expressions are checked against a page. Reading an operand
and emitting a field add nodes with such marks and bind no name.
-/

namespace Pds1

/-- The mark of a node in a store, where `shows` tells the mark of a label. -/
def Node.Marked (s : ExprStore) (shows : LabelId → Bool → Prop) (mark : Bool) : Node → Prop
  | const _ | location _ | invalid => mark = false
  | literal _ => mark = true
  | label l => shows l mark
  | neg a => a < s.size ∧ mark = s.symbolic a
  | binary _ a b => (a < s.size ∧ b < s.size) ∧ mark = (s.symbolic a || s.symbolic b)

theorem Node.Marked.mono {s s' : ExprStore} {shows shows' : LabelId → Bool → Prop} {mark : Bool}
    {node : Node} (h : node.Marked s shows mark) (grown : s.Extends s')
    (later : ∀ l, shows l mark → shows' l mark) : node.Marked s' shows' mark := by
  cases node with
  | const | location | invalid | literal => exact h
  | label l => exact later l h
  | neg a =>
    obtain ⟨inside, same⟩ := h
    exact ⟨Nat.lt_of_lt_of_le inside grown.size_le, same.trans (grown.symbolic inside).symm⟩
  | binary op a b =>
    obtain ⟨⟨left, right⟩, same⟩ := h
    refine ⟨⟨Nat.lt_of_lt_of_le left grown.size_le, Nat.lt_of_lt_of_le right grown.size_le⟩, ?_⟩
    rw [grown.symbolic left, grown.symbolic right, same]

/-- The nodes that a node is computed from. -/
def Node.operands : Node → List ExprId
  | neg a => [a]
  | binary _ a b => [a, b]
  | const _ | label _ | location _ | literal _ | invalid => []

/-- A leaf that stands for something other than a constant. -/
def Node.Symbolic (constant : LabelId → Bool) : Node → Prop
  | literal _ => True
  | label l => constant l = false
  | const _ | location _ | neg _ | binary _ _ _ | invalid => False

namespace ExprStore

/-- The node `k` occurs in an expression. -/
inductive Part (s : ExprStore) (k : ExprId) : ExprId → Prop where
  | self : Part s k k
  | neg {id a : ExprId} {mark : Bool} (node : s.nodes[id]? = some ⟨.neg a, mark⟩)
      (inner : Part s k a) : Part s k id
  | left {id a b : ExprId} {op : Operator} {mark : Bool}
      (node : s.nodes[id]? = some ⟨.binary op a b, mark⟩) (inner : Part s k a) : Part s k id
  | right {id a b : ExprId} {op : Operator} {mark : Bool}
      (node : s.nodes[id]? = some ⟨.binary op a b, mark⟩) (inner : Part s k b) : Part s k id

theorem Part.of_operand {s : ExprStore} {k id a : ExprId} {e : Expr} (inner : s.Part k a)
    (entry : s.nodes[id]? = some e) (member : a ∈ e.node.operands) : s.Part k id := by
  obtain ⟨node, mark⟩ := e
  cases node with
  | neg b =>
    obtain rfl : a = b := List.mem_singleton.mp member
    exact .neg entry inner
  | binary op b b' =>
    rcases List.mem_cons.mp member with rfl | second
    · exact .left entry inner
    · obtain rfl : a = b' := List.mem_singleton.mp second
      exact .right entry inner
  | const | label | location | literal | invalid => cases member

/-- To follow a part up the expression, it is enough to go from an operand to its node. -/
theorem Part.operand_induction {s : ExprStore} {k : ExprId}
    {motive : (id : ExprId) → s.Part k id → Prop} (self : motive k .self)
    (operand : ∀ {id a : ExprId} {e : Expr} (entry : s.nodes[id]? = some e)
      (member : a ∈ e.node.operands) (inner : s.Part k a), motive a inner →
      motive id (inner.of_operand entry member))
    {id : ExprId} (part : s.Part k id) : motive id part := by
  induction part with
  | self => exact self
  | neg node inner ih => exact operand node (by simp [Node.operands]) inner ih
  | left node inner ih => exact operand node (by simp [Node.operands]) inner ih
  | right node inner ih => exact operand node (by simp [Node.operands]) inner ih

/-- A leaf of the expression `id` that is symbolic, if `constant k` are the labels that leaf `k`
takes for constants. -/
def SymbolicLeaf (s : ExprStore) (constant : ExprId → LabelId → Bool) (id k : ExprId) : Prop :=
  s.Part k id ∧ ∃ e, s.nodes[k]? = some e ∧ e.node.Symbolic (constant k)

theorem symbolic_eq {s : ExprStore} {id : ExprId} {e : Expr} (entry : s.nodes[id]? = some e) :
    s.symbolic id = e.symbolic := by
  simp [symbolic, entry]

/-- Every node has the mark it should have. -/
def Marked (s : ExprStore) (shows : ExprId → LabelId → Bool → Prop) : Prop :=
  ∀ (k : ExprId) (e : Expr), s.nodes[k]? = some e → e.node.Marked s (shows k) e.symbolic

section Marking

variable {s : ExprStore} {t : SymbolTable} {constant : ExprId → LabelId → Bool}

theorem symbolic_of_part (marked : s.Marked fun k l mark => mark = !constant k l) {id k : ExprId}
    (h : s.Part k id) {e : Expr} (entry : s.nodes[k]? = some e)
    (leaf : e.node.Symbolic (constant k)) : s.symbolic id = true := by
  induction h with
  | self =>
    have own := marked _ e entry
    rw [symbolic_eq entry]
    obtain ⟨node, mark⟩ := e
    cases node with
    | literal => exact own
    | label l =>
      simp only [Node.Symbolic] at leaf
      simpa [Node.Marked, leaf] using own
    | const | location | neg | binary | invalid => cases leaf
  | neg node _ ih =>
    obtain ⟨-, same⟩ := marked _ _ node
    rw [symbolic_eq node]
    exact same.trans ih
  | left node _ ih =>
    obtain ⟨-, same⟩ := marked _ _ node
    rw [symbolic_eq node]
    simpa [ih] using same
  | right node _ ih =>
    obtain ⟨-, same⟩ := marked _ _ node
    rw [symbolic_eq node]
    simpa [ih] using same

/-- The mark of an expression says that one of its leaves is symbolic. -/
theorem symbolic_iff_leaf (marked : s.Marked fun k l mark => mark = !constant k l)
    (sound : s.Sound t) (id : ExprId) :
    s.symbolic id = true ↔ ∃ k, s.SymbolicLeaf constant id k := by
  constructor
  · intro flagged
    induction id using Nat.strongRecOn with
    | ind id ih =>
      obtain ⟨⟨node, _⟩, entry, rfl⟩ : ∃ e, s.nodes[id]? = some e ∧ e.symbolic = true := by
        simpa [symbolic, Option.any_eq_true] using flagged
      have own := marked id _ entry
      have inside : node.Sound s t id := sound id _ entry
      cases node with
      | const | location | invalid => cases own
      | literal => exact ⟨id, .self, _, entry, trivial⟩
      | label l => exact ⟨id, .self, _, entry, by simpa [Node.Marked, Node.Symbolic] using own⟩
      | neg a =>
        obtain ⟨k, part, leaf⟩ := ih a inside.1 own.2.symm
        exact ⟨k, .neg entry part, leaf⟩
      | binary op a b =>
        rcases Bool.or_eq_true_iff.mp own.2.symm with left | right
        · obtain ⟨k, part, leaf⟩ := ih a inside.1.1 left
          exact ⟨k, .left entry part, leaf⟩
        · obtain ⟨k, part, leaf⟩ := ih b inside.2.1 right
          exact ⟨k, .right entry part, leaf⟩
  · rintro ⟨k, part, e, entry, leaf⟩
    exact symbolic_of_part marked part entry leaf

end Marking

end ExprStore

theorem Evaluation.mem_warnings_andThen {x : Evaluation} {next : Int32 → Evaluation} {w : Warning}
    (h : w ∈ (x.andThen next).warnings) :
    w ∈ x.warnings ∨ ∃ v, w ∈ (next v).warnings := by
  cases known : x.value with
  | error e =>
    simp only [andThen, known] at h
    exact .inl h
  | ok v =>
    simp only [andThen, known] at h
    rcases List.mem_append.mp h with first | later
    · exact .inl first
    · exact .inr ⟨v, later⟩

/-- A page is only checked for a left operand that is symbolic. -/
theorem Operator.symbolic_of_warning {op : Operator} {symbolic : Bool} {x y : Int32} {w : Warning}
    (h : w ∈ (op.apply symbolic x y).warnings) (page : w ≠ .fieldOverflow) : symbolic = true := by
  cases op with
  | add | sub | mul | and | or => cases h
  | div =>
    simp only [apply] at h
    split at h
    · cases h
    · cases h
  | mask =>
    simp only [apply, Evaluation.warnIf] at h
    split at h
    · exact absurd (List.mem_singleton.mp h) page
    · cases h
  | page11 | page12 =>
    simp only [apply, Evaluation.warnIf] at h
    split at h
    · next condition => exact (Bool.and_eq_true_iff.mp condition).1
    · cases h

/-- An expression that is not marked has no page warning, whatever the table is. -/
theorem ExprStore.Marked.symbolic_of_warning {s : ExprStore} {t : SymbolTable}
    {shows : ExprId → LabelId → Bool → Prop} (marked : s.Marked shows) {id : ExprId} {w : Warning}
    (h : w ∈ (s.evaluate t id).warnings) (page : w ≠ .fieldOverflow) : s.symbolic id = true := by
  induction id using Nat.strongRecOn with
  | ind id ih =>
    rw [evaluate.eq_def] at h
    cases entry : s.nodes[id]? with
    | none => simp [entry, Evaluation.fail] at h
    | some e =>
      obtain ⟨node, mark⟩ := e
      have own := marked id _ entry
      rw [symbolic_eq entry]
      simp only [entry, Option.map_some] at h
      cases node with
      | const | location | invalid => cases h
      | label l =>
        simp only [SymbolTable.labelValue] at h
        split at h
        · split at h
          · cases h
          · cases h
        · cases h
      | literal l => exact own
      | neg a =>
        simp only at h
        split at h
        · next smaller =>
          rcases Evaluation.mem_warnings_andThen h with inner | ⟨x, outer⟩
          · exact own.2.trans (ih a smaller inner)
          · cases outer
        · cases h
      | binary op a b =>
        simp only at h
        split at h
        · next smaller =>
          have joined : mark = (s.symbolic a || s.symbolic b) := own.2
          rcases Evaluation.mem_warnings_andThen h with left | ⟨x, rest⟩
          · simp [joined, ih a smaller.1 left]
          rcases Evaluation.mem_warnings_andThen rest with right | ⟨y, applied⟩
          · simp [joined, ih b smaller.2 right]
          · simp [joined, Operator.symbolic_of_warning applied page]
        · cases h

namespace SymbolTable

variable {t t' : SymbolTable} {name : String} {id : LabelId}

/-- Whether `name` is bound to a constant. -/
def boundConstant (t : SymbolTable) (name : String) : Bool := (t.binding? name).any Label.constant

/-- Every name has one entry, and an entry that is not bound is no constant. -/
structure Lawful (t : SymbolTable) : Prop where
  distinct : t.Distinct
  bound : ∀ id label, t.label? id = some label → label.constant = true → label.defined = true

theorem lawful_empty : Lawful {} :=
  ⟨by simp [Distinct, name?], by simp [label?]⟩

theorem Lawful.isConstant (h : t.Lawful) (named : t.name? id = some name) :
    t.isConstant id = t.boundConstant name := by
  obtain ⟨entry, found, -⟩ := Option.map_eq_some_iff.mp named
  have label : t.label? id = some entry.2 := by rw [label?, found, Option.map_some]
  have known := h.bound id entry.2 label
  simp only [SymbolTable.isConstant, boundConstant, binding?, lookup?,
    labelId?_of_name? h.distinct named, Option.bind_some, label]
  cases defined : entry.2.defined with
  | true => simp [Option.filter, defined]
  | false =>
    have free : entry.2.constant = false := by
      cases constant : entry.2.constant with
      | false => rfl
      | true => exact absurd (known constant) (by simp [defined])
    simp [Option.filter, defined, free]

theorem Lawful.of_labels (h : t.Lawful) (same : t'.labels = t.labels) : t'.Lawful where
  distinct := (keeps_of_labels same).distinct h.distinct
  bound id label found := h.bound id label (by rw [label?, ← same]; exact found)

theorem label?_push (t : SymbolTable) (name : String) (new : Label) (id : LabelId) :
    label? { t with labels := t.labels.push (name, new) } id =
      if id = t.labels.size then some new else t.label? id := by
  simp only [label?, Array.getElem?_push]
  split
  · rfl
  · rfl

/-- A new entry must be bound if it is a constant. -/
theorem Lawful.push (h : t.Lawful) (new : t.labelId? name = none) {label : Label}
    (bound : label.constant = true → label.defined = true) :
    Lawful { t with labels := t.labels.push (name, label) } where
  distinct := distinct_push h.distinct new label
  bound id other found constant := by
    rw [label?_push] at found
    split at found
    · cases found
      exact bound constant
    · exact h.bound id other found constant

theorem Lawful.reference (h : t.Lawful) (name : String) : (t.reference name).2.Lawful := by
  simp only [SymbolTable.reference]
  split
  · exact h
  · next new => exact h.push new (by simp [Label.forward])

theorem Lawful.intern (h : t.Lawful) (text : String) (location : Int32) :
    (t.intern text location).2.Lawful := by
  apply h.of_labels
  simp only [SymbolTable.intern]
  split
  · rfl
  · split
    · rfl
    · rfl

theorem Lawful.bind (h : t.Lawful) (name : String) (value : Int32) (relocatable constant : Bool) :
    (t.bind name (.bound value relocatable constant)).Lawful := by
  refine ⟨h.distinct.bind name _, ?_⟩
  simp only [SymbolTable.bind]
  split
  · intro id label found isConstant
    simp only [label?, Array.getElem?_setIfInBounds] at found
    split at found
    · split at found
      · cases found
        rfl
      · cases found
    · exact h.bound id label found isConstant
  · next new => exact (h.push new fun _ => rfl).bound

theorem Keeps.boundConstant (h : t.Keeps t') (name : String) :
    t'.boundConstant name = t.boundConstant name := by
  rw [SymbolTable.boundConstant, h.binding, SymbolTable.boundConstant]

theorem boundConstant_bind (t : SymbolTable) (name : String) (value : Int32)
    (relocatable constant : Bool) (other : String) :
    (t.bind name (.bound value relocatable constant)).boundConstant other =
      if other = name then constant else t.boundConstant other := by
  rw [boundConstant, binding?_bind]
  split
  · simp [Label.bound]
  · rfl

/-- The mark of a reference to a label. -/
def Shows (t : SymbolTable) (l : LabelId) (mark : Bool) : Prop :=
  ∃ name, t.name? l = some name ∧ mark = !t.boundConstant name

theorem Keeps.shows (h : t.Keeps t') {mark : Bool} (shown : t.Shows id mark) :
    t'.Shows id mark := by
  obtain ⟨name, named, same⟩ := shown
  exact ⟨name, h.names id name named, by rw [h.boundConstant, same]⟩

end SymbolTable

namespace Tables

/-- From `t` to `t'` nothing is bound, and the nodes added are marked as the table says. -/
structure Marks (t t' : Tables) : Prop where
  keeps : t.symbols.Keeps t'.symbols
  lawful : t.symbols.Lawful → t'.symbols.Lawful
  exprs : t.exprs.Extends t'.exprs
  marked : t.symbols.Lawful → ∀ k e, t.exprs.size ≤ k → t'.exprs.nodes[k]? = some e →
    e.node.Marked t'.exprs t'.symbols.Shows e.symbolic

variable {t t' t'' : Tables}

theorem Marks.trans (h : Marks t t') (h' : Marks t' t'') : Marks t t'' where
  keeps := h.keeps.trans h'.keeps
  lawful start := h'.lawful (h.lawful start)
  exprs := h.exprs.trans h'.exprs
  marked start k e new entry := by
    rcases Nat.lt_or_ge k t'.exprs.size with early | late
    · have old := Array.getElem?_eq_getElem early
      cases (h'.exprs k _ old).symm.trans entry
      exact (h.marked start k _ new old).mono h'.exprs fun l => h'.keeps.shows
    · exact h'.marked (h.lawful start) k e late entry

/-- The labels may grow without a new node. -/
theorem marks_of_exprs (keeps : t.symbols.Keeps t'.symbols)
    (lawful : t.symbols.Lawful → t'.symbols.Lawful) (exprs : t'.exprs = t.exprs) : Marks t t' where
  keeps := keeps
  lawful := lawful
  exprs := by
    rw [exprs]
    exact .refl _
  marked _ k e new entry := by
    have inside : k < t'.exprs.size := (Array.getElem?_eq_some_iff.mp entry).1
    rw [exprs] at inside
    omega

theorem marks_of_same (labels : t'.symbols.labels = t.symbols.labels) (exprs : t'.exprs = t.exprs) :
    Marks t t' :=
  marks_of_exprs (SymbolTable.keeps_of_labels labels) (fun h => h.of_labels labels) exprs

/-- A node with the right mark is added. -/
theorem marks_push (t : Tables) {node : Node} {mark : Bool}
    (new : t.symbols.Lawful → node.Marked t.exprs t.symbols.Shows mark) :
    Marks t (t.push node mark).2 where
  keeps := SymbolTable.keeps_of_labels rfl
  lawful := id
  exprs := ExprStore.extends_push _ _ _
  marked lawful k e beyond entry := by
    have inside : k < (t.push node mark).2.exprs.size := (Array.getElem?_eq_some_iff.mp entry).1
    have size : (t.push node mark).2.exprs.size = t.exprs.size + 1 := ExprStore.size_push ..
    -- the node pushed is the only one that is new
    obtain rfl : k = t.exprs.size := by omega
    cases (ExprStore.getElem?_push_size ..).symm.trans entry
    exact (new lawful).mono (ExprStore.extends_push _ _ _) fun _ => id

theorem marks_reject (t : Tables) (d : Diagnostic) : Marks t (t.reject d).2 := by
  have noted : Marks t (t.note d) := marks_of_same rfl rfl
  have pushed : Marks (t.note d) ((t.note d).push .invalid false).2 := marks_push _ fun _ => rfl
  exact noted.trans pushed

theorem marks_binary (t : Tables) (op : Operator) {a b : ExprId} (left : a < t.exprs.size)
    (right : b < t.exprs.size) :
    Marks t (t.push (.binary op a b) (t.exprs.symbolic a || t.exprs.symbolic b)).2 :=
  t.marks_push fun _ => ⟨⟨left, right⟩, rfl⟩

/-- A field is marked if its operand is. -/
theorem marks_field (t : Tables) (op : Operator) (right code : Int32) {id : ExprId}
    (inside : id < t.exprs.size) :
    Marks t { t with exprs := (t.exprs.field op right code id).2 } := by
  have constant (t : Tables) (x : Int32) : Marks t (t.push (.const x) false).2 :=
    t.marks_push fun _ => rfl
  have last (t : Tables) (node : Node) (mark : Bool) :
      t.exprs.size < (t.push node mark).2.exprs.size := by
    rw [Tables.push, ExprStore.size_push]
    exact Nat.lt_succ_self _
  let t₁ := (t.push (.const right) false).2
  have h₁ : t.exprs.size < t₁.exprs.size := last ..
  let t₂ := (t₁.push (.binary op id t.exprs.size)
    (t₁.exprs.symbolic id || t₁.exprs.symbolic t.exprs.size)).2
  have h₂ : t₁.exprs.size < t₂.exprs.size := last ..
  let t₃ := (t₂.push (.const code) false).2
  have h₃ : t₂.exprs.size < t₃.exprs.size := last ..
  have second : Marks t₁ t₂ := t₁.marks_binary op (Nat.lt_trans inside h₁) h₁
  have fourth := t₃.marks_binary .or h₃ (Nat.lt_trans h₂ h₃)
  exact (((constant t right).trans second).trans (constant t₂ code)).trans fourth

end Tables

namespace Operand

open Tables

theorem marks_name (name : String) (c : Cursor) (t : Tables) :
    Marks t (Operand.name name c t).tables := by
  have entered : Marks t { t with symbols := (t.symbols.reference name).2 } :=
    marks_of_exprs (t.symbols.keeps_reference name) (fun h => h.reference name) rfl
  have named := t.symbols.name?_reference name
  refine entered.trans (marks_push _ fun lawful => ⟨name, named, ?_⟩)
  exact congrArg not (lawful.isConstant named)

theorem marks_literal (location : Int32) (c : Cursor) (t : Tables) :
    Marks t (literal location c t).tables := by
  simp only [literal]
  split
  · exact marks_reject t _
  · next text rest _ =>
    have entered : Marks t
        { t with symbols := (t.symbols.intern (String.ofList (dropComma text)) location).2 } :=
      marks_of_exprs (t.symbols.keeps_intern _ location) (fun h => h.intern _ location) rfl
    exact entered.trans (marks_push _ fun _ => rfl)

theorem marks_negate {t : Tables} {r : Reading} (h : Marks t r.tables)
    (inside : r.expr < r.tables.exprs.size) : Marks t (negate r).tables := by
  simp only [negate]
  split
  · exact h.trans (marks_reject _ _)
  · exact h.trans (marks_push _ fun _ => ⟨inside, rfl⟩)

theorem marks_term (dialect : Dialect) (location : Int32) (c : Cursor) (t : Tables) :
    Marks t (term dialect location c t).tables := by
  fun_induction term dialect location c t with
  | case1 | case4 => exact marks_push t fun _ => rfl
  | case2 c _ text d => exact marks_name text d t
  | case3 | case7 => exact marks_reject t _
  | case5 c _ _ x r => exact marks_literal location _ t
  | case6 c _ _ r _ _ _ ih => exact marks_negate ih (grown_term dialect location _ t).inside

theorem marks_extend (dialect : Dialect) (location : Int32) {t : Tables} {left : Reading}
    (h : Marks t left.tables) (inside : left.expr < left.tables.exprs.size) :
    Marks t (extend dialect location left).tables := by
  fun_induction extend dialect location left with
  | case1 | case2 | case3 => exact h
  | case4 => exact h.trans (marks_reject _ _)
  | case5 left _ x r => exact h.trans (marks_term ..)
  | case6 left _ x r rest op written _ right _ exprs ih =>
    have second := marks_term dialect location (left.cursor.moveTo r) left.tables
    have grown := grown_term dialect location (left.cursor.moveTo r) left.tables
    have first : left.expr < right.tables.exprs.size :=
      Nat.lt_of_lt_of_le inside second.exprs.size_le
    refine ih ((h.trans second).trans (marks_binary _ op first grown.inside)) ?_
    simp [Reading.of, Tables.push, ExprStore.push, ExprStore.size]

theorem marks_read (dialect : Dialect) (location : Int32) (c : Cursor) (t : Tables) :
    Marks t (read dialect location c t).tables :=
  marks_extend dialect location (marks_term dialect location c t)
    (grown_term dialect location c t).inside

end Operand

namespace Assembly

open Tables

variable {a b : Assembly}

theorem marks_operand {c c' : Cursor} {id : ExprId} (read : a.operand c = (id, c', b)) :
    Marks a.toTables b.toTables := by
  cases read
  exact Operand.marks_read ..

theorem marks_emitField (a : Assembly) (op : Operator) (right code : Int32) {id : ExprId}
    (inside : id < a.exprs.size) : Marks a.toTables (a.emitField op right code id).toTables := by
  simp only [emitField]
  split
  · exact marks_of_same rfl rfl
  · exact a.toTables.marks_field op right code inside

theorem marks_moveOrigin (a : Assembly) (d : Directive) (value : Int32) :
    Marks a.toTables (a.moveOrigin d value).toTables := by
  simp only [moveOrigin]
  split
  · exact marks_of_same rfl rfl
  · exact marks_of_same rfl rfl
  · exact marks_of_same rfl rfl

/-- A move that binds nothing. -/
theorem Move.marks {origins : Prop} {p q : Position} (h : Move refusePool origins False p q) :
    Marks p.2.toTables q.2.toTables := by
  cases h with
  | skip | note | log | comment | word | pool | stop => exact marks_of_same rfl rfl
  | label _ _ _ allowed => exact allowed.elim
  | operand read => exact marks_operand read
  | expr read => exact (marks_operand read).trans (marks_of_same rfl rfl)
  | field read masks right code =>
    exact (marks_operand read).trans (marks_emitField _ _ right code (operand_grows read).2)
  | value read => exact (marks_operand read).trans (marks_of_same rfl rfl)
  | @origin _ a b b' _ _ id read valid value known d =>
    obtain rfl : (b.valueNow id).2 = b' := congrArg Prod.snd known
    have evaluated : Marks b.toTables (b.valueNow id).2.toTables := marks_of_same rfl rfl
    exact ((marks_operand read).trans evaluated).trans (marks_moveOrigin _ d value)
  | assign _ _ _ _ allowed => exact allowed.elim
  | stopAt read => exact (marks_operand read).trans (marks_of_same rfl rfl)

theorem marks_of_reads {origins : Prop} {p q : Position} (h : Reads refusePool origins False p q) :
    Marks p.2.toTables q.2.toTables := by
  induction h with
  | refl => exact marks_of_same rfl rfl
  | tail _ move ih => exact ih.trans move.marks

end Assembly

end Pds1
