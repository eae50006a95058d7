import Pds1.Expr.Value

/-!
# Evaluation in a growing store

An expression is evaluated from nodes with smaller numbers only, so adding nodes changes no earlier
value. An instruction field is the operator applied to its operand, whatever the operand is; a
failed operand keeps its failure.
-/

namespace Pds1

namespace Evaluation

@[simp] theorem pure_andThen (x : Int32) (next : Int32 → Evaluation) :
    (pure x).andThen next = next x := by
  simp [andThen, pure]

theorem andThen_of_ok {e : Evaluation} {x : Int32} (h : e.value = .ok x)
    (next : Int32 → Evaluation) :
    e.andThen next = ⟨(next x).value, e.warnings ++ (next x).warnings⟩ := by
  simp [andThen, h]

theorem andThen_of_error {x : Evaluation} {e : EvalError} (h : x.value = .error e)
    (next : Int32 → Evaluation) : (x.andThen next).value = .error e := by
  simp only [andThen, h]

theorem warnings_andThen {e : Evaluation} {next : Int32 → Evaluation} (first : e.warnings = [])
    (later : ∀ x, (next x).warnings = []) : (e.andThen next).warnings = [] := by
  cases h : e.value with
  | ok x => simp [andThen, h, first, later x]
  | error => simpa [andThen, h] using first

end Evaluation

/-- Only the checks of instruction fields warn. -/
def Operator.IsQuiet (op : Operator) : Prop :=
  ∀ symbolic x y, (op.apply symbolic x y).warnings = []

/-- An operator that is written in an operand never warns. -/
theorem Operator.isQuiet_of_ofChar? {c : Char} {op : Operator} (h : ofChar? c = some op) :
    op.IsQuiet := by
  intro symbolic x y
  cases op with
  | add | sub | mul => rfl
  | div =>
    simp only [apply]
    split
    · rfl
    · rfl
  | and | or | mask | page11 | page12 =>
    simp only [ofChar?] at h
    split at h
    all_goals cases h

namespace ExprStore

/-- The second store keeps every node of the first under its number. -/
def Extends (s s' : ExprStore) : Prop :=
  ∀ (id : ExprId) (e : Expr), s.nodes[id]? = some e → s'.nodes[id]? = some e

theorem extends_push (s : ExprStore) (node : Node) (symbolic : Bool) :
    s.Extends (s.push node symbolic).2 := by
  intro id e h
  have hid := (Array.getElem?_eq_some_iff.mp h).choose
  rw [← h, push, Array.getElem?_push_lt hid, Array.getElem?_eq_getElem hid]

theorem Extends.trans {s s' s'' : ExprStore} (h : s.Extends s') (h' : s'.Extends s'') :
    s.Extends s'' := fun id e he => h' id e (h id e he)

theorem Extends.symbolic {s s' : ExprStore} (h : s.Extends s') {id : ExprId} (hid : id < s.size) :
    s'.symbolic id = s.symbolic id := by
  have he := Array.getElem?_eq_getElem hid
  rw [ExprStore.symbolic, ExprStore.symbolic, he, h id _ he]

theorem Extends.evaluate {s s' : ExprStore} (h : s.Extends s') (t : SymbolTable) {id : ExprId}
    (hid : id < s.size) : s'.evaluate t id = s.evaluate t id := by
  induction id using Nat.strongRecOn with
  | ind id ih =>
    have he := Array.getElem?_eq_getElem hid
    rw [evaluate.eq_def s', evaluate.eq_def s, he, h id _ he]
    generalize s.nodes[id] = e
    obtain ⟨node, symbolic⟩ := e
    cases node with
    | const | label | location | literal | invalid => rfl
    | neg a =>
      by_cases small : a < id
      · simp [small, ih a small (Nat.lt_trans small hid)]
      · simp [small]
    | binary op a b =>
      by_cases small : a < id ∧ b < id
      · have ha : a < s.size := Nat.lt_trans small.1 hid
        have hb : b < s.size := Nat.lt_trans small.2 hid
        simp [small, ih a small.1 ha, ih b small.2 hb, h.symbolic ha]
      · simp [small]

theorem lt_size_of_evaluate {s : ExprStore} {t : SymbolTable} {id : ExprId} {x : Int32}
    (h : (s.evaluate t id).value = .ok x) : id < s.size := by
  rcases Nat.lt_or_ge id s.size with inside | outside
  · exact inside
  · rw [evaluate.eq_def, Array.getElem?_eq_none outside] at h
    cases h

theorem getElem?_push_size (s : ExprStore) (node : Node) (symbolic : Bool) :
    (s.push node symbolic).2.nodes[s.size]? = some ⟨node, symbolic⟩ := by
  simp [push, size]

theorem Extends.size_le {s s' : ExprStore} (h : s.Extends s') : s.size ≤ s'.size := by
  rcases Nat.eq_zero_or_pos s.size with empty | positive
  · omega
  · have last : s.size - 1 < s.nodes.size := Nat.sub_lt positive Nat.zero_lt_one
    have kept := h _ _ (Array.getElem?_eq_getElem last)
    have inside : s.size - 1 < s'.size := (Array.getElem?_eq_some_iff.mp kept).choose
    omega

/-- `added` is a store grown from `s` with the number of a node in it that evaluates to `e`. -/
structure Adds (s : ExprStore) (t : SymbolTable) (added : ExprId × ExprStore) (e : Evaluation) :
    Prop where
  grown : s.Extends added.2
  inside : added.1 < added.2.size
  value : added.2.evaluate t added.1 = e

theorem adds_const (s : ExprStore) (t : SymbolTable) (x : Int32) :
    s.Adds t (s.const x) (.pure x) := by
  refine ⟨extends_push _ _ _, by simp [const, push, size], ?_⟩
  change (s.push (.const x) false).2.evaluate t s.size = _
  rw [evaluate.eq_def, getElem?_push_size]
  rfl

theorem adds_neg (s : ExprStore) (t : SymbolTable) {a : ExprId} (ha : a < s.size) :
    s.Adds t (s.neg a) ((s.evaluate t a).andThen fun x => .pure (-x)) := by
  have grown := extends_push s (.neg a) (s.symbolic a)
  refine ⟨grown, by simp [neg, push, size], ?_⟩
  change (s.push (.neg a) (s.symbolic a)).2.evaluate t s.size = _
  rw [evaluate.eq_def, getElem?_push_size]
  simp only [Option.map_some, ha, dite_true, grown.evaluate t ha]

theorem adds_binary (s : ExprStore) (t : SymbolTable) (op : Operator) {a b : ExprId}
    (ha : a < s.size) (hb : b < s.size) :
    s.Adds t (s.binary op a b) ((s.evaluate t a).andThen fun x =>
      (s.evaluate t b).andThen fun y => op.apply (s.symbolic a) x y) := by
  have grown := extends_push s (.binary op a b) (s.symbolic a || s.symbolic b)
  refine ⟨grown, by simp [binary, push, size], ?_⟩
  change (s.push (.binary op a b) (s.symbolic a || s.symbolic b)).2.evaluate t s.size = _
  rw [evaluate.eq_def, getElem?_push_size]
  simp only [Option.map_some, ha, hb, and_self, dite_true, grown.evaluate t ha, grown.evaluate t hb,
    grown.symbolic ha]

/-- An instruction field: the operator on the operand and the constant, joined to the code. -/
theorem adds_field (s : ExprStore) (t : SymbolTable) (op : Operator) (right code : Int32)
    {operand : ExprId} (h : operand < s.size) :
    s.Adds t (s.field op right code operand)
      (((s.evaluate t operand).andThen fun x => op.apply (s.symbolic operand) x right).andThen
        fun y => .pure (code ||| y)) := by
  have first := adds_const s t right
  simp only [field]
  generalize s.const right = added at first
  obtain ⟨rightId, s₁⟩ := added
  obtain ⟨grown₁, inside₁, value₁⟩ := first
  have h₁ : operand < s₁.size := Nat.lt_of_lt_of_le h grown₁.size_le
  have second := adds_binary s₁ t op h₁ inside₁
  simp only [value₁, Evaluation.pure_andThen, grown₁.evaluate t h, grown₁.symbolic h] at second
  generalize s₁.binary op operand rightId = added at second
  obtain ⟨fieldId, s₂⟩ := added
  obtain ⟨grown₂, inside₂, value₂⟩ := second
  have third := adds_const s₂ t code
  generalize s₂.const code = added at third
  obtain ⟨codeId, s₃⟩ := added
  obtain ⟨grown₃, inside₃, value₃⟩ := third
  have h₃ : fieldId < s₃.size := Nat.lt_of_lt_of_le inside₂ grown₃.size_le
  obtain ⟨grown, inside, value⟩ := adds_binary s₃ t .or inside₃ h₃
  refine ⟨((grown₁.trans grown₂).trans grown₃).trans grown, inside, ?_⟩
  rw [value, value₃, grown₃.evaluate t inside₂, value₂, Evaluation.pure_andThen]
  rfl

/-- The node never warns, whatever the symbol table is. -/
def Quiet (s : ExprStore) (id : ExprId) : Prop := ∀ t, (s.evaluate t id).warnings = []

theorem Extends.quiet {s s' : ExprStore} (h : s.Extends s') {id : ExprId} (hid : id < s.size)
    (quiet : s.Quiet id) : s'.Quiet id := by
  intro t
  rw [h.evaluate t hid]
  exact quiet t

end ExprStore

/-- A node whose operator and operands never warn. -/
def Node.IsQuiet (s : ExprStore) : Node → Prop
  | const _ | label _ | location _ | literal _ | invalid => True
  | neg a => a < s.size ∧ s.Quiet a
  | binary op a b => op.IsQuiet ∧ (a < s.size ∧ s.Quiet a) ∧ b < s.size ∧ s.Quiet b

namespace ExprStore

theorem quiet_push {s : ExprStore} {node : Node} (h : node.IsQuiet s) (symbolic : Bool) :
    (s.push node symbolic).2.Quiet s.size := by
  have grown := extends_push s node symbolic
  intro t
  rw [evaluate.eq_def, getElem?_push_size]
  cases node with
  | const | location | invalid => rfl
  | label l =>
    simp only [Option.map_some, SymbolTable.labelValue]
    split
    · split
      · rfl
      · rfl
    · rfl
  | literal l =>
    simp only [Option.map_some, SymbolTable.literalValue]
    split
    · rfl
    · rfl
  | neg a =>
    obtain ⟨small, quiet⟩ := h
    simp only [Option.map_some, small, dite_true]
    exact Evaluation.warnings_andThen (grown.quiet small quiet t) fun _ => rfl
  | binary op a b =>
    obtain ⟨operator, ⟨left, quiet⟩, right, quiet'⟩ := h
    simp only [Option.map_some, left, right, and_self, dite_true]
    refine Evaluation.warnings_andThen (grown.quiet left quiet t) fun x => ?_
    exact Evaluation.warnings_andThen (grown.quiet right quiet' t) fun y => operator _ x y

/-- Under every symbol table the node either has a value or fails without a warning. -/
def FailsQuietly (s : ExprStore) (id : ExprId) : Prop :=
  ∀ t e, (s.evaluate t id).value = .error e → (s.evaluate t id).warnings = []

theorem Quiet.failsQuietly {s : ExprStore} {id : ExprId} (h : s.Quiet id) : s.FailsQuietly id :=
  fun t _ _ => h t

theorem Extends.failsQuietly {s s' : ExprStore} (h : s.Extends s') {id : ExprId}
    (hid : id < s.size) (quiet : s.FailsQuietly id) : s'.FailsQuietly id := by
  intro t e
  rw [h.evaluate t hid]
  exact quiet t e

/-- The check of a field comes after its operand, so it warns only if there is a value. -/
theorem failsQuietly_field {s : ExprStore} {op : Operator}
    (masks : op = .mask ∨ op = .page11 ∨ op = .page12) (right code : Int32) {operand : ExprId}
    (h : operand < s.size) (quiet : s.Quiet operand) :
    (s.field op right code operand).2.FailsQuietly (s.field op right code operand).1 := by
  intro t e
  rw [(adds_field s t op right code h).value]
  intro failed
  cases known : (s.evaluate t operand).value with
  | error => simpa [Evaluation.andThen, known] using quiet t
  | ok x =>
    obtain ⟨y, some⟩ : ∃ y, (op.apply (s.symbolic operand) x right).value = .ok y := by
      rcases masks with rfl | rfl | rfl
      all_goals exact ⟨_, rfl⟩
    simp [Evaluation.andThen, known, some, Evaluation.pure] at failed

end ExprStore

end Pds1
