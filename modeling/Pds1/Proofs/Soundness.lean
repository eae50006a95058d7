import Pds1.Proofs.Evaluation

/-!
# Sound expressions

In a sound store every node refers to earlier nodes that are no leftovers of unreadable operands,
and its labels and literals have entries in the symbol table. Evaluating such a node can fail in
three ways only: a label that was never bound, a literal that has no address yet, or a division by
zero.
-/

namespace Pds1

/-- The failures of a sound expression under a symbol table. -/
def EvalError.Arises (t : SymbolTable) : EvalError → Prop
  | undefinedLabel _ => True
  | undefinedLiteral _ => ∃ l ∈ t.literals, l.isDefined = false
  | divisionByZero => True
  | unknownLabel _ => False
  | malformed => False

namespace Evaluation

theorem andThen_error {x : Evaluation} {next : Int32 → Evaluation} {e : EvalError}
    (h : (x.andThen next).value = .error e) :
    x.value = .error e ∨ ∃ v, x.value = .ok v ∧ (next v).value = .error e := by
  cases hx : x.value with
  | error e' =>
    simp only [andThen, hx] at h
    exact .inl h
  | ok v =>
    simp only [andThen, hx] at h
    exact .inr ⟨v, rfl, h⟩

end Evaluation

theorem Operator.apply_error {op : Operator} {symbolic : Bool} {x y : Int32} {e : EvalError}
    (h : (op.apply symbolic x y).value = .error e) : e = .divisionByZero := by
  cases op with
  | div =>
    simp only [apply] at h
    split at h
    · cases h
      rfl
    · cases h
  | add | sub | mul | and | or | mask | page11 | page12 => cases h

namespace ExprStore

/-- The number of a node that was read without complaint. -/
def Valid (s : ExprStore) (id : ExprId) : Prop :=
  ∃ e, s.nodes[id]? = some e ∧ e.node ≠ .invalid

theorem valid_iff {s : ExprStore} {id : ExprId} :
    s.Valid id ↔ id < s.size ∧ s.isInvalid id = false := by
  constructor
  · rintro ⟨e, he, valid⟩
    exact ⟨(Array.getElem?_eq_some_iff.mp he).1, by simp [isInvalid, he, valid]⟩
  · rintro ⟨inside, valid⟩
    have he := Array.getElem?_eq_getElem inside
    refine ⟨_, he, ?_⟩
    simpa [isInvalid, he] using valid

theorem Extends.refl (s : ExprStore) : s.Extends s := fun _ _ h => h

theorem Extends.valid {s s' : ExprStore} (h : s.Extends s') {id : ExprId} (valid : s.Valid id) :
    s'.Valid id := by
  obtain ⟨e, he, ne⟩ := valid
  exact ⟨e, h id e he, ne⟩

end ExprStore

/-- What a node with number `id` may refer to. -/
def Node.Sound (s : ExprStore) (t : SymbolTable) (id : ExprId) : Node → Prop
  | const _ | location _ | invalid => True
  | label l => l < t.labels.size
  | literal l => l < t.literals.size
  | neg a => a < id ∧ s.Valid a
  | binary _ a b => (a < id ∧ s.Valid a) ∧ b < id ∧ s.Valid b

/-- A node stays sound while the tables grow. -/
theorem Node.Sound.mono {s s' : ExprStore} {t t' : SymbolTable} {id : ExprId} {node : Node}
    (h : node.Sound s t id) (grown : s.Extends s') (labels : t.labels.size ≤ t'.labels.size)
    (literals : t.literals.size ≤ t'.literals.size) : node.Sound s' t' id := by
  cases node with
  | const | location | invalid => trivial
  | label l => exact Nat.lt_of_lt_of_le h labels
  | literal l => exact Nat.lt_of_lt_of_le h literals
  | neg a => exact ⟨h.1, grown.valid h.2⟩
  | binary op a b => exact ⟨⟨h.1.1, grown.valid h.1.2⟩, h.2.1, grown.valid h.2.2⟩

namespace ExprStore

def Sound (s : ExprStore) (t : SymbolTable) : Prop :=
  ∀ (id : ExprId) (e : Expr), s.nodes[id]? = some e → e.node.Sound s t id

theorem sound_empty (t : SymbolTable) : Sound {} t := by
  intro id e h
  simp at h

theorem Sound.mono {s : ExprStore} {t t' : SymbolTable} (h : s.Sound t)
    (labels : t.labels.size ≤ t'.labels.size) (literals : t.literals.size ≤ t'.literals.size) :
    s.Sound t' :=
  fun id e he => (h id e he).mono (.refl s) labels literals

theorem Sound.push {s : ExprStore} {t : SymbolTable} (h : s.Sound t) {node : Node}
    (new : node.Sound s t s.size) (symbolic : Bool) : (s.push node symbolic).2.Sound t := by
  have grown := extends_push s node symbolic
  intro id e he
  rcases Nat.lt_trichotomy id s.size with old | last | beyond
  · rw [grown id _ (Array.getElem?_eq_getElem old)] at he
    exact (h id e ((Array.getElem?_eq_getElem old).trans he)).mono grown (Nat.le_refl _)
      (Nat.le_refl _)
  · subst last
    rw [getElem?_push_size] at he
    cases he
    exact new.mono grown (Nat.le_refl _) (Nat.le_refl _)
  · have size := size_push s node symbolic
    rw [Array.getElem?_eq_none (by simp only [ExprStore.size] at beyond size; omega)] at he
    cases he

/-- `added` is a sound store grown from `s` with the number of a valid node in it. -/
structure Joins (s : ExprStore) (t : SymbolTable) (added : ExprId × ExprStore) : Prop where
  grown : s.Extends added.2
  sound : added.2.Sound t
  valid : added.2.Valid added.1

theorem joins_push {s : ExprStore} {t : SymbolTable} (h : s.Sound t) (node : Node)
    (new : node.Sound s t s.size) (ne : node ≠ .invalid) (symbolic : Bool) :
    s.Joins t (s.push node symbolic) :=
  ⟨extends_push s node symbolic, h.push new symbolic, _, getElem?_push_size s node symbolic, ne⟩

theorem Valid.lt {s : ExprStore} {id : ExprId} (h : s.Valid id) : id < s.size :=
  (valid_iff.mp h).1

theorem joins_const {s : ExprStore} {t : SymbolTable} (h : s.Sound t) (x : Int32) :
    s.Joins t (s.const x) :=
  joins_push h (.const x) trivial (by simp) false

theorem joins_binary {s : ExprStore} {t : SymbolTable} (h : s.Sound t) (op : Operator)
    {a b : ExprId} (ha : s.Valid a) (hb : s.Valid b) : s.Joins t (s.binary op a b) :=
  joins_push h (.binary op a b) ⟨⟨ha.lt, ha⟩, hb.lt, hb⟩ (by simp) _

theorem joins_field {s : ExprStore} {t : SymbolTable} (h : s.Sound t) (op : Operator)
    (right code : Int32) {operand : ExprId} (valid : s.Valid operand) :
    s.Joins t (s.field op right code operand) := by
  have first := joins_const h right
  have second := joins_binary first.sound op (first.grown.valid valid) first.valid
  have third := joins_const second.sound code
  have fourth := joins_binary third.sound .or third.valid (third.grown.valid second.valid)
  exact ⟨((first.grown.trans second.grown).trans third.grown).trans fourth.grown, fourth.sound,
    fourth.valid⟩

end ExprStore

theorem SymbolTable.labelValue_error {t : SymbolTable} {l : LabelId} (inside : l < t.labels.size)
    {e : EvalError} (h : (t.labelValue l).value = .error e) : e.Arises t := by
  have entry : t.label? l = some t.labels[l].2 := by
    simp [label?, Array.getElem?_eq_getElem inside]
  simp only [labelValue, entry] at h
  split at h
  · cases h
  · cases h
    trivial

theorem SymbolTable.literalValue_error {t : SymbolTable} {l : LiteralId}
    (inside : l < t.literals.size) {e : EvalError} (h : (t.literalValue l).value = .error e) :
    e.Arises t := by
  have entry : t.literal? l = some t.literals[l] := Array.getElem?_eq_getElem inside
  cases address : t.literals[l].address with
  | some x =>
    simp only [literalValue, entry, Option.bind_some, address] at h
    cases h
  | none =>
    simp only [literalValue, entry, Option.bind_some, address] at h
    cases h
    exact ⟨t.literals[l], Array.getElem_mem inside, by simp [Literal.isDefined, address]⟩

/-- How the evaluation of a valid node in a sound store can fail. -/
theorem ExprStore.Sound.evaluate_error {s : ExprStore} {t : SymbolTable} (h : s.Sound t)
    {id : ExprId} (valid : s.Valid id) {e : EvalError}
    (failed : (s.evaluate t id).value = .error e) : e.Arises t := by
  induction id using Nat.strongRecOn generalizing e with
  | ind id ih =>
    obtain ⟨⟨node, symbolic⟩, he, ne⟩ := valid
    have sound : node.Sound s t id := h id _ he
    rw [evaluate.eq_def, he] at failed
    cases node with
    | const | location => cases failed
    | label l => exact SymbolTable.labelValue_error sound failed
    | literal l => exact SymbolTable.literalValue_error sound failed
    | neg a =>
      simp only [Option.map_some, sound.1, dite_true] at failed
      rcases Evaluation.andThen_error failed with inner | ⟨v, -, outer⟩
      · exact ih a sound.1 sound.2 inner
      · cases outer
    | binary op a b =>
      obtain ⟨⟨ha, va⟩, hb, vb⟩ := sound
      simp only [Option.map_some, ha, hb, and_self, dite_true] at failed
      rcases Evaluation.andThen_error failed with left | ⟨x, -, rest⟩
      · exact ih a ha va left
      rcases Evaluation.andThen_error rest with right | ⟨y, -, applied⟩
      · exact ih b hb vb right
      · rw [Operator.apply_error applied]
        trivial
    | invalid => exact absurd rfl ne

end Pds1
