import Pds1.Expr.Render
import Pds1.Proofs.SymbolicMarks

/-!
# Stores built call by call

A store grows by reading terms and operands and by adding single nodes and instruction fields, in
any order, as long as each call is given numbers that earlier calls have handed out. Everything such
calls do is to add nodes that fit: their operands are there already, and an inner node is marked if
one of its operands is. So operands have smaller numbers than their node, going down from a node to
its operands comes to an end, marks come from the leaves, and an expression keeps its value.
-/

namespace Pds1

/-- A node may have the number `id` and the mark: its operands are earlier, and unless it is a leaf
it is marked exactly if one of them is. -/
structure Node.Fits (s : ExprStore) (id : ExprId) (mark : Bool) (node : Node) : Prop where
  earlier : ∀ a ∈ node.operands, a < id
  marked : node.operands ≠ [] → mark = node.operands.any s.symbolic

theorem Node.fits_leaf (s : ExprStore) (id : ExprId) (mark : Bool) {node : Node}
    (leaf : node.operands = []) : node.Fits s id mark := by
  constructor
  · intro a member
    simp [leaf] at member
  · intro inner
    exact absurd leaf inner

theorem Node.fits_neg {s : ExprStore} {a : ExprId} (inside : a < s.size) :
    (Node.neg a).Fits s s.size (s.symbolic a) := by
  constructor
  · simpa [operands] using inside
  · simp [operands]

theorem Node.fits_binary {s : ExprStore} (op : Operator) {a b : ExprId} (left : a < s.size)
    (right : b < s.size) : (Node.binary op a b).Fits s s.size (s.symbolic a || s.symbolic b) := by
  constructor
  · simpa [operands] using ⟨left, right⟩
  · simp [operands]

/-- The value of a node, where `value` tells those of its operands. -/
def Node.value (t : SymbolTable) (symbolic : ExprId → Bool) (node : Node)
    (value : ExprId → Evaluation) : Evaluation :=
  match node with
  | const v | location v => .pure v
  | label l => t.labelValue l
  | literal l => t.literalValue l
  | neg a => (value a).andThen fun x => .pure (-x)
  | binary op a b =>
    (value a).andThen fun x => (value b).andThen fun y => op.apply (symbolic a) x y
  | invalid => .fail .malformed

/-- The text of a node, where `text` tells those of its operands. -/
def Node.text (t : SymbolTable) (node : Node) (text : ExprId → String) : String :=
  match node with
  | const v => Octal.pattern v
  | location v => "." ++ Octal.pattern v
  | label l => t.labelName l
  | literal l => "[" ++ t.literalText l ++ "]"
  | neg a => "-" ++ text a
  | binary op a b => op.render (text a) (text b)
  | invalid => "<error>"

namespace ExprStore

variable {s s' : ExprStore} {id : ExprId}

theorem Extends.any_symbolic (grown : s.Extends s') {ids : List ExprId}
    (inside : ∀ a ∈ ids, a < s.size) : ids.any s'.symbolic = ids.any s.symbolic := by
  induction ids with
  | nil => rfl
  | cons a ids ih =>
    have first := grown.symbolic (inside a List.mem_cons_self)
    have others := ih fun b member => inside b (List.mem_cons_of_mem a member)
    rw [List.any_cons, List.any_cons, first, others]

/-- Every node fits its place. -/
def Layered (s : ExprStore) : Prop :=
  ∀ (id : ExprId) (e : Expr), s.nodes[id]? = some e → e.node.Fits s id e.symbolic

theorem layered_empty : Layered {} := by
  intro id e entry
  simp at entry

/-- A node below the end of a store fits its place when the store has grown. -/
theorem Extends.fits (grown : s.Extends s') {node : Node} {mark : Bool} (fits : node.Fits s id mark)
    (below : id ≤ s.size) : node.Fits s' id mark := by
  refine ⟨fits.earlier, ?_⟩
  intro inner
  have inside : ∀ a ∈ node.operands, a < s.size := by
    intro a member
    exact Nat.lt_of_lt_of_le (fits.earlier a member) below
  rw [grown.any_symbolic inside]
  exact fits.marked inner

theorem Layered.push (h : s.Layered) {node : Node} {mark : Bool} (fits : node.Fits s s.size mark) :
    (s.push node mark).2.Layered := by
  have grown := extends_push s node mark
  intro id e entry
  rcases Nat.lt_or_ge id s.size with early | late
  · have there := Array.getElem?_eq_getElem early
    cases (grown id _ there).symm.trans entry
    exact grown.fits (h id _ there) (Nat.le_of_lt early)
  · have inside : id < (s.push node mark).2.size := (Array.getElem?_eq_some_iff.mp entry).1
    rw [size_push] at inside
    obtain rfl : id = s.size := Nat.le_antisymm (Nat.le_of_lt_succ inside) late
    cases (getElem?_push_size s node mark).symm.trans entry
    exact grown.fits fits (Nat.le_refl _)

/-- From `s` the store grows by nodes that fit. -/
inductive Builds (s : ExprStore) : ExprStore → Prop where
  | refl : Builds s s
  | push {s' : ExprStore} (h : Builds s s') {node : Node} {mark : Bool}
      (fits : node.Fits s' s'.size mark) : Builds s (s'.push node mark).2

theorem Builds.trans {s'' : ExprStore} (h : s.Builds s') (h' : s'.Builds s'') : s.Builds s'' := by
  induction h' with
  | refl => exact h
  | push _ fits ih => exact .push ih fits

theorem Builds.extends (h : s.Builds s') : s.Extends s' := by
  induction h with
  | refl => exact .refl s
  | push _ _ ih => exact ih.trans (extends_push _ _ _)

theorem Builds.layered (h : s.Builds s') (start : s.Layered) : s'.Layered := by
  induction h with
  | refl => exact start
  | push _ fits ih => exact ih.push fits

/-- The plain recursion from a node to its operands, which takes no notice of their numbers, comes
to an end and gives the result. -/
inductive Computes {α : Type} (s : ExprStore) (rule : Node → (ExprId → α) → α) :
    ExprId → α → Prop where
  | node {id : ExprId} {e : Expr} {result : ExprId → α} (entry : s.nodes[id]? = some e)
      (operands : ∀ a ∈ e.node.operands, Computes s rule a (result a)) :
      Computes s rule id (rule e.node result)

/-- A function that obeys the rule at every node is computed by the recursion. -/
theorem Layered.computes {α : Type} {rule : Node → (ExprId → α) → α} {result : ExprId → α}
    (h : s.Layered)
    (obeys : ∀ id e, s.nodes[id]? = some e → result id = rule e.node result)
    (inside : id < s.size) : s.Computes rule id (result id) := by
  induction id using Nat.strongRecOn with
  | ind id ih =>
    have entry := Array.getElem?_eq_getElem inside
    rw [obeys id _ entry]
    refine .node entry ?_
    intro a member
    have smaller := (h id _ entry).earlier a member
    exact ih a smaller (Nat.lt_trans smaller inside)

theorem Layered.evaluate_eq (h : s.Layered) (t : SymbolTable) {e : Expr}
    (entry : s.nodes[id]? = some e) :
    s.evaluate t id = e.node.value t s.symbolic (s.evaluate t) := by
  have earlier := (h id e entry).earlier
  rw [evaluate.eq_def, entry]
  obtain ⟨node, mark⟩ := e
  cases node with
  | const | label | location | literal | invalid => rfl
  | neg a =>
    have smaller : a < id := earlier a (by simp [Node.operands])
    simp only [Option.map_some, smaller, dite_true, Node.value]
  | binary op a b =>
    have left : a < id := earlier a (by simp [Node.operands])
    have right : b < id := earlier b (by simp [Node.operands])
    simp only [Option.map_some, left, right, and_self, dite_true, Node.value]

theorem Layered.render_eq (h : s.Layered) (t : SymbolTable) {e : Expr}
    (entry : s.nodes[id]? = some e) : s.render t id = e.node.text t (s.render t) := by
  have earlier := (h id e entry).earlier
  rw [render.eq_def, entry]
  obtain ⟨node, mark⟩ := e
  cases node with
  | const | label | location | literal | invalid => rfl
  | neg a =>
    have smaller : a < id := earlier a (by simp [Node.operands])
    exact dif_pos smaller
  | binary op a b =>
    have left : a < id := earlier a (by simp [Node.operands])
    have right : b < id := earlier b (by simp [Node.operands])
    exact dif_pos ⟨left, right⟩

/-- A leaf of the expression `id` that is marked. -/
def MarkedLeaf (s : ExprStore) (id k : ExprId) : Prop :=
  s.Part k id ∧ ∃ e, s.nodes[k]? = some e ∧ e.node.operands = [] ∧ e.symbolic = true

/-- The mark of an expression is the disjunction of the marks of its leaves. -/
theorem Layered.symbolic_iff (h : s.Layered) (id : ExprId) :
    s.symbolic id = true ↔ ∃ k, s.MarkedLeaf id k := by
  constructor
  · intro flagged
    induction id using Nat.strongRecOn with
    | ind id ih =>
      obtain ⟨e, entry, mark⟩ : ∃ e, s.nodes[id]? = some e ∧ e.symbolic = true := by
        simpa [symbolic, Option.any_eq_true] using flagged
      have fits := h id e entry
      -- from a marked inner node a marked operand leads further down, until a leaf is reached
      by_cases leaf : e.node.operands = []
      · exact ⟨id, .self, e, entry, leaf, mark⟩
      · have some := (fits.marked leaf).symm.trans mark
        obtain ⟨a, member, below⟩ := List.any_eq_true.mp some
        obtain ⟨k, part, marked⟩ := ih a (fits.earlier a member) below
        exact ⟨k, part.of_operand entry member, marked⟩
  · rintro ⟨k, part, leaf, found, -, mark⟩
    induction part using Part.operand_induction with
    | self => exact (symbolic_eq found).trans mark
    | @operand id a e entry member inner ih =>
      have inner : e.node.operands ≠ [] := List.ne_nil_of_mem member
      rw [symbolic_eq entry, (h id e entry).marked inner]
      exact List.any_eq_true.mpr ⟨a, member, ih⟩

/-- `added` is a store built from `s` with the number of a node in it. -/
structure Grafts (s : ExprStore) (added : ExprId × ExprStore) : Prop where
  builds : s.Builds added.2
  inside : added.1 < added.2.size

theorem Grafts.lt {added : ExprId × ExprStore} (h : s.Grafts added) {a : ExprId}
    (inside : a < s.size) : a < added.2.size :=
  Nat.lt_of_lt_of_le inside h.builds.extends.size_le

theorem grafts_push {node : Node} {mark : Bool} (fits : node.Fits s s.size mark) :
    s.Grafts (s.push node mark) := by
  refine ⟨.push .refl fits, ?_⟩
  rw [size_push]
  exact Nat.lt_succ_self _

theorem grafts_leaf (s : ExprStore) {node : Node} (leaf : node.operands = []) (mark : Bool) :
    s.Grafts (s.push node mark) :=
  grafts_push (node.fits_leaf s s.size mark leaf)

theorem grafts_const (s : ExprStore) (x : Int32) : s.Grafts (s.const x) := grafts_leaf s rfl false

theorem grafts_binary (op : Operator) {a b : ExprId} (left : a < s.size) (right : b < s.size) :
    s.Grafts (s.binary op a b) :=
  grafts_push (Node.fits_binary op left right)

theorem grafts_field (op : Operator) (right code : Int32) {operand : ExprId}
    (inside : operand < s.size) : s.Grafts (s.field op right code operand) := by
  have first := grafts_const s right
  have second := grafts_binary op (first.lt inside) first.inside
  have third := grafts_const ((s.const right).2.binary op operand (s.const right).1).2 code
  have fourth := grafts_binary .or third.inside (third.lt second.inside)
  exact ⟨((first.builds.trans second.builds).trans third.builds).trans fourth.builds, fourth.inside⟩

end ExprStore

namespace Operand

theorem builds_leaf (t : Tables) {node : Node} (leaf : node.operands = []) (mark : Bool) :
    t.exprs.Builds (t.push node mark).2.exprs :=
  (t.exprs.grafts_leaf leaf mark).builds

theorem builds_literal (location : Int32) (c : Cursor) (t : Tables) :
    t.exprs.Builds (literal location c t).tables.exprs := by
  simp only [literal]
  split
  · exact builds_leaf (t.note _) rfl _
  · exact builds_leaf { t with symbols := _ } rfl _

theorem builds_negate {s : ExprStore} {r : Reading} (h : s.Builds r.tables.exprs)
    (inside : r.expr < r.tables.exprs.size) : s.Builds (negate r).tables.exprs := by
  simp only [negate]
  split
  · exact h.trans (builds_leaf (r.tables.note _) rfl _)
  · exact .push h (Node.fits_neg inside)

theorem builds_term (dialect : Dialect) (location : Int32) (c : Cursor) (t : Tables) :
    t.exprs.Builds (term dialect location c t).tables.exprs := by
  fun_induction term dialect location c t with
  | case1 | case4 => exact builds_leaf t rfl _
  | case2 => exact builds_leaf { t with symbols := _ } rfl _
  | case3 | case7 => exact builds_leaf (t.note _) rfl _
  | case5 => exact builds_literal _ _ _
  | case6 c _ _ r _ _ _ ih => exact builds_negate ih (grown_term dialect location _ t).inside

theorem builds_extend (dialect : Dialect) (location : Int32) {s : ExprStore} {left : Reading}
    (h : s.Builds left.tables.exprs) (inside : left.expr < left.tables.exprs.size) :
    s.Builds (extend dialect location left).tables.exprs := by
  fun_induction extend dialect location left with
  | case1 | case2 | case3 => exact h
  | case4 left => exact h.trans (builds_leaf (left.tables.note _) rfl _)
  | case5 => exact h.trans (builds_term _ _ _ _)
  | case6 left _ x r rest op written _ right _ exprs ih =>
    have second := builds_term dialect location (left.cursor.moveTo r) left.tables
    have last := (grown_term dialect location (left.cursor.moveTo r) left.tables).inside
    have first := Nat.lt_of_lt_of_le inside second.extends.size_le
    have joined := ExprStore.grafts_binary op first last
    exact ih ((h.trans second).trans joined.builds) joined.inside

theorem builds_read (dialect : Dialect) (location : Int32) (c : Cursor) (t : Tables) :
    t.exprs.Builds (read dialect location c t).tables.exprs :=
  builds_extend dialect location (builds_term dialect location c t)
    (grown_term dialect location c t).inside

end Operand

/-- A call that adds to a store. Terms and operands are read with whatever symbol table and
complaints there are at the time. -/
inductive Construction where
  | term (dialect : Dialect) (location : Int32) (c : Cursor) (symbols : SymbolTable)
      (complaints : List Diagnostic)
  | operand (dialect : Dialect) (location : Int32) (c : Cursor) (symbols : SymbolTable)
      (complaints : List Diagnostic)
  | const (value : Int32)
  | invalid
  | leaf (node : Node) (isLeaf : node.operands = []) (mark : Bool)
  | neg (a : ExprId)
  | binary (op : Operator) (a b : ExprId)
  | masked (code mask : Int32) (a : ExprId)
  | address11 (location code : Int32) (a : ExprId)
  | address12 (location code : Int32) (a : ExprId)

/-- The numbers that a call is given. -/
def Construction.given : Construction → List ExprId
  | neg a | masked _ _ a | address11 _ _ a | address12 _ _ a => [a]
  | binary _ a b => [a, b]
  | term _ _ _ _ _ | operand _ _ _ _ _ | const _ | invalid | leaf _ _ _ => []

namespace ExprStore

def construct (s : ExprStore) : Construction → ExprId × ExprStore
  | .term dialect location c symbols complaints =>
    let r := Operand.term dialect location c ⟨symbols, s, complaints⟩
    (r.expr, r.tables.exprs)
  | .operand dialect location c symbols complaints =>
    let r := Operand.read dialect location c ⟨symbols, s, complaints⟩
    (r.expr, r.tables.exprs)
  | .const value => s.const value
  | .invalid => s.invalid
  | .leaf node _ mark => s.push node mark
  | .neg a => s.neg a
  | .binary op a b => s.binary op a b
  | .masked code mask a => s.masked code mask a
  | .address11 location code a => s.address11 location code a
  | .address12 location code a => s.address12 location code a

/-- What any one call does. -/
theorem grafts_construct (s : ExprStore) (x : Construction) (inside : ∀ a ∈ x.given, a < s.size) :
    s.Grafts (s.construct x) := by
  cases x with
  | term dialect location c symbols complaints =>
    let t : Tables := ⟨symbols, s, complaints⟩
    exact ⟨Operand.builds_term dialect location c t,
      (Operand.grown_term dialect location c t).inside⟩
  | operand dialect location c symbols complaints =>
    let t : Tables := ⟨symbols, s, complaints⟩
    exact ⟨Operand.builds_read dialect location c t,
      (Operand.grown_read dialect location c t).inside⟩
  | const value => exact grafts_const s value
  | invalid => exact grafts_leaf s rfl false
  | leaf node isLeaf mark => exact grafts_leaf s isLeaf mark
  | neg a => exact grafts_push (Node.fits_neg (inside a (by simp [Construction.given])))
  | binary op a b =>
    have left := inside a (by simp [Construction.given])
    have right := inside b (by simp [Construction.given])
    exact grafts_binary op left right
  | masked | address11 | address12 =>
    exact grafts_field _ _ _ (inside _ (by simp [Construction.given]))

end ExprStore

/-- A store with the numbers that have been handed out, latest first. -/
structure Bench where
  store : ExprStore := {}
  handed : List ExprId := []

namespace Bench

def call (b : Bench) (x : Construction) : Bench :=
  ⟨(b.store.construct x).2, (b.store.construct x).1 :: b.handed⟩

def calls (b : Bench) (xs : List Construction) : Bench := xs.foldl call b

/-- Each call is only given numbers that have been handed out before it. -/
def Known : Bench → List Construction → Prop
  | _, [] => True
  | b, x :: xs => (∀ a ∈ x.given, a ∈ b.handed) ∧ (b.call x).Known xs

instance decidableKnown : (b : Bench) → (xs : List Construction) → Decidable (b.Known xs)
  | _, [] => .isTrue trivial
  | b, x :: xs => @instDecidableAnd _ _ inferInstance (decidableKnown (b.call x) xs)

/-- The numbers handed out belong to nodes. -/
def InStore (b : Bench) : Prop := ∀ id ∈ b.handed, id < b.store.size

theorem InStore.call {b : Bench} (h : b.InStore) {x : Construction}
    (known : ∀ a ∈ x.given, a ∈ b.handed) :
    b.store.Builds (b.call x).store ∧ (b.call x).InStore := by
  have grafts := b.store.grafts_construct x fun a member => h a (known a member)
  refine ⟨grafts.builds, ?_⟩
  intro id member
  rcases List.mem_cons.mp member with rfl | old
  · exact grafts.inside
  · exact grafts.lt (h id old)

/-- Call after call, the store is built from what it was. -/
theorem InStore.calls {b : Bench} (h : b.InStore) {xs : List Construction} (known : b.Known xs) :
    b.store.Builds (b.calls xs).store ∧ (b.calls xs).InStore := by
  induction xs generalizing b with
  | nil => exact ⟨.refl, h⟩
  | cons x xs ih =>
    obtain ⟨given, rest⟩ := known
    obtain ⟨first, inStore⟩ := h.call given
    obtain ⟨later, inStore'⟩ := ih inStore rest
    exact ⟨first.trans later, inStore'⟩

/-- In a store built by any calls evaluating and rendering an expression come to an end, and its
mark is the disjunction of the marks of its leaves. No later calls change what it evaluates to. -/
theorem calls_keep_expressions (xs later : List Construction) (known : Known {} xs)
    (known' : (calls {} xs).Known later) :
    let b := calls {} xs
    (∀ (id : ExprId) (e : Expr), b.store.nodes[id]? = some e →
      ∀ a ∈ e.node.operands, a < id) ∧
    (∀ (t : SymbolTable) (id : ExprId), id < b.store.size →
      b.store.Computes (Node.value t b.store.symbolic) id (b.store.evaluate t id) ∧
      b.store.Computes (Node.text t) id (b.store.render t id)) ∧
    (∀ id : ExprId, b.store.symbolic id = true ↔ ∃ k, b.store.MarkedLeaf id k) ∧
    (∀ id ∈ b.handed, id < b.store.size) ∧
    ∀ (t : SymbolTable) (id : ExprId), id < b.store.size →
      (b.calls later).store.evaluate t id = b.store.evaluate t id := by
  intro b
  have start : InStore {} := by
    intro id member
    cases member
  obtain ⟨built, inStore⟩ := start.calls known
  have layered := built.layered ExprStore.layered_empty
  refine ⟨?_, ?_, layered.symbolic_iff, inStore, ?_⟩
  · intro id e entry
    exact (layered id e entry).earlier
  · intro t id inside
    constructor
    · exact layered.computes (fun _ _ entry => layered.evaluate_eq t entry) inside
    · exact layered.computes (fun _ _ entry => layered.render_eq t entry) inside
  · intro t id inside
    exact (inStore.calls known').1.extends.evaluate t inside

/-- An operand with a label, a marked leaf and an invalid node, then fields on top of them. -/
theorem calls_keep_expressions_mixed :
    let xs : List Construction := [
      Construction.operand Dialect.midas 0o100 (Cursor.ofText "-A+3") {} [],
      Construction.leaf (Node.location 5) rfl true,
      Construction.binary Operator.sub 3 4,
      Construction.invalid]
    let later : List Construction := [
      Construction.address11 0o100 0o10000 5,
      Construction.masked 0o4000 0o77 6,
      Construction.neg 10]
    let b := calls {} xs
    Known {} xs ∧ b.Known later ∧ b.handed = [6, 5, 4, 3] ∧ b.store.symbolic 5 = true ∧
      (∃ k, b.store.MarkedLeaf 5 k) ∧
      ∀ t : SymbolTable, (b.calls later).store.evaluate t 5 = b.store.evaluate t 5 := by
  intro xs later b
  have known : Known {} xs := by decide +kernel
  have known' : b.Known later := by decide +kernel
  have handed : b.handed = [6, 5, 4, 3] := by decide +kernel
  have mark : b.store.symbolic 5 = true := by decide +kernel
  obtain ⟨-, -, leaves, inside, kept⟩ := calls_keep_expressions xs later known known'
  refine ⟨known, known', handed, mark, (leaves 5).mp mark, fun t => kept t 5 (inside 5 ?_)⟩
  rw [handed]
  decide

end Bench

end Pds1
