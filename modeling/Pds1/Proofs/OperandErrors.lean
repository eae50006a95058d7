import Pds1.Proofs.CursorPlace
import Pds1.Proofs.OperandComplaints
import Pds1.Proofs.SymbolicMarks

/-!
# Operands that cannot be read

An operand that cannot be read comes back as an invalid node, and never without a complaint. Any
other operand is intact: it is made of nodes that were added while it was read, and a term that
turned out to be invalid was not joined to anything. This holds in every store, also in one that has
invalid nodes from earlier operands or nodes in no order at all.
-/

namespace Pds1

namespace ExprStore

variable {s s' : ExprStore} {id : ExprId}

/-- Every part of the expression is there and was read without complaint. -/
def Intact (s : ExprStore) (id : ExprId) : Prop := ∀ k, s.Part k id → s.Valid k

theorem Intact.operand (h : s.Intact id) {e : Expr} (entry : s.nodes[id]? = some e) {a : ExprId}
    (member : a ∈ e.node.operands) : s.Intact a := by
  intro k part
  exact h k (part.of_operand entry member)

/-- An intact expression has no new parts in a store that has grown. -/
theorem Intact.part_of_extends (h : s.Intact id) (grown : s.Extends s') {k : ExprId}
    (part : s'.Part k id) : s.Part k id := by
  induction part using Part.operand_induction with
  | self => exact .self
  | @operand id a e entry member inner ih =>
    obtain ⟨old, there, -⟩ := h id .self
    -- the node is the one the smaller store has, so its operands are intact there
    obtain rfl : old = e := Option.some.inj ((grown id old there).symm.trans entry)
    exact (ih (h.operand there member)).of_operand there member

theorem Extends.intact (grown : s.Extends s') (h : s.Intact id) : s'.Intact id := by
  intro k part
  exact grown.valid (h k (h.part_of_extends grown part))

/-- A node on top of intact operands. -/
theorem intact_push {node : Node} (valid : node ≠ .invalid)
    (operands : ∀ a ∈ node.operands, s.Intact a) (mark : Bool) :
    (s.push node mark).2.Intact s.size := by
  have grown := extends_push s node mark
  have last := getElem?_push_size s node mark
  intro k part
  cases part using Part.operand_induction with
  | self => exact ⟨_, last, valid⟩
  | @operand _ a e entry member inner =>
    obtain rfl : ⟨node, mark⟩ = e := Option.some.inj (last.symm.trans entry)
    exact grown.intact (operands a member) k inner

end ExprStore

namespace Operand

/-- Unless the reading is invalid, the expression is intact. -/
def Reading.Intact (r : Reading) : Prop := r.isInvalid = false → r.tables.exprs.Intact r.expr

theorem intact_push (t : Tables) (node : Node) (mark : Bool) (c : Cursor)
    (operands : ∀ a ∈ node.operands, t.exprs.Intact a) :
    (Reading.of (t.push node mark) c).Intact := by
  intro valid
  rw [isInvalid_push, decide_eq_false_iff_not] at valid
  exact ExprStore.intact_push valid operands mark

theorem intact_leaf (t : Tables) {node : Node} (leaf : node.operands = []) (mark : Bool)
    (c : Cursor) : (Reading.of (t.push node mark) c).Intact := by
  apply intact_push
  intro a member
  simp [leaf] at member

theorem intact_literal (location : Int32) (c : Cursor) (t : Tables) :
    (literal location c t).Intact := by
  simp only [literal]
  split
  · exact intact_leaf _ rfl _ _
  · exact intact_leaf _ rfl _ _

/-- A minus sign is put on a term only if the term is valid. -/
theorem Reading.Intact.negate {r : Reading} (h : r.Intact) : (Operand.negate r).Intact := by
  simp only [Operand.negate]
  split
  · exact intact_leaf _ rfl _ _
  · next valid =>
    apply intact_push
    intro a member
    obtain rfl : a = r.expr := List.mem_singleton.mp member
    exact h (by simpa using valid)

theorem intact_term (dialect : Dialect) (location : Int32) (c : Cursor) (t : Tables) :
    (term dialect location c t).Intact := by
  fun_induction term dialect location c t with
  | case1 | case2 | case3 | case4 | case7 => exact intact_leaf _ rfl _ _
  | case5 => exact intact_literal _ _ _
  | case6 c _ _ r _ _ _ ih => exact ih.negate

/-- Terms are joined only if both are valid. -/
theorem Reading.Intact.extend (dialect : Dialect) (location : Int32) {left : Reading}
    (h : left.Intact) : (Operand.extend dialect location left).Intact := by
  fun_induction Operand.extend dialect location left with
  | case1 | case2 | case3 => exact h
  | case4 => exact intact_leaf _ rfl _ _
  | case5 => exact intact_term _ _ _ _
  | case6 left valid x r rest op written more right valid' exprs ih =>
    have grown := (grown_term dialect location (left.cursor.moveTo r) left.tables).grows.exprs
    -- the left operand was read before the right one, so it has to survive the nodes added since
    have first := grown.intact (h (by simpa using valid))
    have second := intact_term dialect location (left.cursor.moveTo r) left.tables
    apply ih
    apply intact_push
    intro a member
    rcases List.mem_cons.mp member with rfl | last
    · exact first
    · obtain rfl : a = right.expr := List.mem_singleton.mp last
      exact second (by simpa using valid')

/-- Only what is still to be read changes, not the line or the saved places. -/
theorem cursor_read (dialect : Dialect) (location : Int32) (c : Cursor) (t : Tables) :
    (read dialect location c t).cursor =
      c.moveTo (read dialect location c t).cursor.rest := by
  have same := read_along dialect location c c t
  rw [Cursor.along_self] at same
  exact congrArg Reading.cursor same

/-- Reading an operand gives an invalid node exactly if it adds to the complaints. Any other node
has no invalid part. The cursor stays on its line and does not go back. -/
theorem invalid_iff_complains (dialect : Dialect) (location : Int32) (c : Cursor) (t : Tables) :
    let r := read dialect location c t
    r.expr < r.tables.exprs.size ∧
    (∃ said, r.tables.diagnostics = t.diagnostics ++ said ∧ (r.isInvalid = true ↔ said ≠ [])) ∧
    (r.isInvalid = false →
      ∀ k, r.tables.exprs.Part k r.expr →
        k < r.tables.exprs.size ∧ r.tables.exprs.isInvalid k = false) ∧
    r.cursor = c.moveTo r.cursor.rest ∧ r.cursor.rest <:+ c.rest ∧
    c.position ≤ r.cursor.position := by
  intro r
  obtain ⟨said, speaks⟩ := speaks_read dialect location c t
  have intact : r.Intact := (intact_term dialect location c t).extend dialect location
  have forward : r.cursor.rest <:+ c.rest := read_suffix dialect location c t
  have stays : r.cursor = c.moveTo r.cursor.rest := cursor_read dialect location c t
  refine ⟨(grown_read dialect location c t).inside, ⟨said, ?_, ?_⟩, ?_, stays, forward, ?_⟩
  · exact speaks.diagnostics t.diagnostics
  · exact speaks.isInvalid t.diagnostics
  · intro valid k part
    exact ExprStore.valid_iff.mp (intact valid k part)
  · have shorter := Cursor.byteSize_le_of_suffix forward
    rw [stays]
    simp only [Cursor.position, Cursor.moveTo]
    omega

end Operand

end Pds1
