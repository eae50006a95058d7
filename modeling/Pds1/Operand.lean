import Pds1.Diagnostic
import Pds1.Name
import Pds1.Number

/-!
# Operands

An operand is a list of terms joined by `+ - * /` without precedence. Reading it enters the names
and literals it mentions and adds its nodes to the store. An operand that cannot be read leaves a
diagnostic and an invalid node, which never becomes part of another expression. Reading only
moves the cursor forward.
-/

namespace Pds1

/-- What reading an operand may add to. -/
structure Tables where
  symbols : SymbolTable := {}
  exprs : ExprStore := {}
  /-- Complaints about the current line, oldest first. -/
  diagnostics : List Diagnostic := []
  deriving DecidableEq

namespace Tables

def note (t : Tables) (d : Diagnostic) : Tables := { t with diagnostics := t.diagnostics ++ [d] }

/-- Adds a node. -/
def push (t : Tables) (node : Node) (symbolic : Bool) : ExprId × Tables :=
  let (id, exprs) := t.exprs.push node symbolic
  (id, { t with exprs := exprs })

/-- Complains and leaves an invalid node. -/
def reject (t : Tables) (d : Diagnostic) : ExprId × Tables := (t.note d).push .invalid false

end Tables

namespace Operand

/-- An expression together with where its reading stopped. -/
structure Reading where
  expr : ExprId
  cursor : Cursor
  tables : Tables

namespace Reading

def isInvalid (r : Reading) : Bool := r.tables.exprs.isInvalid r.expr

/-- An expression just added to the tables. -/
def of (added : ExprId × Tables) (c : Cursor) : Reading := ⟨added.1, c, added.2⟩

@[simp] theorem cursor_of (added : ExprId × Tables) (c : Cursor) : (of added c).cursor = c := rfl

end Reading

/-- Splits at the bracket that closes `depth` open brackets and one more: what stands before it and
what follows. -/
def closing? : Nat → List Char → Option (List Char × List Char)
  | _, [] => none
  | depth, '[' :: r => (closing? (depth + 1) r).map fun s => ('[' :: s.1, s.2)
  | 0, ']' :: r => some ([], r)
  | depth + 1, ']' :: r => (closing? depth r).map fun s => (']' :: s.1, s.2)
  | depth, c :: r => (closing? depth r).map fun s => (c :: s.1, s.2)

/-- A literal's text does not include one comma at its end. -/
def dropComma (text : List Char) : List Char :=
  if text.getLast? = some ',' then text.dropLast else text

/-- Reads a literal whose opening bracket has been read. -/
def literal (location : Int32) (c : Cursor) (t : Tables) : Reading :=
  match closing? 0 c.rest with
  | none => .of (t.reject .unterminatedLiteral) c
  | some (text, rest) =>
    let (id, symbols) := t.symbols.intern (String.ofList (dropComma text)) location
    .of ({ t with symbols := symbols }.push (.literal id) true) (c.moveTo rest)

/-- Enters a name met in an operand. -/
def name (name : String) (c : Cursor) (t : Tables) : Reading :=
  let (id, symbols) := t.symbols.reference name
  .of ({ t with symbols := symbols }.push (.label id) (!symbols.isConstant id)) c

/-- Applies a unary minus to a term just read. -/
def negate (r : Reading) : Reading :=
  if r.isInvalid then .of (r.tables.reject .termMissing) r.cursor
  else .of (r.tables.push (.neg r.expr) (r.tables.exprs.symbolic r.expr)) r.cursor

/-- Reads one term. -/
def term (dialect : Dialect) (location : Int32) (c : Cursor) (t : Tables) : Reading :=
  match Number.read? dialect c with
  | some (value, d) => .of (t.push (.const value) false) d
  | none =>
    match Name.read? dialect true c with
    | some (text, d) => name text d t
    | none =>
      match _h : c.rest with
      | [] => .of (t.reject .operandMissing) c
      | x :: r =>
        if x = '.' then .of (t.push (.location location) false) (c.moveTo r)
        else if x = '[' && dialect.isMidas then literal location (c.moveTo r) t
        else if x = '-' then negate (term dialect location (c.moveTo r) t)
        else .of (t.reject (.operandSyntax x)) c
termination_by c.rest.length
decreasing_by simp [_h]

theorem closing?_suffix {depth : Nat} {cs text rest : List Char}
    (h : closing? depth cs = some (text, rest)) : rest <:+ cs := by
  fun_induction closing? depth cs generalizing text rest with
  | case1 => cases h
  | case2 depth r ih =>
    obtain ⟨s, hs, hp⟩ := Option.map_eq_some_iff.1 h
    cases hp
    exact (ih hs).trans (List.suffix_cons _ _)
  | case3 r =>
    cases h
    exact List.suffix_cons _ _
  | case4 depth r ih =>
    obtain ⟨s, hs, hp⟩ := Option.map_eq_some_iff.1 h
    cases hp
    exact (ih hs).trans (List.suffix_cons _ _)
  | case5 depth c r _ _ _ ih =>
    obtain ⟨s, hs, hp⟩ := Option.map_eq_some_iff.1 h
    cases hp
    exact (ih hs).trans (List.suffix_cons _ _)

theorem literal_suffix (location : Int32) (c : Cursor) (t : Tables) :
    (literal location c t).cursor.rest <:+ c.rest := by
  rw [literal]
  split
  · exact List.suffix_refl _
  · next text rest h => exact closing?_suffix h

@[simp] theorem cursor_negate (r : Reading) : (negate r).cursor = r.cursor := by
  rw [negate]
  split <;> rfl

theorem term_suffix (dialect : Dialect) (location : Int32) (c : Cursor) (t : Tables) :
    (term dialect location c t).cursor.rest <:+ c.rest := by
  fun_induction term dialect location c t with
  | case1 c value d h => exact Number.read?_suffix h
  | case2 c _ text d h => exact Name.read?_suffix h
  | case3 => exact List.suffix_refl _
  | case4 c _ _ r h => simp [h]
  | case5 c _ _ x r h =>
    rw [h]
    exact (literal_suffix _ _ _).trans (List.suffix_cons _ _)
  | case6 c _ _ r h _ _ ih =>
    rw [cursor_negate, h]
    exact ih.trans (List.suffix_cons _ _)
  | case7 => exact List.suffix_refl _

/-- Folds the operators and terms that follow `left` into it. -/
def extend (dialect : Dialect) (location : Int32) (left : Reading) : Reading :=
  if left.isInvalid then left
  else
    match _h : left.cursor.rest with
    | [] => left
    | x :: r =>
      match Operator.ofChar? x with
      | none => left
      | some op =>
        if r.isEmpty then
          .of (left.tables.reject (.secondOperandMissing op)) (left.cursor.moveTo r)
        else
          let right := term dialect location (left.cursor.moveTo r) left.tables
          if right.isInvalid then right
          else
            let exprs := right.tables.exprs
            extend dialect location
              (.of (right.tables.push (.binary op left.expr right.expr)
                (exprs.symbolic left.expr || exprs.symbolic right.expr)) right.cursor)
termination_by left.cursor.rest.length
decreasing_by
  have h := (term_suffix dialect location (left.cursor.moveTo r) left.tables).length_le
  simp only [Cursor.rest_moveTo] at h
  simp only [Reading.cursor_of, _h, List.length_cons]
  omega

/-- Reads an operand. -/
def read (dialect : Dialect) (location : Int32) (c : Cursor) (t : Tables) : Reading :=
  extend dialect location (term dialect location c t)

theorem extend_suffix (dialect : Dialect) (location : Int32) (left : Reading) :
    (extend dialect location left).cursor.rest <:+ left.cursor.rest := by
  fun_induction extend dialect location left with
  | case1 => exact List.suffix_refl _
  | case2 => exact List.suffix_refl _
  | case3 => exact List.suffix_refl _
  | case4 left _ x r h => simp [h]
  | case5 left _ x r h =>
    rw [h]
    exact (term_suffix _ _ _ _).trans (List.suffix_cons _ _)
  | case6 left _ x r h _ _ _ right _ _ ih =>
    rw [h]
    exact (ih.trans (term_suffix _ _ _ _)).trans (List.suffix_cons _ _)

theorem read_suffix (dialect : Dialect) (location : Int32) (c : Cursor) (t : Tables) :
    (read dialect location c t).cursor.rest <:+ c.rest :=
  (extend_suffix _ _ _).trans (term_suffix _ _ _ _)

end Operand

end Pds1
