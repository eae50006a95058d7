import Pds1.Proofs.LiteralTable
import Pds1.Proofs.OperandComplaints

/-!
# Where a literal ends

A literal goes from its opening bracket to the first bracket that closes more than has been opened
since; brackets inside it may be nested to any depth. Its text is what stands between the two, less
one comma at the end. If no bracket closes it, nothing behind the opening bracket is read.
-/

namespace Pds1

namespace Operand

/-- More brackets are closed than opened, by more than `depth`. -/
def Overcloses (depth : Nat) (cs : List Char) : Prop := cs.count '[' + depth < cs.count ']'

instance (depth : Nat) : DecidablePred (Overcloses depth) :=
  fun _ => inferInstanceAs (Decidable (_ < _))

/-- The first `n` characters close more than `depth` brackets in excess, and no fewer characters
do. -/
structure ClosesAt (depth : Nat) (cs : List Char) (n : Nat) : Prop where
  closed : Overcloses depth (cs.take n)
  first : ∀ m < n, ¬ Overcloses depth (cs.take m)

section Depth

variable {depth depth' : Nat} {cs : List Char}

theorem ClosesAt.unique {m n : Nat} (h : ClosesAt depth cs m) (h' : ClosesAt depth cs n) :
    m = n := by
  rcases Nat.lt_trichotomy m n with less | same | more
  · exact absurd h.closed (h'.first m less)
  · exact same
  · exact absurd h'.closed (h.first n more)

theorem not_overcloses_nil (depth : Nat) : ¬ Overcloses depth [] := by
  simp [Overcloses]

theorem overcloses_open (depth : Nat) (cs : List Char) :
    Overcloses depth ('[' :: cs) ↔ Overcloses (depth + 1) cs := by
  simp [Overcloses]
  omega

theorem overcloses_close (depth : Nat) (cs : List Char) :
    Overcloses (depth + 1) (']' :: cs) ↔ Overcloses depth cs := by
  simp [Overcloses]
  omega

theorem overcloses_other {x : Char} (opens : x ≠ '[') (closes : x ≠ ']') (depth : Nat)
    (cs : List Char) : Overcloses depth (x :: cs) ↔ Overcloses depth cs := by
  simp [Overcloses, opens, closes]

/-- What looking for the closing bracket comes to: the text before it is one shorter than what
closes, or no beginning of the text closes. -/
inductive Scanned (depth : Nat) (cs : List Char) : Option (List Char × List Char) → Prop where
  | closed {text rest : List Char} (closes : ClosesAt depth cs (text.length + 1)) :
      Scanned depth cs (some (text, rest))
  | unclosed (never : ∀ n, ¬ Overcloses depth (cs.take n)) : Scanned depth cs none

/-- A character in front changes the depth to look for. -/
theorem Scanned.cons {found : Option (List Char × List Char)} (h : Scanned depth' cs found)
    {x : Char} (shift : ∀ u, Overcloses depth (x :: u) ↔ Overcloses depth' u) :
    Scanned depth (x :: cs) (found.map fun s => (x :: s.1, s.2)) := by
  cases h with
  | closed closes =>
    refine .closed ⟨(shift _).mpr closes.closed, ?_⟩
    intro m less
    cases m with
    | zero => exact not_overcloses_nil depth
    | succ m =>
      rw [List.take_succ_cons, shift]
      exact closes.first m (by simpa using less)
  | unclosed never =>
    refine .unclosed ?_
    intro n
    cases n with
    | zero => exact not_overcloses_nil depth
    | succ n =>
      rw [List.take_succ_cons, shift]
      exact never n

theorem scanned_closing? (depth : Nat) (cs : List Char) :
    Scanned depth cs (closing? depth cs) := by
  fun_induction closing? depth cs with
  | case1 depth => exact .unclosed fun n => by simpa using not_overcloses_nil depth
  | case2 depth r ih => exact ih.cons (overcloses_open depth)
  | case3 r =>
    refine .closed ⟨by simp [Overcloses], ?_⟩
    intro m less
    obtain rfl : m = 0 := by simpa using less
    exact not_overcloses_nil 0
  | case4 depth r ih => exact ih.cons (overcloses_close depth)
  | case5 depth x r opens outer inner ih =>
    have closes : x ≠ ']' := by
      intro same
      cases depth with
      | zero => exact outer rfl same
      | succ depth => exact inner depth rfl same
    exact ih.cons (overcloses_other opens closes depth)

/-- The bracket found is the first that closes in excess. -/
theorem closing?_of_closesAt {n : Nat} (h : ClosesAt depth cs n) :
    ∃ text, cs.take n = text ++ [']'] ∧ closing? depth cs = some (text, cs.drop n) := by
  have scanned := scanned_closing? depth cs
  generalize found : closing? depth cs = outcome at scanned
  cases scanned with
  | @closed text rest closes =>
    have split := closing?_eq found
    obtain rfl := closes.unique h
    refine ⟨text, ?_, ?_⟩
    · rw [split, List.take_length_add_append]
      rfl
    · congr 2
      rw [split, List.drop_length_add_append]
      rfl
  | unclosed never => exact absurd h.closed (never n)

theorem closing?_of_not_closesAt (h : ¬ ∃ n, ClosesAt depth cs n) : closing? depth cs = none := by
  have scanned := scanned_closing? depth cs
  generalize closing? depth cs = outcome at scanned
  cases scanned with
  | closed closes => exact absurd ⟨_, closes⟩ h
  | unclosed => rfl

end Depth

/-- At most one comma is taken off. -/
theorem dropComma_cases (cs : List Char) :
    cs = dropComma cs ++ [','] ∨ cs = dropComma cs ∧ cs.getLast? ≠ some ',' := by
  by_cases comma : cs.getLast? = some ','
  · obtain ⟨text, rfl⟩ := List.getLast?_eq_some_iff.mp comma
    left
    simp [dropComma]
  · right
    simp [dropComma, comma]

/-- A bracket begins neither a number nor a name. -/
theorem term_bracket (location : Int32) {c : Cursor} {r : List Char} (h : c.rest = '[' :: r)
    (t : Tables) : term .midas location c t = literal location (c.moveTo r) t := by
  have number := Number.read?_of_not_digit .midas h rfl
  have named : Name.read? .midas true c = none := by
    simp only [Name.read?, Name.dropBlanks_of_not_blank h rfl, h]
    rfl
  rw [term_cons .midas location t number named h]
  rfl

/-- A literal goes up to the first bracket that closes more than was opened, and refers to the text
before it, less one comma. Without such a bracket there is one complaint and an invalid node. -/
theorem literal_closes_first (location : Int32) {c : Cursor} {r : List Char}
    (opening : c.rest = '[' :: r) (t : Tables) :
    let out := term Dialect.midas location c t
    (∀ n, ClosesAt 0 r n → ∃ before text : List Char,
      r.take n = before ++ [']'] ∧
      (before = text ++ [','] ∨ before = text ∧ before.getLast? ≠ some ',') ∧
      let interned := t.symbols.intern (String.ofList text) location
      out.cursor = c.moveTo (r.drop n) ∧
      out.tables.symbols = interned.2 ∧
      out.tables.exprs.nodes[out.expr]? = some ⟨Node.literal interned.1, true⟩ ∧
      out.tables.diagnostics = t.diagnostics ∧
      ∀ order, SymbolTable.Consistent order t.symbols →
        out.tables.symbols.literalText interned.1 = String.ofList text) ∧
    ((¬ ∃ n, ClosesAt 0 r n) →
      out.tables.diagnostics = t.diagnostics ++ [Diagnostic.unterminatedLiteral] ∧
      Diagnostic.unterminatedLiteral.message = "Unterminated literal" ∧
      out.isInvalid = true ∧ out.tables.symbols = t.symbols ∧ out.cursor = c.moveTo r) := by
  intro out
  have read : out = literal location (c.moveTo r) t := term_bracket location opening t
  constructor
  · intro n closes
    obtain ⟨before, taken, found⟩ := closing?_of_closesAt closes
    refine ⟨before, dropComma before, taken, dropComma_cases before, ?_⟩
    intro interned
    have captured : out = .of ({ t with symbols := interned.2 }.push (.literal interned.1) true)
        (c.moveTo (r.drop n)) := by
      rw [read, literal, Cursor.rest_moveTo, found]
      rfl
    rw [captured]
    refine ⟨rfl, rfl, ExprStore.getElem?_push_size _ _ _, rfl, ?_⟩
    intro order consistent
    exact consistent.literalText_intern _ location
  · intro never
    have refused : out = .of (t.reject .unterminatedLiteral) (c.moveTo r) := by
      rw [read, literal, Cursor.rest_moveTo, closing?_of_not_closesAt never]
    rw [refused]
    refine ⟨rfl, rfl, ?_, rfl, rfl⟩
    rw [Tables.reject, isInvalid_push]
    rfl

/-- A literal with brackets in it, a character of two bytes and a comma at the end, and one in which
every bracket is closed but the first. -/
theorem literal_closes_first_nested :
    let r := ['é', '[', '1', ']', ',', ']', ',', 'X']
    let r' := ['é', '[', '1', ']', ',']
    let c := Cursor.ofList ('[' :: r)
    let c' := Cursor.ofList ('[' :: r')
    (ClosesAt 0 r 6 ∧ (term Dialect.midas 0o100 c {}).cursor = c.moveTo [',', 'X'] ∧
      (term Dialect.midas 0o100 c {}).tables.symbols =
        (SymbolTable.intern {} (String.ofList ['é', '[', '1', ']']) 0o100).2) ∧
    (¬ ∃ n, ClosesAt 0 r' n) ∧ (term Dialect.midas 0o100 c' {}).cursor = c'.moveTo r' ∧
      (term Dialect.midas 0o100 c' {}).tables.diagnostics = [Diagnostic.unterminatedLiteral] := by
  intro r r' c c'
  have closes : ClosesAt 0 r 6 := ⟨by decide, by decide⟩
  have never : ¬ ∃ n, ClosesAt 0 r' n := by
    rintro ⟨n, closes'⟩
    obtain ⟨text, -, found⟩ := closing?_of_closesAt closes'
    cases found
  obtain ⟨captured, -⟩ := literal_closes_first 0o100 (c := c) rfl {}
  obtain ⟨-, refused⟩ := literal_closes_first 0o100 (c := c') rfl {}
  obtain ⟨before, text, taken, comma, consumed, interned, -⟩ := captured 6 closes
  obtain ⟨said, -, -, -, stays⟩ := refused never
  have split : before = ['é', '[', '1', ']', ','] := List.append_cancel_right taken.symm
  have plain : text = ['é', '[', '1', ']'] := by
    rcases comma with less | ⟨-, other⟩
    · exact List.append_cancel_right (less.symm.trans split)
    · exact absurd (by rw [split]; rfl) other
  refine ⟨⟨closes, consumed, ?_⟩, never, stays, said⟩
  rw [interned, plain]

end Operand

end Pds1
