import Pds1.Proofs.OperandTerms

/-!
# The complaints of reading an operand

Reading an operand adds to the complaints about the line and never looks at those that are there.
It complains exactly if the operand cannot be read, so an invalid expression always comes with a
reason.
-/

namespace Pds1

namespace Operand

/-- The same reading with other complaints. -/
def Reading.saying (r : Reading) (ds : List Diagnostic) : Reading :=
  { r with tables := { r.tables with diagnostics := ds } }

@[simp] theorem Reading.isInvalid_saying (r : Reading) (ds : List Diagnostic) :
    (r.saying ds).isInvalid = r.isInvalid := rfl

/-- Whatever complaints `ds` there are, reading adds `said` to them and does the same otherwise. It
says something exactly if the expression is invalid. -/
structure Speaks (read : List Diagnostic → Reading) (said : List Diagnostic) : Prop where
  adds : ∀ ds, read ds = (read []).saying (ds ++ said)
  invalid : (read []).isInvalid = true ↔ said ≠ []

variable {read : List Diagnostic → Reading} {said : List Diagnostic}

theorem Speaks.isInvalid (h : Speaks read said) (ds : List Diagnostic) :
    (read ds).isInvalid = true ↔ said ≠ [] := by
  rw [h.adds ds]
  exact h.invalid

theorem Speaks.diagnostics (h : Speaks read said) (ds : List Diagnostic) :
    (read ds).tables.diagnostics = ds ++ said := by
  rw [h.adds ds]
  rfl

theorem isInvalid_push (t : Tables) (node : Node) (symbolic : Bool) (c : Cursor) :
    (Reading.of (t.push node symbolic) c).isInvalid = decide (node = .invalid) := by
  change (t.exprs.push node symbolic).2.isInvalid t.exprs.size = _
  simp [ExprStore.isInvalid, ExprStore.getElem?_push_size]

theorem speaks_push (t : Tables) (node : Node) (symbolic : Bool) (c : Cursor)
    (valid : node ≠ .invalid)
    (h : ∀ ds, read ds = .of ({ t with diagnostics := ds }.push node symbolic) c) :
    Speaks read [] := by
  refine ⟨?_, ?_⟩
  · intro ds
    rw [h, h, List.append_nil]
    rfl
  · simp [h, isInvalid_push, valid]

theorem speaks_reject (t : Tables) (before : List Diagnostic) (d : Diagnostic) (c : Cursor)
    (h : ∀ ds, read ds = .of ({ t with diagnostics := ds ++ before }.reject d) c) :
    Speaks read (before ++ [d]) := by
  refine ⟨?_, ?_⟩
  · intro ds
    rw [h, h, ← List.append_assoc]
    rfl
  · simp [h, Tables.reject, isInvalid_push]

/-- Without a complaint only the list of complaints varies. -/
theorem Speaks.saying (h : Speaks read []) (ds ds' : List Diagnostic) :
    read ds = (read ds').saying ds := by
  rw [h.adds ds, h.adds ds', List.append_nil]
  rfl

/-- A minus sign before something invalid is one more complaint. -/
theorem Speaks.negate (h : Speaks read said) :
    ∃ said', Speaks (fun ds => negate (read ds)) said' := by
  by_cases silent : said = []
  · subst silent
    refine ⟨[], speaks_push (read []).tables (.neg (read []).expr)
      ((read []).tables.exprs.symbolic (read []).expr) (read []).cursor (by simp) ?_⟩
    intro ds
    have valid : ¬ (read ds).isInvalid = true := by simp [h.isInvalid]
    rw [Operand.negate, if_neg valid, h.saying ds []]
    rfl
  · refine ⟨_, speaks_reject (read []).tables said .termMissing (read []).cursor ?_⟩
    intro ds
    rw [Operand.negate, if_pos ((h.isInvalid ds).mpr silent), h.adds ds]
    rfl

variable (dialect : Dialect) (location : Int32)

theorem speaks_literal (c : Cursor) (t : Tables) :
    ∃ said, Speaks (fun ds => literal location c { t with diagnostics := ds }) said := by
  cases closed : closing? 0 c.rest with
  | none =>
    refine ⟨_, speaks_reject t [] .unterminatedLiteral c fun ds => ?_⟩
    simp only [literal, closed, List.append_nil]
  | some parts =>
    let interned := t.symbols.intern (String.ofList (dropComma parts.1)) location
    refine ⟨[], speaks_push { t with symbols := interned.2 } (.literal interned.1) true
      (c.moveTo parts.2) (by simp) fun ds => ?_⟩
    simp only [literal, closed]
    rfl

theorem speaks_name (text : String) (c : Cursor) (t : Tables) :
    Speaks (fun ds => name text c { t with diagnostics := ds }) [] := by
  let entered := t.symbols.reference text
  exact speaks_push { t with symbols := entered.2 } (.label entered.1)
    (!entered.2.isConstant entered.1) c (by simp) fun _ => rfl

theorem speaks_term (c : Cursor) (t : Tables) :
    ∃ said, Speaks (fun ds => term dialect location c { t with diagnostics := ds }) said := by
  fun_induction term dialect location c t with
  | case1 c value d number =>
    refine ⟨[], speaks_push t (.const value) false d (by simp) fun ds => ?_⟩
    rw [term, number]
  | case2 c number text d named =>
    have same : (fun ds => term dialect location c { t with diagnostics := ds }) =
        fun ds => name text d { t with diagnostics := ds } := by
      funext ds
      rw [term, number, named]
    rw [same]
    exact ⟨[], speaks_name text d t⟩
  | case3 c number named empty =>
    refine ⟨_, speaks_reject t [] .operandMissing c fun ds => ?_⟩
    rw [term_of_end dialect location _ number named empty, List.append_nil]
  | case4 c number named r point =>
    refine ⟨[], speaks_push t (.location location) false (c.moveTo r) (by simp) fun ds => ?_⟩
    rw [term_cons dialect location _ number named point, if_pos rfl]
  | case5 c number named x r bracket other isLiteral =>
    simp only [term_cons dialect location _ number named bracket, other, isLiteral, if_true,
      if_false]
    exact speaks_literal location (c.moveTo r) t
  | case6 c number named r minus _ _ ih =>
    simp only [term_minus dialect location _ minus]
    exact ih.elim fun _ speaks => speaks.negate
  | case7 c number named x r cons point bracket minus =>
    refine ⟨_, speaks_reject t [] (.operandSyntax x) c fun ds => ?_⟩
    rw [term_cons dialect location _ number named cons, if_neg point, if_neg bracket, if_neg minus,
      List.append_nil]

theorem speaks_saying {r : Reading} (valid : r.isInvalid = false) : Speaks r.saying [] := by
  refine ⟨?_, ?_⟩
  · intro ds
    rw [List.append_nil]
    rfl
  · simpa using valid

/-- What follows a valid expression may be invalid. -/
theorem speaks_extend {left : Reading} (valid : left.isInvalid = false) :
    ∃ said, Speaks (fun ds => extend dialect location (left.saying ds)) said := by
  fun_induction extend dialect location left with
  | case1 left invalid => simp [invalid] at valid
  | case2 left _ empty =>
    have ended (ds) : extend dialect location (left.saying ds) = left.saying ds :=
      extend_of_rest dialect location (by simp [Reading.saying, empty])
    simp only [ended]
    exact ⟨[], speaks_saying valid⟩
  | case3 left _ x r cons none =>
    have ended (ds) : extend dialect location (left.saying ds) = left.saying ds :=
      extend_of_rest dialect location (by simp [Reading.saying, cons, none])
    simp only [ended]
    exact ⟨[], speaks_saying valid⟩
  | case4 left _ x r cons op operator alone =>
    refine ⟨_, speaks_reject left.tables [] (.secondOperandMissing op) (left.cursor.moveTo r)
      fun ds => ?_⟩
    rw [@extend_cons _ _ (left.saying ds) _ _ _ valid cons operator, if_pos alone, List.append_nil]
    rfl
  | case5 left _ x r cons op operator more right invalid =>
    obtain ⟨said, speaks⟩ := speaks_term dialect location (left.cursor.moveTo r) left.tables
    have spoken : said ≠ [] := (speaks.isInvalid left.tables.diagnostics).mp invalid
    have stopped (ds) : extend dialect location (left.saying ds) =
        term dialect location (left.cursor.moveTo r) { left.tables with diagnostics := ds } := by
      rw [@extend_cons _ _ (left.saying ds) _ _ _ valid cons operator, if_neg more]
      exact if_pos ((speaks.isInvalid ds).mpr spoken)
    simp only [stopped]
    exact ⟨said, speaks⟩
  | case6 left _ x r cons op operator more right valid' exprs ih =>
    obtain ⟨said, speaks⟩ := speaks_term dialect location (left.cursor.moveTo r) left.tables
    have silent : said = [] := Decidable.of_not_not fun spoken =>
      valid' ((speaks.isInvalid left.tables.diagnostics).mpr spoken)
    subst silent
    obtain ⟨said, rest⟩ := ih (by rw [isInvalid_push]; rfl)
    have joined (ds) : extend dialect location (left.saying ds) =
        extend dialect location (Reading.saying (.of (right.tables.push
          (.binary op left.expr right.expr) (exprs.symbolic left.expr || exprs.symbolic right.expr))
          right.cursor) ds) := by
      rw [@extend_cons _ _ (left.saying ds) _ _ _ valid cons operator, if_neg more]
      have again :
          term dialect location ((left.saying ds).cursor.moveTo r) (left.saying ds).tables =
            right.saying ds := speaks.saying ds left.tables.diagnostics
      simp only [again, Reading.isInvalid_saying, valid', Bool.false_eq_true, if_false]
      rfl
    simp only [joined]
    exact ⟨said, rest⟩

/-- Reading an operand says something exactly if the operand is invalid. -/
theorem speaks_read (c : Cursor) (t : Tables) :
    ∃ said,
      Speaks (fun ds => Operand.read dialect location c { t with diagnostics := ds }) said := by
  obtain ⟨said, first⟩ := speaks_term dialect location c t
  by_cases silent : said = []
  · subst silent
    have valid : (term dialect location c { t with diagnostics := [] }).isInvalid = false := by
      simpa using first.invalid
    have started (ds : List Diagnostic) :
        Operand.read dialect location c { t with diagnostics := ds } =
          extend dialect location
            ((term dialect location c { t with diagnostics := [] }).saying ds) :=
      congrArg (extend dialect location) (first.saying ds [])
    simp only [started]
    exact speaks_extend dialect location valid
  · have stopped (ds : List Diagnostic) :
        Operand.read dialect location c { t with diagnostics := ds } =
          term dialect location c { t with diagnostics := ds } := by
      rw [Operand.read, extend, if_pos ((first.isInvalid ds).mpr silent)]
    simp only [stopped]
    exact ⟨said, first⟩

end Operand

end Pds1
