import Pds1.Proofs.LabelTable
import Pds1.Proofs.OperandTerms

/-!
# Operands are worked out from left to right

An operand written without blanks is a chain of terms: octal numbers, names and points, each under
any number of minus signs, with operators between them. In every dialect reading consumes exactly
the chain, and the value of the expression is the fold of the operators over the values of the
terms, in 32-bit arithmetic that wraps. The first term without a value, or the first division by
zero, decides the failure.
-/

namespace Pds1

namespace SymbolTable

/-- A name that is found in `t` is found in `t'` under the same number. -/
def KeepsIds (t t' : SymbolTable) : Prop :=
  ∀ name id, t.labelId? name = some id → t'.labelId? name = some id

theorem keepsIds_refl (t : SymbolTable) : t.KeepsIds t := fun _ _ found => found

theorem KeepsIds.trans {t t' t'' : SymbolTable} (h : t.KeepsIds t') (h' : t'.KeepsIds t'') :
    t.KeepsIds t'' :=
  fun name id found => h' name id (h name id found)

/-- Whether the entry of a name is a constant. -/
def isConstantName (t : SymbolTable) (name : String) : Bool := (t.lookup? name).any Label.constant

/-- From `t` to `t'` names have been entered by references to them. -/
structure Enters (t t' : SymbolTable) : Prop where
  ids : t.KeepsIds t'
  constant : ∀ name, t'.isConstantName name = t.isConstantName name
  binding : ∀ name, t'.binding? name = t.binding? name

theorem enters_refl (t : SymbolTable) : t.Enters t := ⟨keepsIds_refl t, fun _ => rfl, fun _ => rfl⟩

theorem Enters.trans {t t' t'' : SymbolTable} (h : t.Enters t') (h' : t'.Enters t'') :
    t.Enters t'' where
  ids := h.ids.trans h'.ids
  constant name := (h'.constant name).trans (h.constant name)
  binding name := (h'.binding name).trans (h.binding name)

section Reference

variable (t : SymbolTable) (name : String)

theorem labelId?_reference :
    (t.reference name).2.labelId? name = some (t.reference name).1 := by
  simp only [reference]
  split
  · next found => exact found
  · next new =>
    rw [labelId?] at new
    simp [labelId?, Array.findIdx?_push, new]

theorem keepsIds_reference : t.KeepsIds (t.reference name).2 := by
  intro other id found
  simp only [reference]
  split
  · exact found
  · rw [labelId?] at found
    rw [labelId?, Array.findIdx?_push, found, Option.some_or]

/-- A name that is entered by a reference is no constant. -/
theorem isConstantName_reference (other : String) :
    (t.reference name).2.isConstantName other = t.isConstantName other := by
  simp only [reference]
  split
  · rfl
  · simp only [isConstantName, lookup?_eq, Array.find?_push]
    cases t.labels.find? fun entry => entry.1 == other with
    | some entry => rfl
    | none =>
      simp only [Option.none_or]
      split
      · rfl
      · rfl

theorem enters_reference : t.Enters (t.reference name).2 :=
  ⟨keepsIds_reference t name, isConstantName_reference t name, (keeps_reference t name).binding⟩

theorem isConstant_reference :
    (t.reference name).2.isConstant (t.reference name).1 = t.isConstantName name := by
  rw [← isConstantName_reference t name name, isConstantName, lookup?, labelId?_reference]
  rfl

end Reference

end SymbolTable

namespace Evaluation

/-- A value or failure without warnings. -/
def quiet (value : Except EvalError Int32) : Evaluation := ⟨value, []⟩

theorem quiet_andThen (x : Except EvalError Int32) (next : Int32 → Except EvalError Int32) :
    (quiet x).andThen (fun v => quiet (next v)) = quiet (x >>= next) := by
  cases x with
  | ok v => rfl
  | error e => rfl

theorem quiet_map (x : Except EvalError Int32) (f : Int32 → Int32) :
    (quiet x).andThen (fun v => pure (f v)) = quiet (x.map f) := by
  cases x with
  | ok v => rfl
  | error e => rfl

end Evaluation

namespace ExprStore

theorem adds_label (s : ExprStore) (t : SymbolTable) (id : LabelId) (symbolic : Bool) :
    s.Adds t (s.push (.label id) symbolic) (t.labelValue id) := by
  refine ⟨extends_push _ _ _, by simp [push, size], ?_⟩
  change (s.push (.label id) symbolic).2.evaluate t s.size = _
  rw [evaluate.eq_def, getElem?_push_size]
  rfl

theorem adds_location (s : ExprStore) (t : SymbolTable) (x : Int32) :
    s.Adds t (s.push (.location x) false) (.pure x) := by
  refine ⟨extends_push _ _ _, by simp [push, size], ?_⟩
  change (s.push (.location x) false).2.evaluate t s.size = _
  rw [evaluate.eq_def, getElem?_push_size]
  rfl

end ExprStore

namespace Written

/-- The operators that are written between terms. -/
inductive Arithmetic where
  | add
  | sub
  | mul
  | div
  deriving DecidableEq

namespace Arithmetic

def operator : Arithmetic → Operator
  | add => .add
  | sub => .sub
  | mul => .mul
  | div => .div

/-- The integer that an operator makes of two, a quotient cut toward zero. -/
def exact : Arithmetic → Int → Int → Int
  | add => (· + ·)
  | sub => (· - ·)
  | mul => (· * ·)
  | div => Int.tdiv

/-- The exact result, reduced to 32 bits. -/
def apply (op : Arithmetic) (x y : Int32) : Except EvalError Int32 :=
  if op = div ∧ y = 0 then .error .divisionByZero else .ok (.ofInt (op.exact x.toInt y.toInt))

theorem ofChar?_symbol (op : Arithmetic) :
    Operator.ofChar? op.operator.symbol = some op.operator := by
  cases op with
  | add | sub | mul | div => rfl

theorem symbol_mem_termBreaks (op : Arithmetic) : op.operator.symbol ∈ termBreaks := by
  cases op with
  | add | sub | mul | div => decide

theorem operator_apply (op : Arithmetic) (symbolic : Bool) (x y : Int32) :
    op.operator.apply symbolic x y = .quiet (op.apply x y) := by
  cases op with
  | add | sub | mul =>
    simp [operator, Operator.apply, apply, exact, Int32.ofInt_add, Int32.ofInt_sub,
      Int32.ofInt_mul, Evaluation.pure, Evaluation.quiet]
  | div =>
    have quotient : Int32.ofInt (x.toInt.tdiv y.toInt) = x / y := by
      rw [← Int32.toInt_inj, Int32.toInt_div, Int32.toInt_ofInt]
    simp only [operator, Operator.apply, apply, exact, quotient, true_and]
    split
    · rfl
    · rfl

end Arithmetic

/-- A term without its signs. -/
inductive Leaf (dialect : Dialect) where
  | octal (digits : List Char) (nonempty : digits ≠ [])
      (octal : ∀ x ∈ digits, x ∈ Number.octalDigits)
  | label (name : List Char) (spelled : Name.Spelled dialect name)
      (other : ∀ x ∈ name.head?, x.isDigit = false)
  /-- A point for the location counter. -/
  | here

/-- A leaf under a number of minus signs. -/
structure Term (dialect : Dialect) where
  minuses : Nat
  leaf : Leaf dialect

/-- Terms with operators between them. -/
structure Chain (dialect : Dialect) where
  first : Term dialect
  rest : List (Arithmetic × Term dialect)

variable {dialect : Dialect}

def Leaf.text : Leaf dialect → List Char
  | octal digits _ _ => digits ++ ['\x27']
  | label name _ _ => name
  | here => ['.']

def Term.text (w : Term dialect) : List Char := List.replicate w.minuses '-' ++ w.leaf.text

def restText (rest : List (Arithmetic × Term dialect)) : List Char :=
  rest.flatMap fun part => part.1.operator.symbol :: part.2.text

def Chain.text (chain : Chain dialect) : List Char := chain.first.text ++ restText chain.rest

theorem Leaf.text_ne_nil (leaf : Leaf dialect) : leaf.text ≠ [] := by
  cases leaf with
  | octal => simp [text]
  | label name spelled => exact spelled.ne_nil
  | here => simp [text]

theorem Term.text_ne_nil (w : Term dialect) : w.text ≠ [] := by
  simp [text, w.leaf.text_ne_nil]

/-- Behind a term stands an operator, or what follows the chain. -/
theorem breaks_restText (rest : List (Arithmetic × Term dialect)) {after : List Char}
    (ends : ∀ x ∈ after.head?, Cursor.isBlank x = true) : Breaks (restText rest ++ after) := by
  intro x member
  cases rest with
  | nil =>
    rcases Cursor.eq_of_isBlank (ends x member) with rfl | rfl
    · decide
    · decide
  | cons part rest =>
    have first : x = part.1.operator.symbol := by simpa [restText, eq_comm] using member
    rw [first]
    exact part.1.symbol_mem_termBreaks

section Value

variable (table : SymbolTable) (location : Int32)

/-- What a name is bound to. -/
def labelled (name : String) : Except EvalError Int32 :=
  match table.binding? name with
  | some label => .ok label.value
  | none => .error (.undefinedLabel name)

def Leaf.value : Leaf dialect → Except EvalError Int32
  | octal digits _ _ => .ok (.ofNat (Nat.ofDigitChars 8 digits 0))
  | label name _ _ => labelled table (String.ofList name)
  | here => .ok location

/-- The number with the opposite sign, reduced to 32 bits. -/
def negated (x : Int32) : Int32 := .ofInt (-x.toInt)

theorem neg_eq_negated (x : Int32) : -x = negated x := by
  rw [negated, Int32.ofInt_neg, Int32.ofInt_toInt]

def Term.value (w : Term dialect) : Except EvalError Int32 :=
  (w.leaf.value table location).map (Nat.repeat negated w.minuses)

theorem Term.value_zero (leaf : Leaf dialect) :
    (Term.mk 0 leaf).value table location = leaf.value table location := by
  rw [value]
  cases leaf.value table location with
  | ok x => simp only [Except.map, Nat.repeat]
  | error e => rfl

theorem Term.value_succ (n : Nat) (leaf : Leaf dialect) :
    (Term.mk (n + 1) leaf).value table location =
      ((Term.mk n leaf).value table location).map negated := by
  rw [value, value]
  cases leaf.value table location with
  | ok x => simp only [Except.map, Nat.repeat]
  | error e => simp only [Except.map]

/-- Goes on from `x`, one operator and one term at a time. -/
def restValue (rest : List (Arithmetic × Term dialect)) (x : Int32) : Except EvalError Int32 :=
  rest.foldlM (fun x part => do part.1.apply x (← part.2.value table location)) x

theorem bind_restValue_nil (x : Except EvalError Int32) :
    x >>= restValue table location ([] : List (Arithmetic × Term dialect)) = x :=
  bind_pure x

theorem bind_restValue_cons (op : Arithmetic) (w : Term dialect)
    (rest : List (Arithmetic × Term dialect)) (x : Except EvalError Int32) :
    x >>= restValue table location ((op, w) :: rest) =
      (do op.apply (← x) (← w.value table location)) >>= restValue table location rest := by
  have step (v : Int32) : restValue table location ((op, w) :: rest) v =
      w.value table location >>= fun y => op.apply v y >>= restValue table location rest := by
    rw [restValue, List.foldlM_cons]
    exact bind_assoc _ _ _
  simp only [bind_assoc]
  exact congrArg (x >>= ·) (funext step)

def Chain.value (chain : Chain dialect) : Except EvalError Int32 := do
  restValue table location chain.rest (← chain.first.value table location)

/-- The value depends on what the names are bound to, and not on their numbers. -/
theorem Chain.value_congr {t t' : SymbolTable} (chain : Chain dialect)
    (h : ∀ name, t'.binding? name = t.binding? name) :
    chain.value t' location = chain.value t location := by
  have leaves (leaf : Leaf dialect) : leaf.value t' location = leaf.value t location := by
    cases leaf with
    | octal | here => rfl
    | label name => simp only [Leaf.value, labelled, h]
  simp only [value, restValue, Term.value, leaves]

def Leaf.symbolic : Leaf dialect → Bool
  | label name _ _ => !table.isConstantName (String.ofList name)
  | octal _ _ _ | here => false

theorem Leaf.symbolic_congr {t t' : SymbolTable} (leaf : Leaf dialect) (h : t.Enters t') :
    leaf.symbolic t' = leaf.symbolic t := by
  cases leaf with
  | octal | here => rfl
  | label name => simp only [symbolic, h.constant]

/-- Some label of the chain is no constant. -/
def Chain.symbolic (chain : Chain dialect) : Bool :=
  chain.first.leaf.symbolic table || chain.rest.any fun part => part.2.leaf.symbolic table

end Value

end Written

namespace Operand

open Written

/-- Reading has added names and nodes to `t`, without a complaint, and leaves an expression with a
given value and mark. Names keep their numbers, so the value counts under every later table. -/
structure Reading.Means (t : Tables) (r : Reading) (value : SymbolTable → Except EvalError Int32)
    (symbolic : Bool) : Prop where
  grown : t.exprs.Extends r.tables.exprs
  inside : r.expr < r.tables.exprs.size
  valid : r.isInvalid = false
  names : t.symbols.Enters r.tables.symbols
  quiet : r.tables.diagnostics = t.diagnostics
  value : ∀ later, r.tables.symbols.KeepsIds later →
    r.tables.exprs.evaluate later r.expr = .quiet (value later)
  mark : r.tables.exprs.symbolic r.expr = symbolic

theorem means_push {t t' : Tables} (grown : t.exprs.Extends t'.exprs)
    (names : t.symbols.Enters t'.symbols) (quiet : t'.diagnostics = t.diagnostics) {node : Node}
    (valid : node ≠ .invalid) (symbolic : Bool) (c : Cursor)
    {value : SymbolTable → Except EvalError Int32}
    (known : ∀ later, t'.symbols.KeepsIds later →
      t'.exprs.Adds later (t'.exprs.push node symbolic) (.quiet (value later))) :
    (Reading.of (t'.push node symbolic) c).Means t value symbolic where
  grown := grown.trans (ExprStore.extends_push _ _ _)
  inside := (known t'.symbols (SymbolTable.keepsIds_refl _)).inside
  valid := by
    change (t'.exprs.push node symbolic).2.isInvalid t'.exprs.size = false
    simp [ExprStore.isInvalid, ExprStore.getElem?_push_size, valid]
  names := names
  quiet := quiet
  value later kept := (known later kept).value
  mark := by
    change (t'.exprs.push node symbolic).2.symbolic t'.exprs.size = symbolic
    simp [ExprStore.symbolic, ExprStore.getElem?_push_size]

variable {dialect : Dialect} (location : Int32) (t : Tables)

theorem means_name (text : String) (c : Cursor) :
    (name text c t).Means t (fun later => labelled later text)
      (!t.symbols.isConstantName text) := by
  let entered : Tables := { t with symbols := (t.symbols.reference text).2 }
  have grown : t.exprs.Extends entered.exprs := fun _ _ => id
  have names : t.symbols.Enters entered.symbols := SymbolTable.enters_reference t.symbols text
  rw [← SymbolTable.isConstant_reference]
  refine means_push grown names rfl (by simp) _ c ?_
  intro later kept
  have found := kept text _ (SymbolTable.labelId?_reference t.symbols text)
  have value : later.labelValue (t.symbols.reference text).1 = .quiet (labelled later text) := by
    rw [SymbolTable.labelValue_of_labelId? found, labelled]
    cases later.binding? text with
    | none => rfl
    | some label => rfl
  rw [← value]
  exact t.exprs.adds_label later _ _

theorem means_leaf (leaf : Leaf dialect) {c : Cursor} {after : List Char} (follow : Breaks after)
    (stands : c.rest = leaf.text ++ after) :
    (term dialect location c t).Means t (fun later => leaf.value later location)
        (leaf.symbolic t.symbols) ∧
      (term dialect location c t).cursor = c.moveTo after := by
  cases leaf with
  | octal digits nonempty octal =>
    have stands : c.rest = digits ++ '\x27' :: after := by simpa [Leaf.text] using stands
    have read (x : Char) (member : x ∈ digits) := Number.isOctalDigit_iff.mpr (octal x member)
    rw [term_octal dialect location t nonempty read stands]
    refine ⟨means_push (fun _ _ => id) (SymbolTable.enters_refl _) rfl (by simp) _ _ ?_, rfl⟩
    exact fun later _ => t.exprs.adds_const later _
  | label text spelled other =>
    rw [term_name dialect location t spelled other follow stands]
    exact ⟨means_name t (String.ofList text) (c.moveTo after), rfl⟩
  | here =>
    rw [term_point dialect location t follow stands]
    refine ⟨means_push (fun _ _ => id) (SymbolTable.enters_refl _) rfl (by simp) _ _ ?_, rfl⟩
    exact fun later _ => t.exprs.adds_location later location

theorem ofChar?_of_isBlank {x : Char} (blank : Cursor.isBlank x = true) :
    Operator.ofChar? x = none := by
  rcases Cursor.eq_of_isBlank blank with rfl | rfl
  · rfl
  · rfl

/-- A minus sign in front of a term. -/
theorem Reading.Means.negate {t : Tables} {r : Reading}
    {value : SymbolTable → Except EvalError Int32} {symbolic : Bool}
    (h : r.Means t value symbolic) :
    (negate r).Means t (fun later => (value later).map negated) symbolic := by
  rw [Operand.negate, if_neg (by simp [h.valid]), ← h.mark]
  refine means_push h.grown h.names h.quiet (by simp) _ r.cursor ?_
  intro later kept
  have outer := r.tables.exprs.adds_neg later h.inside
  rw [h.value later kept] at outer
  simp only [neg_eq_negated, Evaluation.quiet_map] at outer
  exact outer

/-- An operator between two terms. -/
theorem Reading.Means.join {t : Tables} {left right : Reading}
    {value value' : SymbolTable → Except EvalError Int32} {symbolic symbolic' : Bool}
    (h : left.Means t value symbolic) (h' : right.Means left.tables value' symbolic')
    (op : Arithmetic) :
    (Reading.of (right.tables.push (.binary op.operator left.expr right.expr)
      (right.tables.exprs.symbolic left.expr || right.tables.exprs.symbolic right.expr))
      right.cursor).Means t (fun later => do op.apply (← value later) (← value' later))
      (symbolic || symbolic') := by
  have inside : left.expr < right.tables.exprs.size :=
    Nat.lt_of_lt_of_le h.inside h'.grown.size_le
  have mark : right.tables.exprs.symbolic left.expr = symbolic :=
    (h'.grown.symbolic h.inside).trans h.mark
  rw [← h'.mark, ← mark]
  refine means_push (h.grown.trans h'.grown) (h.names.trans h'.names) (h'.quiet.trans h.quiet)
    (by simp) _ right.cursor ?_
  intro later kept
  have outer := right.tables.exprs.adds_binary later op.operator inside h'.inside
  rw [h'.grown.evaluate later h.inside, h.value later (h'.names.ids.trans kept),
    h'.value later kept] at outer
  simp only [Arithmetic.operator_apply, Evaluation.quiet_andThen] at outer
  exact outer

theorem means_term (w : Term dialect) {c : Cursor} {after : List Char} (follow : Breaks after)
    (stands : c.rest = w.text ++ after) :
    (term dialect location c t).Means t (fun later => w.value later location)
        (w.leaf.symbolic t.symbols) ∧
      (term dialect location c t).cursor = c.moveTo after := by
  obtain ⟨minuses, leaf⟩ := w
  induction minuses generalizing c with
  | zero =>
    obtain ⟨means, reached⟩ := means_leaf location t leaf follow stands
    simp only [Term.value_zero]
    exact ⟨means, reached⟩
  | succ n ih =>
    have minus : c.rest = '-' :: ((Term.mk n leaf).text ++ after) := by
      simpa [Term.text, List.replicate_succ] using stands
    obtain ⟨means, reached⟩ := ih (c := c.moveTo _) rfl
    rw [term_minus dialect location t minus, cursor_negate]
    simp only [Term.value_succ]
    exact ⟨means.negate, reached⟩

/-- The operators and terms that follow are worked into what has been read, one after the other. -/
theorem means_extend (rest : List (Arithmetic × Term dialect)) {after : List Char}
    (ends : ∀ x ∈ after.head?, Cursor.isBlank x = true) {left : Reading}
    {value : SymbolTable → Except EvalError Int32} {symbolic : Bool}
    (h : left.Means t value symbolic) (stands : left.cursor.rest = restText rest ++ after) :
    (extend dialect location left).Means t
        (fun later => value later >>= restValue later location rest)
        (symbolic || rest.any fun part => part.2.leaf.symbolic t.symbols) ∧
      (extend dialect location left).cursor = left.cursor.moveTo after := by
  induction rest generalizing left value symbolic with
  | nil =>
    have stands : left.cursor.rest = after := stands
    rw [extend_of_rest dialect location fun x member => ?_]
    · simp only [bind_restValue_nil, List.any_nil, Bool.or_false]
      exact ⟨h, by rw [← stands]; rfl⟩
    · rw [stands] at member
      exact ofChar?_of_isBlank (ends x member)
  | cons part rest ih =>
    obtain ⟨op, w⟩ := part
    have operator : left.cursor.rest =
        op.operator.symbol :: (w.text ++ (restText rest ++ after)) := by
      simpa [restText] using stands
    obtain ⟨means, reached⟩ := means_term location left.tables w
      (c := left.cursor.moveTo (w.text ++ (restText rest ++ after))) (breaks_restText rest ends) rfl
    have more : (w.text ++ (restText rest ++ after)).isEmpty = false := by simp [w.text_ne_nil]
    rw [extend_cons dialect location h.valid operator op.ofChar?_symbol, more]
    simp only [means.valid, Bool.false_eq_true, if_false]
    obtain ⟨means, reached'⟩ := ih (h.join means op) (by rw [Reading.cursor_of, reached]; rfl)
    rw [w.leaf.symbolic_congr h.names, Bool.or_assoc] at means
    simp only [bind_restValue_cons]
    refine ⟨means, ?_⟩
    rw [reached', Reading.cursor_of, reached]
    rfl

/-- A chain of terms, with a blank or the end of the text behind it, is read as a whole. Its value
is that of the operators applied one after the other from the left, or the first failure on the
way. -/
theorem chain_folds_left (chain : Chain dialect) (location : Int32) (c : Cursor) (t : Tables)
    (after : List Char) (ends : ∀ x ∈ after.head?, Cursor.isBlank x = true)
    (stands : c.rest = chain.text ++ after) :
    let r := read dialect location c t
    r.cursor = c.moveTo after ∧ r.isInvalid = false ∧ r.tables.diagnostics = t.diagnostics ∧
      r.tables.exprs.evaluate r.tables.symbols r.expr = .quiet (chain.value t.symbols location) ∧
      (∀ later, r.tables.symbols.KeepsIds later →
        r.tables.exprs.evaluate later r.expr = .quiet (chain.value later location)) ∧
      r.tables.exprs.symbolic r.expr = chain.symbolic t.symbols := by
  have follow := breaks_restText chain.rest ends
  have first : c.rest = chain.first.text ++ (restText chain.rest ++ after) := by
    rw [stands, Chain.text, List.append_assoc]
  obtain ⟨means, reached⟩ := means_term location t chain.first follow first
  obtain ⟨means, reached'⟩ := means_extend location t chain.rest ends means (by rw [reached]; rfl)
  refine ⟨?_, means.valid, means.quiet, ?_, means.value, means.mark⟩
  · rw [read, reached', reached]
    rfl
  · rw [← chain.value_congr location means.names.binding]
    exact means.value _ (SymbolTable.keepsIds_refl _)

/-- The least number divided by minus one, plus a label, times the location counter. -/
def wrappingChain : Chain .midas where
  first := ⟨0, .octal "20000000000".toList (by decide)
    (Number.all_isOctalDigit_iff.mp (by decide))⟩
  rest := [(.div, ⟨1, .octal ['1'] (by decide) (by simp [Number.octalDigits])⟩),
    (.add, ⟨0, .label "A.1".toList (by decide) (by rintro _ ⟨⟩; rfl)⟩), (.mul, ⟨2, .here⟩)]

/-- The quotient wraps around, and so does the product. -/
theorem wrappingChain_folds_left :
    let t : Tables := { symbols := ({} : SymbolTable).bind "A.1" (.bound 5 false false) }
    let r := read .midas 3 (.ofText "20000000000'/-1'+A.1*--. B") t
    r.cursor.rest = " B".toList ∧ r.tables.diagnostics = [] ∧
      (r.tables.exprs.evaluate r.tables.symbols r.expr).value.toOption = some (-2147483633) ∧
      r.tables.exprs.symbolic r.expr = true := by
  intro t r
  obtain ⟨cursor, -, quiet, value, -, mark⟩ := chain_folds_left wrappingChain 3
    (.ofText "20000000000'/-1'+A.1*--. B") t " B".toList (by rintro _ ⟨⟩; rfl) (by decide)
  refine ⟨congrArg Cursor.rest cursor, quiet, ?_, mark.trans ?_⟩
  · rw [value]
    decide +kernel
  · decide +kernel

end Operand

end Pds1
