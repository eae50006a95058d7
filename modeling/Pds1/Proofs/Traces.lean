import Pds1.Proofs.LiteralQueue

/-!
# Traces of a first pass

An observer says what labels, orders, assignments, pools and literals leave behind, each with the
state it starts from. What a whole first pass leaves behind, in order, is its trace, collected by
functions that follow the readers call by call. A relation between states that holds of each of
these, and of two stretches when it holds of each, holds of a whole first pass and its trace.
-/

namespace Pds1

/-- Directives that ask for a literal pool. -/
def Directive.placesPool (d : Directive) : Bool := d = .constants || d = .ltorg

/-- A line of the source or of a literal pool, by its number. -/
inductive Site where
  | source (number : Nat)
  | pool (number : Nat)
  deriving DecidableEq

/-- What is left behind on the way. A field that is not given leaves nothing. -/
structure Observer (α : Type) where
  /-- The labels in front of a statement. -/
  labels : Site → Cursor → Assembly → List α := fun _ _ _ => []
  /-- An order, without the pool that it may ask for. -/
  order : Cursor → Assembly → List α := fun _ _ => []
  /-- An assignment to a name, in front of its operand. -/
  assign : String → Cursor → Assembly → List α := fun _ _ _ => []
  /-- A pool, before its literals. -/
  pool : Assembly → List α := fun _ => []
  /-- A literal, before its statements. -/
  literal : LiteralId → Assembly → List α := fun _ _ => []
  /-- A literal, after its statements. -/
  filled : LiteralId → Assembly → List α := fun _ _ => []

namespace Assembly

def asksPool (dialect : Dialect) (c : Cursor) : Bool :=
  (orderDirective? dialect c).any fun found => found.1.placesPool

theorem directive_eq_of_not_placesPool {d : Directive} (h : d.placesPool = false)
    (place : Assembly → Assembly) (c : Cursor) (a : Assembly) :
    directive place d c a = directive refusePool d c a := by
  cases d with
  | constants | ltorg => cases h
  | _ => rfl

/-- An order either has nothing to do with pools or does nothing but place one. -/
theorem order_pool_cases (place : Assembly → Assembly) (c : Cursor) (a : Assembly) :
    asksPool a.dialect c = false ∧ order place c a = order refusePool c a ∨
      asksPool a.dialect c = true ∧ (order place c a).2.2 = place a := by
  simp only [asksPool, order, orderDirective?]
  generalize readTag a.dialect c = tagged
  obtain ⟨tag, c⟩ := tagged
  simp only
  cases Mnemonic.read? (tag = some .display) c with
  | none => exact .inl ⟨rfl, rfl⟩
  | some found =>
    obtain ⟨m, d⟩ := found
    simp only [carryOut]
    cases m.group with
    | directive e =>
      cases pools : e.placesPool with
      | false => exact .inl ⟨pools, by simp only [directive_eq_of_not_placesPool pools place]⟩
      | true =>
        refine .inr ⟨pools, ?_⟩
        cases e with
        | constants | ltorg => rfl
        | _ => cases pools
    | _ => exact .inl ⟨rfl, rfl⟩

theorem order_of_asksPool {c : Cursor} {a : Assembly} (h : asksPool a.dialect c = true)
    (place : Assembly → Assembly) : (order place c a).2.2 = place a := by
  rcases order_pool_cases place c a with ⟨plain, -⟩ | ⟨-, placed⟩
  · cases plain.symm.trans h
  · exact placed

theorem order_of_not_asksPool {c : Cursor} {a : Assembly} (h : asksPool a.dialect c = false)
    (place : Assembly → Assembly) : order place c a = order refusePool c a := by
  rcases order_pool_cases place c a with ⟨-, same⟩ | ⟨asks, -⟩
  · exact same
  · cases h.symm.trans asks

/-- A statement after a question mark begins further on than where the labels before it ended. -/
theorem length_lt_of_question {place : Assembly → Assembly} {c e : Cursor} {a : Assembly}
    (h : (order place (readLabels none c a).2.1.dropBlanks
      (readLabels none c a).2.2).2.1.dropBlanks.accept? '?' = some e) :
    e.rest.length < (readLabels none c a).2.1.rest.length := by
  generalize readLabels none c a = labels at h ⊢
  have blanks := (Cursor.dropBlanks_suffix labels.2.1).length_le
  have operands := (order_suffix place labels.2.1.dropBlanks labels.2.2).length_le
  have blanks' := (Cursor.dropBlanks_suffix
    (order place labels.2.1.dropBlanks labels.2.2).2.1).length_le
  have mark := Cursor.accept?_length_lt h
  omega

theorem statement_length_lt {place : Assembly → Assembly} {c e : Cursor} {a : Assembly}
    (h : (order place (readLabels none c a).2.1.dropBlanks
      (readLabels none c a).2.2).2.1.dropBlanks.accept? '?' = some e) :
    e.rest.length < c.rest.length :=
  Nat.lt_of_lt_of_le (length_lt_of_question h) (readLabels_suffix none c a).length_le

section Tracing

variable {α : Type}

/-- What each label in front of a statement leaves behind. -/
def labelTrace (each : String → Assembly → α) (c : Cursor) (a : Assembly) : List α :=
  match _h : Name.read? a.dialect false c with
  | none => []
  | some (name, d) =>
    each name a ::
      if a.dialect.isMidas then labelTrace each d.dropBlanks (a.bindLabel name) else []
termination_by c.rest.length
decreasing_by
  have h₁ := Name.read?_length_lt _h
  have h₂ := d.dropBlanks_suffix.length_le
  omega

/-- What holds of no label, and of one more in front, holds of the labels of a statement. -/
theorem labelTrace_induction {each : String → Assembly → α}
    (R : Assembly → List α → Assembly → Prop) (refl : ∀ a, R a [] a)
    (cons : ∀ {name a xs b}, R (bindLabel a name) xs b → R a (each name a :: xs) b)
    (label : Option String) (c : Cursor) (a : Assembly) :
    R a (labelTrace each c a) (readLabels label c a).2.2 := by
  fun_induction readLabels label c a with
  | case1 label c a none =>
    rw [labelTrace]
    split
    · exact refl a
    · next found => cases none.symm.trans found
  | case2 label c a name d found midas ih =>
    rw [labelTrace]
    split
    · next none => cases none.symm.trans found
    · next found' =>
      cases found.symm.trans found'
      rw [if_pos midas]
      exact cons ih
  | case3 label c a name d found midas =>
    rw [labelTrace]
    split
    · next none => cases none.symm.trans found
    · next found' =>
      cases found.symm.trans found'
      rw [if_neg midas]
      exact cons (refl _)

/-- What the labels and the orders of a line leave behind, statement by statement. -/
def statementTrace (labels orders : Cursor → Assembly → List α) (place : Assembly → Assembly)
    (continued : Bool) (c : Cursor) (a : Assembly) : List α :=
  let read := readLabels none c a
  let d := read.2.1
  labels c a ++
    if d.dropBlanks.atEnd then []
    else if !(d.onBlank || a.dialect.isMidas || continued) then []
    else
      orders d.dropBlanks read.2.2 ++
        match _h : (order place d.dropBlanks read.2.2).2.1.dropBlanks.accept? '?' with
        | none => []
        | some e =>
          statementTrace labels orders place true e (order place d.dropBlanks read.2.2).2.2
termination_by c.rest.length
decreasing_by exact statement_length_lt _h

/-- What labels, diagnostics and orders do, and what holds of two stretches when it holds of each,
holds of the statements of a line. -/
theorem statementTrace_induction {labels orders : Cursor → Assembly → List α}
    {place : Assembly → Assembly} (R : Assembly → List α → Assembly → Prop)
    (trans : ∀ {a b c xs ys}, R a xs b → R b ys c → R a (xs ++ ys) c)
    (labelled : ∀ c a, R a (labels c a) (readLabels none c a).2.2)
    (note : ∀ a d, d.duplicate? = none → R a [] (note a d))
    (ordered : ∀ c a, R a (orders c a) (order place c a).2.2) (kind : Line.Kind)
    (continued : Bool) (c : Cursor) (a : Assembly) :
    R a (statementTrace labels orders place continued c a)
      (statement place kind continued c a).2 := by
  fun_induction statement place kind continued c a with
  | case1 kind continued c a _ d atEnd =>
    rw [statementTrace, if_pos atEnd, List.append_nil]
    exact labelled c a
  | case2 kind continued c a _ d atEnd unlabelled =>
    rw [statementTrace, if_neg atEnd, if_pos unlabelled]
    exact trans (labelled c a) (note _ _ (Diagnostic.duplicate?_unlabelled _))
  | case3 kind continued c a _ d atEnd terminated this kind' last =>
    rw [statementTrace, if_neg atEnd, if_neg terminated]
    have this := trans (labelled c a) (ordered d.dropBlanks (readLabels none c a).2.2)
    split
    · simpa using this
    · next more => cases last.symm.trans more
  | case4 kind continued c a _ d atEnd terminated this kind' e more ih =>
    rw [statementTrace, if_neg atEnd, if_neg terminated, ← List.append_assoc]
    have this := trans (labelled c a) (ordered d.dropBlanks (readLabels none c a).2.2)
    split
    · next last => cases last.symm.trans more
    · next e' more' =>
      cases more.symm.trans more'
      exact trans this ih

/-- What an assignment or the statements of a source line leave behind. Other lines leave
nothing. -/
def lineTrace (assigns statements : Cursor → Assembly → List α) (text : String) (a : Assembly) :
    List α :=
  let start := Cursor.ofText text
  let c := start.dropBlanks
  match c.rest with
  | [] => []
  | x :: _ =>
    if x = '\x0c' then []
    else if a.dialect.isComment x start.onBlank then []
    else if (definition? c a).isSome then assigns c a
    else statements start a

theorem lineTrace_cases {assigns statements : Cursor → Assembly → List α}
    (R : Assembly → List α → Assembly → Prop) (refl : ∀ a, R a [] a)
    (noteIf : ∀ a condition d, d.duplicate? = none → R a [] (noteIf a condition d))
    (comment : ∀ a : Assembly, R a [] { a with comments := a.comments + 1 })
    (assigned : ∀ {c a b}, definition? c a = some b → R a (assigns c a) b)
    (stated : ∀ c a, R a (statements c a) (statement placePool .unclassified false c a).2)
    (text : String) (a : Assembly) :
    R a (lineTrace assigns statements text a) (readText text a).2 := by
  simp only [lineTrace, readText]
  cases (Cursor.ofText text).dropBlanks.rest with
  | nil => exact refl a
  | cons x rest =>
    simp only
    split
    · exact noteIf a _ _ rfl
    · split
      · exact comment a
      · cases found : definition? (Cursor.ofText text).dropBlanks a with
        | some b => exact assigned found
        | none => exact stated _ a

variable (v : Observer α)

/-- A literal stands on its line in the pool, and nothing inside it places a pool. -/
def literalTrace (id : LiteralId) (a : Assembly) : List α :=
  v.literal id a ++
    (statementTrace (v.labels (.pool (a.poolLines.size + 1))) v.order refusePool false
        (.ofText (a.symbols.literalText id)) { a with lineNumber := a.poolLines.size + 1 } ++
      v.filled id a)

def literalsTrace (a : Assembly) : List α :=
  match a.symbols.nextWaiting? with
  | none => []
  | some id =>
    literalTrace v id a ++
      if _h : (placeLiteral id a).poolWeight < a.poolWeight then literalsTrace (placeLiteral id a)
      else []
termination_by a.poolWeight

def poolTrace (a : Assembly) : List α :=
  v.pool a ++
    if a.symbols.hasWaiting then literalsTrace v { a with lineCode := [], diagnostics := [] }
    else []

def orderTrace (c : Cursor) (a : Assembly) : List α :=
  v.order c a ++ if asksPool a.dialect c then poolTrace v a else []

def assignTrace (c : Cursor) (a : Assembly) : List α :=
  match Name.read? a.dialect true c with
  | none => []
  | some (name, d) =>
    match d.dropBlanks.accept? '=' with
    | none => []
    | some e => v.assign name (e.skip '=').dropBlanks a

def textTrace (here : Site) : String → Assembly → List α :=
  lineTrace (assignTrace v) (statementTrace (v.labels here) (orderTrace v) placePool false)

def linesTrace : List Line → Assembly → List α
  | [], _ => []
  | line :: rest, a =>
    let b := (readLine line a).2
    textTrace v (.source line.number) line.text { a with lineNumber := line.number } ++
      if b.ended || rest.isEmpty then poolTrace v b else linesTrace rest b

/-- What a first pass leaves behind, in order. -/
def passOneTrace (source : Source) (a : Assembly) : List α :=
  linesTrace v source.lines { a with location := 0 }

/-- What holds of each part of a line `here`, if one is being read, and of two stretches when it
holds of each. -/
structure Traces (R : Option Site → Assembly → List α → Assembly → Prop) : Prop where
  refl : ∀ here a, R here a [] a
  trans : ∀ here {a b c xs ys}, R here a xs b → R here b ys c → R here a (xs ++ ys) c
  note : ∀ here a d, d.duplicate? = none → R here a [] (note a d)
  comment : ∀ here (a : Assembly), R here a [] { a with comments := a.comments + 1 }
  labels : ∀ site c a, R (some site) a (v.labels site c a) (readLabels none c a).2.2
  order : ∀ here c a, R here a (v.order c a) (order refusePool c a).2.2
  /-- An order that asks for a pool does nothing else. -/
  asks : ∀ here {c a}, asksPool a.dialect c = true → R here a (v.order c a) a
  assign : ∀ here {c a b}, definition? c a = some b → R here a (assignTrace v c a) b
  asked : ∀ here a, R here a (v.pool a) a
  /-- From the statements of a literal to the literal. -/
  literal : ∀ {id a xs}, a.symbols.nextWaiting? = some id → a.lineCode = [] →
    R (some (.pool (a.poolLines.size + 1))) { a with lineNumber := a.poolLines.size + 1 } xs
      (literalStatement id a).2 →
    R none a (v.literal id a ++ (xs ++ v.filled id a)) (placeLiteral id a)
  /-- From the literals of a pool to the pool, which is no part of another one. -/
  pool : ∀ {here a xs}, (∀ n, here ≠ some (.pool n)) → a.symbols.hasWaiting = true →
    R none { a with lineCode := [], diagnostics := [] } xs
      (placeLiterals { a with lineCode := [], diagnostics := [] }) →
    R here a xs a.placePool

variable {v}

namespace Traces

section Parts

variable {R : Option Site → Assembly → List α → Assembly → Prop} (h : Traces v R)

include h

theorem before (here : Option Site) {a b c : Assembly} {xs : List α} (first : R here a [] b)
    (later : R here b xs c) : R here a xs c :=
  h.trans here first later

theorem after (here : Option Site) {a b c : Assembly} {xs : List α} (first : R here a xs b)
    (later : R here b [] c) : R here a xs c := by
  simpa using h.trans here first later

theorem noteIf (here : Option Site) (a : Assembly) (condition : Bool) (d : Diagnostic)
    (other : d.duplicate? = none) : R here a [] (a.noteIf condition d) := by
  cases condition with
  | false => exact h.refl here a
  | true => exact h.note here a d other

theorem placedLiteral {id : LiteralId} {a : Assembly} (next : a.symbols.nextWaiting? = some id)
    (fresh : a.lineCode = []) : R none a (literalTrace v id a) (placeLiteral id a) :=
  h.literal next fresh (statementTrace_induction _ (h.trans _) (h.labels _) (h.note _) (h.order _)
    .unclassified false _ _)

theorem placedLiterals {a : Assembly} (fresh : a.lineCode = []) :
    R none a (literalsTrace v a) (placeLiterals a) := by
  fun_induction placeLiterals a with
  | case1 a none =>
    rw [literalsTrace]
    simp only [none]
    exact h.refl _ a
  | case2 a id next b less ih =>
    rw [literalsTrace]
    simp only [next]
    rw [dif_pos less]
    exact h.trans none (h.placedLiteral next fresh) (ih rfl)
  | case3 a id next b more =>
    rw [literalsTrace]
    simp only [next]
    rw [dif_neg more, List.append_nil]
    exact h.placedLiteral next fresh

theorem placedPool (here : Option Site) (outside : ∀ n, here ≠ some (.pool n)) (a : Assembly) :
    R here a (poolTrace v a) a.placePool := by
  rw [poolTrace]
  refine h.trans here (h.asked here a) ?_
  split
  · next waiting => exact h.pool outside waiting (h.placedLiterals rfl)
  · next idle =>
    rw [placePool, if_neg idle]
    exact h.refl here a

theorem sourceOrder {here : Option Site} (outside : ∀ n, here ≠ some (.pool n)) (c : Cursor)
    (a : Assembly) : R here a (orderTrace v c a) (Assembly.order placePool c a).2.2 := by
  rw [orderTrace]
  cases asks : asksPool a.dialect c with
  | false =>
    rw [order_of_not_asksPool asks, if_neg Bool.false_ne_true, List.append_nil]
    exact h.order here c a
  | true =>
    rw [order_of_asksPool asks, if_pos rfl]
    exact h.trans here (h.asks here asks) (h.placedPool here outside a)

theorem text (n : Nat) (text : String) (a : Assembly) :
    R (some (.source n)) a (textTrace v (.source n) text a) (readText text a).2 := by
  refine lineTrace_cases _ (h.refl _) (h.noteIf _) (h.comment _) (h.assign _) ?_ text a
  exact statementTrace_induction _ (h.trans _) (h.labels _) (h.note _) (h.sourceOrder (by simp))
    .unclassified false

end Parts

section Lines

variable {R : Assembly → List α → Assembly → Prop} (h : Traces v fun _ => R)
  (turn : ∀ (a : Assembly) number code diagnostics log, R a [] { a with
    lineNumber := number
    lineCode := code
    diagnostics := diagnostics
    log := log })

include h turn

/-- A relation that does not tell lines apart, and does not mind going to another one, holds of
reading a line. -/
theorem line (line : Line) (a : Assembly) :
    R a (textTrace v (.source line.number) line.text { a with lineNumber := line.number })
      (readLine line a).2 := by
  have numbered : R a [] { a with lineNumber := line.number } := turn a _ _ _ _
  have read := h.before none numbered (h.text line.number line.text _)
  simp only [readLine]
  generalize readText line.text { a with lineNumber := line.number } = r at read ⊢
  obtain ⟨kind, b⟩ := r
  have noted := h.after none read
    (h.noteIf none b (kind = .unclassified && b.diagnostics.isEmpty) (.notParsed line.text) rfl)
  exact h.after none noted (turn _ _ [] [] _)

theorem lines (lines : List Line) (a : Assembly) :
    R a (linesTrace v lines a) (readLines lines a).2 := by
  induction lines generalizing a with
  | nil => exact h.refl none a
  | cons line rest ih =>
    have first := h.line turn line a
    simp only [linesTrace, readLines]
    split
    · have pooled := h.placedPool none (by simp) (readLine line a).2
      exact h.trans none first (h.after none pooled (turn _ _ [] [] _))
    · exact h.trans none first (ih _)

/-- The pass begins with the location counter at zero. -/
theorem passOne (source : Source) (a : Assembly) :
    R { a with location := 0 } (passOneTrace v source a) (a.passOne source).2 := by
  have read := h.lines turn source.lines { a with location := 0 }
  exact h.after none read (turn _ _ _ _ _)

end Lines

end Traces

end Tracing

end Assembly

end Pds1
