import Pds1.Proofs.OperandGrowth
import Pds1.Proofs.Reading

/-!
# The queue of literals

Literals are created at the end of the queue and placed from its front, so the first ones are
placed and the others wait in order. Assembling a literal costs less than the brackets it holds:
each literal it creates is a bracketed part of its text. That is why a pool ends with an empty
queue.
-/

namespace Pds1

namespace SymbolTable

/-- The first `n` literals have an address, and the others wait in the order of their creation. -/
structure InOrder (t : SymbolTable) (n : Nat) : Prop where
  count : n ≤ t.literals.size
  queue : t.queue = List.range' n (t.literals.size - n)
  placed : ∀ (k : LiteralId) (l : Literal), k < n → t.literals[k]? = some l → l.isDefined = true

/-- The numbers in the queue belong to literals. -/
def QueueInRange (t : SymbolTable) : Prop := ∀ id ∈ t.queue, id < t.literals.size

theorem inOrder_empty : InOrder {} 0 :=
  ⟨Nat.le_refl _, rfl, fun _ _ h => absurd h (Nat.not_lt_zero _)⟩

variable {t t' : SymbolTable} {texts : List String} {n : Nat} {id : LiteralId}

theorem interns_bind (t : SymbolTable) (name : String) (label : Label) :
    t.Interns [] (t.bind name label) := by
  simp only [bind]
  split
  · exact interns_nil rfl rfl (by simp)
  · exact interns_nil rfl rfl (by simp)

theorem Interns.getElem? (h : t.Interns texts t') {k : LiteralId} (inside : k < t.literals.size) :
    t'.literals[k]? = t.literals[k]? := by
  rw [h.literals, Array.getElem?_append_left inside]

theorem Interns.literalText (h : t.Interns texts t') {k : LiteralId}
    (inside : k < t.literals.size) : t'.literalText k = t.literalText k := by
  simp only [SymbolTable.literalText, literal?, h.getElem? inside]

/-- New literals have the texts they were created for. -/
theorem Interns.map_literalText (h : t.Interns texts t') :
    (List.range' t.literals.size texts.length).map t'.literalText = texts := by
  apply List.ext_getElem
  · simp
  · intro i h₁ h₂
    have entry : t'.literals[t.literals.size + i]? = some (.ofText texts[i]) := by
      rw [h.literals, Array.getElem?_append_right (Nat.le_add_right _ _), Nat.add_sub_cancel_left]
      simp [List.getElem?_eq_getElem h₂]
    simp only [List.getElem_map, List.getElem_range', Nat.one_mul, SymbolTable.literalText,
      literal?, entry]
    rfl

theorem InOrder.interns (h : t.InOrder n) (new : t.Interns texts t') : t'.InOrder n := by
  have count := h.count
  refine ⟨by rw [new.size]; omega, ?_, ?_⟩
  · rw [new.queue, h.queue, new.size]
    have split : t.literals.size + texts.length - n = t.literals.size - n + texts.length := by omega
    have next : t.literals.size = n + (t.literals.size - n) := by omega
    rw [split, ← List.range'_append_1, ← next]
  · intro k l below entry
    rw [new.getElem? (Nat.lt_of_lt_of_le below count)] at entry
    exact h.placed k l below entry

theorem InOrder.queueInRange (h : t.InOrder n) : t.QueueInRange := by
  intro k member
  rw [h.queue] at member
  have inside := (List.mem_range'_1.mp member).2
  rwa [Nat.add_sub_cancel' h.count] at inside

theorem QueueInRange.interns (h : t.QueueInRange) (new : t.Interns texts t') : t'.QueueInRange := by
  intro k member
  rw [new.size]
  rw [new.queue] at member
  rcases List.mem_append.mp member with old | created
  · exact Nat.lt_of_lt_of_le (h k old) (Nat.le_add_right _ _)
  · exact (List.mem_range'_1.mp created).2

/-- The literal that comes next is the oldest one without an address. -/
theorem InOrder.next (h : t.InOrder n) (next : t.nextWaiting? = some id) :
    id = n ∧ n < t.literals.size := by
  rw [nextWaiting?, h.queue] at next
  cases waiting : t.literals.size - n with
  | zero => simp [waiting] at next
  | succ m =>
    simp only [waiting, List.range'_succ, List.head?_cons, Option.some.injEq] at next
    exact ⟨next.symm, by omega⟩

theorem literals_place_of_ne (t : SymbolTable) (address : Int32) (relocatable : Bool)
    {k : LiteralId} (other : k ≠ id) :
    (t.place id address relocatable).literals[k]? = t.literals[k]? := by
  simp [place, Array.getElem?_modify, Ne.symm other]

theorem literals_place_self (t : SymbolTable) (id : LiteralId) (address : Int32)
    (relocatable : Bool) :
    (t.place id address relocatable).literals[id]? =
      t.literals[id]?.map (·.place address relocatable) := by
  simp [place, Array.getElem?_modify]

theorem map_text_place (t : SymbolTable) (id : LiteralId) (address : Int32) (relocatable : Bool) :
    (t.place id address relocatable).literals.map Literal.text = t.literals.map Literal.text := by
  apply Array.ext_getElem?
  intro k
  rw [Array.getElem?_map, Array.getElem?_map]
  by_cases same : k = id
  · subst same
    rw [literals_place_self]
    cases t.literals[k]? with
    | none => rfl
    | some l => rfl
  · rw [literals_place_of_ne t address relocatable same]

theorem literalText_place (t : SymbolTable) (id : LiteralId) (address : Int32)
    (relocatable : Bool) (k : LiteralId) :
    (t.place id address relocatable).literalText k = t.literalText k := by
  simp only [literalText, literal?, ← Array.getElem?_map, map_text_place]

theorem size_place (t : SymbolTable) (id : LiteralId) (address : Int32) (relocatable : Bool) :
    (t.place id address relocatable).literals.size = t.literals.size := by
  simp [place]

theorem QueueInRange.place (h : t.QueueInRange) (id : LiteralId) (address : Int32)
    (relocatable : Bool) : (t.place id address relocatable).QueueInRange := by
  intro k member
  rw [size_place]
  exact h k (List.mem_filter.mp member).1

/-- Placing the literal that comes next. -/
theorem InOrder.place (h : t.InOrder n) (next : t.nextWaiting? = some id) (address : Int32)
    (relocatable : Bool) : (t.place id address relocatable).InOrder (n + 1) := by
  obtain ⟨rfl, inside⟩ := h.next next
  refine ⟨by rw [size_place]; omega, ?_, ?_⟩
  · have split : t.literals.size - id = (t.literals.size - (id + 1)) + 1 := by omega
    have others : ∀ k ∈ List.range' (id + 1) (t.literals.size - (id + 1)), (k != id) = true := by
      intro k member
      exact bne_iff_ne.mpr (Nat.ne_of_gt (List.mem_range'_1.mp member).1)
    rw [size_place]
    simp only [SymbolTable.place, h.queue]
    rw [split, List.range'_succ, List.filter_cons_of_neg (by simp), List.filter_eq_self.mpr others]
  · intro k l below entry
    by_cases same : k = id
    · subst same
      rw [literals_place_self] at entry
      obtain ⟨l', -, rfl⟩ := Option.map_eq_some_iff.mp entry
      rfl
    · rw [literals_place_of_ne t address relocatable same] at entry
      exact h.placed k l (Nat.lt_of_le_of_ne (Nat.le_of_lt_succ below) same) entry

/-- When nothing waits, every literal has its address. -/
theorem InOrder.isDefined (h : t.InOrder n) (empty : t.queue = []) :
    ∀ l ∈ t.literals, l.isDefined = true := by
  have count := h.count
  rw [h.queue, List.range'_eq_nil_iff] at empty
  intro l member
  obtain ⟨k, inside, rfl⟩ := Array.mem_iff_getElem.mp member
  have below : k < n := by omega
  exact h.placed k _ below (Array.getElem?_eq_getElem inside)

end SymbolTable

namespace Assembly

theorem symbols_bindLabel (a : Assembly) (name : String) :
    (a.bindLabel name).symbols =
      a.symbols.bind name (.bound a.location a.relocatable false) := by
  simp only [bindLabel, noteIf]
  split <;> rfl

theorem symbols_moveOrigin (a : Assembly) (d : Directive) (value : Int32) :
    (a.moveOrigin d value).symbols = a.symbols := by
  simp only [moveOrigin]
  split <;> rfl

theorem symbols_emitField (a : Assembly) (op : Operator) (right code : Int32) (id : ExprId) :
    (a.emitField op right code id).symbols = a.symbols := by
  simp only [emitField]
  split <;> rfl

/-- What reading an operand does to the tables. -/
theorem operand_grows {a b : Assembly} {c c' : Cursor} {id : ExprId}
    (read : a.operand c = (id, c', b)) :
    Tables.Grows c a.toTables c' b.toTables ∧ id < b.exprs.size := by
  cases read
  exact ⟨(Operand.grown_read _ _ c a.toTables).grows, (Operand.grown_read _ _ c a.toTables).inside⟩

/-- Reading an operand gives an expression that never warns. -/
theorem operand_quiet {a b : Assembly} {c c' : Cursor} {id : ExprId}
    (read : a.operand c = (id, c', b)) : b.exprs.Quiet id := by
  cases read
  exact (Operand.grown_read _ _ c a.toTables).quiet

/-- From `p` to `q` literals are created, and paid for by the brackets passed over. -/
def Pays (p q : Position) : Prop :=
  ∃ texts, p.2.symbols.Interns texts q.2.symbols ∧
    bracketWeight texts + q.1.rest.count '[' ≤ p.1.rest.count '['

theorem pays_of_same {c c' : Cursor} {a b : Assembly} (forward : c'.rest <:+ c.rest)
    (same : b.symbols = a.symbols) : Pays (c, a) (c', b) := by
  refine ⟨[], ?_, ?_⟩
  · rw [same]
    exact SymbolTable.interns_nil rfl rfl (Nat.le_refl _)
  · simpa [bracketWeight] using forward.sublist.count_le '['

theorem Pays.trans {p q r : Position} (h : Pays p q) (h' : Pays q r) : Pays p r := by
  obtain ⟨texts, interned, weight⟩ := h
  obtain ⟨texts', interned', weight'⟩ := h'
  refine ⟨_, interned.trans interned', ?_⟩
  rw [bracketWeight_append]
  omega

/-- A read operand pays for itself, and what is then done with the table's labels is free. -/
theorem pays_operand {a b b' : Assembly} {c c' : Cursor} {id : ExprId}
    (read : a.operand c = (id, c', b)) (labels : b.symbols.Interns [] b'.symbols) :
    Pays (c, a) (c', b') := by
  obtain ⟨texts, interned, weight⟩ := (operand_grows read).1.interned
  refine ⟨texts, ?_, weight⟩
  simpa using interned.trans labels

theorem Move.pays {origins binds : Prop} {p q : Position}
    (h : Move refusePool origins binds p q) : Pays p q := by
  have unchanged (a : Assembly) : a.symbols.Interns [] a.symbols :=
    SymbolTable.interns_nil rfl rfl (Nat.le_refl _)
  cases h with
  | skip a forward => exact pays_of_same forward rfl
  | note | log | comment | word | pool | stop => exact pays_of_same (List.suffix_refl _) rfl
  | label c a name =>
    refine ⟨[], ?_, by simp [bracketWeight]⟩
    rw [symbols_bindLabel]
    exact a.symbols.interns_bind _ _
  | operand read => exact pays_operand read (unchanged _)
  | expr read => exact pays_operand read (unchanged _)
  | field read masks right code =>
    refine pays_operand read ?_
    rw [symbols_emitField]
    exact unchanged _
  | value read => exact pays_operand read (unchanged _)
  | @origin _ a b b' _ _ id read valid value known d =>
    obtain rfl : (b.valueNow id).2 = b' := congrArg Prod.snd known
    refine pays_operand read ?_
    rw [symbols_moveOrigin]
    exact unchanged b
  | @assign a b b' _ _ id read valid value known name _ =>
    obtain rfl : (b.valueNow id).2 = b' := congrArg Prod.snd known
    exact pays_operand read (b.symbols.interns_bind _ _)
  | stopAt read => exact pays_operand read (unchanged _)

theorem pays_of_reads {origins binds : Prop} {p q : Position}
    (h : Reads refusePool origins binds p q) : Pays p q := by
  induction h with
  | refl => exact pays_of_same (List.suffix_refl _) rfl
  | tail _ move ih => exact ih.trans move.pays

/-- The statement of a literal, before the literal gets its address. -/
def literalStatement (id : LiteralId) (a : Assembly) : Line.Kind × Assembly :=
  statement refusePool .unclassified false (.ofText (a.symbols.literalText id))
    { a with lineNumber := a.poolLines.size + 1 }

/-- What a literal assembles to: its statement, or a zero word if that left the location counter
where it was. -/
def literalBody (id : LiteralId) (a : Assembly) : Assembly :=
  let b := (literalStatement id a).2
  if b.location = a.location then
    (b.note (.valuelessLiteral (a.symbols.literalText id))).emitWord 0
  else b

/-- The line that a literal leaves. -/
def literalLine (id : LiteralId) (a : Assembly) : Line :=
  ⟨a.symbols.literalText id, a.poolLines.size + 1, (literalStatement id a).1,
    (literalBody id a).lineCode, (literalBody id a).diagnostics⟩

theorem placeLiteral_eq (id : LiteralId) (a : Assembly) :
    placeLiteral id a = { literalBody id a with
      symbols := (literalBody id a).symbols.place id a.location (literalBody id a).relocatable
      poolLines := (literalBody id a).poolLines.push (literalLine id a)
      lineCode := []
      diagnostics := [] } := rfl

theorem reads_literalBody (id : LiteralId) (a : Assembly) :
    ∃ c, Reads refusePool True True
      (.ofText (a.symbols.literalText id), { a with lineNumber := a.poolLines.size + 1 })
      (c, literalBody id a) := by
  obtain ⟨c, read⟩ : ∃ c, Reads refusePool True True
      (.ofText (a.symbols.literalText id), { a with lineNumber := a.poolLines.size + 1 })
      (c, (literalStatement id a).2) := reads_statement ..
  simp only [literalBody]
  split
  · exact ⟨c, reads_noted_word read _ 0 rfl⟩
  · exact ⟨c, read⟩

/-- The texts of the literals that wait, in order. -/
def waitingTexts (a : Assembly) : List String := a.symbols.queue.map a.symbols.literalText

theorem poolWeight_eq (a : Assembly) : a.poolWeight = bracketWeight a.waitingTexts := by
  rw [poolWeight, bracketWeight, waitingTexts, List.foldr_map]

theorem bracketWeight_sublist {texts texts' : List String} (h : texts.Sublist texts') :
    bracketWeight texts ≤ bracketWeight texts' := by
  induction h with
  | slnil => exact Nat.le_refl _
  | cons text _ ih =>
    simp only [bracketWeight, List.foldr_cons] at ih ⊢
    omega
  | cons_cons text _ ih =>
    simp only [bracketWeight, List.foldr_cons] at ih ⊢
    omega

section Placing

variable {a : Assembly} {n : Nat} {id : LiteralId}

/-- The table when a literal has been assembled: what it created waits behind the rest. -/
theorem interns_literalBody (id : LiteralId) (a : Assembly) :
    ∃ texts, a.symbols.Interns texts (literalBody id a).symbols ∧
      bracketWeight texts ≤ (a.symbols.literalText id).toList.count '[' := by
  obtain ⟨c, read⟩ := reads_literalBody id a
  obtain ⟨texts, interned, weight⟩ := pays_of_reads read
  refine ⟨texts, interned, ?_⟩
  simp only [Cursor.ofText, Cursor.ofList] at weight
  omega

/-- What waits when a literal has been placed: the others as before, and behind them what its text
has created. -/
theorem waitingTexts_placeLiteral (h : a.symbols.QueueInRange)
    (next : a.symbols.nextWaiting? = some id) {texts : List String}
    (interned : a.symbols.Interns texts (literalBody id a).symbols) :
    (placeLiteral id a).waitingTexts =
      (a.symbols.queue.filter (· != id)).map a.symbols.literalText ++ texts := by
  have created : (List.range' a.symbols.literals.size texts.length).filter (· != id) =
      List.range' a.symbols.literals.size texts.length := by
    have inside : id < a.symbols.literals.size := h id (List.mem_of_head? next)
    rw [List.filter_eq_self]
    intro k member
    exact bne_iff_ne.mpr (Nat.ne_of_gt (Nat.lt_of_lt_of_le inside (List.mem_range'_1.mp member).1))
  have queue : (placeLiteral id a).symbols.queue = a.symbols.queue.filter (· != id) ++
      List.range' a.symbols.literals.size texts.length := by
    simp only [placeLiteral_eq, SymbolTable.place, interned.queue, List.filter_append, created]
  have text : (placeLiteral id a).symbols.literalText = (literalBody id a).symbols.literalText := by
    funext k
    exact SymbolTable.literalText_place _ _ _ _ _
  have old : (a.symbols.queue.filter (· != id)).map (literalBody id a).symbols.literalText =
      (a.symbols.queue.filter (· != id)).map a.symbols.literalText :=
    List.map_congr_left fun k member =>
      interned.literalText (h k (List.mem_filter.mp member).1)
  rw [waitingTexts, queue, text, List.map_append, old, interned.map_literalText]

/-- A literal is replaced by literals that weigh less. -/
theorem poolWeight_lt_of_queueInRange (h : a.symbols.QueueInRange)
    (next : a.symbols.nextWaiting? = some id) : (placeLiteral id a).poolWeight < a.poolWeight := by
  obtain ⟨texts, interned, weight⟩ := interns_literalBody id a
  obtain ⟨rest, front⟩ : ∃ rest, a.symbols.queue = id :: rest := List.head?_eq_some_iff.mp next
  have fewer : bracketWeight ((rest.filter (· != id)).map a.symbols.literalText) ≤
      bracketWeight (rest.map a.symbols.literalText) :=
    bracketWeight_sublist (List.filter_sublist.map _)
  rw [poolWeight_eq, poolWeight_eq a, waitingTexts_placeLiteral h next interned, waitingTexts,
    bracketWeight_append, front, List.filter_cons_of_neg (by simp)]
  simp only [List.map_cons, bracketWeight, List.foldr_cons] at fewer weight ⊢
  omega

/-- A literal that is being assembled stays at the front of the queue. -/
theorem nextWaiting?_literalBody (next : a.symbols.nextWaiting? = some id) :
    (literalBody id a).symbols.nextWaiting? = some id := by
  obtain ⟨texts, interned, -⟩ := interns_literalBody id a
  obtain ⟨rest, front⟩ : ∃ rest, a.symbols.queue = id :: rest := List.head?_eq_some_iff.mp next
  simp [SymbolTable.nextWaiting?, interned.queue, front]

theorem queueInRange_placeLiteral (h : a.symbols.QueueInRange) (id : LiteralId) :
    (placeLiteral id a).symbols.QueueInRange := by
  obtain ⟨texts, interned, -⟩ := interns_literalBody id a
  exact (h.interns interned).place id _ _

/-- Placing literals goes on until none waits. -/
theorem queue_placeLiterals (h : a.symbols.QueueInRange) :
    (placeLiterals a).symbols.queue = [] := by
  fun_induction placeLiterals a with
  | case1 a none => exact List.head?_eq_none_iff.mp none
  | case2 a id next b less ih => exact ih (queueInRange_placeLiteral h id)
  | case3 a id next b more => exact absurd (poolWeight_lt_of_queueInRange h next) more

theorem queue_placePool_of_queueInRange (h : a.symbols.QueueInRange) :
    a.placePool.symbols.queue = [] := by
  simp only [placePool]
  split
  · exact queue_placeLiterals h
  · next idle => simpa [SymbolTable.hasWaiting] using idle

theorem queue_placePool (h : a.symbols.InOrder n) : a.placePool.symbols.queue = [] :=
  queue_placePool_of_queueInRange h.queueInRange

end Placing

end Assembly

end Pds1
