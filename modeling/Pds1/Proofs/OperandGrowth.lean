import Pds1.Assembly.Basic
import Pds1.Proofs.LabelTable
import Pds1.Proofs.Soundness

/-!
# What reading an operand adds

Reading an operand enters names, creates literals and adds nodes; nothing that was there changes,
no name is bound, and sound tables stay sound. The expression read never warns. Every literal
created comes from a bracketed part of the text that is passed over, so the brackets passed over pay
for the literal and for the brackets in its own text.
-/

namespace Pds1

namespace SymbolTable

/-- From `t` to `t'` literals with the given texts are created and queued, in this order. -/
structure Interns (t : SymbolTable) (texts : List String) (t' : SymbolTable) : Prop where
  literals : t'.literals = t.literals ++ (texts.map Literal.ofText).toArray
  queue : t'.queue = t.queue ++ List.range' t.literals.size texts.length
  labels : t.labels.size ≤ t'.labels.size

theorem interns_nil {t t' : SymbolTable} (literals : t'.literals = t.literals)
    (queue : t'.queue = t.queue) (labels : t.labels.size ≤ t'.labels.size) : t.Interns [] t' :=
  ⟨by simp [literals], by simp [queue], labels⟩

theorem Interns.size {t t' : SymbolTable} {texts : List String} (h : t.Interns texts t') :
    t'.literals.size = t.literals.size + texts.length := by
  simp [h.literals]

theorem Interns.trans {t t' t'' : SymbolTable} {texts texts' : List String}
    (h : t.Interns texts t') (h' : t'.Interns texts' t'') : t.Interns (texts ++ texts') t'' := by
  refine ⟨?_, ?_, Nat.le_trans h.labels h'.labels⟩
  · rw [h'.literals, h.literals]
    simp
  · rw [h'.queue, h.queue, h.size, List.append_assoc, List.length_append]
    simp

/-- The numbers on record belong to literals. -/
structure InRange (t : SymbolTable) : Prop where
  waiting : ∀ entry ∈ t.waiting, entry.2 < t.literals.size
  placed : ∀ entry ∈ t.placed, entry.2 < t.literals.size
  queue : ∀ id ∈ t.queue, id < t.literals.size

theorem inRange_empty : InRange {} := ⟨by simp, by simp, by simp⟩

theorem interns_reference (t : SymbolTable) (name : String) :
    t.Interns [] (t.reference name).2 := by
  simp only [reference]
  split
  · exact interns_nil rfl rfl (Nat.le_refl _)
  · exact interns_nil rfl rfl (by simp)

theorem reference_lt (t : SymbolTable) (name : String) :
    (t.reference name).1 < (t.reference name).2.labels.size := by
  simp only [reference]
  split
  · next id h => exact (Array.findIdx?_eq_some_iff_getElem.mp h).1
  · simp

theorem InRange.reference {t : SymbolTable} (h : t.InRange) (name : String) :
    (t.reference name).2.InRange := by
  simp only [SymbolTable.reference]
  split
  · exact h
  · exact ⟨h.waiting, h.placed, h.queue⟩

/-- A reference to a literal creates it or finds it. -/
theorem interns_intern (t : SymbolTable) (text : String) (location : Int32) :
    t.Interns [] (t.intern text location).2 ∨ t.Interns [text] (t.intern text location).2 := by
  simp only [intern]
  split
  · exact .inl (interns_nil rfl rfl (Nat.le_refl _))
  · split
    · exact .inl (interns_nil rfl rfl (Nat.le_refl _))
    · exact .inr ⟨by simp, by simp, Nat.le_refl _⟩

theorem InRange.intern {t : SymbolTable} (h : t.InRange) (text : String) (location : Int32) :
    (t.intern text location).2.InRange := by
  simp only [SymbolTable.intern]
  split
  · exact h
  · split
    · exact h
    · constructor
      · intro entry member
        rw [Array.size_push]
        rcases List.mem_cons.mp member with rfl | old
        · exact Nat.lt_succ_self _
        · exact Nat.lt_succ_of_lt (h.waiting entry old)
      · intro entry member
        rw [Array.size_push]
        exact Nat.lt_succ_of_lt (h.placed entry member)
      · intro id member
        rw [Array.size_push]
        rcases List.mem_append.mp member with old | new
        · exact Nat.lt_succ_of_lt (h.queue id old)
        · exact List.mem_singleton.mp new ▸ Nat.lt_succ_self _

theorem mem_of_lookup_eq_some {entries : List (String × LiteralId)} {text : String}
    {id : LiteralId} (h : entries.lookup text = some id) : (text, id) ∈ entries := by
  obtain ⟨before, after, rfl, -⟩ := List.lookup_eq_some_iff.mp h
  simp

theorem intern_lt {t : SymbolTable} (h : t.InRange) (text : String) (location : Int32) :
    (t.intern text location).1 < (t.intern text location).2.literals.size := by
  simp only [intern]
  split
  · next id near =>
    obtain ⟨entry, found, rfl⟩ := Option.map_eq_some_iff.mp near
    exact h.placed entry (List.mem_of_find?_eq_some found)
  · split
    · next id waits => exact h.waiting _ (mem_of_lookup_eq_some waits)
    · simp

end SymbolTable

/-- One for each text and one for each bracket in it. -/
def bracketWeight (texts : List String) : Nat :=
  texts.foldr (fun text n => 1 + text.toList.count '[' + n) 0

theorem bracketWeight_append (texts texts' : List String) :
    bracketWeight (texts ++ texts') = bracketWeight texts + bracketWeight texts' := by
  induction texts with
  | nil => simp [bracketWeight]
  | cons text rest ih =>
    simp only [bracketWeight, List.cons_append, List.foldr_cons] at ih ⊢
    omega

namespace Tables

structure Sound (t : Tables) : Prop where
  exprs : t.exprs.Sound t.symbols
  symbols : t.symbols.InRange

/-- From `t` to `t'` the tables grow while the cursor goes from `c` to `c'`. -/
structure Grows (c : Cursor) (t : Tables) (c' : Cursor) (t' : Tables) : Prop where
  exprs : t.exprs.Extends t'.exprs
  interned : ∃ texts, t.symbols.Interns texts t'.symbols ∧
    bracketWeight texts + c'.rest.count '[' ≤ c.rest.count '['
  keeps : t.symbols.Keeps t'.symbols
  complaints : duplicates t'.diagnostics = duplicates t.diagnostics
  sound : t.Sound → t'.Sound

variable {c c' c'' : Cursor} {t t' t'' : Tables}

theorem Grows.trans (h : Grows c t c' t') (h' : Grows c' t' c'' t'') : Grows c t c'' t'' := by
  obtain ⟨texts, interned, weight⟩ := h.interned
  obtain ⟨texts', interned', weight'⟩ := h'.interned
  refine ⟨h.exprs.trans h'.exprs, ⟨texts ++ texts', interned.trans interned', ?_⟩,
    h.keeps.trans h'.keeps, h'.complaints.trans h.complaints, fun sound => h'.sound (h.sound sound)⟩
  rw [bracketWeight_append]
  omega

/-- Passing over text adds nothing. -/
theorem grows_skip (forward : c'.rest <:+ c.rest) (t : Tables) : Grows c t c' t := by
  refine ⟨.refl _, ⟨[], SymbolTable.interns_nil rfl rfl (Nat.le_refl _), ?_⟩,
    SymbolTable.keeps_of_labels rfl, rfl, id⟩
  simpa [bracketWeight] using forward.sublist.count_le '['

theorem grows_refl (c : Cursor) (t : Tables) : Grows c t c t :=
  grows_skip (List.suffix_refl _) t

/-- Passing over one more character. -/
theorem Grows.step (h : Grows c t c' t') {x : Char} {r : List Char} (next : c'.rest = x :: r) :
    Grows c t (c'.moveTo r) t' :=
  h.trans (grows_skip (by simp [next]) t')

/-- A node may be added on top of what has grown. -/
theorem Grows.push (h : Grows c t c' t') (node : Node)
    (new : t.Sound → node.Sound t'.exprs t'.symbols t'.exprs.size) (symbolic : Bool) :
    Grows c t c' (t'.push node symbolic).2 := by
  obtain ⟨texts, interned, weight⟩ := h.interned
  refine ⟨h.exprs.trans (ExprStore.extends_push _ _ _), ⟨texts, interned, weight⟩, h.keeps,
    h.complaints, ?_⟩
  intro sound
  exact ⟨(h.sound sound).exprs.push (new sound) symbolic, (h.sound sound).symbols⟩

theorem Grows.note (h : Grows c t c' t') {d : Diagnostic} (other : d.duplicate? = none) :
    Grows c t c' (t'.note d) :=
  ⟨h.exprs, h.interned, h.keeps, (duplicates_of_other other).trans h.complaints,
    fun sound => ⟨(h.sound sound).exprs, (h.sound sound).symbols⟩⟩

/-- Names and literals may be added while `texts` are created and enough brackets passed over. -/
theorem grows_symbols {symbols : SymbolTable} {texts : List String}
    (interned : t.symbols.Interns texts symbols) (keeps : t.symbols.Keeps symbols)
    (weight : bracketWeight texts + c'.rest.count '[' ≤ c.rest.count '[')
    (inRange : t.symbols.InRange → symbols.InRange) :
    Grows c t c' { t with symbols := symbols } := by
  have grown : t.symbols.literals.size ≤ symbols.literals.size := by
    rw [interned.size]
    exact Nat.le_add_right _ _
  exact ⟨.refl _, ⟨texts, interned, weight⟩, keeps, rfl, fun sound =>
    ⟨sound.exprs.mono interned.labels grown, inRange sound.symbols⟩⟩

end Tables

namespace Operand

/-- The tables have grown, and the expression read is in them and never warns. -/
structure Reading.Grown (c : Cursor) (t : Tables) (r : Reading) : Prop where
  grows : Tables.Grows c t r.cursor r.tables
  inside : r.expr < r.tables.exprs.size
  quiet : r.tables.exprs.Quiet r.expr

variable {c d : Cursor} {t t' : Tables}

theorem grown_push (h : Tables.Grows c t d t') (node : Node)
    (new : t.Sound → node.Sound t'.exprs t'.symbols t'.exprs.size) (quiet : node.IsQuiet t'.exprs)
    (symbolic : Bool) : (Reading.of (t'.push node symbolic) d).Grown c t := by
  refine ⟨h.push node new symbolic, ?_, ExprStore.quiet_push quiet symbolic⟩
  simp [Reading.of, Tables.push, ExprStore.push, ExprStore.size]

theorem grown_reject (h : Tables.Grows c t d t') (e : Diagnostic) (other : e.duplicate? = none) :
    (Reading.of (t'.reject e) d).Grown c t :=
  grown_push (h.note other) .invalid (fun _ => trivial) trivial false

/-- A reading that is not invalid names a valid node. -/
theorem Reading.Grown.valid {r : Reading} (h : r.Grown c t) (valid : r.isInvalid = false) :
    r.tables.exprs.Valid r.expr :=
  ExprStore.valid_iff.mpr ⟨h.inside, valid⟩

theorem grown_name (name : String) (forward : d.rest <:+ c.rest) (t : Tables) :
    (Operand.name name d t).Grown c t := by
  have entered : Tables.Grows c t d { t with symbols := (t.symbols.reference name).2 } :=
    Tables.grows_symbols (t.symbols.interns_reference name) (t.symbols.keeps_reference name)
      (by simpa [bracketWeight] using forward.sublist.count_le '[')
      fun h => h.reference name
  exact grown_push entered (.label (t.symbols.reference name).1)
    (fun _ => t.symbols.reference_lt name) trivial _

/-- What is split off and what follows make up the text again, with the bracket between them. -/
theorem closing?_eq {depth : Nat} {cs text rest : List Char}
    (h : closing? depth cs = some (text, rest)) : cs = text ++ ']' :: rest := by
  fun_induction closing? depth cs generalizing text rest with
  | case1 => cases h
  | case2 depth r ih =>
    obtain ⟨s, hs, hp⟩ := Option.map_eq_some_iff.mp h
    cases hp
    rw [ih hs, List.cons_append]
  | case3 r =>
    cases h
    rfl
  | case4 depth r ih =>
    obtain ⟨s, hs, hp⟩ := Option.map_eq_some_iff.mp h
    cases hp
    rw [ih hs, List.cons_append]
  | case5 depth c r _ _ _ ih =>
    obtain ⟨s, hs, hp⟩ := Option.map_eq_some_iff.mp h
    cases hp
    rw [ih hs, List.cons_append]

theorem count_dropComma_le (text : List Char) (x : Char) :
    (dropComma text).count x ≤ text.count x := by
  simp only [dropComma]
  split
  · exact text.dropLast_sublist.count_le x
  · exact Nat.le_refl _

/-- A literal is paid for by its opening bracket and the brackets inside. -/
theorem grown_literal (location : Int32) {r : List Char} (opening : c.rest = '[' :: r)
    (t : Tables) : (literal location (c.moveTo r) t).Grown c t := by
  simp only [literal, Cursor.rest_moveTo]
  split
  · exact grown_reject ((Tables.grows_refl c t).step opening) _ rfl
  · next text rest closed =>
    have brackets : c.rest.count '[' = 1 + text.count '[' + rest.count '[' := by
      rw [opening, closing?_eq closed]
      simp
      omega
    have comma := count_dropComma_le text '['
    have created : ∃ texts, t.symbols.Interns texts
        (t.symbols.intern (String.ofList (dropComma text)) location).2 ∧
        bracketWeight texts + rest.count '[' ≤ c.rest.count '[' := by
      rcases t.symbols.interns_intern (String.ofList (dropComma text)) location with old | new
      · refine ⟨_, old, ?_⟩
        simp only [bracketWeight, List.foldr_nil]
        omega
      · refine ⟨_, new, ?_⟩
        simp only [bracketWeight, List.foldr_cons, List.foldr_nil, String.toList_ofList]
        omega
    obtain ⟨texts, interned, weight⟩ := created
    have entered : Tables.Grows c t (c.moveTo rest) { t with symbols := _ } :=
      Tables.grows_symbols interned (t.symbols.keeps_intern _ location) weight
        fun h => h.intern _ location
    exact grown_push entered (.literal _)
      (fun sound => SymbolTable.intern_lt sound.symbols _ location) trivial true

theorem Reading.Grown.negate {r : Reading} (h : r.Grown c t) : (Operand.negate r).Grown c t := by
  simp only [Operand.negate]
  split
  · exact grown_reject h.grows _ rfl
  · next valid =>
    have inner := h.valid (by simpa using valid)
    exact grown_push h.grows (.neg r.expr) (fun _ => ⟨h.inside, inner⟩) ⟨h.inside, h.quiet⟩ _

theorem grown_term (dialect : Dialect) (location : Int32) (c : Cursor) (t : Tables) :
    (term dialect location c t).Grown c t := by
  fun_induction term dialect location c t with
  | case1 c value d h =>
    exact grown_push (Tables.grows_skip (Number.read?_suffix h) t) (.const value)
      (fun _ => trivial) trivial false
  | case2 c _ text d h => exact grown_name text (Name.read?_suffix h) t
  | case3 c => exact grown_reject (Tables.grows_refl c t) _ rfl
  | case4 c _ _ r h =>
    exact grown_push ((Tables.grows_refl c t).step h) (.location location) (fun _ => trivial)
      trivial false
  | case5 c _ _ x r h _ bracket =>
    obtain ⟨rfl, -⟩ : x = '[' ∧ _ := by simpa using bracket
    exact grown_literal location h t
  | case6 c _ _ r h _ _ ih =>
    have minus : Tables.Grows c t (c.moveTo r) t := (Tables.grows_refl c t).step h
    exact Reading.Grown.negate ⟨minus.trans ih.grows, ih.inside, ih.quiet⟩
  | case7 c => exact grown_reject (Tables.grows_refl c t) _ rfl

/-- Terms added to a reading keep what it has grown to. -/
theorem Reading.Grown.extend (dialect : Dialect) (location : Int32) {left : Reading}
    (h : left.Grown c t) : (Operand.extend dialect location left).Grown c t := by
  fun_induction Operand.extend dialect location left with
  | case1 | case2 | case3 => exact h
  | case4 left _ x r rest => exact grown_reject (h.grows.step rest) _ rfl
  | case5 left _ x r rest _ _ _ right _ =>
    have second := grown_term dialect location (left.cursor.moveTo r) left.tables
    exact ⟨(h.grows.step rest).trans second.grows, second.inside, second.quiet⟩
  | case6 left valid x r rest op written _ right valid' exprs ih =>
    have second := grown_term dialect location (left.cursor.moveTo r) left.tables
    have first := second.grows.exprs.valid (h.valid (by simpa using valid))
    have last := second.valid (by simpa using valid')
    have quiet := second.grows.exprs.quiet h.inside h.quiet
    exact ih (grown_push ((h.grows.step rest).trans second.grows)
      (.binary op left.expr right.expr) (fun _ => ⟨⟨first.lt, first⟩, last.lt, last⟩)
      ⟨Operator.isQuiet_of_ofChar? written, ⟨first.lt, quiet⟩, last.lt, second.quiet⟩ _)

theorem grown_read (dialect : Dialect) (location : Int32) (c : Cursor) (t : Tables) :
    (read dialect location c t).Grown c t :=
  (grown_term dialect location c t).extend dialect location

end Operand

end Pds1
