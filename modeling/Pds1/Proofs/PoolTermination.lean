import Mathlib.Data.Multiset.DershowitzManna
import Pds1.Proofs.EvaluationFailures

/-!
# Placing a pool ends

A pool is placed by a loop: the literal at the front of the queue is assembled and taken off, and
what its text creates is queued behind the others. The queue may grow at a turn, but everything
created is a bracketed part of the text and so shorter than it. Hence the multiset of the lengths of
the waiting texts goes down at every turn, and there is no infinite run of turns. Inside a turn the
statements of the text are read by loops of their own, which never look twice at the same place.
-/

namespace Pds1

namespace SymbolTable

/-- From `t` to `t'` literals are created, each with a text of less than `n` characters. -/
def AddsShorter (n : Nat) (t t' : SymbolTable) : Prop :=
  ∃ texts, t.Interns texts t' ∧ ∀ text ∈ texts, text.length < n

variable {t t' t'' : SymbolTable}

theorem AddsShorter.trans {m n : Nat} (h : t.AddsShorter n t') (h' : t'.AddsShorter m t'')
    (less : m ≤ n) : t.AddsShorter n t'' := by
  obtain ⟨texts, interned, short⟩ := h
  obtain ⟨texts', interned', short'⟩ := h'
  refine ⟨texts ++ texts', interned.trans interned', ?_⟩
  intro text member
  rcases List.mem_append.mp member with first | second
  · exact short text first
  · exact Nat.lt_of_lt_of_le (short' text second) less

theorem Interns.addsShorter (h : t.Interns [] t') (n : Nat) : t.AddsShorter n t' :=
  ⟨[], h, by simp⟩

theorem addsShorter_refl (n : Nat) (t : SymbolTable) : t.AddsShorter n t :=
  (interns_nil rfl rfl (Nat.le_refl _)).addsShorter n

end SymbolTable

namespace Operand

open SymbolTable

theorem length_dropComma_le (text : List Char) : (dropComma text).length ≤ text.length := by
  simp only [dropComma]
  split
  · exact text.dropLast_sublist.length_le
  · exact Nat.le_refl _

/-- A literal is shorter than the text from its opening bracket on. -/
theorem shorter_literal (location : Int32) {c : Cursor} {r : List Char}
    (opening : c.rest = '[' :: r) (t : Tables) :
    t.symbols.AddsShorter c.rest.length (literal location (c.moveTo r) t).tables.symbols := by
  simp only [literal, Cursor.rest_moveTo]
  split
  · exact addsShorter_refl _ _
  · next text rest closed =>
    have short : (String.ofList (dropComma text)).length < c.rest.length := by
      have comma := length_dropComma_le text
      rw [opening, closing?_eq closed]
      simp only [String.length_ofList, List.length_cons, List.length_append]
      omega
    rcases t.symbols.interns_intern (String.ofList (dropComma text)) location with old | new
    · exact old.addsShorter _
    · exact ⟨_, new, by simpa using short⟩

theorem symbols_negate (r : Reading) : (negate r).tables.symbols = r.tables.symbols := by
  rw [negate]
  split <;> rfl

theorem shorter_term (dialect : Dialect) (location : Int32) (c : Cursor) (t : Tables) :
    t.symbols.AddsShorter c.rest.length (term dialect location c t).tables.symbols := by
  fun_induction term dialect location c t with
  | case1 | case3 | case4 | case7 => exact addsShorter_refl _ _
  | case2 c _ text d => exact (t.symbols.interns_reference text).addsShorter _
  | case5 c _ _ x r h _ bracket =>
    obtain ⟨rfl, -⟩ : x = '[' ∧ _ := by simpa using bracket
    exact shorter_literal location h t
  | case6 c _ _ r h _ _ ih =>
    rw [symbols_negate]
    exact (addsShorter_refl _ _).trans ih (by simp [h])

/-- So are the literals of the terms that follow. -/
theorem shorter_extend (dialect : Dialect) (location : Int32) (left : Reading) :
    left.tables.symbols.AddsShorter left.cursor.rest.length
      (extend dialect location left).tables.symbols := by
  fun_induction extend dialect location left with
  | case1 | case2 | case3 | case4 => exact addsShorter_refl _ _
  | case5 left _ x r rest =>
    exact (addsShorter_refl _ _).trans
      (shorter_term dialect location (left.cursor.moveTo r) left.tables) (by simp [rest])
  | case6 left _ x r rest _ _ _ right _ _ ih =>
    have term := shorter_term dialect location (left.cursor.moveTo r) left.tables
    have forward := (term_suffix dialect location (left.cursor.moveTo r) left.tables).length_le
    have whole := (addsShorter_refl left.cursor.rest.length left.tables.symbols).trans
      (term.trans ih forward) (by simp [rest])
    exact whole

theorem shorter_read (dialect : Dialect) (location : Int32) (c : Cursor) (t : Tables) :
    t.symbols.AddsShorter c.rest.length (read dialect location c t).tables.symbols :=
  (shorter_term dialect location c t).trans (shorter_extend dialect location _)
    (term_suffix dialect location c t).length_le

end Operand

namespace Assembly

open SymbolTable

/-- From `p` to `q` the cursor does not go back, and what is created is shorter than the text that
was left. -/
structure Shortens (p q : Position) : Prop where
  forward : q.1.rest.length ≤ p.1.rest.length
  created : p.2.symbols.AddsShorter p.1.rest.length q.2.symbols

theorem Shortens.trans {p q r : Position} (h : Shortens p q) (h' : Shortens q r) : Shortens p r :=
  ⟨Nat.le_trans h'.forward h.forward, h.created.trans h'.created h.forward⟩

theorem shortens_of_same {c c' : Cursor} {a b : Assembly} (forward : c'.rest <:+ c.rest)
    (same : b.symbols = a.symbols) : Shortens (c, a) (c', b) := by
  refine ⟨forward.length_le, ?_⟩
  rw [same]
  exact addsShorter_refl _ _

/-- What is done with the labels after an operand has been read creates no literal. -/
theorem shortens_operand {a b b' : Assembly} {c c' : Cursor} {id : ExprId}
    (read : a.operand c = (id, c', b)) (labels : b.symbols.Interns [] b'.symbols) :
    Shortens (c, a) (c', b') := by
  cases read
  refine ⟨(a.operand_suffix c).length_le, ?_⟩
  exact (Operand.shorter_read a.dialect a.location c a.toTables).trans (labels.addsShorter _)
    (Nat.le_refl _)

theorem Move.shortens {origins binds : Prop} {p q : Position}
    (h : Move refusePool origins binds p q) : Shortens p q := by
  have unchanged (a : Assembly) : a.symbols.Interns [] a.symbols :=
    interns_nil rfl rfl (Nat.le_refl _)
  cases h with
  | skip a forward => exact shortens_of_same forward rfl
  | note | log | comment | word | pool | stop => exact shortens_of_same (List.suffix_refl _) rfl
  | label c a name =>
    refine ⟨Nat.le_refl _, ?_⟩
    rw [symbols_bindLabel]
    exact (a.symbols.interns_bind _ _).addsShorter _
  | operand read => exact shortens_operand read (unchanged _)
  | expr read => exact shortens_operand read (unchanged _)
  | field read masks right code =>
    refine shortens_operand read ?_
    rw [symbols_emitField]
    exact unchanged _
  | value read => exact shortens_operand read (unchanged _)
  | @origin _ a b b' _ _ id read valid value known d =>
    obtain rfl : (b.valueNow id).2 = b' := congrArg Prod.snd known
    refine shortens_operand read ?_
    rw [symbols_moveOrigin]
    exact unchanged b
  | @assign a b b' _ _ id read valid value known name _ =>
    obtain rfl : (b.valueNow id).2 = b' := congrArg Prod.snd known
    exact shortens_operand read (b.symbols.interns_bind _ _)
  | stopAt read => exact shortens_operand read (unchanged _)

theorem shortens_of_reads {origins binds : Prop} {p q : Position}
    (h : Reads refusePool origins binds p q) : Shortens p q := by
  induction h with
  | refl => exact shortens_of_same (List.suffix_refl _) rfl
  | tail _ move ih => exact ih.trans move.shortens

/-- Everything that a literal creates is shorter than its own text. -/
theorem shorter_literalBody (id : LiteralId) (a : Assembly) :
    a.symbols.AddsShorter (a.symbols.literalText id).length (literalBody id a).symbols := by
  obtain ⟨c, read⟩ := reads_literalBody id a
  exact (shortens_of_reads read).created

/-- The lengths of the texts that wait. -/
def waitingLengths (a : Assembly) : Multiset Nat := a.waitingTexts.map String.length

/-- One turn of the loop that places a pool. -/
def PoolTurn (a b : Assembly) : Prop :=
  ∃ id, a.symbols.nextWaiting? = some id ∧ b = placeLiteral id a

/-- From `a` to `b` the literal in front has left the queue, and what is new behind the others has a
shorter text. -/
structure Replaces (a b : Assembly) (id : LiteralId) (texts : List String) : Prop where
  front : a.symbols.nextWaiting? = some id
  left : id ∉ b.symbols.queue
  others : b.waitingTexts = (a.symbols.queue.filter (· != id)).map a.symbols.literalText ++ texts
  shorter : ∀ text ∈ texts, text.length < (a.symbols.literalText id).length

variable {a b : Assembly}

theorem PoolTurn.replaces (turn : PoolTurn a b) (h : a.symbols.QueueInRange) :
    ∃ id texts, Replaces a b id texts := by
  obtain ⟨id, next, rfl⟩ := turn
  obtain ⟨texts, interned, shorter⟩ := shorter_literalBody id a
  refine ⟨id, texts, next, ?_, waitingTexts_placeLiteral h next interned, shorter⟩
  simp [placeLiteral_eq, SymbolTable.place]

/-- The literal that leaves makes up for all that are created. -/
theorem Replaces.lengths_lt {id : LiteralId} {texts : List String} (h : Replaces a b id texts) :
    Multiset.IsDershowitzMannaLT b.waitingLengths a.waitingLengths := by
  let length (k : LiteralId) : Nat := (a.symbols.literalText k).length
  have queued : id ∈ a.symbols.queue := List.mem_of_head? h.front
  refine ⟨(a.symbols.queue.filter (· != id)).map length, texts.map String.length,
    (a.symbols.queue.filter (· == id)).map length, ?_, ?_, ?_, ?_⟩
  · intro empty
    have member : id ∈ a.symbols.queue.filter (· == id) := List.mem_filter.mpr ⟨queued, by simp⟩
    simp only [Multiset.empty_eq_zero, Multiset.coe_eq_zero, List.map_eq_nil_iff] at empty
    rw [empty] at member
    cases member
  · rw [waitingLengths, h.others]
    simp [length, Function.comp_def]
  · have split := List.filter_append_perm (· == id) a.symbols.queue
    have lengths := (split.symm.trans List.perm_append_comm).map length
    simpa [waitingLengths, waitingTexts, length, Multiset.coe_eq_coe, Function.comp_def, bne]
      using lengths
  · intro y member
    obtain ⟨text, created, rfl⟩ := List.mem_map.mp member
    exact ⟨length id, List.mem_map.mpr ⟨id, List.mem_filter.mpr ⟨queued, by simp⟩, rfl⟩,
      h.shorter text created⟩

theorem PoolTurn.queueInRange (turn : PoolTurn a b) (h : a.symbols.QueueInRange) :
    b.symbols.QueueInRange := by
  obtain ⟨id, -, rfl⟩ := turn
  exact queueInRange_placeLiteral h id

theorem queueInRange_of_turns (turns : Relation.ReflTransGen PoolTurn a b)
    (h : a.symbols.QueueInRange) : b.symbols.QueueInRange := by
  induction turns with
  | refl => exact h
  | tail _ turn ih => exact turn.queueInRange ih

/-- No run of turns goes on for ever. -/
theorem acc_poolTurn (h : a.symbols.QueueInRange) : Acc (fun b a => PoolTurn a b) a := by
  have founded := InvImage.wf waitingLengths (@Multiset.wellFounded_isDershowitzMannaLT Nat _ _)
  induction a using founded.induction with
  | _ a ih =>
    refine .intro a fun b turn => ?_
    obtain ⟨id, texts, replaced⟩ := turn.replaces h
    exact ih b replaced.lengths_lt (turn.queueInRange h)

/-- The turns lead to the pool as it is placed. -/
theorem turns_placeLiterals (h : a.symbols.QueueInRange) :
    Relation.ReflTransGen PoolTurn a (placeLiterals a) := by
  fun_induction placeLiterals a with
  | case1 a none => exact .refl
  | case2 a id next b less ih =>
    exact (ih (queueInRange_placeLiteral h id)).head ⟨id, next, rfl⟩
  | case3 a id next b more => exact .single ⟨id, next, rfl⟩

/-- Where the labels of a statement are looked for. -/
def labelPlaces (c : Cursor) (a : Assembly) : List Cursor :=
  match _h : Name.read? a.dialect false c with
  | none => [c]
  | some (name, d) =>
    c :: if a.dialect.isMidas then labelPlaces d.dropBlanks (a.bindLabel name) else []
termination_by c.rest.length
decreasing_by
  have h₁ := Name.read?_length_lt _h
  have h₂ := d.dropBlanks_suffix.length_le
  omega

/-- Where the labels are looked for in all the statements of a line. Each question mark leads to
another statement, and each label to another place in it. -/
def statementPlaces (place : Assembly → Assembly) : Bool → Cursor → Assembly → List Cursor :=
  statementTrace labelPlaces (fun _ _ => []) place

/-- One place is further on than another. -/
abbrev Further (c d : Cursor) : Prop := d.rest.length < c.rest.length

/-- The label loop goes forward, and stops no further back than where it last looked. -/
theorem pairwise_labelPlaces (label : Option String) (c : Cursor) (a : Assembly) :
    (labelPlaces c a).Pairwise Further ∧ ∀ d ∈ labelPlaces c a,
      d.rest.length ≤ c.rest.length ∧ (readLabels label c a).2.1.rest.length ≤ d.rest.length := by
  fun_induction readLabels label c a with
  | case1 label c a none =>
    rw [labelPlaces]
    split
    · simp
    · next found => cases none.symm.trans found
  | case2 label c a name d found midas ih =>
    rw [labelPlaces]
    split
    · next none => cases none.symm.trans found
    · next found' =>
      cases found.symm.trans found'
      rw [if_pos midas]
      have taken := Name.read?_length_lt found
      have blanks := d.dropBlanks_suffix.length_le
      have stopped := (readLabels_suffix (some name) d.dropBlanks (a.bindLabel name)).length_le
      refine ⟨List.pairwise_cons.mpr ⟨?_, ih.1⟩, ?_⟩
      · intro e member
        have later := (ih.2 e member).1
        omega
      · intro e member
        rcases List.mem_cons.mp member with rfl | later
        · omega
        · have bounds := ih.2 e later
          omega
  | case3 label c a name d found other =>
    rw [labelPlaces]
    split
    · next none => cases none.symm.trans found
    · next found' =>
      cases found.symm.trans found'
      rw [if_neg other]
      have taken := Name.read?_length_lt found
      simp only [List.pairwise_singleton, List.mem_singleton, true_and]
      rintro e rfl
      omega

theorem pairwise_statementPlaces (place : Assembly → Assembly) (continued : Bool) (c : Cursor)
    (a : Assembly) :
    (statementPlaces place continued c a).Pairwise Further ∧
      ∀ d ∈ statementPlaces place continued c a, d.rest.length ≤ c.rest.length := by
  simp only [statementPlaces]
  fun_induction statementTrace labelPlaces (fun _ _ => []) place continued c a with
  | case1 continued c a read d ih =>
    obtain ⟨forward, bounds⟩ := pairwise_labelPlaces none c a
    have followed {later : List Cursor} (pairs : later.Pairwise Further)
        (beyond : ∀ e ∈ later, e.rest.length < d.rest.length) :
        (labelPlaces c a ++ later).Pairwise Further ∧
          ∀ e ∈ labelPlaces c a ++ later, e.rest.length ≤ c.rest.length := by
      have stopped : d.rest.length ≤ c.rest.length := (readLabels_suffix none c a).length_le
      refine ⟨List.pairwise_append.mpr ⟨forward, pairs, ?_⟩, List.forall_mem_append.mpr ⟨?_, ?_⟩⟩
      · intro e member e' member'
        exact Nat.lt_of_lt_of_le (beyond e' member') (bounds e member).2
      · exact fun e member => (bounds e member).1
      · exact fun e member => Nat.le_trans (Nat.le_of_lt (beyond e member)) stopped
    have last := followed .nil (by simp)
    split
    · exact last
    · split
      · exact last
      · rw [List.nil_append]
        split
        · exact last
        · next e question =>
          obtain ⟨pairs, bound⟩ := ih e question
          have further : e.rest.length < d.rest.length := length_lt_of_question question
          exact followed pairs fun e' member => Nat.lt_of_le_of_lt (bound e' member) further

/-- Placing a pool ends: at every turn the multiset of the lengths of the waiting texts decreases,
and in the end none waits. Reading a text ends as well, because each place where a label is looked
for is further on than the one before. -/
theorem pool_placing_ends (a : Assembly) (inRange : a.symbols.QueueInRange) :
    (∀ b c, Relation.ReflTransGen PoolTurn a b → PoolTurn b c →
      ∃ id texts, Replaces b c id texts ∧
        Multiset.IsDershowitzMannaLT c.waitingLengths b.waitingLengths) ∧
    Acc (fun c b => PoolTurn b c) a ∧
    Relation.ReflTransGen PoolTurn a (placeLiterals a) ∧
    (∀ b, ¬ PoolTurn (placeLiterals a) b) ∧
    a.placePool.symbols.hasWaiting = false ∧
    (∀ place continued c m, (statementPlaces place continued c m).Pairwise Further) ∧
    ∀ dialect passes source t, t ∈ passOneTasks source (session passes (init dialect)) →
      t.state.symbols.QueueInRange := by
  refine ⟨?_, acc_poolTurn inRange, turns_placeLiterals inRange, ?_, ?_,
    fun place continued c m => (pairwise_statementPlaces place continued c m).1, ?_⟩
  · intro b c turns turn
    obtain ⟨id, texts, replaced⟩ := turn.replaces (queueInRange_of_turns turns inRange)
    exact ⟨id, texts, replaced, replaced.lengths_lt⟩
  · rintro b ⟨id, next, -⟩
    simp [SymbolTable.nextWaiting?, queue_placeLiterals inRange] at next
  · simp [SymbolTable.hasWaiting, queue_placePool_of_queueInRange inRange]
  · intro dialect passes source t task
    obtain ⟨k, settled, -⟩ := (settled_init dialect).session passes
    obtain ⟨ts, before⟩ := (path_passOne source settled.inOrder).before task
    exact (before.inOrder settled.inOrder).queueInRange

/-- The state after a line that refers to a literal with literals inside. -/
def afterNestedLiteral : Assembly := (readText "\tLAC [JMP [7]?LAC [LAC [5],]]" (init .midas)).2

theorem queue_afterNestedLiteral :
    afterNestedLiteral.symbols.queue = [0] ∧ afterNestedLiteral.symbols.literals.size = 1 := by
  constructor
  · decide +kernel
  · decide +kernel

/-- The first turn replaces one literal by two, and the queue is longer than before. -/
theorem pool_placing_ends_nested :
    afterNestedLiteral.symbols.QueueInRange ∧
      afterNestedLiteral.waitingTexts = ["JMP [7]?LAC [LAC [5],]"] ∧
      (placeLiteral 0 afterNestedLiteral).waitingTexts = ["7", "LAC [5]"] ∧
      afterNestedLiteral.placePool.symbols.hasWaiting = false ∧
      afterNestedLiteral.placePool.poolLines.map Line.text =
        #["JMP [7]?LAC [LAC [5],]", "7", "LAC [5]", "5"] := by
  have inRange : afterNestedLiteral.symbols.QueueInRange := by
    intro id member
    rw [queue_afterNestedLiteral.1] at member
    rw [List.mem_singleton.mp member, queue_afterNestedLiteral.2]
    exact Nat.zero_lt_one
  refine ⟨inRange, ?_, ?_, (pool_placing_ends _ inRange).2.2.2.2.1, ?_⟩
  · decide +kernel
  · decide +kernel
  · decide +kernel

end Assembly

end Pds1
