import Pds1.Proofs.Session

/-!
# What a literal's address holds

A literal gets the address at which its text begins to be assembled, and counts as having a value if
the location counter has moved when the text ends. The first word of the text is at that address
unless a directive in front of it moved the counter. Then the address holds something else, and no
diagnostic is given.
-/

namespace Pds1

open Assembly in
/-- The location counter after a task, given that it stood at `x` before and that the first word is
still to come. There are `n` cells until then. -/
def Task.place (n : Nat) (x : Int32) : Task → Int32
  | direct d c b => if d.movesOrigin && b.code.size == n then (origin d c b).2.location else x
  | _ => x

namespace Assembly

/-- The location of the first cell that the tasks lead to. -/
def firstPlace (n : Nat) (x : Int32) (ts : List Task) : Int32 := ts.foldl (fun x t => t.place n x) x

/-- Where the first word of a literal goes. -/
def literalPlace (id : LiteralId) (a : Assembly) : Int32 :=
  firstPlace a.code.size a.location (literalTasks id a)

theorem firstPlace_append (n : Nat) (x : Int32) (ts ts' : List Task) :
    firstPlace n x (ts ++ ts') = firstPlace n (firstPlace n x ts) ts' :=
  List.foldl_append

/-- Tasks that leave the counter alone. -/
theorem firstPlace_of_still {n : Nat} (x : Int32) {ts : List Task}
    (still : ∀ t ∈ ts, ∀ x, t.place n x = x) : firstPlace n x ts = x := by
  induction ts with
  | nil => rfl
  | cons t rest ih =>
    rw [firstPlace, List.foldl_cons, still t List.mem_cons_self]
    exact ih fun t' member => still t' (List.mem_cons_of_mem t member)

theorem place_of_later {n : Nat} {t : Task} (later : n < t.state.code.size) (x : Int32) :
    t.place n x = x := by
  cases t with
  | direct d c b =>
    have other : (b.code.size == n) = false := beq_false_of_ne (Nat.ne_of_gt later)
    simp [Task.place, other]
  | _ => rfl

/-- From `a` to `b` the first new cell is at `x`, or there is none and the counter is at `x`. -/
def Starts (a : Assembly) (x : Int32) (b : Assembly) : Prop :=
  ∃ cells : List Cell, b.code = a.code ++ cells.toArray ∧
    (cells.head?.map Cell.location).getD b.location = x

variable {a b c : Assembly} {x y : Int32} {ts ts' : List Task}

theorem starts_of_code (code : b.code = a.code) (location : b.location = x) : Starts a x b :=
  ⟨[], by simp [code], location⟩

theorem starts_emit (a : Assembly) (content : Cell.Content) :
    Starts a a.location (a.emit content) :=
  ⟨[⟨a.lineNumber, a.location, content⟩], by simp [emit], rfl⟩

/-- Either nothing is added at first, or what comes later does not matter. -/
theorem Starts.trans (h : Starts a x b) (h' : Starts b y c) :
    (b.code.size = a.code.size ∧ b.location = x ∧ Starts a y c) ∨
      (a.code.size < b.code.size ∧ Starts a x c) := by
  obtain ⟨cells, code, first⟩ := h
  obtain ⟨cells', code', first'⟩ := h'
  have both : c.code = a.code ++ (cells ++ cells').toArray := by
    rw [code', code]
    simp
  cases cells with
  | nil =>
    refine .inl ⟨by simp [code], first, cells', ?_, first'⟩
    simpa using both
  | cons cell rest =>
    refine .inr ⟨by simp [code], _, both, ?_⟩
    simpa using first

/-- Without a set counter the next cell goes where the counter stands. -/
theorem Starts.trans_still (h : Starts a a.location b) (h' : Starts b b.location c) :
    Starts a a.location c := by
  rcases h.trans h' with ⟨-, same, later⟩ | ⟨-, kept⟩
  · exact same ▸ later
  · exact kept

theorem starts_operand {d d' : Cursor} {id : ExprId} (read : a.operand d = (id, d', b)) :
    Starts a a.location b := by
  rw [operand_frame read]
  exact starts_of_code rfl rfl

theorem Move.starts {p q : Position} (h : Move refusePool False True p q) :
    Starts p.2 p.2.location q.2 := by
  cases h with
  | skip | note | log | comment | pool | stop => exact starts_of_code rfl rfl
  | label _ a name =>
    simp only [bindLabel, noteIf]
    split
    · exact starts_of_code rfl rfl
    · exact starts_of_code rfl rfl
  | word _ a value => exact starts_emit a _
  | operand read => exact starts_operand read
  | expr read valid => exact (starts_operand read).trans_still (starts_emit _ _)
  | @field a b _ _ id read op masks right code =>
    refine (starts_operand read).trans_still ?_
    simp only [emitField]
    split
    · exact starts_emit b _
    · exact starts_emit { b with exprs := (b.exprs.field op right code id).2 } _
  | value read valid => exact (starts_operand read).trans_still (starts_of_code rfl rfl)
  | origin allowed => exact absurd allowed id
  | @assign a b b' _ _ id read valid value known name _ =>
    obtain rfl : (b.valueNow id).2 = b' := congrArg Prod.snd known
    exact (starts_operand read).trans_still (starts_of_code rfl rfl)
  | stopAt read => exact (starts_operand read).trans_still (starts_of_code rfl rfl)

theorem starts_of_reads {p q : Position} (h : Reads refusePool False True p q) :
    Starts p.2 p.2.location q.2 := by
  induction h with
  | refl => exact starts_of_code rfl rfl
  | tail _ move ih => exact ih.trans_still move.starts

/-- From `a` to `b` the tasks are carried out, and the first new cell is where they lead to. -/
structure Follows (a : Assembly) (ts : List Task) (b : Assembly) : Prop where
  later : ∀ t ∈ ts, a.code.size ≤ t.state.code.size
  starts : Starts a (firstPlace a.code.size a.location ts) b

theorem follows_of_reads {p q : Position} (h : Reads refusePool False True p q) :
    Follows p.2 [] q.2 :=
  ⟨by simp, starts_of_reads h⟩

theorem Follows.trans (h : Follows a ts b) (h' : Follows b ts' c) : Follows a (ts ++ ts') c := by
  have grown : a.code.size ≤ b.code.size := by
    obtain ⟨cells, code, -⟩ := h.starts
    simp [code]
  refine ⟨?_, ?_⟩
  · intro t member
    rcases List.mem_append.mp member with first | second
    · exact h.later t first
    · exact Nat.le_trans grown (h'.later t second)
  · rw [firstPlace_append]
    rcases h.starts.trans h'.starts with ⟨size, location, later⟩ | ⟨more, kept⟩
    · rw [← location, ← size]
      exact later
    · rw [firstPlace_of_still _ fun t member =>
        place_of_later (Nat.lt_of_lt_of_le more (h'.later t member))]
      exact kept

theorem follows_order (e : Cursor) (a : Assembly) :
    Follows a (orderTasks e a) (order refusePool e a).2.2 := by
  cases named : orderDirective? a.dialect e with
  | none =>
    have read : Reads refusePool False True (e, a) (order refusePool e a).2 :=
      reads_order e a fun d e' some => by simp [named] at some
    simp only [orderTasks, named]
    exact follows_of_reads read
  | some found =>
    obtain ⟨d, e'⟩ := found
    have tasks : orderTasks e a = [.direct d e' a] := by
      simp [orderTasks, named]
    rw [tasks]
    refine ⟨by simp [Task.state], ?_⟩
    cases moves : d.movesOrigin with
    | true =>
      rw [order_of_movesOrigin named moves]
      exact starts_of_code (code_origin d e' a) (by simp [firstPlace, Task.place, moves])
    | false =>
      have read : Reads refusePool False True (e, a) (order refusePool e a).2 := by
        refine reads_order e a fun d' e'' some moved => ?_
        rw [named] at some
        cases some
        simp [moves] at moved
      simpa [firstPlace, Task.place, moves] using starts_of_reads read

theorem follows_statement (kind : Line.Kind) (continued : Bool) (e : Cursor) (a : Assembly) :
    Follows a (statementTrace (fun _ _ => []) orderTasks refusePool continued e a)
      (statement refusePool kind continued e a).2 := by
  refine statementTrace_induction Follows Follows.trans ?_ ?_ follows_order kind continued e a
  · intro e a
    exact follows_of_reads (p := (e, a)) (reads_readLabels trivial none e a)
  · intro a d other
    exact follows_of_reads (p := (.ofList [], a)) (.single (.note _ a d other))

theorem starts_literalStatement (id : LiteralId) (a : Assembly) :
    Starts a (literalPlace id a) (literalStatement id a).2 := by
  rw [literalPlace, literalTasks_eq]
  exact (follows_statement .unclassified false (.ofText (a.symbols.literalText id))
    { a with lineNumber := a.poolLines.size + 1 }).starts

/-- The cells of a literal: the first is at the literal's address exactly if that is where its first
word goes. -/
theorem first_literalBody (id : LiteralId) (a : Assembly) :
    ∃ cells : List Cell, (literalBody id a).code = a.code ++ cells.toArray ∧
      ((∃ cell, cells.head? = some cell ∧ cell.location = a.location) ↔
        literalPlace id a = a.location) := by
  obtain ⟨cells, code, first⟩ := starts_literalStatement id a
  simp only [literalBody]
  split
  · next back =>
    refine ⟨cells ++ [⟨(literalStatement id a).2.lineNumber, a.location, .word 0⟩], ?_, ?_⟩
    · simp [emitWord, emit, note, code, back]
    · cases cells with
      | nil => simpa [back] using first.symm
      | cons cell rest => simp [← first]
  · next moved =>
    refine ⟨cells, code, ?_⟩
    cases cells with
    | nil => simpa [← first] using moved
    | cons cell rest => simp [← first]

/-- The literal `k` of `b` was assembled from the state `m` on. -/
structure Assembled (ts : List Task) (b : Assembly) (k : LiteralId) (m : Assembly) : Prop where
  task : .literal k m ∈ ts
  fresh : m.lineCode = []
  address : (b.symbols.literals[k]?.bind Literal.address) = some m.location
  line : b.poolLines[k]? = some (literalLine k m)
  code : ∃ cells : List Cell, b.code = (literalBody k m).code ++ cells.toArray

/-- Literals stay as they are when others are created or placed. -/
theorem Assembled.keep {k : LiteralId} {m : Assembly} (h : Assembled ts b k m)
    (literals : c.symbols.literals[k]? = b.symbols.literals[k]?)
    (lines : c.poolLines[k]? = b.poolLines[k]?)
    (code : ∃ cells : List Cell, c.code = b.code ++ cells.toArray) : Assembled ts c k m := by
  refine ⟨h.task, h.fresh, literals ▸ h.address, lines ▸ h.line, ?_⟩
  obtain ⟨before, code'⟩ := h.code
  obtain ⟨after, code⟩ := code
  exact ⟨before ++ after, by rw [code, code']; simp⟩

/-- Every literal placed on a path was assembled by one of its tasks. -/
theorem Path.assembled (h : Path a ts b) (start : Listed 0 a) {k : Nat}
    (new : a.poolLines.size ≤ k) (placed : k < b.poolLines.size) : ∃ m, Assembled ts b k m := by
  induction h with
  | refl => omega
  | task t _ ih =>
    obtain ⟨m, done⟩ := ih placed
    exact ⟨m, List.mem_append_left _ done.task, done.fresh, done.address, done.line, done.code⟩
  | @move _ p q path step ih =>
    obtain ⟨texts, interned, -⟩ := step.pays
    obtain ⟨cells, added⟩ := emits_of_reads_refusePool (.single step)
    rw [added.poolLines] at placed
    obtain ⟨m, done⟩ := ih placed
    have inside : k < p.2.symbols.literals.size := by
      have count := (path.inOrder start.inOrder).count
      omega
    exact ⟨m, done.keep (interned.getElem? inside) (by rw [added.poolLines]) ⟨_, added.code⟩⟩
  | turn _ _ _ _ _ ih | restart _ ih =>
    obtain ⟨m, done⟩ := ih placed
    exact ⟨m, done.task, done.fresh, done.address, done.line, done.code⟩
  | @place _ id m path task next fresh ih =>
    obtain ⟨number, inside⟩ := path.front start.inOrder task next
    obtain ⟨cells, added⟩ := emits_literalBody id m
    obtain ⟨texts, interned, -⟩ := interns_literalBody id m
    have own : id = (literalBody id m).poolLines.size := by
      rw [added.poolLines, number, Nat.zero_add]
    by_cases last : k = id
    · subst last
      refine ⟨m, task, fresh, ?_, ?_, [], by simp [placeLiteral_eq]⟩
      · simp only [placeLiteral_eq, SymbolTable.literals_place_self, interned.getElem? inside,
          Array.getElem?_eq_getElem inside]
        rfl
      · simp only [placeLiteral_eq, Array.getElem?_push, if_pos own]
    · have before : k < (literalBody id m).poolLines.size := by
        have bound : k < (literalBody id m).poolLines.size + 1 := by
          simpa [placeLiteral_eq] using placed
        exact Nat.lt_of_le_of_ne (Nat.le_of_lt_succ bound) fun same => last (same.trans own.symm)
      obtain ⟨m', done⟩ := ih before
      refine ⟨m', done.keep ?_ ?_ ⟨[], by simp [placeLiteral_eq]⟩⟩
      · simp only [placeLiteral_eq, SymbolTable.literals_place_of_ne _ _ _ last]
      · simp only [placeLiteral_eq, Array.getElem?_push_lt before, Array.getElem?_eq_getElem before]
  | mark _ first count ih =>
    obtain ⟨m, done⟩ := ih placed
    exact ⟨m, done.keep rfl rfl ⟨[⟨0, Int32.ofNat first, .pool first count⟩], by simp⟩⟩

/-- Without origin directives the first word of a literal goes where the literal begins. -/
theorem literalPlace_of_still {k : LiteralId} {m : Assembly}
    (still : ∀ d c b, .direct d c b ∈ literalTasks k m → d.movesOrigin = false) :
    literalPlace k m = m.location := by
  refine firstPlace_of_still _ fun t member x => ?_
  cases t with
  | direct d c b => simp [Task.place, still d c b member]
  | _ => rfl

/-- The first cell of a line is at `address`. -/
def BeginsAt (a : Assembly) (line : Line) (address : Int32) : Prop :=
  ∃ i cell, line.code.head? = some i ∧ a.code[i]? = some cell ∧ cell.location = address

theorem Assembled.beginsAt_iff {k : LiteralId} {m : Assembly} (h : Assembled ts b k m) :
    b.BeginsAt (literalLine k m) m.location ↔ literalPlace k m = m.location := by
  obtain ⟨cells, code, first⟩ := first_literalBody k m
  obtain ⟨cells', added⟩ := emits_literalBody k m
  obtain ⟨after, later⟩ := h.code
  have same : cells' = cells := by
    simpa using congrArg Array.toList (added.code.symm.trans code)
  have positions : (literalLine k m).code = List.range' m.code.size cells.length := by
    rw [literalLine, added.lineCode, h.fresh, same, List.nil_append]
  rw [← first]
  cases cells with
  | nil => simp [BeginsAt, positions]
  | cons cell rest =>
    have found : b.code[m.code.size]? = some cell := by
      rw [later, code]
      simp
    simp [BeginsAt, positions, List.range'_succ, found]

/-- After a first pass every literal has an address and a pool line with its text. The line begins
with a word at that address exactly if no directive in front of the first word has moved the
location counter elsewhere. -/
theorem literal_address_holds_first_word (dialect : Dialect) (source : Source) (k : LiteralId)
    (l : Literal)
    (created : ((init dialect).passOne source).2.symbols.literals[k]? = some l) :
    let a := ((init dialect).passOne source).2
    ∃ m line, .literal k m ∈ passOneTasks source (init dialect) ∧
      l.address = some m.location ∧ a.poolLines[k]? = some line ∧ line.text = l.text ∧
      (a.BeginsAt line m.location ↔ literalPlace k m = m.location) ∧
      ((∀ d c b, .direct d c b ∈ literalTasks k m → d.movesOrigin = false) →
        a.BeginsAt line m.location) := by
  intro a
  have settled : Settled 0 a := (settled_init dialect).passOne source
  have inside : k < a.poolLines.size :=
    settled.size_poolLines ▸ (Array.getElem?_eq_some_iff.mp created).1
  obtain ⟨m, done⟩ := (path_passOne source (settled_init dialect).inOrder).assembled
    (settled_init dialect).toListed (Nat.zero_le k) inside
  have address : l.address = some m.location := by
    simpa [created] using done.address
  have text : (literalLine k m).text = l.text := by
    have named := (settled.lines k _ done.line).2
    simpa [SymbolTable.literalText, SymbolTable.literal?, a, created] using named
  exact ⟨m, literalLine k m, done.task, address, done.line, text, done.beginsAt_iff,
    fun still => done.beginsAt_iff.mpr (literalPlace_of_still still)⟩

theorem literal_before_origin_created :
    ((init .midas).passOne (.ofText "moved" "\tLAC [5?ORG 100?7]")).2.symbols.literals[0]? =
      some ⟨"5?ORG 100?7", some 1, false⟩ := by
  decide +kernel

theorem literal_before_origin_begins :
    let a := ((init .midas).passOne (.ofText "moved" "\tLAC [5?ORG 100?7]")).2
    a.poolLines[0]?.bind (fun line => line.code.head?.bind fun i => a.code[i]?.map Cell.location) =
      some 1 := by
  decide +kernel

/-- A literal that moves the counter behind its first word. -/
theorem literal_address_before_origin :
    let source := Source.ofText "moved" "\tLAC [5?ORG 100?7]"
    let a := ((init .midas).passOne source).2
    a.symbols.literals[0]? = some ⟨"5?ORG 100?7", some 1, false⟩ ∧
      ∃ m line, .literal 0 m ∈ passOneTasks source (init .midas) ∧ m.location = 1 ∧
        a.poolLines[0]? = some line ∧ a.BeginsAt line 1 ∧ literalPlace 0 m = 1 := by
  obtain ⟨m, line, task, address, found, -, holds, -⟩ :=
    literal_address_holds_first_word .midas _ 0 _ literal_before_origin_created
  have place : m.location = 1 := (Option.some.inj address).symm
  rw [place] at holds
  obtain ⟨line', own, begins⟩ := Option.bind_eq_some_iff.mp literal_before_origin_begins
  obtain rfl : line = line' := Option.some.inj (found.symm.trans own)
  obtain ⟨i, first, located⟩ := Option.bind_eq_some_iff.mp begins
  obtain ⟨cell, inside, same⟩ := Option.map_eq_some_iff.mp located
  have holding : BeginsAt _ line 1 := ⟨i, cell, first, inside, same⟩
  exact ⟨literal_before_origin_created, m, line, task, place, found, holding, holds.mp holding⟩

/-- Two literals whose address does not hold their value, and without a diagnostic: one moves the
counter and then has a word, the other has no word at all. -/
theorem literal_address_missed :
    let moved := ((init .midas).passOne (.ofText "moved" "\tLAC [ORG 100?7]")).2
    let reserved := ((init .midas).passOne (.ofText "reserved" "\tLAC [BSS 5]")).2
    moved.symbols.literals = #[⟨"ORG 100?7", some 1, false⟩] ∧
      moved.poolLines.map (fun line => ((moved.cells line).map Cell.location, line.diagnostics)) =
        #[([0o100], [])] ∧
      reserved.symbols.literals = #[⟨"BSS 5", some 1, false⟩] ∧
      reserved.poolLines.map (fun line => (line.code, line.diagnostics)) = #[([], [])] := by
  refine ⟨?_, ?_, ?_, ?_⟩
  · decide +kernel
  · decide +kernel
  · decide +kernel
  · decide +kernel

end Assembly

end Pds1
